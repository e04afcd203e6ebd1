import RegexAutomaton.Proofs.Extension
import RegexAutomaton.Proofs.Repetition

namespace RegexAutomaton.Expression

open Nfa

variable {p after : Progress} {pattern more before content t : Pattern} {c : Char}
  {valid : isLetter c = true} {stars : Nat} {word : List Char}

namespace Pattern

/-- The same factors, without their stars. -/
def unstarred : Pattern → Pattern
  | empty => empty
  | letter before c valid _ => letter before.unstarred c valid 0
  | group before content _ => group before.unstarred content.unstarred 0
  | bar before => bar before.unstarred

/-- No letter carries two stars. -/
def OneStar : Pattern → Prop
  | empty => True
  | letter before _ _ stars => before.OneStar ∧ stars ≤ 1
  | group before content _ => before.OneStar ∧ content.OneStar
  | bar before => before.OneStar

theorem text_unstarred (t : Pattern) : t.unstarred.text = t.text.filter (· != '*') := by
  induction t with
  | empty => rfl
  | letter before c valid stars ih =>
      simp [unstarred, text, ih, (ne_brackets_of_isLetter valid).2.2.1]
  | group before content stars ih inside => simp [unstarred, text, ih, inside]
  | bar before ih => simp [unstarred, text, ih]

theorem languages_unstarred_le (t : Pattern) : t.unstarred.languages.1 ≤ t.plusLanguages.1 ∧
    t.unstarred.languages.2 ≤ t.plusLanguages.2 := by
  induction t with
  | empty => exact ⟨le_rfl, le_rfl⟩
  | letter before c valid stars ih => exact ⟨ih.1, mul_le_mul' ih.2 (le_passed stars _)⟩
  | group before content stars ih inside =>
      exact ⟨ih.1, mul_le_mul' ih.2 ((add_le_add inside.1 inside.2).trans (le_passed stars _))⟩
  | bar before ih => exact ⟨add_le_add ih.1 ih.2, le_rfl⟩

theorem language_unstarred_le (t : Pattern) : t.unstarred.language ≤ t.plusLanguage :=
  add_le_add (languages_unstarred_le t).1 (languages_unstarred_le t).2

theorem languages_unstarred_of_silent (silent : t.silent = true) :
    t.unstarred.languages = (0, 1) := by
  induction t with
  | empty => rfl
  | letter | bar => cases silent
  | group before content stars ih inside =>
      simp only [Pattern.silent, Bool.and_eq_true] at silent
      simp [unstarred, languages, starred, ih silent.1, inside silent.2]

theorem languages_lastAlternative (t : Pattern) :
    t.lastAlternative.unstarred.languages.2 = t.unstarred.languages.2 := by
  induction t with
  | empty | bar => rfl
  | letter before c valid stars ih | group before content stars ih =>
      simp only [lastAlternative, unstarred, languages, ih]

theorem exists_closedAlternative (member : word ∈ t.unstarred.languages.1) :
    ∃ u ∈ t.closedAlternatives, word ∈ u.unstarred.languages.2 := by
  induction t with
  | empty => exact member.elim
  | letter before c valid stars ih | group before content stars ih => exact ih member
  | bar before ih =>
      rw [closedAlternatives]
      rcases member with earlier | last
      · obtain ⟨u, listed, spoken⟩ := ih earlier
        exact ⟨u, List.mem_append_left _ listed, spoken⟩
      · rw [← languages_lastAlternative] at last
        exact ⟨_, List.mem_append_right _ List.mem_cons_self, last⟩

end Pattern

namespace Progress

/-- The first star on a letter leads where the oldest edge with this letter leads. -/
theorem current_again_lettered (sound : p.Sound) (c : Char) :
    (p.lettered c).again.nfa.current =
      ((p.nfa.oldest? (.char c) (p.nfa.stateAt p.nfa.current).outgoing).map (·.target)).getD
        p.nfa.stateCount := by
  rw [again_letter rfl, lettered, repeatedLetter_extended sound.wired]
  rfl

theorem current_again_group (sub : Nfa) (k : Nat) :
    (again^[k + 1] (p.grouped sub)).nfa.current = (again^[k] (p.grouped sub)).nfa.current := by
  have last : (again^[k] (p.grouped sub)).last = some (.group (attach p.nfa sub).2) :=
    iterate_again_last _ k
  rw [Function.iterate_succ_apply', again_group last]
  simp [Nfa.repeated]

theorem current_grouped (sub : Nfa) (stars : Nat) :
    (again^[stars] (p.grouped sub)).nfa.current = (p.grouped sub).nfa.current := by
  induction stars with
  | zero => rfl
  | succ stars ih => rw [current_again_group, ih]

/-- The words of the alternative without its stars lead to the end of the path. They lead to an
accepting state as well, which may be another one if a star has moved this end. -/
structure Threads (pattern : Pattern) (p : Progress) : Prop where
  leads : pattern.unstarred.languages.2 ≤ words p.nfa.Step origin p.nfa.current
  accepts : pattern.lastSilent = false → ∀ word ∈ pattern.unstarred.languages.2,
    ∃ q, p.nfa.Accepting q ∧ word ∈ words p.nfa.Step origin q

theorem threads_opened : Threads .empty (opened false) where
  leads := by
    intro word member
    obtain rfl := (Language.mem_one word).mp member
    exact .nil origin
  accepts := nofun

namespace Threads

variable (threads : Threads pattern p)

include threads

theorem factor {factor : Language Char}
    (spoken : more.unstarred.languages.2 = pattern.unstarred.languages.2 * factor)
    (keeps : ∀ {a s b}, p.nfa.Step a s b → after.nfa.Step a s b)
    (leads : factor ≤ words after.nfa.Step p.nfa.current after.nfa.current)
    (accepts : ∀ word ∈ factor, ∃ q, after.nfa.Accepting q ∧
      word ∈ words after.nfa.Step p.nfa.current q) : Threads more after where
  leads := by
    rw [spoken]
    intro word member
    obtain ⟨first, path, last, through, rfl⟩ := member
    exact (Spells.mono keeps (threads.leads path)).append (leads through)
  accepts := by
    intro _ word member
    rw [spoken] at member
    obtain ⟨first, path, last, through, rfl⟩ := member
    obtain ⟨q, accepting, spells⟩ := accepts last through
    exact ⟨q, accepting, (Spells.mono keeps (threads.leads path)).append spells⟩

theorem letter (sound : p.Sound) (linked : (p.lettered c).nfa.AllLinked) (few : stars ≤ 1) :
    Threads (.letter pattern c valid stars) (again^[stars] (p.lettered c)) := by
  have widens := iterate_again_widens (sound.lettered c) linked stars
  have keeps : ∀ {a s b}, p.nfa.Step a s b → (again^[stars] (p.lettered c)).nfa.Step a s b :=
    fun old => widens.keeps ((step_extended sound.wired).mpr (.inl old))
  have edge : (again^[stars] (p.lettered c)).nfa.Step p.nfa.current (.char c) p.nfa.stateCount :=
    widens.keeps ((step_extended sound.wired).mpr (.inr ⟨rfl, rfl, rfl⟩))
  refine threads.factor rfl keeps ?_ ?_
  · intro word member
    obtain rfl := member
    apply Spells.of_step (s := .char c)
    cases stars with
    | zero => exact edge
    | succ stars =>
        -- The star leads where the oldest edge leads, which starts where the new one does.
        obtain rfl : stars = 0 := by omega
        rw [Function.iterate_one] at edge keeps ⊢
        rw [current_again_lettered sound]
        cases oldest : p.nfa.oldest? (.char c) (p.nfa.stateAt p.nfa.current).outgoing with
        | none => exact edge
        | some out => exact keeps (Wired.step_leaving oldest)
  · intro word member
    obtain rfl := member
    exact ⟨p.nfa.stateCount, widens.accepting ((accepting_extended sound.wired).mpr (.inl rfl)),
      Spells.of_step (s := .char c) edge⟩

theorem loudGroup (sound : p.Sound)
    (linked : (p.grouped (compiled content)).nfa.AllLinked) (loud : content.silent = false)
    (inside : content.unstarred.language ≤ (compiled content).language) :
    Threads (.group pattern content stars) (again^[stars] (p.grouped (compiled content))) := by
  have spliceable := spliceable_compiled loud
  have grouped := sound.grouped (compiled_wired content) (compiled_start content)
  have widens := iterate_again_widens grouped linked stars
  have spliced : (p.grouped (compiled content)).nfa =
      (p.nfa.spliced (compiled content) origin).1 := by
    rw [Progress.grouped, attach_spliced spliceable]
  have exit := current_grouped (p := p) (compiled content) stars
  rw [spliced] at widens exit
  have leads : content.unstarred.language ≤
      words (again^[stars] (p.grouped (compiled content))).nfa.Step p.nfa.current
        (p.nfa.spliced (compiled content) origin).1.current := by
    refine inside.trans ?_
    rw [← words_groupSteps spliceable sound.wired]
    intro word spells
    exact Spells.mono (fun step =>
      widens.keeps ((spliceable.step_spliced sound.wired).mpr (.inr step))) spells
  refine threads.factor rfl (fun old =>
    widens.keeps ((spliceable.step_spliced sound.wired).mpr (.inl old))) ?_ ?_
  · rw [exit]
    exact leads
  · intro word member
    exact ⟨_, widens.accepting ((spliceable.accepting_spliced sound.wired).mpr (.inl rfl)),
      leads member⟩

/-- A silent group leaves no trace. -/
theorem silentGroup (sound : p.Sound)
    (linked : (p.grouped (compiled content)).nfa.AllLinked) (silent : content.silent = true) :
    Threads (.group pattern content stars) (again^[stars] (p.grouped (compiled content))) := by
  have same : (p.grouped (compiled content)).nfa = p.nfa := attach_silent silent p.nfa
  have grouped := sound.grouped (compiled_wired content) (compiled_start content)
  have widens := iterate_again_widens grouped linked stars
  have current := current_grouped (p := p) (compiled content) stars
  rw [same] at widens current
  have spoken : (Pattern.group pattern content stars).unstarred.languages.2 =
      pattern.unstarred.languages.2 := by
    simp [Pattern.unstarred, Pattern.languages, Pattern.starred,
      Pattern.languages_unstarred_of_silent silent]
  exact {
    leads := by
      rw [spoken, current]
      exact fun word member => Spells.mono widens.keeps (threads.leads member)
    accepts := by
      rw [spoken]
      intro loud word member
      simp only [Pattern.lastSilent, silent, Bool.and_true] at loud
      obtain ⟨q, accepting, spells⟩ := threads.accepts loud word member
      exact ⟨q, widens.accepting accepting, Spells.mono widens.keeps spells⟩ }

end Threads

theorem acceptsFrom_ended (single : t.hasBar = false)
    (threads : Threads t (through t (opened false)))
    (member : word ∈ t.unstarred.languages.2) : (ended t).AcceptsFrom origin word := by
  rw [ended]
  split
  · rename_i silent
    rw [Pattern.languages_unstarred_of_silent silent] at member
    exact acceptsFrom_lone.mpr ((Language.mem_one word).mp member)
  · rename_i loud
    have last : t.lastSilent = false := by simpa [Pattern.silent_eq, single] using loud
    obtain ⟨q, accepting, spells⟩ := threads.accepts last word member
    obtain ⟨symbols, path, spelled⟩ := spells_iff_path.mp spells
    rw [compiled_of_single single]
    exact ⟨symbols, q, path, spelled, accepting⟩

theorem language_unstarred_le_of_threads (loud : t.silent = false)
    (last : Threads t.lastAlternative (through t.lastAlternative (opened false)))
    (closed : ∀ u ∈ t.closedAlternatives, ∀ word ∈ u.unstarred.languages.2,
      (ended u).AcceptsFrom origin word) :
    t.unstarred.language ≤ (compiled t).language := by
  intro word member
  apply (mem_language_compiled loud).mpr
  rcases member with earlier | spoken
  · obtain ⟨u, listed, spoken⟩ := Pattern.exists_closedAlternative earlier
    exact ⟨u, List.mem_append_left _ listed, closed u listed word spoken⟩
  · rw [← Pattern.languages_lastAlternative] at spoken
    exact ⟨_, List.mem_append_right _ List.mem_cons_self,
      acceptsFrom_ended t.hasBar_lastAlternative last spoken⟩

theorem threads_through (one : pattern.OneStar) :
    Threads pattern.lastAlternative (through pattern.lastAlternative (opened false)) ∧
      ∀ u ∈ pattern.closedAlternatives, ∀ word ∈ u.unstarred.languages.2,
        (ended u).AcceptsFrom origin word := by
  induction pattern with
  | empty => exact ⟨threads_opened, by simp [Pattern.closedAlternatives]⟩
  | letter before c valid stars ih =>
      obtain ⟨last, closed⟩ := ih one.1
      have sound := through_sound before.lastAlternative _ (.opened false)
      have tidy : Tidy false (.letter before.lastAlternative c valid 0)
          ((through before.lastAlternative (opened false)).lettered c) :=
        tidy_through _ fun _ => before.hasBar_lastAlternative
      exact ⟨last.letter sound tidy.rooted.linked one.2, closed⟩
  | group before content stars ih inside =>
      obtain ⟨last, closed⟩ := ih one.1
      obtain ⟨innerLast, innerClosed⟩ := inside one.2
      have sound := through_sound before.lastAlternative _ (.opened false)
      have tidy : Tidy false (.group before.lastAlternative content 0)
          ((through before.lastAlternative (opened false)).grouped (compiled content)) :=
        tidy_through _ fun _ => before.hasBar_lastAlternative
      refine ⟨?_, closed⟩
      cases quiet : content.silent with
      | true => exact last.silentGroup sound tidy.rooted.linked quiet
      | false =>
          exact last.loudGroup sound tidy.rooted.linked quiet
            (language_unstarred_le_of_threads quiet innerLast innerClosed)
  | bar before ih =>
      obtain ⟨last, closed⟩ := ih one
      refine ⟨threads_opened, fun u listed => ?_⟩
      rw [Pattern.closedAlternatives, List.mem_append, List.mem_singleton] at listed
      rcases listed with earlier | rfl
      · exact closed u earlier
      · exact fun word => acceptsFrom_ended before.hasBar_lastAlternative last

/-- Wherever the stars move the end of the path, the words of the pattern without its stars are
accepted, unless a letter carries two. -/
theorem language_unstarred_le_compiled (one : t.OneStar) (loud : t.silent = false) :
    t.unstarred.language ≤ (compiled t).language := by
  obtain ⟨last, closed⟩ := threads_through one
  exact language_unstarred_le_of_threads loud last closed

end Progress

end RegexAutomaton.Expression
