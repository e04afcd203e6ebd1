import RegexAutomaton.Proofs.Groups
import RegexAutomaton.Proofs.Reading

namespace RegexAutomaton.Expression.Progress

open Nfa

variable {p after : Progress} {pattern before content : Pattern} {alternatives : Bool}
  {stars q r : Nat} {s : Symbol} {c : Char} {word : List Char}

/-- The first state of the open alternative. -/
def entry (p : Progress) : Nat :=
  p.alternative.getD origin

/-- What is known of the progress made by reading a pattern. The words on the paths to the
current state, and those accepted elsewhere, are the two languages that the pattern is said to
have. Where the start and the current state can be left matters when the automaton is spliced
or a letter repeated. -/
structure Follows (alternatives : Bool) (pattern : Pattern) (p : Progress) : Prop where
  sound : p.Sound
  several : p.alternative.isSome = alternatives
  unreached (a : Nat) (s : Symbol) : ¬ p.nfa.Step a s origin
  path : words p.nfa.Step origin p.nfa.current = pattern.said.2
  stopped (word : List Char) : word ∈ pattern.said.1 ↔
    ∃ q, q ≠ p.nfa.current ∧ p.nfa.Accepting q ∧ word ∈ words p.nfa.Step origin q
  at_entry : p.nfa.current = p.entry ↔ pattern.lastSilent = true
  accepting : pattern.lastSilent = false → p.nfa.Accepting p.nfa.current
  starred : alternatives = false → pattern.silent = true →
    (p.nfa.Accepting p.nfa.current ↔ pattern.hasOuterStar = true)
  moved : alternatives = true → p.nfa.current ≠ origin
  leads : (∃ s b, p.nfa.Step origin s b) ↔ alternatives = true ∨ pattern.silent = false
  heads (c : Char) : (∃ r, p.nfa.Step origin (.char c) r) ↔
    alternatives = false ∧ pattern.heads c = true
  loops (c : Char) : (∃ r, p.nfa.Step p.nfa.current (.char c) r) ↔ pattern.loops c = true
  looping {s : Symbol} {r : Nat} : p.nfa.Step p.nfa.current s r →
    ∃ q, q ≠ p.nfa.current ∧ p.nfa.Accepting q

namespace Follows

variable (follows : Follows alternatives pattern p)

include follows

theorem entry_lt : p.entry < p.nfa.stateCount := by
  rw [entry]
  cases opened : p.alternative with
  | none => exact follows.sound.origin_lt
  | some entry => exact follows.sound.alternative_lt entry opened

theorem entry_eq (single : alternatives = false) : p.entry = origin := by
  have none : p.alternative = none := by simpa [single] using follows.several
  simp [entry, none]

/-- The current state is the start only as long as nothing has left a trace. -/
theorem at_origin (bars : alternatives = false → pattern.hasBar = false) :
    p.nfa.current = origin ↔ alternatives = false ∧ pattern.silent = true := by
  cases kind : alternatives with
  | true => simpa using follows.moved kind
  | false =>
      rw [← follows.entry_eq kind, follows.at_entry, Pattern.silent_eq, bars kind]
      simp

theorem factor {inner : Steps} {copies : Symbol → Nat → Prop} (first : Char → Bool)
    {more : Pattern} (bars : alternatives = false → pattern.hasBar = false)
    (sound : after.Sound) (alternative : after.alternative = p.alternative)
    (factor : Factor p.nfa after.nfa inner copies stars)
    (begins : ∃ s b, inner p.nfa.current s b)
    (starts : ∀ c, (∃ b, copies (.char c) b) ↔ first c = true)
    (adds : pattern.Adds more stars (words inner p.nfa.current after.nfa.current) first) :
    Follows alternatives more after := by
  have wired := follows.sound.wired
  have origin_lt := follows.sound.origin_lt
  have fresh := factor.exit_fresh
  exact {
    sound
    several := by rw [alternative, follows.several]
    unreached := by
      intro a s step
      rcases factor.step_iff.mp step with old | inside | ⟨_, _, copy⟩
      · exact follows.unreached a s old
      · have bound := factor.target inside
        omega
      · have bound := factor.target (factor.copied copy)
        omega
    path := by rw [factor.words_exit wired origin_lt, follows.path, adds.said]
    stopped := by
      intro word
      rw [factor.accepted_elsewhere wired, adds.said, Language.mem_add, follows.stopped,
        follows.path]
      refine or_congr Iff.rfl ?_
      rw [Pattern.skipped]
      split <;> simp [*]
    at_entry := by
      have known := follows.entry_lt
      rw [adds.lastSilent]
      simp only [entry, alternative] at known ⊢
      simp only [Bool.false_eq_true, iff_false]
      omega
    accepting := fun _ => factor.accepting_iff.mpr (.inl rfl)
    starred := fun _ silent => by simp [adds.silent] at silent
    moved := fun _ => by omega
    leads := by
      refine ⟨fun _ => .inr adds.silent, fun _ => ?_⟩
      by_cases here : p.nfa.current = origin
      · obtain ⟨s, b, inside⟩ := begins
        exact ⟨s, b, factor.step_iff.mpr (.inr (.inl (here ▸ inside)))⟩
      · have led : alternatives = true ∨ pattern.silent = false := by
          by_contra none
          exact here ((follows.at_origin bars).mpr (by simpa using none))
        obtain ⟨s, b, old⟩ := follows.leads.mpr led
        exact ⟨s, b, factor.step_iff.mpr (.inl old)⟩
    heads := by
      intro c
      rw [adds.heads]
      apply Iff.intro
      · intro leaves
        obtain ⟨r, step⟩ := leaves
        rcases factor.step_iff.mp step with old | inside | ⟨_, same, _⟩
        · obtain ⟨single, head⟩ := (follows.heads c).mp ⟨r, old⟩
          have loud : pattern.silent = false := by
            simpa [single] using follows.leads.mp ⟨_, _, old⟩
          exact ⟨single, by simpa [loud] using head⟩
        · have here : origin = p.nfa.current := by
            rcases (factor.source inside).1 with same | beyond
            · exact same
            · omega
          obtain ⟨single, silent⟩ := (follows.at_origin bars).mp here.symm
          refine ⟨single, ?_⟩
          rcases factor.covered (here ▸ inside) with copy | ⟨reads, _⟩
          · simpa [silent] using (starts c).mp ⟨r, copy⟩
          · cases reads
        · omega
      · intro begun
        obtain ⟨single, head⟩ := begun
        cases quiet : pattern.silent with
        | true =>
            have here := (follows.at_origin bars).mpr ⟨single, quiet⟩
            obtain ⟨b, copy⟩ := (starts c).mpr (by simpa [quiet] using head)
            exact ⟨b, factor.step_iff.mpr (.inr (.inl (here ▸ factor.copied copy)))⟩
        | false =>
            obtain ⟨r, old⟩ := (follows.heads c).mpr ⟨single, by simpa [quiet] using head⟩
            exact ⟨r, factor.step_iff.mpr (.inl old)⟩
    loops := by
      intro c
      simp only [factor.step_exit wired, exists_and_left, starts, adds.loops, Bool.and_eq_true,
        bne_iff_ne]
    looping := by
      intro s r step
      obtain ⟨starred, _⟩ := (factor.step_exit wired).mp step
      have current_lt := wired.current_lt
      exact ⟨p.nfa.current, by omega, factor.accepting_iff.mpr (.inr (.inl ⟨starred, rfl⟩))⟩ }

end Follows

theorem factor_letter (sound : p.Sound) (c : Char) (stars : Nat)
    (fresh : stars ≠ 0 → ∀ r, ¬ p.nfa.Step p.nfa.current (.char c) r) :
    (again^[stars] (p.lettered c)).nfa.current = p.nfa.stateCount ∧
      Factor p.nfa (again^[stars] (p.lettered c)).nfa (letterSteps p.nfa c)
        (letterCopies p.nfa c) stars := by
  induction stars with
  | zero => exact ⟨rfl, Factor.letter sound.wired c⟩
  | succ stars ih =>
      have fresh := fresh (Nat.succ_ne_zero stars)
      obtain ⟨exit, factor⟩ := ih fun _ => fresh
      have kept := ((sound.lettered c).iterate_again stars).wired
      have last : (again^[stars] (p.lettered c)).last = some (.letter c) := by
        simp [iterate_again_last, lettered]
      rw [Function.iterate_succ_apply', again_letter last]
      exact factor.repeatLetter sound.wired kept exit fresh

theorem Follows.letter (follows : Follows alternatives pattern p)
    (bars : alternatives = false → pattern.hasBar = false) (c : Char)
    (valid : isLetter c = true) (stars : Nat) (fresh : stars ≠ 0 → pattern.loops c = false) :
    Follows alternatives (.letter pattern c valid stars) (again^[stars] (p.lettered c)) := by
  obtain ⟨exit, factor⟩ := factor_letter follows.sound c stars fun starred r step =>
    Bool.false_ne_true ((fresh starred).symm.trans ((follows.loops c).mp ⟨r, step⟩))
  have alternative : (again^[stars] (p.lettered c)).alternative = p.alternative := by
    rw [iterate_again_alternative, lettered_alternative]
  refine follows.factor (c == ·) bars ((follows.sound.lettered c).iterate_again stars)
    alternative factor ⟨_, _, rfl, rfl, rfl⟩ ?_ ?_
  · intro d
    simp only [letterCopies, Symbol.char.injEq, exists_and_left, exists_eq, and_true, beq_iff_eq]
    exact eq_comm
  · rw [exit, words_letterSteps follows.sound.wired]
    exact Pattern.adds_letter pattern c valid stars

/-- An automaton that leads somewhere is not passed over. -/
theorem attach_spliced {sub : Nfa} (spliceable : Spliceable sub origin) (n : Nfa) :
    attach n sub = n.spliced sub origin := by
  obtain ⟨s, b, step⟩ := spliceable.leads
  rw [attach, if_neg (outgoing_ne_nil step)]

theorem factor_group {sub : Nfa} (sound : p.Sound) (attachable : Attachable sub origin)
    (stars : Nat) :
    (again^[stars] (p.grouped sub)).nfa.current = (p.nfa.spliced sub origin).1.current ∧
      EdgesAre (again^[stars] (p.grouped sub)).nfa (p.nfa.spliced sub origin).2.edges
        (groupCopies p.nfa sub origin) ∧
      Factor p.nfa (again^[stars] (p.grouped sub)).nfa (groupSteps p.nfa sub origin)
        (groupCopies p.nfa sub origin) stars := by
  induction stars with
  | zero =>
      rw [Function.iterate_zero_apply, grouped, attach_spliced attachable.toSpliceable]
      exact ⟨rfl, edgesAre_spliced attachable.wired, Factor.group attachable sound.wired⟩
  | succ stars ih =>
      obtain ⟨exit, edges, factor⟩ := ih
      have kept := (sound.grouped attachable.wired attachable.attached).iterate_again stars
      have last : (again^[stars] (p.grouped sub)).last =
          some (.group (p.nfa.spliced sub origin).2) := by
        rw [iterate_again_last, grouped, attach_spliced attachable.toSpliceable]
      have valid := kept.repeatable _ last
      rw [Function.iterate_succ_apply', again_group last]
      refine ⟨?_, edges.repeated valid, factor.repeatFragment kept.wired valid rfl exit.symm edges⟩
      rw [← exit]
      simp [Nfa.repeated]

theorem Follows.loudGroup {sub : Nfa} (follows : Follows alternatives pattern p)
    (bars : alternatives = false → pattern.hasBar = false) (attachable : Attachable sub origin)
    (language : sub.language = content.said.1 + content.said.2)
    (heads : ∀ c, (∃ r, sub.Step origin (.char c) r) ↔ content.heads c = true)
    (loud : content.silent = false) (stars : Nat) :
    Follows alternatives (.group pattern content stars) (again^[stars] (p.grouped sub)) := by
  obtain ⟨exit, _, factor⟩ := factor_group follows.sound attachable stars
  have sound := follows.sound.grouped attachable.wired attachable.attached
  obtain ⟨s, b, step⟩ := attachable.leads
  refine follows.factor content.heads bars (sound.iterate_again stars)
    (iterate_again_alternative _ stars) factor
    ⟨s, _, .inl ⟨origin, b, step, placeIn_start.symm, rfl⟩⟩ ?_ ?_
  · intro c
    rw [← heads]
    exact ⟨fun ⟨_, q, step, _⟩ => ⟨q, step⟩, fun ⟨q, step⟩ => ⟨_, q, step, rfl⟩⟩
  · rw [exit, words_groupSteps attachable.toSpliceable follows.sound.wired, language]
    exact Pattern.adds_group pattern loud stars

/-- An automaton without steps leaves no trace, but a star makes the current
state accepting. -/
theorem trace_of_idle {sub : Nfa} (sound : p.Sound) (subWired : sub.Wired)
    (attached : sub.start = some origin) (idle : (sub.stateAt origin).outgoing = [])
    (stars : Nat) :
    (again^[stars] (p.grouped sub)).nfa.current = p.nfa.current ∧
      (∀ {a s b}, (again^[stars] (p.grouped sub)).nfa.Step a s b ↔ p.nfa.Step a s b) ∧
      ∀ {r}, (again^[stars] (p.grouped sub)).nfa.Accepting r ↔
        stars ≠ 0 ∧ r = p.nfa.current ∨ p.nfa.Accepting r := by
  have attach : attach p.nfa sub = (p.nfa, ⟨p.nfa.current, p.nfa.current, []⟩) := by
    rw [attach, if_pos idle]
  induction stars with
  | zero => simp [grouped, attach]
  | succ stars ih =>
      obtain ⟨current, step, accepting⟩ := ih
      have kept := (sound.grouped subWired attached).iterate_again stars
      have last : (again^[stars] (p.grouped sub)).last =
          some (.group ⟨p.nfa.current, p.nfa.current, []⟩) := by
        rw [iterate_again_last, grouped, attach]
      have valid := kept.repeatable _ last
      rw [Function.iterate_succ_apply', again_group last]
      refine ⟨?_, ?_, ?_⟩
      · simpa [Nfa.repeated] using current
      · intro a s b
        simp [step_repeated kept.wired valid, step]
      · intro r
        rw [accepting_repeated kept.wired valid, accepting]
        grind

theorem Follows.silentGroup {sub : Nfa} (follows : Follows alternatives pattern p)
    (subWired : sub.Wired) (attached : sub.start = some origin)
    (idle : (sub.stateAt origin).outgoing = []) (silent : content.silent = true) (stars : Nat) :
    Follows alternatives (.group pattern content stars) (again^[stars] (p.grouped sub)) := by
  obtain ⟨current, step, accepting⟩ := trace_of_idle follows.sound subWired attached idle stars
  have alternative : (again^[stars] (p.grouped sub)).alternative = p.alternative :=
    iterate_again_alternative _ stars
  have same : (again^[stars] (p.grouped sub)).nfa.Step = p.nfa.Step := by
    funext a s b
    exact propext step
  have said : (Pattern.group pattern content stars).said = pattern.said := by
    simp [Pattern.said, silent]
  have lastSilent : (Pattern.group pattern content stars).lastSilent = pattern.lastSilent := by
    simp [Pattern.lastSilent, silent]
  exact {
    sound := (follows.sound.grouped subWired attached).iterate_again stars
    several := by rw [alternative, follows.several]
    unreached := by simpa only [same] using follows.unreached
    path := by simpa only [same, current, said] using follows.path
    stopped := by
      intro word
      rw [said, follows.stopped, same, current]
      refine exists_congr fun q => and_congr_right fun other => ?_
      simp [accepting, other]
    at_entry := by
      rw [current, entry, alternative, lastSilent]
      exact follows.at_entry
    accepting := fun loud => by
      rw [current]
      exact accepting.mpr (.inr (follows.accepting (lastSilent ▸ loud)))
    starred := fun single quiet => by
      have before : pattern.silent = true := by simpa [Pattern.silent, silent] using quiet
      rw [current, accepting, follows.starred single before]
      simp [Pattern.hasOuterStar, or_comm]
    moved := by simpa only [current] using follows.moved
    leads := by
      rw [same, follows.leads]
      simp [Pattern.silent, silent]
    heads := by
      intro c
      rw [same, follows.heads, Pattern.heads, Pattern.heads_of_silent silent]
      split
      · rw [Pattern.heads_of_silent ‹_›]
      · rfl
    loops := by
      intro c
      rw [same, current, follows.loops]
      simp [Pattern.loops, silent]
    looping := by
      intro s r move
      rw [same, current] at move
      obtain ⟨q, other, accepted⟩ := follows.looping move
      exact ⟨q, by rwa [current], accepting.mpr (.inr accepted)⟩ }

end RegexAutomaton.Expression.Progress
