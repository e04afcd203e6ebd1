import RegexAutomaton.Proofs.Diagnosis
import RegexAutomaton.Proofs.Extension
import RegexAutomaton.Proofs.Repetition
import RegexAutomaton.Proofs.Stars

namespace RegexAutomaton.Nfa

variable {n sub : Nfa} {start : Nat} {c : Char}

def HasEpsilon (n : Nfa) : Prop :=
  ∃ a b, n.Step a .epsilon b

/-- More than one state accepts. -/
def Several (n : Nfa) : Prop :=
  ∃ q r, q ≠ r ∧ n.Accepting q ∧ n.Accepting r

theorem several_iff : n.Several ↔ 2 ≤ n.acceptingStates.length := by
  have distinct : n.acceptingStates.Nodup :=
    n.acceptingStates_increasing.imp fun below => Nat.ne_of_lt below
  simp only [Several, ← mem_acceptingStates]
  match states : n.acceptingStates with
  | [] => simp
  | [only] => simp +contextual
  | first :: second :: rest =>
      rw [states, List.nodup_cons] at distinct
      have apart : first ≠ second := fun same => distinct.1 (same ▸ List.mem_cons_self)
      exact iff_of_true ⟨first, second, apart, by simp, by simp⟩ (by simp)

/-- Of several accepting states one is kept beside a new one. -/
theorem Several.beside {m : Nfa} {entry exit : Nat} (several : n.Several) (fresh : n.stateCount ≤ exit)
    (accepts : m.Accepting exit) (kept : ∀ q, q ≠ entry → n.Accepting q → m.Accepting q) :
    m.Several := by
  obtain ⟨q, r, apart, first, second⟩ := several
  have below : ∀ {p}, n.Accepting p → p ≠ exit := fun accepting => by
    have := lt_of_accepting accepting
    omega
  by_cases here : q = entry
  · exact ⟨r, exit, below second, kept r (by rwa [← here, ne_comm]) second, accepts⟩
  · exact ⟨q, exit, below first, kept q here first, accepts⟩

theorem Several.mono {m : Nfa} (several : n.Several)
    (kept : ∀ {q}, n.Accepting q → m.Accepting q) : m.Several := by
  obtain ⟨q, r, apart, first, second⟩ := several
  exact ⟨q, r, apart, kept first, kept second⟩

theorem not_several (only : ∀ {q}, n.Accepting q → q = n.current) : ¬ n.Several := by
  intro several
  obtain ⟨q, r, apart, first, second⟩ := several
  exact apart ((only first).trans (only second).symm)

theorem hasEpsilon_extended (wired : n.Wired) : (n.extended c).HasEpsilon ↔ n.HasEpsilon := by
  simp [HasEpsilon, step_extended wired]

theorem several_extended (wired : n.Wired) (several : n.Several) : (n.extended c).Several :=
  several.beside (Nat.le_refl _) ((accepting_extended wired).mpr (.inl rfl))
    fun _ other accepting => (accepting_extended wired).mpr (.inr ⟨other, accepting⟩)

theorem Spliceable.hasEpsilon_spliced (spliceable : Spliceable sub start) (wired : n.Wired) :
    (n.spliced sub start).1.HasEpsilon ↔ n.HasEpsilon ∨ sub.HasEpsilon ∨ sub.Several := by
  simp only [HasEpsilon, spliceable.step_spliced wired, several_iff]
  apply Iff.intro
  · intro present
    obtain ⟨a, b, old | ⟨p, q, step, _⟩ | ⟨several, _⟩⟩ := present
    · exact .inl ⟨a, b, old⟩
    · exact .inr (.inl ⟨p, q, step⟩)
    · exact .inr (.inr several)
  · intro present
    rcases present with ⟨a, b, old⟩ | ⟨p, q, step⟩ | several
    · exact ⟨a, b, .inl old⟩
    · exact ⟨_, _, .inr (.inl ⟨p, q, step, rfl, rfl⟩)⟩
    · obtain ⟨exit, member⟩ := List.exists_mem_of_length_pos (Nat.lt_of_lt_of_le Nat.two_pos several)
      exact ⟨_, _, .inr (.inr ⟨several, List.mem_map_of_mem member, rfl, rfl⟩)⟩

theorem Spliceable.several_spliced (spliceable : Spliceable sub start) (wired : n.Wired)
    (several : n.Several) : (n.spliced sub start).1.Several :=
  several.beside spliceable.exit_fresh ((spliceable.accepting_spliced wired).mpr (.inl rfl))
    fun _ other accepting => (spliceable.accepting_spliced wired).mpr
      (.inr ⟨lt_of_accepting accepting, other, accepting⟩)

end RegexAutomaton.Nfa

namespace RegexAutomaton.Expression.Progress

open Nfa

variable {p : Progress} {pattern content : Pattern} {alternatives : Bool} {stars : Nat}

theorem hasEpsilon_again (sound : p.Sound) (linked : p.nfa.AllLinked) :
    p.again.nfa.HasEpsilon ↔ p.nfa.HasEpsilon := by
  have wired := sound.wired
  apply Iff.intro
  · intro present
    obtain ⟨a, b, step⟩ := present
    rcases again_cases sound with same | ⟨c, into, out, _, oldestIn, oldestOut, looped⟩ |
      ⟨fragment, _, valid, repeated⟩
    · exact ⟨a, b, same ▸ step⟩
    · rw [looped, step_looped wired (wired.oldest_lt oldestIn).1 (wired.oldest_lt oldestOut).2] at step
      exact ⟨a, b, by simpa using step⟩
    · rw [repeated, step_repeated wired valid] at step
      rcases step with old | ⟨_, id, _, t, found, reads, _⟩
      · exact ⟨a, b, old⟩
      · exact ⟨_, _, reads ▸ linked.step found⟩
  · intro present
    obtain ⟨a, b, step⟩ := present
    exact ⟨a, b, (again_widens sound linked).keeps step⟩

theorem hasEpsilon_iterate_again (sound : p.Sound) (linked : p.nfa.AllLinked) (stars : Nat) :
    (again^[stars] p).nfa.HasEpsilon ↔ p.nfa.HasEpsilon :=
  iterate_again_keeps (motive := fun after => after.nfa.HasEpsilon ↔ p.nfa.HasEpsilon) sound linked
    .rfl (fun sound linked same => (hasEpsilon_again sound linked).trans same) stars

theorem several_iterate_again (sound : p.Sound) (linked : p.nfa.AllLinked)
    (once : p.again.nfa.Several) (starred : stars ≠ 0) : (again^[stars] p).nfa.Several := by
  obtain ⟨stars, rfl⟩ := Nat.exists_eq_succ_of_ne_zero starred
  have linked : p.again.nfa.AllLinked := (again_widens sound linked).linked linked
  exact once.mono (iterate_again_widens sound.again linked stars).accepting

/-- The first star on a letter leaves two accepting states: the old end of the path and
the new one. -/
theorem several_of_letter (sound : p.Sound) (linked : p.nfa.AllLinked) (c : Char)
    (starred : stars ≠ 0) : (again^[stars] (p.lettered c)).nfa.Several := by
  have wired := sound.wired
  have kept := wired.extended c
  have entering := oldest?_into_added (c := c) wired
  obtain ⟨into, out, oldestIn, oldestOut, same⟩ :=
    kept.exists_looped (Option.isSome_of_eq_some entering)
  cases entering.symm.trans oldestIn
  have once : (p.lettered c).again.nfa.Several := by
    have accepting : ∀ {r}, (p.lettered c).again.nfa.Accepting r ↔
        r = p.nfa.current ∨ (p.nfa.extended c).Accepting r := by
      intro r
      rw [again_letter rfl]
      exact same ▸ accepting_looped (kept.oldest_lt oldestIn).1 (kept.oldest_lt oldestOut).2
    exact ⟨p.nfa.current, p.nfa.stateCount, Nat.ne_of_lt wired.current_lt, accepting.mpr (.inl rfl),
      accepting.mpr (.inr ((accepting_extended wired).mpr (.inl rfl)))⟩
  exact several_iterate_again (sound.lettered c) (linked.extended wired c) once starred

/-- That on a group leaves the entry accepting beside the exit. -/
theorem several_of_group {sub : Nfa} (sound : p.Sound) (linked : p.nfa.AllLinked)
    (spliceable : Spliceable sub origin) (starred : stars ≠ 0) :
    (again^[stars] (p.grouped sub)).nfa.Several := by
  have wired := sound.wired
  have grouped := sound.grouped spliceable.wired spliceable.attached
  have spliced : (p.grouped sub).nfa = (p.nfa.spliced sub origin).1 := by
    rw [Progress.grouped, attach_spliced spliceable]
  have last : (p.grouped sub).last = some (.group (p.nfa.spliced sub origin).2) := by
    rw [Progress.grouped, attach_spliced spliceable]
  have once : (p.grouped sub).again.nfa.Several := by
    have fresh : p.nfa.stateCount ≤ (p.nfa.spliced sub origin).1.current := spliceable.exit_fresh
    have entry_lt := wired.current_lt
    have accepting : ∀ {r}, (p.grouped sub).again.nfa.Accepting r ↔
        r = p.nfa.current ∨ (p.nfa.spliced sub origin).1.Accepting r := by
      intro r
      rw [again_group last, accepting_repeated grouped.wired (grouped.repeatable _ last), spliced]
      rfl
    exact ⟨p.nfa.current, (p.nfa.spliced sub origin).1.current, by omega, accepting.mpr (.inl rfl),
      accepting.mpr (.inr ((spliceable.accepting_spliced wired).mpr (.inl rfl)))⟩
  have linked : (p.grouped sub).nfa.AllLinked := by
    rw [spliced]
    exact linked.spliced wired spliceable
  exact several_iterate_again grouped linked once starred

theorem linked_through (bars : alternatives = false → pattern.hasBar = false) :
    (through pattern (opened alternatives)).nfa.AllLinked :=
  (tidy_through pattern bars).rooted.linked

theorem grouped_silent (silent : content.silent = true) (p : Progress) :
    (p.grouped (compiled content)).nfa = p.nfa :=
  attach_silent silent p.nfa

theorem grouped_loud (loud : content.silent = false) (p : Progress) :
    (p.grouped (compiled content)).nfa = (p.nfa.spliced (compiled content) origin).1 := by
  rw [grouped, attach_spliced (spliceable_compiled loud)]

theorem linked_grouped (sound : p.Sound) (linked : p.nfa.AllLinked) (content : Pattern) :
    (p.grouped (compiled content)).nfa.AllLinked := by
  cases quiet : content.silent with
  | true =>
      rw [grouped_silent quiet]
      exact linked
  | false =>
      rw [grouped_loud quiet]
      exact linked.spliced sound.wired (spliceable_compiled quiet)

theorem sound_grouped (sound : p.Sound) (content : Pattern) : (p.grouped (compiled content)).Sound :=
  sound.grouped (compiled_wired content) (compiled_start content)

theorem grouped_widens (sound : p.Sound) (linked : p.nfa.AllLinked) (content : Pattern) (stars : Nat) :
    Widens (p.grouped (compiled content)).nfa (again^[stars] (p.grouped (compiled content))).nfa :=
  iterate_again_widens (sound_grouped sound content) (linked_grouped sound linked content) stars

theorem trace_of_silent (sound : p.Sound) (silent : content.silent = true) (stars : Nat) :
    (again^[stars] (p.grouped (compiled content))).nfa.current = p.nfa.current ∧
      (∀ {a s b}, (again^[stars] (p.grouped (compiled content))).nfa.Step a s b ↔
        p.nfa.Step a s b) ∧
      ∀ {r}, (again^[stars] (p.grouped (compiled content))).nfa.Accepting r ↔
        stars ≠ 0 ∧ r = p.nfa.current ∨ p.nfa.Accepting r := by
  have idle : ((compiled content).stateAt origin).outgoing = [] := by
    obtain ⟨accepting, lone⟩ := compiled_silent silent
    rw [lone]
    exact lone_stuck accepting origin
  exact trace_of_idle sound (compiled_wired content) (compiled_start content) idle stars

theorem several_through (bars : pattern.hasBar = false) (repeats : pattern.repeatsOutside = true) :
    (through pattern (opened false)).nfa.Several := by
  induction pattern with
  | empty => cases repeats
  | letter before c valid stars ih =>
      have sound := through_sound before _ (.opened false)
      have linked : (through before (opened false)).nfa.AllLinked := linked_through fun _ => bars
      simp only [Pattern.repeatsOutside, Bool.or_eq_true, bne_iff_ne] at repeats
      rcases repeats with earlier | starred
      · exact (several_extended sound.wired (ih bars earlier)).mono
          (iterate_again_widens (sound.lettered c) (linked.extended sound.wired c) stars).accepting
      · exact several_of_letter sound linked c starred
  | group before content stars ih _ =>
      have sound := through_sound before _ (.opened false)
      have linked : (through before (opened false)).nfa.AllLinked := linked_through fun _ => bars
      have widens := grouped_widens sound linked content stars
      simp only [Pattern.repeatsOutside, Bool.or_eq_true, Bool.and_eq_true, bne_iff_ne] at repeats
      cases quiet : content.silent with
      | true =>
          rw [grouped_silent quiet] at widens
          rcases repeats with earlier | ⟨_, lettered⟩
          · exact (ih bars earlier).mono widens.accepting
          · simp [(Pattern.nothing_of_silent quiet).1] at lettered
      | false =>
          have spliceable := spliceable_compiled quiet
          rw [grouped_loud quiet] at widens
          rcases repeats with earlier | ⟨starred, _⟩
          · exact (spliceable.several_spliced sound.wired (ih bars earlier)).mono widens.accepting
          · exact several_of_group sound linked spliceable starred
  | bar => cases bars

/-- Without such a star, only the end of the path accepts, if anything does. -/
theorem accepting_through (bars : pattern.hasBars = false)
    (once : pattern.repeatsOutside = false) {r : Nat}
    (accepting : (through pattern (opened false)).nfa.Accepting r) :
    r = (through pattern (opened false)).nfa.current := by
  induction pattern generalizing r with
  | empty => exact absurd accepting (new_rejects r)
  | letter before c valid stars ih =>
      have sound := through_sound before _ (.opened false)
      simp only [Pattern.repeatsOutside, Bool.or_eq_false_iff, bne_eq_false_iff_eq] at once
      obtain ⟨earlier, rfl⟩ := once
      rcases (accepting_extended sound.wired).mp accepting with rfl | ⟨other, old⟩
      · exact current_extended.symm
      · exact absurd (ih bars earlier old) other
  | group before content stars ih _ =>
      have sound := through_sound before _ (.opened false)
      simp only [Pattern.hasBars, Bool.or_eq_false_iff] at bars
      simp only [Pattern.repeatsOutside, Bool.or_eq_false_iff, Bool.and_eq_false_iff,
        bne_eq_false_iff_eq] at once
      cases quiet : content.silent with
      | true =>
          obtain ⟨here, _, accepts⟩ := trace_of_silent sound quiet stars
          refine Eq.trans ?_ here.symm
          rcases accepts.mp accepting with ⟨_, same⟩ | old
          · exact same
          · exact ih bars.1 once.1 old
      | false =>
          have spliceable := spliceable_compiled quiet
          obtain rfl : stars = 0 := by simpa [Pattern.word_of_loud quiet bars.2] using once.2
          have spliced := grouped_loud quiet (through before (opened false))
          show r = ((through before (opened false)).grouped (compiled content)).nfa.current
          have accepting : ((through before (opened false)).grouped (compiled content)).nfa.Accepting r :=
            accepting
          rw [spliced] at accepting ⊢
          rcases (spliceable.accepting_spliced sound.wired).mp accepting with here | ⟨_, other, old⟩
          · exact here
          · exact absurd (ih bars.1 once.1 old) other
  | bar => cases bars

theorem several_compiled (bars : pattern.hasBars = false) :
    (compiled pattern).Several ↔ pattern.repeatsOutside = true := by
  have single := Pattern.hasBar_of_hasBars bars
  rw [compiled_of_single single]
  refine ⟨fun several => ?_, several_through single⟩
  by_contra once
  exact not_several (accepting_through bars (by simpa using once)) several

/-- An outer bar is a bar, and the end of an alternative adds no step. -/
theorem hasEpsilon_closed
    (present : (through pattern (opened pattern.hasBar)).nfa.HasEpsilon ↔
      pattern.hasBar = true ∨ pattern.hasBars = true ∨ pattern.repeatsInside = true) :
    (compiled pattern).HasEpsilon ↔ pattern.hasBars = true ∨ pattern.repeatsInside = true := by
  have alone := through_sound pattern _ (.opened pattern.hasBar)
  have deeper : pattern.hasBars = false → pattern.hasBar = false := Pattern.hasBar_of_hasBars
  have closed : (compiled pattern).HasEpsilon ↔ _ :=
    (exists_congr fun _ => exists_congr fun _ => step_closed alone).trans present
  rw [closed]
  grind

theorem hasEpsilon_through (pattern : Pattern) (bars : alternatives = false → pattern.hasBar = false) :
    (through pattern (opened alternatives)).nfa.HasEpsilon ↔
      alternatives = true ∨ pattern.hasBars = true ∨ pattern.repeatsInside = true := by
  induction pattern generalizing alternatives with
  | empty =>
      cases alternatives with
      | true =>
          have added : (Nfa.new.branched origin).Step origin .epsilon Nfa.new.stateCount :=
            (step_branched .new (by decide)).mpr (.inr ⟨rfl, rfl, rfl⟩)
          exact iff_of_true ⟨_, _, added⟩ (.inl rfl)
      | false =>
          refine iff_of_false (fun present => ?_) (by simp [Pattern.hasBars, Pattern.repeatsInside])
          obtain ⟨a, b, step⟩ := present
          exact new_stuck a .epsilon b step
  | letter before c valid stars ih =>
      have sound := through_sound before _ (.opened alternatives)
      have linked : (through before (opened alternatives)).nfa.AllLinked := linked_through bars
      exact (hasEpsilon_iterate_again (sound.lettered c) (linked.extended sound.wired c) stars).trans
        ((hasEpsilon_extended sound.wired).trans (ih bars))
  | group before content stars ih inside =>
      have sound := through_sound before _ (.opened alternatives)
      have linked : (through before (opened alternatives)).nfa.AllLinked := linked_through bars
      have outer : (through before (opened alternatives)).nfa.HasEpsilon ↔ _ := ih bars
      have inner := hasEpsilon_closed (inside id)
      refine (hasEpsilon_iterate_again (sound_grouped sound content)
        (linked_grouped sound linked content) stars).trans ?_
      simp only [Pattern.hasBars, Pattern.repeatsInside, Bool.or_eq_true]
      cases quiet : content.silent with
      | true =>
          obtain ⟨_, noBars, outside, within⟩ := Pattern.nothing_of_silent quiet
          rw [grouped_silent quiet, outer]
          simp [noBars, outside, within]
      | false =>
          rw [grouped_loud quiet, (spliceable_compiled quiet).hasEpsilon_spliced sound.wired, outer,
            inner]
          cases bars : content.hasBars with
          | true => simp
          | false =>
              rw [several_compiled bars]
              grind
  | bar before ih =>
      cases alternatives with
      | false => cases bars rfl
      | true =>
          have earlier : Tidy true before (through before (opened true)) := tidy_through before (by simp)
          have wired := closed_wired earlier.sound
          have origin_lt := wired.start_lt ((closed_start _).trans earlier.sound.attached)
          have added : (through (.bar before) (opened true)).nfa.Step origin .epsilon _ :=
            (step_branched wired origin_lt).mpr (.inr ⟨rfl, rfl, rfl⟩)
          exact iff_of_true ⟨_, _, added⟩ (.inl rfl)

theorem hasEpsilon_compiled (pattern : Pattern) : (compiled pattern).HasEpsilon ↔
    pattern.hasBars = true ∨ pattern.repeatsInside = true :=
  hasEpsilon_closed (hasEpsilon_through pattern id)

end RegexAutomaton.Expression.Progress

namespace RegexAutomaton.Expression

open Nfa Progress

/-- All states can be reached, so an epsilon is reported wherever it stands. -/
theorem containsEpsilon_compiled (p : Pattern) : ∃ contains,
    (compiled p).containsEpsilon = .ok contains ∧
      (contains = true ↔ p.hasBars = true ∨ p.repeatsInside = true) := by
  have wired := compiled_wired p
  have rooted := compiled_rooted p
  refine ⟨_, containsEpsilon_eq wired.walkable, ?_⟩
  rw [(walked_breadthFirst wired.walkable (compiled_start p)).hasEpsilon_iff wired.walkable,
    ← hasEpsilon_compiled]
  exact exists_congr fun q => exists_congr fun r =>
    and_iff_right_of_imp fun step => rooted.reached q (wired.step_lt step).1

/-- A compiled automaton contains epsilons exactly if the expression has a bar, or a star
in parentheses that repeats something with a letter. -/
theorem compile_containsEpsilon {e : String} {n : Nfa} (done : (compile e).outcome = .ok n) :
    ∃ contains, n.containsEpsilon = .ok contains ∧ (contains = true ↔
      '|' ∈ e.toList ∨ ∃ atom, RepeatsInside e.toList atom ∧ HasLetter atom) := by
  obtain ⟨p, unique, rfl⟩ := reading_exists done
  rw [← (unique p).mpr rfl, p.hasBars_text, p.repeatsInside_text]
  exact containsEpsilon_compiled p

/-- One star of the first expression is in parentheses and repeats letters. Those of the
second are outside, or repeat parentheses only. -/
theorem compile_containsEpsilon_of_stars :
    (∃ n, (compile "a*(b(cd)*)()*").outcome = .ok n ∧ n.containsEpsilon = .ok true) ∧
    ∃ n, (compile "(()*a)*b*").outcome = .ok n ∧ n.containsEpsilon = .ok false ∧
      ¬ ∃ atom, RepeatsInside "(()*a)*b*".toList atom ∧ HasLetter atom := by
  let p : Pattern := .group (.group (.letter .empty 'a' rfl 1) (.group (.letter .empty 'b' rfl 0)
    (.letter (.letter .empty 'c' rfl 0) 'd' rfl 0) 1) 0) .empty 1
  let q : Pattern := .letter (.group .empty (.letter (.group .empty .empty 1) 'a' rfl 0) 1) 'b' rfl 1
  have done : (compile "a*(b(cd)*)()*").outcome = .ok (compiled p) :=
    compile_of_text (by decide) rfl
  have done' : (compile "(()*a)*b*").outcome = .ok (compiled q) := compile_of_text (by decide) rfl
  obtain ⟨contains, reported, epsilons⟩ := compile_containsEpsilon done
  obtain ⟨contains', reported', epsilons'⟩ := compile_containsEpsilon done'
  have inside : RepeatsInside "a*(b(cd)*)()*".toList "(cd)".toList :=
    ⟨['a', '*'], "b(cd)*".toList, "()*".toList, by decide, by decide,
      .inr ⟨['c', 'd'], by decide, by decide⟩, ['b'], 0, [], by decide⟩
  have silent : (compiled q).containsEpsilon = .ok false := by decide +kernel
  obtain rfl : contains = true := epsilons.mpr (.inr ⟨_, inside, by decide⟩)
  cases reported'.symm.trans silent
  exact ⟨⟨_, done, reported⟩, _, done', silent, fun present => by cases epsilons'.mpr (.inr present)⟩

end RegexAutomaton.Expression
