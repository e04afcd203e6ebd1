import RegexAutomaton.Proofs.Epsilons

namespace RegexAutomaton.Nfa

open Expression.Progress (origin)

variable {n sub : Nfa} {word more : List Char} {i : Nat}

/-- The states follow each other with the letters of the word. -/
structure Line (n : Nfa) (word : List Char) : Prop where
  stateCount_eq : n.stateCount = word.length + 1
  current_eq : n.current = word.length
  step_iff {a : Nat} {s : Symbol} {b : Nat} :
    n.Step a s b ↔ ∃ c, word[a]? = some c ∧ s = .char c ∧ b = a + 1

/-- The place in the host behind so many letters of a line. -/
def along (n : Nfa) : Nat → Nat
  | 0 => n.current
  | i + 1 => n.stateCount + i

def lineSteps (n : Nfa) (word : List Char) : Steps := fun a s b =>
  ∃ i c, word[i]? = some c ∧ a = n.along i ∧ s = .char c ∧ b = n.along (i + 1)

def lineCopies (n : Nfa) (word : List Char) (s : Symbol) (b : Nat) : Prop :=
  ∃ c, word.head? = some c ∧ s = .char c ∧ b = n.stateCount

theorem placeIn_origin : placeIn n origin i = n.along i := by
  cases i with
  | zero => exact placeIn_start
  | succ i =>
      have other : i + 1 ≠ origin := Nat.succ_ne_zero i
      have beyond : ¬ i + 1 < origin := Nat.not_lt_zero _
      rw [placeIn, image, if_neg other, if_neg beyond]
      rfl

theorem along_injective (wired : n.Wired) {j : Nat} (same : n.along i = n.along j) : i = j := by
  rw [← placeIn_origin, ← placeIn_origin] at same
  exact placeIn_injective wired same

namespace Line

theorem new : Line .new [] where
  stateCount_eq := rfl
  current_eq := rfl
  step_iff := by
    intro a s b
    simp [new_stuck]

theorem extended (line : Line n word) (wired : n.Wired) (c : Char) :
    Line (n.extended c) (word ++ [c]) where
  stateCount_eq := by simp [line.stateCount_eq]
  current_eq := by simp [line.stateCount_eq]
  step_iff := by
    intro a s b
    rw [step_extended wired, line.step_iff, line.current_eq, line.stateCount_eq]
    rcases Nat.lt_trichotomy a word.length with below | rfl | above
    · simp [List.getElem?_append_left below, Nat.ne_of_lt below]
    · simp
    · have none : word[a]? = none := List.getElem?_eq_none (by omega)
      have none' : (word ++ [c])[a]? = Option.none := List.getElem?_eq_none (by simp; omega)
      simp [none, none', Nat.ne_of_gt above]

variable (line : Line sub word)

include line

theorem groupSteps_eq (only : ∀ {q}, sub.Accepting q → q = sub.current) :
    groupSteps n sub origin = lineSteps n word := by
  have single := not_several only
  rw [several_iff] at single
  funext a s b
  simp only [groupSteps, placedSteps, single, false_and, or_false, line.step_iff, placeIn_origin,
    lineSteps]
  grind

theorem groupCopies_eq : groupCopies n sub origin = lineCopies n word := by
  have next : n.along (origin + 1) = n.stateCount := rfl
  funext s b
  simp only [groupCopies, lineCopies, line.step_iff, placeIn_origin, List.head?_eq_getElem?,
    eq_iff_iff]
  apply Iff.intro
  · intro copy
    obtain ⟨q, ⟨c, first, reads, rfl⟩, rfl⟩ := copy
    exact ⟨c, first, reads, next⟩
  · intro copy
    obtain ⟨c, first, reads, rfl⟩ := copy
    exact ⟨_, ⟨c, first, reads, rfl⟩, next.symm⟩

variable (only : ∀ {q}, sub.Accepting q → q = sub.current) (spliceable : Spliceable sub origin)

include only spliceable

theorem spliced_facts : (n.spliced sub origin).1.current = n.along word.length ∧
    (n.spliced sub origin).1.stateCount = n.stateCount + word.length := by
  obtain ⟨q, _, accepting⟩ := spliceable.ends
  rcases spliced_cases n origin ⟨q, accepting⟩ with ⟨exit, single, result⟩ | ⟨several, _⟩
  · have last : exit = word.length := by
      rw [← line.current_eq]
      exact only (mem_acceptingStates.mp (by simp [single]))
    rw [result]
    refine ⟨?_, ?_⟩
    · rw [last]
      exact placeIn_origin
    · rw [stateCount_current, stateCount_imported spliceable.start_lt, line.stateCount_eq]
      rfl
  · exact absurd (several_iff.mpr several) (not_several only)

/-- A line behind a line is a line. -/
theorem append (host : Line n more) (wired : n.Wired) :
    Line (n.spliced sub origin).1 (more ++ word) := by
  have along (i : Nat) : n.along i = more.length + i := by
    cases i with
    | zero => exact host.current_eq
    | succ i => rw [Nfa.along, host.stateCount_eq, Nat.add_assoc, Nat.add_comm 1 i]
  obtain ⟨current, count⟩ := line.spliced_facts only spliceable (n := n)
  exact {
    stateCount_eq := by rw [count, host.stateCount_eq, List.length_append, Nat.add_right_comm]
    current_eq := by rw [current, along, List.length_append]
    step_iff := by
      intro a s b
      rw [spliceable.step_spliced wired, line.groupSteps_eq only, host.step_iff]
      simp only [lineSteps, along]
      by_cases early : a < more.length
      · rw [List.getElem?_append_left early]
        refine or_iff_left fun inside => ?_
        obtain ⟨i, _, _, rfl, _⟩ := inside
        omega
      · obtain ⟨i, rfl⟩ := Nat.exists_eq_add_of_le (Nat.le_of_not_lt early)
        rw [List.getElem?_append_right (Nat.le_add_right _ i), Nat.add_sub_cancel_left,
          List.getElem?_eq_none (Nat.le_add_right _ i)]
        simp [Nat.add_assoc] }

end Line

end RegexAutomaton.Nfa

namespace RegexAutomaton.Expression.Progress

open Nfa

variable {pattern content : Pattern}

theorem only_compiled (bars : content.hasBars = false) (outside : content.repeatsOutside = false)
    {q : Nat} (accepting : (compiled content).Accepting q) : q = (compiled content).current := by
  rw [compiled_of_single (Pattern.hasBar_of_hasBars bars)] at accepting ⊢
  exact accepting_through bars outside accepting

theorem line_through (bars : pattern.hasBars = false) (outside : pattern.repeatsOutside = false)
    (inside : pattern.repeatsInside = false) :
    Line (through pattern (opened false)).nfa pattern.word := by
  induction pattern with
  | empty => exact .new
  | letter before c valid stars ih =>
      simp only [Pattern.repeatsOutside, Bool.or_eq_false_iff, bne_eq_false_iff_eq] at outside
      obtain ⟨earlier, rfl⟩ := outside
      exact (ih bars earlier inside).extended (through_sound before _ (.opened false)).wired c
  | group before content stars ih within =>
      have sound := through_sound before _ (.opened false)
      simp only [Pattern.hasBars, Bool.or_eq_false_iff] at bars
      simp only [Pattern.repeatsInside, Bool.or_eq_false_iff] at inside
      simp only [Pattern.repeatsOutside, Bool.or_eq_false_iff, Bool.and_eq_false_iff,
        bne_eq_false_iff_eq] at outside
      have host : Line (through before (opened false)).nfa before.word :=
        ih bars.1 outside.1 inside.1.1
      cases quiet : content.silent with
      | true =>
          have linked : (through before (opened false)).nfa.AllLinked :=
            linked_through fun _ => Pattern.hasBar_of_hasBars bars.1
          have widens := grouped_widens sound linked content stars
          obtain ⟨here, steps, _⟩ := trace_of_silent sound quiet stars
          rw [grouped_silent quiet] at widens
          rw [Pattern.word, (Pattern.nothing_of_silent quiet).1, List.append_nil]
          exact {
            stateCount_eq := widens.stateCount_eq.trans host.stateCount_eq
            current_eq := here.trans host.current_eq
            step_iff := steps.trans host.step_iff }
      | false =>
          obtain rfl : stars = 0 := by simpa [Pattern.word_of_loud quiet bars.2] using outside.2
          have line : Line (compiled content) content.word := by
            rw [compiled_of_single (Pattern.hasBar_of_hasBars bars.2)]
            exact within bars.2 inside.1.2 inside.2
          have spliced := line.append (only_compiled bars.2 inside.1.2) (spliceable_compiled quiet)
            host sound.wired
          rwa [← grouped_loud quiet] at spliced
  | bar => cases bars

theorem line_compiled (bars : content.hasBars = false) (outside : content.repeatsOutside = false)
    (inside : content.repeatsInside = false) : Line (compiled content) content.word := by
  rw [compiled_of_single (Pattern.hasBar_of_hasBars bars)]
  exact line_through bars outside inside

end RegexAutomaton.Expression.Progress
