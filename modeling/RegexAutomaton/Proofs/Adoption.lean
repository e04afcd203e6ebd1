import RegexAutomaton.Nfa.Splice
import RegexAutomaton.Proofs.Connections

namespace RegexAutomaton.Nfa

variable {n sub : Nfa} {start base entry p q r a b id : Nat} {s : Symbol} {t : Transition}
  {list : List (Nat × Transition)} {place : Nat → Nat}

@[simp] theorem image_start : image base entry start start = entry := by
  simp [image]

theorem image_fresh (other : p ≠ start) : base ≤ image base entry start p := by
  rw [image]
  split
  · contradiction
  · split <;> omega

theorem image_lt {count : Nat} (entry_lt : entry < base) (start_lt : start < count)
    (inRange : p < count) : image base entry start p < base + (count - 1) := by
  rw [image]
  split
  · omega
  · split <;> omega

theorem image_injective (entry_lt : entry < base)
    (same : image base entry start p = image base entry start q) : p = q := by
  grind [image]

@[simp] theorem stateCount_addCopies (states : Array State) :
    (n.addCopies states).stateCount = n.stateCount + states.size := by
  simp [addCopies, stateCount]

theorem stateAt_addCopies (states : Array State) :
    (n.addCopies states).stateAt r =
      if r < n.stateCount then n.stateAt r
      else { accepting := (states[r - n.stateCount]?.getD {}).accepting } := by
  simp only [stateAt, addCopies, stateCount, Array.getElem?_append]
  by_cases old : r < n.states.size
  · simp only [old, ↓reduceIte]
  · simp only [old, ↓reduceIte, Array.getElem?_map]
    cases states[r - n.states.size]? <;> rfl

/-- `n` with the states of `sub`, unlinked, and the acceptance of its start. -/
def adopted (n sub : Nfa) (start : Nat) : Nfa :=
  ((n.addCopies (sub.states.take start)).marked n.current
    (sub.stateAt start).accepting).addCopies (sub.states.drop (start + 1))

theorem adoptStates_eq (current_lt : n.current < n.stateCount) (start_lt : start < sub.stateCount) :
    n.adoptStates sub start = .ok (n.adopted sub start) := by
  simp only [adoptStates, state_eq start_lt, ok_bind]
  rw [show (n.addCopies (sub.states.take start)).current = n.current from rfl,
    setAccepting_eq (by rw [stateCount_addCopies]; omega)]
  rfl

theorem stateCount_adopted (start_lt : start < sub.stateCount) :
    (n.adopted sub start).stateCount = n.stateCount + (sub.stateCount - 1) := by
  have size : start < sub.states.size := start_lt
  simp only [adopted, stateCount_addCopies, stateCount_marked, Array.take_eq_extract,
    Array.drop_eq_extract, Array.size_extract]
  unfold stateCount
  omega

@[simp] theorem transitions_adopted : (n.adopted sub start).transitions = n.transitions := rfl

@[simp] theorem start_adopted : (n.adopted sub start).start = n.start := rfl

@[simp] theorem current_adopted : (n.adopted sub start).current = n.current := rfl

theorem stateAt_adopted (current_lt : n.current < n.stateCount) (start_lt : start < sub.stateCount) :
    (n.adopted sub start).stateAt r =
      if r < n.stateCount then
        if r = n.current then (n.stateAt r).setAccepting (sub.stateAt start).accepting
        else n.stateAt r
      else
        { accepting := (sub.stateAt (if r - n.stateCount < start then r - n.stateCount
            else r - n.stateCount + 1)).accepting } := by
  have size : start < sub.states.size := start_lt
  have front : (n.addCopies (sub.states.take start)).stateCount = n.stateCount + start := by
    rw [stateCount_addCopies, Array.take_eq_extract, Array.size_extract,
      Nat.min_eq_left (Nat.le_of_lt size), Nat.sub_zero]
  rw [adopted, stateAt_addCopies, stateCount_marked, front, stateAt_marked (by omega),
    stateAt_addCopies, stateAt_addCopies, if_pos current_lt]
  by_cases old : r < n.stateCount
  · simp only [old, ↓reduceIte, show r < n.stateCount + start by omega]
    split <;> simp_all
  · have other : r ≠ n.current := by omega
    simp only [old, other, ↓reduceIte]
    by_cases before : r - n.stateCount < start
    · rw [if_pos (by omega), if_pos before]
      simp only [stateAt, Array.take_eq_extract, Array.getElem?_extract, Nat.zero_add]
      rw [if_pos (by omega)]
    · rw [if_neg (by omega), if_neg before]
      have index : start + 1 + (r - (n.stateCount + start)) = r - n.stateCount + 1 := by omega
      simp only [stateAt, Array.drop_eq_extract, Array.getElem?_extract, index]
      split
      · rfl
      · rw [Array.getElem?_eq_none (by omega)]

/-- Adoption overwrites the acceptance of the current state. -/
theorem adopted_marked (current_lt : n.current < n.stateCount) (start_lt : start < sub.stateCount)
    (accepting : Bool) :
    (n.marked n.current accepting).adopted sub start = n.adopted sub start := by
  apply eq_of_stateAt
  · rw [stateCount_adopted start_lt, stateCount_adopted start_lt, stateCount_marked]
  · intro q
    rw [stateAt_adopted (by simpa using current_lt) start_lt, stateAt_adopted current_lt start_lt,
      stateAt_marked current_lt, stateCount_marked, current_marked]
    split
    · split
      · simp [State.setAccepting, *]
      · rfl
    · rfl
  · simp
  · simp
  · simp

theorem outgoing_adopted (current_lt : n.current < n.stateCount)
    (start_lt : start < sub.stateCount) :
    ((n.adopted sub start).stateAt r).outgoing = (n.stateAt r).outgoing := by
  rw [stateAt_adopted current_lt start_lt]
  by_cases old : r < n.stateCount
  · rw [if_pos old]
    split <;> rfl
  · rw [if_neg old, stateAt_beyond (Nat.le_of_not_lt old)]

theorem incoming_adopted (current_lt : n.current < n.stateCount)
    (start_lt : start < sub.stateCount) :
    ((n.adopted sub start).stateAt r).incoming = (n.stateAt r).incoming := by
  rw [stateAt_adopted current_lt start_lt]
  by_cases old : r < n.stateCount
  · rw [if_pos old]
    split <;> rfl
  · rw [if_neg old, stateAt_beyond (Nat.le_of_not_lt old)]

/-- The images accept what their originals do, and the other states of the host
what they did before. -/
theorem accepting_adopted (current_lt : n.current < n.stateCount)
    (start_lt : start < sub.stateCount) :
    (n.adopted sub start).Accepting r ↔
      (∃ p, sub.Accepting p ∧ r = image n.stateCount n.current start p) ∨
        (r < n.stateCount ∧ r ≠ n.current ∧ n.Accepting r) := by
  simp only [accepting_iff]
  rw [stateAt_adopted current_lt start_lt]
  by_cases old : r < n.stateCount
  · by_cases same : r = n.current
    · subst same
      simp only [current_lt, ↓reduceIte, State.setAccepting, ne_eq, not_true, false_and, and_false,
        or_false]
      apply Iff.intro
      · exact fun accepting => ⟨start, accepting, by simp⟩
      · intro original
        obtain ⟨p, accepting, place⟩ := original
        by_cases first : p = start
        · rwa [← first]
        · have fresh : n.stateCount ≤ image n.stateCount n.current start p := image_fresh first
          omega
    · simp only [old, same, ↓reduceIte, ne_eq, not_false_eq_true, true_and]
      apply Iff.intro
      · exact .inr
      · intro accepts
        rcases accepts with ⟨p, _, place⟩ | accepting
        · by_cases first : p = start
          · subst first
            exact absurd (place.trans image_start) same
          · have fresh : n.stateCount ≤ image n.stateCount n.current start p := image_fresh first
            omega
        · exact accepting
  · simp only [old, ↓reduceIte, false_and, or_false]
    apply Iff.intro
    · intro accepting
      refine ⟨_, accepting, ?_⟩
      grind [image]
    · intro original
      obtain ⟨p, accepting, place⟩ := original
      have first : p ≠ start := by
        intro same
        subst same
        rw [image_start] at place
        omega
      have index : (if r - n.stateCount < start then r - n.stateCount else r - n.stateCount + 1) =
          p := by
        grind [image]
      rwa [index]

theorem Wired.adopted (wired : n.Wired) (start_lt : start < sub.stateCount) :
    (n.adopted sub start).Wired where
  start_lt attached := by
    have := wired.start_lt attached
    rw [stateCount_adopted start_lt]
    omega
  current_lt := by
    have := wired.current_lt
    rw [stateCount_adopted start_lt, current_adopted]
    omega
  endpoints_lt found := by
    have := wired.endpoints_lt found
    rw [stateCount_adopted start_lt]
    omega
  outgoing_source listed :=
    wired.outgoing_source (by rwa [outgoing_adopted wired.current_lt start_lt] at listed)
  incoming_target listed :=
    wired.incoming_target (by rwa [incoming_adopted wired.current_lt start_lt] at listed)
  outgoing_increasing q := by
    rw [outgoing_adopted wired.current_lt start_lt]
    exact wired.outgoing_increasing q
  incoming_increasing q := by
    rw [incoming_adopted wired.current_lt start_lt]
    exact wired.incoming_increasing q
  mirrored found := by
    rw [outgoing_adopted wired.current_lt start_lt, incoming_adopted wired.current_lt start_lt]
    exact wired.mirrored found

theorem step_adopted (current_lt : n.current < n.stateCount) (start_lt : start < sub.stateCount) :
    (n.adopted sub start).Step a s b ↔ n.Step a s b := by
  simp [step_iff, outgoing_adopted current_lt start_lt]

end RegexAutomaton.Nfa
