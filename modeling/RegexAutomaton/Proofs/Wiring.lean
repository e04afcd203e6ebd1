import RegexAutomaton.Proofs.Arena

namespace RegexAutomaton.Nfa

/-- Consistency, said of the total view of the arenas. -/
structure Wired (n : Nfa) : Prop where
  start_lt {q : Nat} : n.start = some q → q < n.stateCount
  current_lt : n.current < n.stateCount
  endpoints_lt {id : Nat} {t : Transition} : n.transitions[id]? = some t →
    t.source < n.stateCount ∧ t.target < n.stateCount
  outgoing_source {q id : Nat} : id ∈ (n.stateAt q).outgoing →
    ∃ t, n.transitions[id]? = some t ∧ t.source = q
  incoming_target {q id : Nat} : id ∈ (n.stateAt q).incoming →
    ∃ t, n.transitions[id]? = some t ∧ t.target = q
  outgoing_increasing (q : Nat) : (n.stateAt q).outgoing.Pairwise (· < ·)
  incoming_increasing (q : Nat) : (n.stateAt q).incoming.Pairwise (· < ·)
  mirrored {id : Nat} {t : Transition} : n.transitions[id]? = some t →
    (id ∈ (n.stateAt t.source).outgoing ↔ id ∈ (n.stateAt t.target).incoming)

variable {n : Nfa} {q r a b id source target : Nat} {symbol s : Symbol} {t : Transition}

theorem Wired.consistent (wired : n.Wired) : n.Consistent where
  start_lt _ attached := wired.start_lt attached
  current_lt := wired.current_lt
  endpoints_lt t member := by
    obtain ⟨id, found⟩ := Array.mem_iff_getElem?.mp member
    exact wired.endpoints_lt found
  outgoing_source q s found id listed := by
    rw [← stateAt_of_getElem? found] at listed
    exact wired.outgoing_source listed
  incoming_target q s found id listed := by
    rw [← stateAt_of_getElem? found] at listed
    exact wired.incoming_target listed
  increasing s member := by
    obtain ⟨q, found⟩ := Array.mem_iff_getElem?.mp member
    rw [← stateAt_of_getElem? found]
    exact ⟨wired.outgoing_increasing q, wired.incoming_increasing q⟩
  mirrored id t found := by
    rw [linkedOut_iff, linkedIn_iff]
    exact wired.mirrored found

/-- A list of a state that does not exist has no members. -/
private theorem exists_of_listed (list : State → List Nat) (empty : list {} = [])
    (listed : id ∈ list (n.stateAt q)) : ∃ s, n.states[q]? = some s ∧ id ∈ list s := by
  by_cases inRange : q < n.stateCount
  · exact ⟨_, getElem?_states inRange, listed⟩
  · simp [stateAt_beyond (Nat.le_of_not_lt inRange), empty] at listed

theorem Consistent.wired (consistent : n.Consistent) : n.Wired where
  start_lt attached := consistent.start_lt _ attached
  current_lt := consistent.current_lt
  endpoints_lt found := consistent.endpoints_lt _ (Array.mem_of_getElem? found)
  outgoing_source listed := by
    obtain ⟨s, found, listed⟩ := exists_of_listed State.outgoing rfl listed
    exact consistent.outgoing_source _ s found _ listed
  incoming_target listed := by
    obtain ⟨s, found, listed⟩ := exists_of_listed State.incoming rfl listed
    exact consistent.incoming_target _ s found _ listed
  outgoing_increasing q := by
    by_cases inRange : q < n.stateCount
    · exact (consistent.increasing _ (Array.mem_of_getElem? (getElem?_states inRange))).1
    · simp [stateAt_beyond (Nat.le_of_not_lt inRange)]
  incoming_increasing q := by
    by_cases inRange : q < n.stateCount
    · exact (consistent.increasing _ (Array.mem_of_getElem? (getElem?_states inRange))).2
    · simp [stateAt_beyond (Nat.le_of_not_lt inRange)]
  mirrored found := by
    rw [← linkedOut_iff, ← linkedIn_iff]
    exact consistent.mirrored _ _ found

namespace Wired

theorem outgoing_lt (wired : n.Wired) (listed : id ∈ (n.stateAt q).outgoing) :
    id < n.transitions.size := by
  obtain ⟨t, found, _⟩ := wired.outgoing_source listed
  exact (Array.getElem?_eq_some_iff.mp found).1

theorem incoming_lt (wired : n.Wired) (listed : id ∈ (n.stateAt q).incoming) :
    id < n.transitions.size := by
  obtain ⟨t, found, _⟩ := wired.incoming_target listed
  exact (Array.getElem?_eq_some_iff.mp found).1

theorem new : (Nfa.new).Wired :=
  consistent_new.wired

theorem grown (wired : n.Wired) : n.grown.Wired where
  start_lt attached := by
    rw [stateCount_grown]
    exact Nat.lt_succ_of_lt (wired.start_lt attached)
  current_lt := by
    rw [stateCount_grown]
    exact Nat.lt_succ_of_lt wired.current_lt
  endpoints_lt found := by
    have inRange := wired.endpoints_lt found
    rw [stateCount_grown]
    omega
  outgoing_source listed := wired.outgoing_source (by simpa using listed)
  incoming_target listed := wired.incoming_target (by simpa using listed)
  outgoing_increasing q := by simpa using wired.outgoing_increasing q
  incoming_increasing q := by simpa using wired.incoming_increasing q
  mirrored found := by simpa using wired.mirrored found

theorem marked (wired : n.Wired) (inRange : q < n.stateCount) (accepting : Bool) :
    (n.marked q accepting).Wired where
  start_lt attached := by simpa using wired.start_lt attached
  current_lt := by simpa using wired.current_lt
  endpoints_lt found := by simpa using wired.endpoints_lt found
  outgoing_source listed := wired.outgoing_source (by rwa [marked_outgoing inRange] at listed)
  incoming_target listed := wired.incoming_target (by rwa [marked_incoming inRange] at listed)
  outgoing_increasing r := by
    rw [marked_outgoing inRange]
    exact wired.outgoing_increasing r
  incoming_increasing r := by
    rw [marked_incoming inRange]
    exact wired.incoming_increasing r
  mirrored found := by
    rw [marked_outgoing inRange, marked_incoming inRange]
    exact wired.mirrored found

theorem withCurrent (wired : n.Wired) (inRange : q < n.stateCount) :
    { n with current := q }.Wired :=
  { wired with current_lt := inRange }

theorem detached (wired : n.Wired) : { n with start := none }.Wired :=
  { wired with start_lt := by simp }

private theorem increasing_append {list : List Nat} (increasing : list.Pairwise (· < ·))
    (below : ∀ id ∈ list, id < r) (last : Prop) [Decidable last] :
    (list ++ if last then [r] else []).Pairwise (· < ·) := by
  split
  · simpa [List.pairwise_append, increasing] using below
  · simpa using increasing

theorem connected (wired : n.Wired) (source_lt : source < n.stateCount)
    (target_lt : target < n.stateCount) : (n.connected source symbol target).Wired where
  start_lt attached := by simpa using wired.start_lt attached
  current_lt := by simpa using wired.current_lt
  endpoints_lt found := by
    simp only [transitions_connected, Array.getElem?_push] at found
    split at found
    · cases found
      simpa using ⟨source_lt, target_lt⟩
    · simpa using wired.endpoints_lt found
  outgoing_source := by
    intro q id listed
    rw [stateAt_connected source_lt target_lt] at listed
    rw [transitions_connected, Array.getElem?_push]
    rcases List.mem_append.mp listed with old | last
    · rw [if_neg (Nat.ne_of_lt (wired.outgoing_lt old))]
      exact wired.outgoing_source old
    · split at last <;> simp_all
  incoming_target := by
    intro q id listed
    rw [stateAt_connected source_lt target_lt] at listed
    rw [transitions_connected, Array.getElem?_push]
    rcases List.mem_append.mp listed with old | last
    · rw [if_neg (Nat.ne_of_lt (wired.incoming_lt old))]
      exact wired.incoming_target old
    · split at last <;> simp_all
  outgoing_increasing q := by
    rw [stateAt_connected source_lt target_lt]
    exact increasing_append (wired.outgoing_increasing q) (fun _ => wired.outgoing_lt) _
  incoming_increasing q := by
    rw [stateAt_connected source_lt target_lt]
    exact increasing_append (wired.incoming_increasing q) (fun _ => wired.incoming_lt) _
  mirrored := by
    intro id t found
    rw [stateAt_connected source_lt target_lt, stateAt_connected source_lt target_lt]
    simp only [transitions_connected, Array.getElem?_push] at found
    split at found
    · cases found
      simp_all
    · have old : id < n.transitions.size := (Array.getElem?_eq_some_iff.mp found).1
      have other : ∀ last : Prop, ∀ _ : Decidable last,
          id ∉ if last then [n.transitions.size] else [] := by
        intro last _
        split <;> simp [Nat.ne_of_lt old]
      simp only [List.mem_append, other, or_false]
      exact wired.mirrored found

end Wired

theorem new_stuck (a : Nat) (s : Symbol) (b : Nat) : ¬ Nfa.new.Step a s b := by
  intro step
  obtain ⟨id, t, ⟨state, found, listed, _⟩, _⟩ := step
  simp [state_of_new found] at listed

theorem new_rejects (q : Nat) : ¬ Nfa.new.Accepting q := by
  intro accepts
  obtain ⟨state, found, accepting⟩ := accepts
  simp [state_of_new found] at accepting

theorem step_iff : n.Step q s r ↔
    ∃ id ∈ (n.stateAt q).outgoing, ∃ t, n.transitions[id]? = some t ∧ t.symbol = s ∧ t.target = r := by
  simp only [Step, leaves_iff]
  apply Iff.intro
  · intro step
    obtain ⟨id, t, ⟨listed, found⟩, reads, leads⟩ := step
    exact ⟨id, listed, t, found, reads, leads⟩
  · intro step
    obtain ⟨id, listed, t, found, reads, leads⟩ := step
    exact ⟨id, t, ⟨listed, found⟩, reads, leads⟩

@[simp] theorem step_current (current : Nat) : { n with current }.Step a s b ↔ n.Step a s b :=
  Iff.rfl

theorem step_grown : n.grown.Step a s b ↔ n.Step a s b := by
  simp [step_iff]

theorem step_marked (inRange : q < n.stateCount) (accepting : Bool) :
    (n.marked q accepting).Step a s b ↔ n.Step a s b := by
  simp [step_iff, marked_outgoing inRange]

theorem step_connected (wired : n.Wired) (source_lt : source < n.stateCount)
    (target_lt : target < n.stateCount) :
    (n.connected source symbol target).Step a s b ↔
      n.Step a s b ∨ a = source ∧ s = symbol ∧ b = target := by
  rw [step_iff, step_iff, stateAt_connected source_lt target_lt, transitions_connected]
  apply Iff.intro
  · intro step
    obtain ⟨id, listed, t, found, reads, leads⟩ := step
    rcases List.mem_append.mp listed with old | last
    · rw [Array.getElem?_push, if_neg (Nat.ne_of_lt (wired.outgoing_lt old))] at found
      exact .inl ⟨id, old, t, found, reads, leads⟩
    · split at last
      · rename_i same
        rw [List.mem_singleton.mp last, Array.getElem?_push_size] at found
        cases found
        exact .inr ⟨same, reads.symm, leads.symm⟩
      · simp at last
  · intro step
    rcases step with ⟨id, old, t, found, reads, leads⟩ | ⟨rfl, rfl, rfl⟩
    · refine ⟨id, List.mem_append_left _ old, t, ?_, reads, leads⟩
      rwa [Array.getElem?_push, if_neg (Nat.ne_of_lt (wired.outgoing_lt old))]
    · refine ⟨n.transitions.size, by simp, _, Array.getElem?_push_size, rfl, rfl⟩

/-- A step is taken along a transition that both of its ends list. -/
theorem Wired.exists_linked (wired : n.Wired) (step : n.Step a s b) :
    ∃ id ∈ (n.stateAt a).outgoing, id ∈ (n.stateAt b).incoming ∧
      n.transitions[id]? = some ⟨s, a, b⟩ := by
  obtain ⟨id, listed, t, found, rfl, rfl⟩ := step_iff.mp step
  obtain ⟨u, named, rfl⟩ := wired.outgoing_source listed
  cases found.symm.trans named
  exact ⟨id, listed, (wired.mirrored found).mp listed, found⟩

theorem Wired.step_lt (wired : n.Wired) (step : n.Step a s b) :
    a < n.stateCount ∧ b < n.stateCount := by
  obtain ⟨id, _, _, found⟩ := wired.exists_linked step
  exact wired.endpoints_lt found

theorem Wired.incoming_ne_nil (wired : n.Wired) (step : n.Step a s b) :
    (n.stateAt b).incoming ≠ [] := by
  obtain ⟨id, _, listed, _⟩ := wired.exists_linked step
  exact List.ne_nil_of_mem listed

theorem outgoing_ne_nil (step : n.Step a s b) : (n.stateAt a).outgoing ≠ [] := by
  obtain ⟨id, listed, _⟩ := step_iff.mp step
  exact List.ne_nil_of_mem listed

theorem Wired.exists_step (wired : n.Wired) (leads : (n.stateAt a).outgoing ≠ []) :
    ∃ s b, n.Step a s b := by
  obtain ⟨id, listed⟩ := List.exists_mem_of_ne_nil _ leads
  obtain ⟨t, found, _⟩ := wired.outgoing_source listed
  exact ⟨_, _, step_iff.mpr ⟨id, listed, t, found, rfl, rfl⟩⟩

end RegexAutomaton.Nfa
