import RegexAutomaton.Proofs.Building

namespace RegexAutomaton.Nfa

variable {n m : Nfa} {q r id : Nat} {t : Transition} {ids : List Nat}

/-- The two automata differ in what their states say, if at all. -/
structure SameArena (n m : Nfa) : Prop where
  stateCount : m.stateCount = n.stateCount
  transitions : m.transitions = n.transitions
  start : m.start = n.start
  current : m.current = n.current

theorem SameArena.refl (n : Nfa) : SameArena n n :=
  ⟨rfl, rfl, rfl, rfl⟩

theorem SameArena.trans {middle : Nfa} (first : SameArena n middle) (second : SameArena middle m) :
    SameArena n m where
  stateCount := second.stateCount.trans first.stateCount
  transitions := second.transitions.trans first.transitions
  start := second.start.trans first.start
  current := second.current.trans first.current

theorem SameArena.changed (n : Nfa) (q : Nat) (change : State → State) :
    SameArena n (n.changed q change) :=
  ⟨stateCount_changed change, rfl, rfl, rfl⟩

/-- Takes each of the given transitions away at the end that `endpoint` names. If
a state only ever mentions transitions with this end in it, all states lose
the given transitions. -/
theorem forget_exists (ids : List Nat) (endpoint : Transition → Nat)
    (mentioned : State → List Nat) (remove : Nat → State → State)
    (idle : ∀ id s, id ∉ mentioned s → remove id s = s)
    (fewer : ∀ id s, ∀ other ∈ mentioned (remove id s), other ∈ mentioned s)
    (own : ∀ r, ∀ id ∈ mentioned (n.stateAt r), ∃ t, n.transitions[id]? = some t ∧ endpoint t = r)
    (valid : ∀ id ∈ ids, ∃ t, n.transitions[id]? = some t ∧ endpoint t < n.stateCount) :
    ∃ m, ids.foldlM (fun n t => do n.modifyState (endpoint (← n.transition t)) (remove t)) n = .ok m ∧
      SameArena n m ∧ ∀ r, m.stateAt r = ids.foldl (fun s id => remove id s) (n.stateAt r) := by
  induction ids generalizing n with
  | nil => exact ⟨n, rfl, .refl n, fun _ => rfl⟩
  | cons id rest ih =>
      obtain ⟨t, found, inRange⟩ := valid id (by simp)
      let next := n.changed (endpoint t) (remove id)
      have removed : ∀ r, next.stateAt r = remove id (n.stateAt r) := by
        intro r
        rw [stateAt_changed inRange]
        split
        · rw [‹r = endpoint t›]
        · refine (idle id _ fun listed => ?_).symm
          obtain ⟨u, named, here⟩ := own r id listed
          cases found.symm.trans named
          exact absurd here.symm ‹_›
      obtain ⟨m, rest_eq, same, states⟩ := ih (n := next)
        (fun r other listed => own r other (fewer id _ other (removed r ▸ listed)))
        (fun other member => by
          rw [show next.stateCount = n.stateCount from stateCount_changed _]
          exact valid other (by simp [member]))
      refine ⟨m, ?_, (SameArena.changed n _ _).trans same, fun r => ?_⟩
      · simpa only [List.foldlM_cons, transition_eq found, ok_bind, modifyState_eq inRange] using
          rest_eq
      · rw [states, removed, List.foldl_cons]

private theorem filter_absent_cons (list : List Nat) :
    (list.filter (· != id)).filter (!ids.contains ·) = list.filter (!(id :: ids).contains ·) := by
  rw [List.filter_filter]
  refine List.filter_congr fun other _ => ?_
  rw [List.contains_cons, Bool.not_or, Bool.and_comm, bne]

theorem foldl_removeIncoming (s : State) :
    ids.foldl (fun s id => s.removeIncoming id) s =
      { s with incoming := s.incoming.filter (!ids.contains ·) } := by
  induction ids generalizing s with
  | nil => simp [List.filter_eq_self.mpr]
  | cons id rest ih => rw [List.foldl_cons, ih, State.removeIncoming, filter_absent_cons]

theorem foldl_removeOutgoing (s : State) :
    ids.foldl (fun s id => s.removeOutgoing id) s =
      { s with outgoing := s.outgoing.filter (!ids.contains ·) } := by
  induction ids generalizing s with
  | nil => simp [List.filter_eq_self.mpr]
  | cons id rest ih => rw [List.foldl_cons, ih, State.removeOutgoing, filter_absent_cons]

theorem clearOutgoing_exists (wired : n.Wired) (q_lt : q < n.stateCount) :
    ∃ m, n.clearOutgoing q = .ok m ∧ SameArena n m ∧ ∀ r, m.stateAt r = {
      accepting := (n.stateAt r).accepting
      outgoing := if r = q then [] else (n.stateAt r).outgoing
      incoming := (n.stateAt r).incoming.filter (!(n.stateAt q).outgoing.contains ·) } := by
  let emptied := n.changed q fun s => { s with outgoing := [] }
  have states : ∀ r, emptied.stateAt r =
      { n.stateAt r with outgoing := if r = q then [] else (n.stateAt r).outgoing } := by
    intro r
    rw [stateAt_changed q_lt]
    split <;> simp_all
  obtain ⟨m, cleared, same, after⟩ := forget_exists (n := emptied) (n.stateAt q).outgoing
    (·.target) State.incoming State.removeIncoming
    (fun id s absent => by
      have kept : s.incoming.filter (· != id) = s.incoming :=
        List.filter_eq_self.mpr fun other listed => by
          simpa using fun same : other = id => absent (same ▸ listed)
      simp [State.removeIncoming, kept])
    (fun id s other listed => (List.mem_filter.mp listed).1)
    (fun r id listed => wired.incoming_target (by simpa [states] using listed))
    (fun id listed => by
      obtain ⟨t, found, _⟩ := wired.outgoing_source listed
      exact ⟨t, found, by simpa [emptied] using (wired.endpoints_lt found).2⟩)
  refine ⟨m, ?_, (SameArena.changed n _ _).trans same, fun r => ?_⟩
  · simp only [clearOutgoing, state_eq q_lt, ok_bind, modifyState_eq q_lt]
    exact cleared
  · rw [after, foldl_removeIncoming, states]

theorem clearIncoming_exists (wired : n.Wired) (q_lt : q < n.stateCount) :
    ∃ m, n.clearIncoming q = .ok m ∧ SameArena n m ∧ ∀ r, m.stateAt r = {
      accepting := (n.stateAt r).accepting
      outgoing := (n.stateAt r).outgoing.filter (!(n.stateAt q).incoming.contains ·)
      incoming := if r = q then [] else (n.stateAt r).incoming } := by
  let emptied := n.changed q fun s => { s with incoming := [] }
  have states : ∀ r, emptied.stateAt r =
      { n.stateAt r with incoming := if r = q then [] else (n.stateAt r).incoming } := by
    intro r
    rw [stateAt_changed q_lt]
    split <;> simp_all
  obtain ⟨m, cleared, same, after⟩ := forget_exists (n := emptied) (n.stateAt q).incoming
    (·.source) State.outgoing State.removeOutgoing
    (fun id s absent => by
      have kept : s.outgoing.filter (· != id) = s.outgoing :=
        List.filter_eq_self.mpr fun other listed => by
          simpa using fun same : other = id => absent (same ▸ listed)
      simp [State.removeOutgoing, kept])
    (fun id s other listed => (List.mem_filter.mp listed).1)
    (fun r id listed => wired.outgoing_source (by simpa [states] using listed))
    (fun id listed => by
      obtain ⟨t, found, _⟩ := wired.incoming_target listed
      exact ⟨t, found, by simpa [emptied] using (wired.endpoints_lt found).1⟩)
  refine ⟨m, ?_, (SameArena.changed n _ _).trans same, fun r => ?_⟩
  · simp only [clearIncoming, state_eq q_lt, ok_bind, modifyState_eq q_lt]
    exact cleared
  · rw [after, foldl_removeOutgoing, states]

/-- An automaton whose lists have only lost members, at both ends alike, is
still wired. -/
theorem Wired.of_sublists (wired : n.Wired) (same : SameArena n m)
    (outgoing : ∀ r, ((m.stateAt r).outgoing).Sublist (n.stateAt r).outgoing)
    (incoming : ∀ r, ((m.stateAt r).incoming).Sublist (n.stateAt r).incoming)
    (mirrored : ∀ {id t}, n.transitions[id]? = some t →
      (id ∈ (m.stateAt t.source).outgoing ↔ id ∈ (m.stateAt t.target).incoming)) : m.Wired where
  start_lt attached := by
    rw [same.stateCount]
    exact wired.start_lt (same.start ▸ attached)
  current_lt := by
    rw [same.stateCount, same.current]
    exact wired.current_lt
  endpoints_lt found := by
    rw [same.stateCount]
    exact wired.endpoints_lt (same.transitions ▸ found)
  outgoing_source listed := by
    rw [same.transitions]
    exact wired.outgoing_source ((outgoing _).subset listed)
  incoming_target listed := by
    rw [same.transitions]
    exact wired.incoming_target ((incoming _).subset listed)
  outgoing_increasing r := (wired.outgoing_increasing r).sublist (outgoing r)
  incoming_increasing r := (wired.incoming_increasing r).sublist (incoming r)
  mirrored found := mirrored (same.transitions ▸ found)

theorem clearOutgoing_wired (wired : n.Wired) (q_lt : q < n.stateCount) :
    ∃ m, n.clearOutgoing q = .ok m ∧ SameArena n m ∧ m.Wired := by
  obtain ⟨m, cleared, same, states⟩ := clearOutgoing_exists wired q_lt
  refine ⟨m, cleared, same, wired.of_sublists same ?_ ?_ ?_⟩
  · intro r
    rw [states]
    by_cases here : r = q <;> simp [here]
  · intro r
    rw [states]
    exact List.filter_sublist
  · intro id t found
    have linked := wired.mirrored found
    rw [states, states]
    by_cases here : t.source = q
    · rw [here] at linked
      simp [here, linked]
    · have other : id ∉ (n.stateAt q).outgoing := by
        intro listed
        obtain ⟨u, named, leaves⟩ := wired.outgoing_source listed
        cases found.symm.trans named
        exact here leaves
      simp [here, linked, other]

theorem clearIncoming_wired (wired : n.Wired) (q_lt : q < n.stateCount) :
    ∃ m, n.clearIncoming q = .ok m ∧ SameArena n m ∧ m.Wired := by
  obtain ⟨m, cleared, same, states⟩ := clearIncoming_exists wired q_lt
  refine ⟨m, cleared, same, wired.of_sublists same ?_ ?_ ?_⟩
  · intro r
    rw [states]
    exact List.filter_sublist
  · intro r
    rw [states]
    by_cases here : r = q <;> simp [here]
  · intro id t found
    have linked := wired.mirrored found
    rw [states, states]
    by_cases here : t.target = q
    · rw [here] at linked
      simp [here, linked]
    · have other : id ∉ (n.stateAt q).incoming := by
        intro listed
        obtain ⟨u, named, enters⟩ := wired.incoming_target listed
        cases found.symm.trans named
        exact here enters
      simp [here, linked, other]

theorem deleteState_exists (wired : n.Wired) (q_lt : q < n.stateCount) :
    ∃ m, (n.deleteState q).outcome = .ok m ∧ SameArena n m ∧ m.Wired := by
  obtain ⟨middle, first, same, kept⟩ := clearOutgoing_wired wired q_lt
  obtain ⟨m, second, again, wired⟩ := clearIncoming_wired kept (same.stateCount ▸ q_lt)
  refine ⟨m, ?_, same.trans again, wired⟩
  simp only [deleteState, Traced.outcome_bind, Traced.outcome_emit, Traced.outcome_lift, ok_bind,
    first, second]

end RegexAutomaton.Nfa
