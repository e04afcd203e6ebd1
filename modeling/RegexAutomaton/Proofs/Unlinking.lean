import RegexAutomaton.Nfa.Unlinking
import RegexAutomaton.Proofs.Consistency

namespace RegexAutomaton.Nfa

/-! Deletion unlinks exactly the transitions at the state.

The second half of a deletion works on lists that the first half has changed, a
loop being on both lists of the state. In a wired automaton it makes no difference:
the two halves together filter every list by one and the same test, which depends on
the arena alone. So deletions commute, and a second one finds nothing to do.
-/

variable {n : Nfa} {p q r id : Nat} {t : Transition}

theorem touches_eq (found : n.transitions[id]? = some t) :
    n.touches q id = (t.source == q || t.target == q) := by
  simp [touches, found]

/-- A linked transition stands on the lists of its own ends only. -/
theorem Wired.mem_outgoing_iff (wired : n.Wired) (found : n.transitions[id]? = some t)
    (linked : id ∈ (n.stateAt t.source).outgoing) :
    id ∈ (n.stateAt q).outgoing ↔ t.source = q := by
  apply Iff.intro
  · intro listed
    obtain ⟨u, named, leaves⟩ := wired.outgoing_source listed
    cases found.symm.trans named
    exact leaves
  · intro same
    exact same ▸ linked

theorem Wired.mem_incoming_iff (wired : n.Wired) (found : n.transitions[id]? = some t)
    (linked : id ∈ (n.stateAt t.source).outgoing) :
    id ∈ (n.stateAt q).incoming ↔ t.target = q := by
  apply Iff.intro
  · intro listed
    obtain ⟨u, named, enters⟩ := wired.incoming_target listed
    cases found.symm.trans named
    exact enters
  · intro same
    exact same ▸ (wired.mirrored found).mp linked

theorem Wired.touches_outgoing (wired : n.Wired) (listed : id ∈ (n.stateAt r).outgoing) :
    n.touches q id = (r == q || (n.stateAt q).incoming.contains id) := by
  obtain ⟨t, found, rfl⟩ := wired.outgoing_source listed
  rw [touches_eq found, Bool.eq_iff_iff]
  simp [wired.mem_incoming_iff found listed]

theorem Wired.touches_incoming (wired : n.Wired) (listed : id ∈ (n.stateAt r).incoming) :
    n.touches q id = (r == q || (n.stateAt q).outgoing.contains id) := by
  obtain ⟨t, found, rfl⟩ := wired.incoming_target listed
  have linked := (wired.mirrored found).mpr listed
  rw [touches_eq found, Bool.eq_iff_iff]
  simp [wired.mem_outgoing_iff found linked, or_comm]

/-- `n` without the transitions at `q` on any list. -/
def unlinked (n : Nfa) (q : Nat) : Nfa :=
  { n with states := n.states.map fun s => {
      accepting := s.accepting
      outgoing := s.outgoing.filter (!n.touches q ·)
      incoming := s.incoming.filter (!n.touches q ·) } }

@[simp] theorem stateCount_unlinked : (n.unlinked q).stateCount = n.stateCount := by
  simp [unlinked, stateCount]

@[simp] theorem touches_unlinked : (n.unlinked p).touches q id = n.touches q id := rfl

theorem getElem?_unlinked {s : State} (found : n.states[r]? = some s) :
    (n.unlinked q).states[r]? = some {
      accepting := s.accepting
      outgoing := s.outgoing.filter (!n.touches q ·)
      incoming := s.incoming.filter (!n.touches q ·) } := by
  simp [unlinked, found]

theorem stateAt_unlinked : (n.unlinked q).stateAt r = {
    accepting := (n.stateAt r).accepting
    outgoing := (n.stateAt r).outgoing.filter (!n.touches q ·)
    incoming := (n.stateAt r).incoming.filter (!n.touches q ·) } := by
  simp only [stateAt, unlinked, Array.getElem?_map]
  cases n.states[r]? <;> rfl

/-- What the first half has left of the incoming list of `q` names the transitions
from other states into it. -/
theorem outgoing_deleted (wired : n.Wired) :
    (if r = q then [] else (n.stateAt r).outgoing).filter
        (!((n.stateAt q).incoming.filter (!(n.stateAt q).outgoing.contains ·)).contains ·) =
      (n.stateAt r).outgoing.filter (!n.touches q ·) := by
  by_cases here : r = q
  · rw [if_pos here, List.filter_nil, eq_comm, List.filter_eq_nil_iff]
    intro id listed
    simp [wired.touches_outgoing listed, here]
  · rw [if_neg here]
    refine List.filter_congr fun id listed => ?_
    obtain ⟨t, found, rfl⟩ := wired.outgoing_source listed
    have apart : id ∉ (n.stateAt q).outgoing := (wired.mem_outgoing_iff found listed).not.mpr here
    simp [wired.touches_outgoing listed, here, apart]

theorem incoming_deleted (wired : n.Wired) :
    (if r = q then [] else
        (n.stateAt r).incoming.filter (!(n.stateAt q).outgoing.contains ·)) =
      (n.stateAt r).incoming.filter (!n.touches q ·) := by
  by_cases here : r = q
  · rw [if_pos here, eq_comm, List.filter_eq_nil_iff]
    intro id listed
    simp [wired.touches_incoming listed, here]
  · rw [if_neg here]
    refine List.filter_congr fun id listed => ?_
    simp [wired.touches_incoming listed, here]

theorem deleteState_eq (wired : n.Wired) (q_lt : q < n.stateCount) :
    (n.deleteState q).outcome = .ok (n.unlinked q) := by
  obtain ⟨middle, first, same, states⟩ := clearOutgoing_exists wired q_lt
  obtain ⟨_, again, _, kept⟩ := clearOutgoing_wired wired q_lt
  cases first.symm.trans again
  obtain ⟨m, second, later, ends⟩ := clearIncoming_exists kept (same.stateCount ▸ q_lt)
  have all := same.trans later
  have deleted : m = n.unlinked q := by
    refine eq_of_stateAt ?_ (fun r => ?_) all.transitions all.start all.current
    · rw [all.stateCount, stateCount_unlinked]
    · rw [ends, states, states, outgoing_deleted wired, incoming_deleted wired, stateAt_unlinked]
  simp only [deleteState, Traced.outcome_bind, Traced.outcome_emit, Traced.outcome_lift, ok_bind,
    first, second, deleted]

theorem Wired.unlinked (wired : n.Wired) (q_lt : q < n.stateCount) : (n.unlinked q).Wired := by
  obtain ⟨m, deleted, _, kept⟩ := deleteState_exists wired q_lt
  cases deleted.symm.trans (deleteState_eq wired q_lt)
  exact kept

theorem unlinked_unlinked (n : Nfa) (p q : Nat) :
    (n.unlinked p).unlinked q = (n.unlinked q).unlinked p := by
  refine eq_of_stateAt ?_ (fun r => ?_) rfl rfl rfl
  · simp
  · simp only [stateAt_unlinked, touches_unlinked, List.filter_filter, Bool.and_comm]

theorem unlinked_self (n : Nfa) (q : Nat) : (n.unlinked q).unlinked q = n.unlinked q := by
  refine eq_of_stateAt ?_ (fun r => ?_) rfl rfl rfl
  · simp
  · simp only [stateAt_unlinked, touches_unlinked, List.filter_filter, Bool.and_self]

theorem linked_unlinked :
    (n.unlinked q).linked = n.linked.filter fun (_, t) => t.source != q && t.target != q := by
  rw [linked, linked, List.filter_map, List.filter_filter]
  refine congrArg (List.map Prod.swap) (List.filter_congr fun entry member => ?_)
  obtain ⟨t, id⟩ := entry
  have found : n.transitions[id]? = some t := by
    simpa [unlinked, List.mk_mem_zipIdx_iff_getElem?] using member
  rw [Bool.eq_iff_iff]
  simp [lists_iff, stateAt_unlinked, touches_eq found, and_comm]

theorem unlinks_unlinked (wired : n.Wired) (q_lt : q < n.stateCount) :
    Unlinks n q (n.unlinked q) where
  stateCount_eq := stateCount_unlinked
  transitions_eq := rfl
  start_eq := rfl
  current_eq := rfl
  states _ _ := getElem?_unlinked
  linked := ⟨n.linked, linkedTransitions_eq wired,
    by rw [linkedTransitions_eq (wired.unlinked q_lt), linked_unlinked]⟩
  untouched := by
    intro r s found id listed
    have kept := wired.unlinked q_lt
    rw [← stateAt_of_getElem? found] at listed
    obtain ⟨t, named⟩ : ∃ t, n.transitions[id]? = some t := by
      rcases listed with out | into
      · exact (kept.outgoing_source out).imp fun _ => And.left
      · exact (kept.incoming_target into).imp fun _ => And.left
    refine ⟨t, named, ?_⟩
    simp only [stateAt_unlinked, List.mem_filter, ← or_and_right] at listed
    simpa [touches, named] using listed.2

/-- Deleting a state takes exactly the transitions at it off the lists. To delete it
again changes nothing, and the order of two deletions does not matter. -/
theorem deleteState_unlinks (built : Built n) (q_lt : q < n.stateCount) :
    ∃ after, (n.deleteState q).outcome = .ok after ∧ Unlinks n q after ∧
      (after.deleteState q).outcome = .ok after ∧
      ∀ p < n.stateCount, ∃ other last, (n.deleteState p).outcome = .ok other ∧
        (after.deleteState p).outcome = .ok last ∧ (other.deleteState q).outcome = .ok last := by
  have wired := built.wired
  have kept := wired.unlinked q_lt
  refine ⟨n.unlinked q, deleteState_eq wired q_lt, unlinks_unlinked wired q_lt, ?_, ?_⟩
  · rw [deleteState_eq kept (by simpa using q_lt), unlinked_self]
  · intro p p_lt
    refine ⟨n.unlinked p, _, deleteState_eq wired p_lt, deleteState_eq kept (by simpa using p_lt), ?_⟩
    rw [deleteState_eq (wired.unlinked p_lt) (by simpa using q_lt), unlinked_unlinked]

/-- The deleted state has a loop, and is joined to its neighbour by two parallel
transitions and one back. A loop of the neighbour stays. -/
theorem deleteState_unlinks_neighbours :
    let n : Nfa := {
      states := #[{ outgoing := [0, 2, 4], incoming := [3, 4] },
        { accepting := true, outgoing := [1, 3], incoming := [0, 1, 2] }]
      transitions := #[⟨.char 'a', 0, 1⟩, ⟨.char 'a', 1, 1⟩, ⟨.char 'a', 0, 1⟩, ⟨.epsilon, 1, 0⟩,
        ⟨.char 'b', 0, 0⟩]
      start := some 0
      current := 1 }
    Built n ∧ 1 < n.stateCount ∧
      ∃ after, (n.deleteState 1).outcome = .ok after ∧ Unlinks n 1 after ∧
        (after.deleteState 1).outcome = .ok after ∧
        ∀ p < n.stateCount, ∃ other last, (n.deleteState p).outcome = .ok other ∧
          (after.deleteState p).outcome = .ok last ∧ (other.deleteState 1).outcome = .ok last := by
  intro n
  have looped : Built ((Nfa.new.extended 'a').connected 1 (.char 'a') 1) :=
    (Built.new.extended 'a').connected 1 (.char 'a') 1 (by decide) (by decide)
  have joined := (looped.connected 0 (.char 'a') 1 (by decide) (by decide)).connected
    1 .epsilon 0 (by decide) (by decide)
  have built : Built n := joined.connected 0 (.char 'b') 0 (by decide) (by decide)
  exact ⟨built, by decide, deleteState_unlinks built (by decide)⟩

end RegexAutomaton.Nfa
