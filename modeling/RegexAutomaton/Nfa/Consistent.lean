import RegexAutomaton.Nfa.Basic

namespace RegexAutomaton.Nfa

/-- The source of `t` lists it. -/
def LinkedOut (n : Nfa) (id : Nat) (t : Transition) : Prop :=
  ∃ s, n.states[t.source]? = some s ∧ id ∈ s.outgoing

/-- The target of `t` lists it. -/
def LinkedIn (n : Nfa) (id : Nat) (t : Transition) : Prop :=
  ∃ s, n.states[t.target]? = some s ∧ id ∈ s.incoming

/-- Every reference leads somewhere, and the two lists on which a transition stands agree about
it. -/
structure Consistent (n : Nfa) : Prop where
  start_lt : ∀ q, n.start = some q → q < n.stateCount
  current_lt : n.current < n.stateCount
  endpoints_lt : ∀ t ∈ n.transitions, t.source < n.stateCount ∧ t.target < n.stateCount
  /-- An outgoing list names transitions with this source. -/
  outgoing_source : ∀ (q : Nat) (s : State), n.states[q]? = some s →
    ∀ id ∈ s.outgoing, ∃ t, n.transitions[id]? = some t ∧ t.source = q
  /-- An incoming list names transitions with this target. -/
  incoming_target : ∀ (q : Nat) (s : State), n.states[q]? = some s →
    ∀ id ∈ s.incoming, ∃ t, n.transitions[id]? = some t ∧ t.target = q
  /-- Lists are in the order of creation, without repetition. -/
  increasing : ∀ s ∈ n.states, s.outgoing.Pairwise (· < ·) ∧ s.incoming.Pairwise (· < ·)
  /-- A transition is linked at both ends or at none. -/
  mirrored : ∀ (id : Nat) (t : Transition), n.transitions[id]? = some t →
    (n.LinkedOut id t ↔ n.LinkedIn id t)

theorem state_of_new {q : Nat} {s : State} (found : new.states[q]? = some s) : s = {} := by
  cases q with
  | zero => exact (Option.some.inj found).symm
  | succ q => cases found

theorem consistent_new : Consistent .new where
  start_lt := by simp [new, stateCount]
  current_lt := by simp [new, stateCount]
  endpoints_lt := by simp [new]
  outgoing_source := by
    intro q s found
    simp [state_of_new found]
  incoming_target := by
    intro q s found
    simp [state_of_new found]
  increasing := by simp [new]
  mirrored := by simp [new]

end RegexAutomaton.Nfa
