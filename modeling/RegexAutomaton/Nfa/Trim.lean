import RegexAutomaton.Nfa.Consistent
import RegexAutomaton.Nfa.Path

namespace RegexAutomaton.Nfa

/-- The arenas hold nothing superfluous: every state lies on a path from the start to an
accepting one, and every transition is linked. -/
structure Trim (n : Nfa) (start : Nat) : Prop where
  attached : n.start = some start
  start_lt : start < n.stateCount
  reached : ∀ q < n.stateCount, n.Reaches start q
  ends : ∀ q < n.stateCount, ∃ r, n.Reaches q r ∧ n.Accepting r
  /-- Nothing leads into the start, and something into every other state. -/
  entered : ∀ (q : Nat) (s : State), n.states[q]? = some s → (s.incoming = [] ↔ q = start)
  linked : ∀ (id : Nat) (t : Transition), n.transitions[id]? = some t →
    n.LinkedOut id t ∧ n.LinkedIn id t

/-- A single state without transitions. -/
def lone (accepting : Bool) : Nfa where
  states := #[{ accepting }]
  transitions := #[]
  start := some 0
  current := 0

end RegexAutomaton.Nfa
