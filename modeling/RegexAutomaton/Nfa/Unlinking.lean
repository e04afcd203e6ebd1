import RegexAutomaton.Nfa.Lookup

namespace RegexAutomaton.Nfa

/-- The transition named `id` starts or ends in `q`. -/
def touches (n : Nfa) (q id : Nat) : Bool :=
  n.transitions[id]?.any fun t => t.source == q || t.target == q

/-- The transitions that start or end in `q` leave the lists of all states, and nothing else
changes. -/
structure Unlinks (n : Nfa) (q : Nat) (after : Nfa) : Prop where
  stateCount_eq : after.stateCount = n.stateCount
  transitions_eq : after.transitions = n.transitions
  start_eq : after.start = n.start
  current_eq : after.current = n.current
  /-- A state keeps its acceptance, and the rest of its lists in their order. -/
  states : ∀ (r : Nat) (s : State), n.states[r]? = some s → after.states[r]? = some {
    accepting := s.accepting
    outgoing := s.outgoing.filter (!n.touches q ·)
    incoming := s.incoming.filter (!n.touches q ·) }
  linked : ∃ list, n.linkedTransitions = .ok list ∧ after.linkedTransitions =
    .ok (list.filter fun (_, t) => t.source != q && t.target != q)
  untouched : ∀ (r : Nat) (s : State), after.states[r]? = some s →
    ∀ id, id ∈ s.outgoing ∨ id ∈ s.incoming →
      ∃ t, after.transitions[id]? = some t ∧ t.source ≠ q ∧ t.target ≠ q

end RegexAutomaton.Nfa
