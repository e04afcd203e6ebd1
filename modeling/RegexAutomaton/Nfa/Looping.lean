import RegexAutomaton.Nfa.Consistent

namespace RegexAutomaton.Nfa

/-- Of the linked transitions with the property, `t` was added first. -/
structure Oldest (n : Nfa) (property : Transition → Prop) (id : Nat) (t : Transition) : Prop where
  found : n.transitions[id]? = some t
  linked : n.LinkedOut id t
  holds : property t
  least : ∀ (other : Nat) (u : Transition), n.transitions[other]? = some u →
    n.LinkedOut other u → property u → id ≤ other

/-- What the repetition of a letter changes: one state comes to accept, and another one gets a
loop and becomes current. -/
structure Loops (n : Nfa) (c : Char) (source target : Nat) (after : Nfa) : Prop where
  stateCount_eq : after.stateCount = n.stateCount
  transitions_eq : after.transitions =
    n.transitions.push { symbol := .char c, source := target, target := target }
  start_eq : after.start = n.start
  current_eq : after.current = target
  /-- Only the source changes its acceptance, and only the target its lists. -/
  states : ∀ (q : Nat) (s : State), n.states[q]? = some s → after.states[q]? = some {
    accepting := s.accepting || q == source
    outgoing := s.outgoing ++ if q = target then [n.transitions.size] else []
    incoming := s.incoming ++ if q = target then [n.transitions.size] else [] }

end RegexAutomaton.Nfa
