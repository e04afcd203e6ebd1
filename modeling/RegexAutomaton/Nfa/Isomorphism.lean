import RegexAutomaton.Nfa.Lookup
import RegexAutomaton.Nfa.Path

namespace RegexAutomaton.Nfa

/-- The map `place` carries the part of `n` that `q` reaches onto the part of
`m` that `r` reaches. -/
structure Isomorphism (n : Nfa) (q : Nat) (m : Nfa) (r : Nat) (place : Nat → Nat) : Prop where
  root : place q = r
  injective : ∀ a b, n.Reaches q a → n.Reaches q b → place a = place b → a = b
  surjective : ∀ b, m.Reaches r b → ∃ a, n.Reaches q a ∧ place a = b
  accepting : ∀ a, n.Reaches q a → (n.Accepting a ↔ m.Accepting (place a))
  /-- The outgoing lists agree, symbol by symbol and target by target. -/
  successors : ∀ a, n.Reaches q a → ∃ list, n.successors a = .ok list ∧
    m.successors (place a) = .ok (list.map fun (symbol, b) => (symbol, place b))

/-- The reachable parts agree, acceptance and the order of the outgoing lists included. The
places of states and transitions do not count. -/
def Isomorphic (n : Nfa) (q : Nat) (m : Nfa) (r : Nat) : Prop :=
  ∃ place, Isomorphism n q m r place

end RegexAutomaton.Nfa
