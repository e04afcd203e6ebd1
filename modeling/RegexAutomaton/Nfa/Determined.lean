import RegexAutomaton.Nfa.Path

namespace RegexAutomaton.Nfa

/-- From no reachable state do two transitions with one letter lead away to two states. -/
def Determined (n : Nfa) : Prop :=
  ∀ (q r r' : Nat) (c : Char), n.Reachable q → n.Step q (.char c) r → n.Step q (.char c) r' →
    r ≠ q → r' ≠ q → r = r'

end RegexAutomaton.Nfa
