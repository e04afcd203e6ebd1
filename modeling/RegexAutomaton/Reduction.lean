import RegexAutomaton.Table.Traversal
import RegexAutomaton.Trace

namespace RegexAutomaton

/-- What could be reduced in an automaton. Without epsilons only the states that lead to
themselves are of interest. -/
structure Reduction where
  containsEpsilon : Bool
  /-- The states with a transition to themselves, in the order of discovery.
  Absent if there is an epsilon. -/
  selfLoops : Option (List Nat)
deriving DecidableEq, Repr

def Row.hasEpsilon (row : Row) : Bool :=
  row.transitions.any fun (symbol, _) => symbol.isEpsilon

namespace Nfa

/-- Whether an epsilon can be reached. What lies beyond the first row with one
is not looked at. -/
def containsEpsilon (n : Nfa) : Except Failure Bool := do
  let walk := Traversal.walk n (← Traversal.enter n)
  if walk.rows.any Row.hasEpsilon then
    return true
  walk.stop
  return false

/-- The reachable states with a transition to themselves. -/
def selfLoops (n : Nfa) : Except Failure (List Nat) := do
  ((← n.rows).map (·.state)).filterM n.hasSelfLoop

def reduce (n : Nfa) : Traced Reduction := do
  let containsEpsilon ← n.containsEpsilon
  let selfLoops ← if containsEpsilon then pure none else some <$> n.selfLoops
  Traced.emit (.reduced containsEpsilon selfLoops)
  return { containsEpsilon, selfLoops }

end Nfa

end RegexAutomaton
