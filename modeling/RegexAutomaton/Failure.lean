import RegexAutomaton.Graph

namespace RegexAutomaton

/-- A part that does not exist. Automata may be given from outside with any references between
their parts, so every access is checked; a run of the builder on its own automata makes no
fault. -/
inductive Fault where
  | state (q : Nat)
  | transition (t : Nat)
  /-- A parenthesis was closed at depth zero. -/
  | nesting
deriving DecidableEq, Repr

inductive BuildError where
  /-- No transition with this symbol leads to the current state. -/
  | nothingToRepeat (symbol : Symbol)
  | detachedStart
deriving DecidableEq, Repr

/-- Positions count characters from zero, in the whole expression. -/
inductive ExpressionError where
  | empty
  | invalidCharacter (character : Char) (position : Nat)
  | unbalancedParentheses (position : Nat)
  | nothingToRepeat (position : Nat)
deriving DecidableEq, Repr

inductive Failure where
  | fault (cause : Fault)
  | build (cause : BuildError)
  | expression (cause : ExpressionError)
deriving DecidableEq, Repr

def BuildError.message : BuildError → String
  | nothingToRepeat symbol =>
      "nothing to repeat: no `" ++ symbol.text ++ "` transition leads to the current state"
  | detachedStart => "start state already detached"

def ExpressionError.message : ExpressionError → String
  | empty => "empty expression"
  | invalidCharacter character position =>
      "invalid character `" ++ String.singleton character ++ "` at position " ++ toString position
  | unbalancedParentheses position =>
      "unbalanced parentheses at position " ++ toString position
  | nothingToRepeat position => "nothing to repeat at position " ++ toString position

/-- The text of a failure that is reported; a fault is not. -/
def Failure.message? : Failure → Option String
  | fault _ => none
  | build cause => some cause.message
  | expression cause => some cause.message

end RegexAutomaton
