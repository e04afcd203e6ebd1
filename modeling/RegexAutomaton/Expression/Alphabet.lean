import RegexAutomaton.Failure

namespace RegexAutomaton.Expression

def isLetter (c : Char) : Bool :=
  'a' ≤ c && c ≤ 'z'

def isValidCharacter (c : Char) : Bool :=
  isLetter c || c == '(' || c == ')' || c == '*' || c == '|'

/-- The first character that is not valid, and its position. -/
def firstInvalid? (chars : List Char) : Option (Char × Nat) :=
  chars.zipIdx.find? fun (c, _) => !isValidCharacter c

/-- An expression has at least one character, and valid ones only. -/
def validate (expression : String) : Except Failure Unit :=
  if expression.toList.isEmpty then
    .error (.expression .empty)
  else
    match firstInvalid? expression.toList with
    | some (c, position) => .error (.expression (.invalidCharacter c position))
    | none => .ok ()

end RegexAutomaton.Expression
