import RegexAutomaton.Failure

namespace RegexAutomaton.Expression

/-- Looks for the place where `depth` falls to zero. The first of the
characters stands at `place`. -/
def closingFrom (depth place : Nat) : List Char → Except Failure (Option Nat)
  | [] => .ok none
  | c :: rest =>
      if c = '(' then
        closingFrom (depth + 1) (place + 1) rest
      else if c = ')' then
        match depth with
        | 0 => .error (.fault .nesting)
        | 1 => .ok (some place)
        | depth + 2 => closingFrom (depth + 1) (place + 1) rest
      else
        closingFrom depth (place + 1) rest

/-- The place of the parenthesis that closes the one at `opening`, if it is
closed at all. -/
def closing? (chars : List Char) (opening : Nat) : Except Failure (Option Nat) :=
  closingFrom 0 opening (chars.drop opening)

/-- Whether a bar stands outside all parentheses, `depth` of which are open at
first. A parenthesis that closes nothing is passed over. -/
def hasOuterBarFrom (depth : Nat) : List Char → Bool
  | [] => false
  | c :: rest =>
      if c = '(' then hasOuterBarFrom (depth + 1) rest
      else if c = ')' then hasOuterBarFrom (depth - 1) rest
      else if c = '|' ∧ depth = 0 then true
      else hasOuterBarFrom depth rest

def hasOuterBar (chars : List Char) : Bool :=
  hasOuterBarFrom 0 chars

end RegexAutomaton.Expression
