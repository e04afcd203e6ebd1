import RegexAutomaton.Expression.Compile
import RegexAutomaton.Reduction
import RegexAutomaton.Table.Text
import RegexAutomaton.Text.Blank
import RegexAutomaton.Text.Utf8

namespace RegexAutomaton.Session

structure Options where
  /-- Follow each description by a diagnosis. -/
  reduce : Bool := false
  /-- Describe automata by graphs instead of tables. -/
  dot : Bool := false
deriving DecidableEq, Repr

def reductionText (table : Table) (reduction : Reduction) : String :=
  "\n---Reduction---\n" ++
    match reduction.selfLoops with
    | none => "Contains ε-transitions, no reduction performed.\n"
    | some [] => "No self-referential transition.\n"
    | some states =>
        String.join <| (states.filterMap table.label?).map fun label =>
          "State " ++ labelText label ++ " has a self-referential transition.\n"

def description (options : Options) (n : Nfa) : Except Failure String := do
  let table ← n.table
  let shown :=
    if options.dot then table.digraph ++ "\n"
    else "\n---NFA State Transition Table---\n\n" ++ table.text
  if options.reduce then
    return shown ++ reductionText table (← n.reduce.outcome)
  else
    return shown

def errorText (message : String) : String :=
  "Error: " ++ message ++ "\n"

/-- The reply to one expression. -/
def answer (options : Options) (expression : String) : Except Failure String :=
  match (Expression.compile expression).outcome with
  | .ok n => description options n
  | .error failure =>
      match failure.message? with
      | some message => .ok (errorText message)
      | none => .error failure

/-- The reply to one line, or nothing if the line ends the session. -/
def reply? (options : Options) (line : List UInt8) : Except Failure (Option String) :=
  match Text.decode line with
  | .error failure => .ok (some (errorText failure.message))
  | .ok chars =>
      match Text.trim chars with
      | [] => .ok none
      | trimmed => some <$> answer options (String.ofList trimmed)

def firstPrompt : String :=
  "Enter a regular expression: "

def nextPrompt : String :=
  "\nEnter another regular expression (or press Enter to exit): "

def newline : UInt8 :=
  10

/-- Splits after every newline. The bytes of the line read so far are given
last first; what follows the last newline is a line unless it is empty. -/
def linesFrom (line : List UInt8) : List UInt8 → List (List UInt8)
  | [] => if line.isEmpty then [] else [line.reverse]
  | byte :: rest =>
      if byte = newline then (byte :: line).reverse :: linesFrom [] rest
      else linesFrom (byte :: line) rest

def lines (input : List UInt8) : List (List UInt8) :=
  linesFrom [] input

/-- What is printed in reply to the given lines, piece by piece. -/
def replies (options : Options) : List (List UInt8) → Except Failure (List String)
  | [] => .ok []
  | line :: rest => do
      match ← reply? options line with
      | none => return []
      | some text => return text :: nextPrompt :: (← replies options rest)

/-- All that a session prints for the given input. -/
def transcript (options : Options) (input : List UInt8) : Except Failure String := do
  return String.join (firstPrompt :: (← replies options (lines input)))

end RegexAutomaton.Session
