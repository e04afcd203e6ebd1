import RegexAutomaton.Session

namespace RegexAutomaton

/-- The options that the arguments ask for, if all of them are known. -/
def Session.Options.ofArguments? : List String → Option Session.Options
  | [] => some {}
  | argument :: rest => do
      let options ← ofArguments? rest
      match argument with
      | "--reduce" => some { options with reduce := true }
      | "--dot" => some { options with dot := true }
      | _ => none

/-- Reads up to and including the next newline, or to the end of the input. -/
partial def readLine (input : IO.FS.Stream) (line : ByteArray) : IO ByteArray := do
  let next ← input.read 1
  if next.isEmpty then
    return line
  else if next.toList = [Session.newline] then
    return line ++ next
  else
    readLine input (line ++ next)

/-- Replies to line after line, until one ends the session. -/
partial def serve (options : Session.Options) (input output : IO.FS.Stream) : IO Unit := do
  let line ← readLine input .empty
  if line.isEmpty then
    return
  match Session.reply? options line.toList with
  | .error _ => throw (IO.userError "an automaton refers to a part it does not have")
  | .ok none => return
  | .ok (some text) =>
      output.putStr (text ++ Session.nextPrompt)
      output.flush
      serve options input output

end RegexAutomaton

open RegexAutomaton in
def main (arguments : List String) : IO UInt32 := do
  match Session.Options.ofArguments? arguments with
  | none =>
      (← IO.getStderr).putStrLn "the options are --reduce and --dot"
      return 2
  | some options =>
      let output ← IO.getStdout
      output.putStr Session.firstPrompt
      output.flush
      serve options (← IO.getStdin) output
      return 0
