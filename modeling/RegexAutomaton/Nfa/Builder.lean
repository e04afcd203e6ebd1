import RegexAutomaton.Nfa.Lookup
import RegexAutomaton.Trace

namespace RegexAutomaton.Nfa

/-- Extends the current path by one `c`. The new state takes acceptance over
from the old end of the path. -/
def concatenate (n : Nfa) (c : Char) : Traced (Nfa × Fragment) := do
  let entry := n.current
  let (n, exit) := n.addState
  let (n, t) ← n.addTransition entry (.char c) exit
  let n ← n.setAccepting exit true
  let n ← n.setAccepting entry false
  Traced.emit (.concatenated c entry exit)
  return ({ n with current := exit }, { entry, exit, edges := [t] })

/-- Opens an alternative: a fresh state behind an epsilon out of `origin`,
from which construction goes on. -/
def branch (n : Nfa) (origin : Nat) : Traced (Nfa × Nat) := do
  let (n, entry) := n.addState
  let (n, _) ← n.addTransition origin .epsilon entry
  Traced.emit (.branched origin entry)
  return ({ n with current := entry }, entry)

/-- Repeats the oldest `c` transition into the current state. Its source
becomes accepting, for no repetition at all, and the oldest `c` target of that
source gets a `c` loop and becomes current. -/
def repeatLetter (n : Nfa) (c : Char) : Traced (Nfa × Except BuildError Unit) := do
  match ← n.firstSource n.current (.char c) with
  | none => return (n, .error (.nothingToRepeat (.char c)))
  | some source =>
      let n ← n.setAccepting source true
      match ← n.firstTarget source (.char c) with
      | none => return (n, .error (.nothingToRepeat (.char c)))
      | some target =>
          let (n, _) ← n.addTransition target (.char c) target
          Traced.emit (.repeated c source target)
          return ({ n with current := target }, .ok ())

/-- Gives the state `exit` a copy of each of the given transitions. -/
def copyEdges (n : Nfa) (exit : Nat) (edges : List Nat) : Except Failure Nfa :=
  edges.foldlM (fun n t => do
    let edge ← n.transition t
    return (← n.addTransition exit edge.symbol edge.target).1) n

/-- Repeats a fragment any number of times: its entry becomes accepting, and
whatever leaves its entry through the fragment now leaves its exit as well. -/
def repeatFragment (n : Nfa) (fragment : Fragment) : Traced Nfa := do
  let n ← n.setAccepting fragment.entry true
  let n ← n.copyEdges fragment.exit fragment.edges
  Traced.emit (.fragmentRepeated fragment)
  return n

/-- Clears the outgoing list of `q`, then forgets those transitions at their
targets. -/
def clearOutgoing (n : Nfa) (q : Nat) : Except Failure Nfa := do
  let s ← n.state q
  let n ← n.modifyState q fun s => { s with outgoing := [] }
  s.outgoing.foldlM (fun n t => do n.modifyState (← n.transition t).target (·.removeIncoming t)) n

/-- Clears the incoming list of `q`, then forgets those transitions at their
sources. -/
def clearIncoming (n : Nfa) (q : Nat) : Except Failure Nfa := do
  let s ← n.state q
  let n ← n.modifyState q fun s => { s with incoming := [] }
  s.incoming.foldlM (fun n t => do n.modifyState (← n.transition t).source (·.removeOutgoing t)) n

/-- Unlinks `q` from the graph. The state and its transitions keep their
places in the arenas. -/
def deleteState (n : Nfa) (q : Nat) : Traced Nfa := do
  Traced.emit (.deleting q)
  let n ← n.clearOutgoing q
  n.clearIncoming q

end RegexAutomaton.Nfa
