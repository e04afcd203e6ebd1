import RegexAutomaton.Failure

namespace RegexAutomaton

/-- An automaton under construction. It never gives an identifier away twice: states and
transitions are added at the end and stay there, and unlinking only edits the lists of the
states. The next fragment is attached to `current`. -/
structure Nfa where
  states : Array State
  transitions : Array Transition
  /-- Absent once it has been detached. -/
  start : Option Nat
  current : Nat
deriving DecidableEq, Repr

namespace Nfa

/-- A single start state that accepts nothing. -/
def new : Nfa where
  states := #[{}]
  transitions := #[]
  start := some 0
  current := 0

instance : Inhabited Nfa := ⟨new⟩

/-- The number of allocated states, reachable or not. -/
def stateCount (n : Nfa) : Nat :=
  n.states.size

def state (n : Nfa) (q : Nat) : Except Failure State :=
  match n.states[q]? with
  | some s => .ok s
  | none => .error (.fault (.state q))

def transition (n : Nfa) (t : Nat) : Except Failure Transition :=
  match n.transitions[t]? with
  | some transition => .ok transition
  | none => .error (.fault (.transition t))

def modifyState (n : Nfa) (q : Nat) (change : State → State) : Except Failure Nfa :=
  if q < n.stateCount then
    .ok { n with states := n.states.modify q change }
  else
    .error (.fault (.state q))

def isAccepting (n : Nfa) (q : Nat) : Except Failure Bool := do
  return (← n.state q).accepting

def setAccepting (n : Nfa) (q : Nat) (accepting : Bool) : Except Failure Nfa :=
  n.modifyState q (·.setAccepting accepting)

/-- A state behind the others. Where automata are stored, identifiers have 32 bits, so the
new one is exact only below `2 ^ 32`. -/
def addState (n : Nfa) : Nfa × Nat :=
  ({ n with states := n.states.push {} }, n.stateCount)

/-- The new transition is listed last by both of its endpoints. Its identifier, too, is exact
only below `2 ^ 32`. -/
def addTransition (n : Nfa) (source : Nat) (symbol : Symbol) (target : Nat) :
    Except Failure (Nfa × Nat) := do
  let t := n.transitions.size
  let n := { n with transitions := n.transitions.push { symbol, source, target } }
  let n ← n.modifyState source (·.addOutgoing t)
  let n ← n.modifyState target (·.addIncoming t)
  return (n, t)

/-- Takes the start away, and returns it. -/
def detachStart (n : Nfa) : Nfa × Option Nat :=
  ({ n with start := none }, n.start)

end Nfa

end RegexAutomaton
