import RegexAutomaton.Nfa.Builder

namespace RegexAutomaton.Nfa

/-- The new place of state `q`, when the start goes to `entry` and the other
states are laid out from `base` on. -/
def image (base : Nat) (entry start q : Nat) : Nat :=
  if q = start then entry
  else if q < start then base + q
  else base + q - 1

/-- Adds unlinked states with the acceptance of the given ones. -/
def addCopies (n : Nfa) (states : Array State) : Nfa :=
  { n with states := n.states ++ states.map fun s => { accepting := s.accepting } }

/-- Takes the states of `sub` over. The current state receives the acceptance
of the start of `sub` when its turn comes. -/
def adoptStates (n sub : Nfa) (start : Nat) : Except Failure Nfa := do
  let s ← sub.state start
  let n := n.addCopies (sub.states.take start)
  let n ← n.setAccepting n.current s.accepting
  return n.addCopies (sub.states.drop (start + 1))

/-- Takes one transition of `sub` over, and remembers it among `edges` if it
leaves the start. -/
def adoptTransition (sub : Nfa) (start : Nat) (place : Nat → Nat)
    (n : Nfa) (edges : List Nat) (t : Transition) :
    Except Failure (Nfa × List Nat) := do
  let _ ← sub.state t.target
  let (n, id) ← n.addTransition (place t.source) t.symbol (place t.target)
  return (n, if t.source = start then edges ++ [id] else edges)

/-- Takes the linked transitions of `sub` over, and returns the new ones that
stem from its start. -/
def adoptTransitions (n sub : Nfa) (start : Nat) (place : Nat → Nat) :
    Except Failure (Nfa × List Nat) := do
  (← sub.linkedTransitions).foldlM
    (fun (n, edges) (_, t) => sub.adoptTransition start place n edges t) (n, [])

/-- Hands the acceptance of `q` over to the state `j`, through an epsilon. -/
def joinInto (j : Nat) (n : Nfa) (q : Nat) : Except Failure Nfa := do
  let n ← n.setAccepting q false
  return (← n.addTransition q .epsilon j).1

/-- Joins the given states into a fresh accepting one. -/
def join (n : Nfa) (exits : List Nat) : Except Failure (Nfa × Nat) := do
  let (n, j) := n.addState
  let n ← exits.foldlM (joinInto j) n
  return (← n.setAccepting j true, j)

/-- The single state in which an adopted automaton ends: its only accepting
state, a join of several, or its current state if none accepts. -/
def adoptExit (n sub : Nfa) (place : Nat → Nat) : Except Failure (Nfa × Nat) :=
  match sub.acceptingStates with
  | [] => do
      let _ ← sub.state sub.current
      return (n, place sub.current)
  | [exit] => return (n, place exit)
  | exits => n.join (exits.map place)

/-- Attaches `sub` to the current state and moves on to its exit. An automaton
whose start leads nowhere adds nothing. -/
def splice (n sub : Nfa) : Traced (Nfa × Fragment) := do
  let entry := n.current
  match sub.start with
  | none => throw (.build .detachedStart)
  | some start =>
      if (← sub.state start).outgoing.isEmpty then
        return (n, { entry, exit := entry, edges := [] })
      else
        let place := image n.stateCount entry start
        let n ← n.adoptStates sub start
        let (n, edges) ← n.adoptTransitions sub start place
        let (n, exit) ← n.adoptExit sub place
        Traced.emit (.spliced sub.stateCount entry exit)
        return ({ n with current := exit }, { entry, exit, edges })

end RegexAutomaton.Nfa
