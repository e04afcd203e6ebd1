import RegexAutomaton.Nfa.Basic

namespace RegexAutomaton.Nfa

def lists (n : Nfa) (q : Nat) (t : Nat) : Bool :=
  n.states[q]?.any fun s => s.outgoing.contains t

/-- Those that their source lists. The arena keeps the others, but no walk along the lists
meets them. -/
def linked (n : Nfa) : List (Nat × Transition) :=
  (n.transitions.toList.zipIdx.filter fun (t, id) => n.lists t.source id).map Prod.swap

/-- The linked transitions by increasing identifier. Every transition of the
arena has to name an existing source, linked or not. -/
def linkedTransitions (n : Nfa) : Except Failure (List (Nat × Transition)) :=
  match n.transitions.find? fun t => n.stateCount ≤ t.source with
  | some t => .error (.fault (.state t.source))
  | none => .ok n.linked

def acceptingStates (n : Nfa) : List Nat :=
  (n.states.toList.zipIdx.filter fun (s, _) => s.accepting).map Prod.snd

/-- What can follow a state, in the order of its outgoing list. -/
def successors (n : Nfa) (q : Nat) : Except Failure (List (Symbol × Nat)) := do
  (← n.state q).outgoing.mapM fun id => do
    let t ← n.transition id
    return (t.symbol, t.target)

/-- The first of the given transitions that reads `symbol`. Those after it are
not looked at. -/
def firstWith (n : Nfa) (symbol : Symbol) : List Nat → Except Failure (Option Transition)
  | [] => .ok none
  | id :: rest => do
      let t ← n.transition id
      if t.symbol = symbol then return some t else n.firstWith symbol rest

/-- Where the oldest outgoing transition of `q` that reads `symbol` leads to. -/
def firstTarget (n : Nfa) (q : Nat) (symbol : Symbol) : Except Failure (Option Nat) := do
  return (← n.firstWith symbol (← n.state q).outgoing).map (·.target)

/-- Where the oldest incoming transition of `q` that reads `symbol` comes from. -/
def firstSource (n : Nfa) (q : Nat) (symbol : Symbol) : Except Failure (Option Nat) := do
  return (← n.firstWith symbol (← n.state q).incoming).map (·.source)

def reads (n : Nfa) (q : Nat) (symbol : Symbol) : Except Failure Bool := do
  return (← n.firstTarget q symbol).isSome

def hasSelfLoop (n : Nfa) (q : Nat) : Except Failure Bool := do
  (← n.state q).outgoing.anyM fun id => return (← n.transition id).isSelfLoop

end RegexAutomaton.Nfa
