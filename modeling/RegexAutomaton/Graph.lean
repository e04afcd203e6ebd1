import RegexAutomaton.Symbol

namespace RegexAutomaton

/-- An edge between two states. It is known by its place in the arena alone: two transitions
with the same symbol and endpoints may coexist. -/
structure Transition where
  symbol : Symbol
  source : Nat
  target : Nat
deriving DecidableEq, Repr, Inhabited

def Transition.isSelfLoop (t : Transition) : Bool :=
  t.source == t.target

/-- A state lists its transitions in the order in which they were added. -/
structure State where
  accepting : Bool := false
  outgoing : List Nat := []
  incoming : List Nat := []
deriving DecidableEq, Repr, Inhabited

namespace State

def setAccepting (accepting : Bool) (s : State) : State :=
  { s with accepting }

def addOutgoing (t : Nat) (s : State) : State :=
  { s with outgoing := s.outgoing ++ [t] }

def addIncoming (t : Nat) (s : State) : State :=
  { s with incoming := s.incoming ++ [t] }

def removeOutgoing (t : Nat) (s : State) : State :=
  { s with outgoing := s.outgoing.filter (· != t) }

def removeIncoming (t : Nat) (s : State) : State :=
  { s with incoming := s.incoming.filter (· != t) }

end State

/-- What a single construction step added: it is attached at `entry`, ends in
`exit`, and leaves `entry` through `edges`. -/
structure Fragment where
  entry : Nat
  exit : Nat
  edges : List Nat
deriving DecidableEq, Repr, Inhabited

end RegexAutomaton
