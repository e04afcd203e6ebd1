import RegexAutomaton.Nfa.Lookup
import RegexAutomaton.Nfa.Path

namespace RegexAutomaton.Nfa

/-- The transition between the images of its endpoints. -/
def relocated (place : Nat → Nat) (t : Transition) : Transition where
  symbol := t.symbol
  source := place t.source
  target := place t.target

/-- The given transitions under consecutive names from `base` on. -/
def numbered (base : Nat) (list : List Transition) : List (Nat × Transition) :=
  (list.zipIdx base).map Prod.swap

/-- The names, given from `base` on, of the transitions with the end `q`. -/
def named (endpoint : Transition → Nat) (q base : Nat) (list : List Transition) : List Nat :=
  ((numbered base list).filter fun (_, t) => endpoint t == q).map Prod.fst

/-- The new transitions between the images of states of `sub`. -/
def imports (sub : Nfa) (place : Nat → Nat) : List Transition :=
  sub.linked.map fun (_, t) => relocated place t

/-- The epsilons that lead from several accepting states to the state `join`. -/
def joints (sub : Nfa) (place : Nat → Nat) (join : Nat) : List Transition :=
  if 2 ≤ sub.acceptingStates.length then
    sub.acceptingStates.map fun q => { symbol := .epsilon, source := place q, target := join }
  else []

/-- The start of `sub` goes to the current state of `host`, its other states go behind
the states of `host` in their order. -/
structure Placement (host sub : Nfa) (start : Nat) (place : Nat → Nat) : Prop where
  place_start : place start = host.current
  place_other : ∀ p, p ≠ start → place p = host.stateCount + if p < start then p else p - 1
  place_lt : ∀ p < sub.stateCount, place p < host.stateCount + (sub.stateCount - 1)
  injective : ∀ p q, place p = place q → p = q

/-- The automaton `after` is `host` with `sub` attached to its current state: `place`
tells where the states of `sub` are, `join` is the state behind them, and `added` are
the new transitions. -/
structure Embedded (host sub : Nfa) (start : Nat) (place : Nat → Nat) (join : Nat)
    (added : List Transition) (after : Nfa) (fragment : Fragment) : Prop where
  placement : Placement host sub start place
  join_eq : join = host.stateCount + (sub.stateCount - 1)
  added_eq : added = sub.imports place ++ sub.joints place join
  stateCount_eq : after.stateCount = join + if 2 ≤ sub.acceptingStates.length then 1 else 0
  transitions_eq : after.transitions = host.transitions ++ added
  linked : host.linkedTransitions = .ok host.linked ∧ sub.linkedTransitions = .ok sub.linked ∧
    after.linkedTransitions = .ok (host.linked ++ numbered host.transitions.size added)
  outgoing : ∀ (q : Nat) (s : State), after.states[q]? = some s → s.outgoing =
    (host.states[q]?.getD {}).outgoing ++ named (·.source) q host.transitions.size added
  incoming : ∀ (q : Nat) (s : State), after.states[q]? = some s → s.incoming =
    (host.states[q]?.getD {}).incoming ++ named (·.target) q host.transitions.size added
  /-- The old states keep their acceptance, but for the one that is the image of the
  start. -/
  kept : ∀ q < host.stateCount, q ≠ host.current → (after.Accepting q ↔ host.Accepting q)
  /-- Of the images and the join, only the exit accepts. -/
  accepting : ∀ q, q = host.current ∨ host.stateCount ≤ q →
    (after.Accepting q ↔ q = fragment.exit ∧ ∃ p, sub.Accepting p)
  entry_eq : fragment.entry = host.current
  exit_eq : fragment.exit = match sub.acceptingStates with
    | [] => place sub.current
    | [exit] => place exit
    | _ => join
  edges_eq : fragment.edges =
    named (·.source) start host.transitions.size (sub.linked.map Prod.snd)
  start_eq : after.start = host.start
  current_eq : after.current = fragment.exit

end RegexAutomaton.Nfa
