import Mathlib.Data.List.Forall2
import RegexAutomaton.Nfa.Path
import RegexAutomaton.Table.Basic

namespace RegexAutomaton

/-- The start exists, and so does whatever a state lists or a transition leads to. -/
structure Nfa.Walkable (n : Nfa) : Prop where
  start_lt : ∀ q, n.start = some q → q < n.stateCount
  listed_lt : ∀ s ∈ n.states, ∀ id ∈ s.outgoing, id < n.transitions.size
  target_lt : ∀ t ∈ n.transitions, t.target < n.stateCount

/-- The row with this label is the one of state `q`. -/
def LabelOf (rows : List Row) (q label : Nat) : Prop :=
  ∃ row, rows[label]? = some row ∧ row.state = q

/-- The rows are the breadth-first enumeration of the states that the start reaches. Any graph
will do, with cycles, loops, parallel or unlinked transitions, as long as its references lead
somewhere. -/
structure BreadthFirst (n : Nfa) (start : Nat) (rows : List Row) : Prop where
  first : LabelOf rows start 0
  distinct : (rows.map (·.state)).Nodup
  complete (q : Nat) : q ∈ rows.map (·.state) ↔ n.Reaches start q
  label : ∀ (i : Nat) (row : Row), rows[i]? = some row → row.label = i
  start_iff : ∀ (i : Nat) (row : Row), rows[i]? = some row → (row.start = true ↔ i = 0)
  accepting_iff : ∀ row ∈ rows, row.accepting = true ↔ n.Accepting row.state
  /-- A row describes what its state lists, in that order. -/
  transitions : ∀ row ∈ rows, ∃ list, n.successors row.state = .ok list ∧
    List.Forall₂ (fun (symbol, q) (shown, label) => shown = symbol ∧ LabelOf rows q label)
      list row.transitions
  /-- Rows come by their distance from the start. -/
  sorted : ∃ distances : List Nat,
    List.Forall₂ (fun row steps => n.Distance start row.state steps) rows distances ∧
      distances.Pairwise (· ≤ ·)
  /-- Whoever reads the targets row by row meets every row but the first in turn:
  labels other than zero appear in increasing order, without a gap. -/
  discovery : (0 :: rows.flatMap (·.transitions.map Prod.snd)).eraseDups = List.range rows.length

end RegexAutomaton
