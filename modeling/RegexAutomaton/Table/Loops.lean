import RegexAutomaton.Nfa.Path
import RegexAutomaton.Table.Basic

namespace RegexAutomaton

/-- The listed states are the reachable ones with a loop, and `labels` are their labels. -/
structure ListsLoops (n : Nfa) (table : Table) (loops labels : List Nat) : Prop where
  mem_iff : ∀ q, q ∈ loops ↔ n.Reachable q ∧ ∃ s, n.Step q s q
  distinct : loops.Nodup
  labeled : loops.map table.label? = labels.map some
  increasing : labels.Pairwise (· < ·)
  /-- In the row of a listed state stands its own label, and in no other row. -/
  shown : ∀ row ∈ table.rows, row.state ∈ loops ↔ ∃ s, (s, row.label) ∈ row.transitions

end RegexAutomaton
