import RegexAutomaton.Table.Traversal

namespace RegexAutomaton

/-- What a row says apart from the place of its state. -/
def Row.content (row : Row) : Nat × Bool × Bool × List (Symbol × Nat) :=
  (row.label, row.start, row.accepting, row.transitions)

instance : BEq Row :=
  ⟨fun a b => a.content == b.content⟩

/-- The rows of a complete walk. Tables are compared without the places of the states in the
arena. -/
structure Table where
  rows : List Row
deriving Repr, Inhabited

namespace Table

instance : BEq Table :=
  ⟨fun a b => a.rows == b.rows⟩

def length (table : Table) : Nat :=
  table.rows.length

def isEmpty (table : Table) : Bool :=
  table.rows.isEmpty

/-- The label of the state `q`, if it is reachable. -/
def label? (table : Table) (q : Nat) : Option Nat :=
  (table.rows.find? fun row => row.state == q).map (·.label)

theorem rows_beq_iff (first second : List Row) :
    (first == second) = true ↔ first.map Row.content = second.map Row.content := by
  induction first generalizing second with
  | nil => cases second <;> simp
  | cons row rows ih =>
      cases second with
      | nil => simp
      | cons other others =>
          have head : (row == other) = (row.content == other.content) := rfl
          simp [head, ih]

theorem beq_iff (first second : Table) :
    (first == second) = true ↔
      first.rows.map Row.content = second.rows.map Row.content :=
  rows_beq_iff first.rows second.rows

end Table

def Nfa.table (n : Nfa) : Except Failure Table := do
  return { rows := ← n.rows }

end RegexAutomaton
