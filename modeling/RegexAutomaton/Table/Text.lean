import RegexAutomaton.Table.Basic

namespace RegexAutomaton

namespace Row

def heading (row : Row) : String :=
  "State: " ++ labelText row.label
    ++ (if row.accepting then " (Accepting)" else "")
    ++ (if row.start then " (Start)" else "")
    ++ "\n"

def transitionLine : Symbol × Nat → String
  | (symbol, target) => "  Transition: " ++ symbol.text ++ " -> " ++ labelText target ++ "\n"

def text (row : Row) : String :=
  row.heading ++ String.join (row.transitions.map transitionLine)

end Row

/-- The texts of the rows, with a blank line between them. -/
def Table.text (table : Table) : String :=
  String.intercalate "\n" (table.rows.map Row.text)

namespace Row

def node (row : Row) : String :=
  "\t" ++ labelText row.label ++ " [label = \"" ++ labelText row.label ++ "\", shape = "
    ++ (if row.accepting then "doublecircle" else "circle") ++ "]\n"

def edge (label : Nat) : Symbol × Nat → String
  | (symbol, target) =>
      "\t" ++ labelText label ++ " -> " ++ labelText target
        ++ " [label = \"" ++ symbol.text ++ "\"]\n"

def edges (row : Row) : String :=
  String.join (row.transitions.map (edge row.label))

/-- A point with an arrow to the start. -/
def startMark (row : Row) : String :=
  "\tstart [shape = point]\n\tstart -> " ++ labelText row.label ++ "\n"

end Row

/-- The nodes first, then the mark of the start, then the edges. -/
def Table.digraph (table : Table) : String :=
  "digraph \x7b\n"
    ++ String.join (table.rows.map Row.node)
    ++ ((table.rows.find? (·.start)).map Row.startMark).getD ""
    ++ String.join (table.rows.map Row.edges)
    ++ "\x7d"

end RegexAutomaton
