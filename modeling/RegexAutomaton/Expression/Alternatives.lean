namespace RegexAutomaton.Expression

/-- The pieces between the bars outside all parentheses, `depth` of which are open
at first. A parenthesis that closes nothing is passed over. -/
def outerPartsFrom (depth : Nat) : List Char → List (List Char)
  | [] => [[]]
  | c :: rest =>
      if c = '(' then (outerPartsFrom (depth + 1) rest).modifyHead (c :: ·)
      else if c = ')' then (outerPartsFrom (depth - 1) rest).modifyHead (c :: ·)
      else if c = '|' ∧ depth = 0 then [] :: outerPartsFrom depth rest
      else (outerPartsFrom depth rest).modifyHead (c :: ·)

/-- There is one more part than there are outer bars. -/
def outerParts (chars : List Char) : List (List Char) :=
  outerPartsFrom 0 chars

/-- The characters outside all parentheses, `depth` of which are open at first. -/
def outsideFrom (depth : Nat) : List Char → List Char
  | [] => []
  | c :: rest =>
      if c = '(' then outsideFrom (depth + 1) rest
      else if c = ')' then outsideFrom (depth - 1) rest
      else if depth = 0 then c :: outsideFrom depth rest
      else outsideFrom depth rest

/-- Neither the parentheses nor anything between them. -/
def outside (chars : List Char) : List Char :=
  outsideFrom 0 chars

end RegexAutomaton.Expression
