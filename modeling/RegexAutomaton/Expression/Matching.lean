namespace RegexAutomaton.Expression

/-- The pairs of partners, and the parentheses without one. -/
structure Matching where
  pairs : List (Nat × Nat)
  lone : List Nat
deriving DecidableEq, Repr

/-- Matches the parentheses from `place` on. The free opening ones before it
are given latest first. -/
def matchFrom (place : Nat) (free : List Nat) : List Char → Matching
  | [] => { pairs := [], lone := free }
  | c :: rest =>
      if c = '(' then
        matchFrom (place + 1) (place :: free) rest
      else if c = ')' then
        match free with
        | [] =>
            let matching := matchFrom (place + 1) [] rest
            { matching with lone := place :: matching.lone }
        | opening :: free =>
            let matching := matchFrom (place + 1) free rest
            { matching with pairs := (opening, place) :: matching.pairs }
      else
        matchFrom (place + 1) free rest

/-- Each closing parenthesis takes the latest opening one that is still free as its partner. -/
def matching (chars : List Char) : Matching :=
  matchFrom 0 [] chars

def Partners (chars : List Char) (opening closing : Nat) : Prop :=
  (opening, closing) ∈ (matching chars).pairs

/-- Every parenthesis has a partner. -/
def Balanced (chars : List Char) : Prop :=
  (matching chars).lone = []

instance (chars : List Char) : Decidable (Balanced chars) :=
  inferInstanceAs (Decidable (_ = _))

/-- A star at the beginning, or right after an opening parenthesis or a bar. -/
def LoneStar (chars : List Char) (position : Nat) : Prop :=
  chars[position]? = some '*' ∧
    (position = 0 ∨ chars[position - 1]? = some '(' ∨ chars[position - 1]? = some '|')

/-- The place of a parenthesis without a partner, or of a star with nothing before it to
repeat. -/
def Faulty (chars : List Char) (position : Nat) : Prop :=
  position ∈ (matching chars).lone ∨ LoneStar chars position

end RegexAutomaton.Expression
