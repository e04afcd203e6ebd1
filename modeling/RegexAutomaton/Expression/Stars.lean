import RegexAutomaton.Expression.Alphabet
import RegexAutomaton.Expression.Matching

namespace RegexAutomaton.Expression

/-- A letter, or something in parentheses. -/
def IsAtom (chars : List Char) : Prop :=
  (∃ c, isLetter c = true ∧ chars = [c]) ∨
    ∃ content, Balanced content ∧ chars = '(' :: (content ++ [')'])

def HasLetter (chars : List Char) : Prop :=
  ∃ c ∈ chars, isLetter c = true

instance (chars : List Char) : Decidable (HasLetter chars) :=
  decidable_of_iff (chars.any isLetter) (by simp [HasLetter])

/-- A star repeats `atom`, which stands before the run of stars that it belongs to. -/
def Repeats (chars atom : List Char) : Prop :=
  IsAtom atom ∧ ∃ front stars back,
    chars = front ++ (atom ++ (List.replicate stars '*' ++ '*' :: back))

/-- A star between some parentheses and their partners repeats `atom`. -/
def RepeatsInside (chars atom : List Char) : Prop :=
  ∃ before content after,
    chars = before ++ '(' :: (content ++ ')' :: after) ∧ Balanced content ∧ Repeats content atom

end RegexAutomaton.Expression
