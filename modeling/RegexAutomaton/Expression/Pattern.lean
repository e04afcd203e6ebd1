import Mathlib.Computability.Language
import RegexAutomaton.Expression.Alphabet

namespace RegexAutomaton.Expression

/-- What a well-formed expression says, from left to right: each factor and each bar stands
after the pattern before it. A factor is a letter or a parenthesised pattern, with any number
of stars. The last alternative is the one that factors are added to, and a bar closes it. -/
inductive Pattern where
  /-- One alternative, without factors. -/
  | empty
  | letter (before : Pattern) (c : Char) (valid : isLetter c = true) (stars : Nat)
  | group (before content : Pattern) (stars : Nat)
  | bar (before : Pattern)

namespace Pattern

/-- The expression that is read as this pattern. -/
def text : Pattern → List Char
  | empty => []
  | letter before c _ stars => before.text ++ c :: List.replicate stars '*'
  | group before content stars =>
      before.text ++ '(' :: content.text ++ ')' :: List.replicate stars '*'
  | bar before => before.text ++ ['|']

/-- One star means any number of repetitions, and further stars add nothing. -/
def starred (stars : Nat) (factor : Language Char) : Language Char :=
  if stars = 0 then factor else KStar.kstar factor

/-- What the closed alternatives say together, and what the last one says. -/
def languages : Pattern → Language Char × Language Char
  | empty => (0, 1)
  | letter before c _ stars =>
      (before.languages.1, before.languages.2 * starred stars {[c]})
  | group before content stars =>
      (before.languages.1,
        before.languages.2 * starred stars (content.languages.1 + content.languages.2))
  | bar before => (before.languages.1 + before.languages.2, 1)

def language (p : Pattern) : Language Char :=
  p.languages.1 + p.languages.2

end Pattern

/-- Every star is followed by a star, a bar, a closing parenthesis, or
nothing. -/
def starsAreFinal : List Char → Bool
  | [] => true
  | c :: rest =>
      (c != '*' || rest.head?.all fun next => next == '*' || next == '|' || next == ')') &&
        starsAreFinal rest

end RegexAutomaton.Expression
