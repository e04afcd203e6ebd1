import RegexAutomaton.Expression.Alphabet
import RegexAutomaton.Nfa.Isomorphism
import RegexAutomaton.Table.Text

namespace RegexAutomaton

/-- Epsilon, or one of the letters a to z. -/
def Symbol.Lettered : Symbol → Prop
  | epsilon => True
  | char c => Expression.isLetter c = true

instance : DecidablePred Symbol.Lettered
  | .epsilon => isTrue trivial
  | .char c => inferInstanceAs (Decidable (Expression.isLetter c = true))

namespace Nfa

/-- All transitions of the arena read a letter or nothing. -/
def Lettered (n : Nfa) : Prop :=
  ∀ t ∈ n.transitions, t.symbol.Lettered

instance (n : Nfa) : Decidable n.Lettered :=
  inferInstanceAs (Decidable (∀ t ∈ n.transitions, t.symbol.Lettered))

/-- From their starts on the automata are the same, with the same acceptance and the
same order of transitions. Automata without a start have nothing to differ in. -/
def Alike (n m : Nfa) : Prop :=
  match n.start, m.start with
  | some q, some r => n.Isomorphic q m r
  | none, none => True
  | _, _ => False

end Nfa

end RegexAutomaton
