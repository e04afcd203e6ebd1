import Mathlib.Computability.Language
import RegexAutomaton.Nfa.Path

namespace RegexAutomaton.Nfa

def language (n : Nfa) : Language Char :=
  { word | n.Accepts word }

theorem mem_language {n : Nfa} {word : List Char} :
    word ∈ n.language ↔ n.Accepts word :=
  Iff.rfl

/-- Without a start no word is accepted. -/
theorem language_of_detached {n : Nfa} (detached : n.start = none) : n.language = 0 := by
  ext word
  apply Iff.intro
  · intro accepts
    obtain ⟨start, _, _, attached, _⟩ := accepts
    rw [detached] at attached
    cases attached
  · exact fun absent => absent.elim

end RegexAutomaton.Nfa
