import RegexAutomaton.Nfa.Splice

namespace RegexAutomaton.Nfa

/-- All identifiers of the fragment name parts of `n`. -/
def HasFragment (n : Nfa) (fragment : Fragment) : Prop :=
  fragment.entry < n.stateCount ∧ fragment.exit < n.stateCount ∧
    ∀ t ∈ fragment.edges, t < n.transitions.size

/-- What runs of the builder on existing parts can lead to. A refused repetition leaves an
automaton as well, and counts. Identifiers given to an operation have to be in range; those it
takes from the automaton itself are not restricted. -/
inductive Built : Nfa → Prop where
  | new : Built .new
  | concatenate {n after : Nfa} {c : Char} {fragment : Fragment} :
      Built n → (n.concatenate c).outcome = .ok (after, fragment) → Built after
  | branch {n after : Nfa} {origin entry : Nat} :
      Built n → origin < n.stateCount →
      (n.branch origin).outcome = .ok (after, entry) → Built after
  | repeatLetter {n after : Nfa} {c : Char} {result : Except BuildError Unit} :
      Built n → (n.repeatLetter c).outcome = .ok (after, result) → Built after
  | repeatFragment {n after : Nfa} {fragment : Fragment} :
      Built n → n.HasFragment fragment →
      (n.repeatFragment fragment).outcome = .ok after → Built after
  | splice {n sub after : Nfa} {fragment : Fragment} :
      Built n → Built sub → (n.splice sub).outcome = .ok (after, fragment) → Built after
  | addTransition {n after : Nfa} {source target t : Nat} {symbol : Symbol} :
      Built n → source < n.stateCount → target < n.stateCount →
      n.addTransition source symbol target = .ok (after, t) → Built after
  | deleteState {n after : Nfa} {q : Nat} :
      Built n → q < n.stateCount → (n.deleteState q).outcome = .ok after → Built after
  | setAccepting {n after : Nfa} {q : Nat} {accepting : Bool} :
      Built n → q < n.stateCount → n.setAccepting q accepting = .ok after → Built after
  | detachStart {n : Nfa} : Built n → Built n.detachStart.1

end RegexAutomaton.Nfa
