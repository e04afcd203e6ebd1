import RegexAutomaton.Expression.Alternatives
import RegexAutomaton.Proofs.Patterns

namespace RegexAutomaton.Expression

variable {depth : Nat} {content rest : List Char}

namespace Pattern

/-- What stands behind the last bar. -/
def lastAlternative : Pattern → Pattern
  | empty | bar _ => empty
  | letter before c valid stars => letter before.lastAlternative c valid stars
  | group before content stars => group before.lastAlternative content stars

/-- What stands before each of the bars. -/
def closedAlternatives : Pattern → List Pattern
  | empty => []
  | letter before _ _ _ | group before _ _ => before.closedAlternatives
  | bar before => before.closedAlternatives ++ [before.lastAlternative]

def alternatives (p : Pattern) : List Pattern :=
  p.closedAlternatives ++ [p.lastAlternative]

theorem hasBar_lastAlternative (p : Pattern) : p.lastAlternative.hasBar = false := by
  induction p with
  | empty | bar => rfl
  | letter before c valid stars ih => exact ih
  | group before content stars ih _ => exact ih

theorem alternatives_of_single {t : Pattern} (single : t.hasBar = false) :
    t.alternatives = [t] := by
  have parts : t.closedAlternatives = [] ∧ t.lastAlternative = t := by
    induction t with
    | empty => exact ⟨rfl, rfl⟩
    | letter before c valid stars ih | group before content stars ih =>
        obtain ⟨closed, last⟩ := ih single
        exact ⟨closed, by rw [lastAlternative, last]⟩
    | bar => cases single
  rw [alternatives, parts.1, parts.2]
  rfl

end Pattern

theorem outerPartsFrom_nested (nested : Nested content) :
    outerPartsFrom (depth + 1) (content ++ rest) =
      (outerPartsFrom (depth + 1) rest).modifyHead (content ++ ·) := by
  induction nested generalizing depth rest with
  | nil => exact (congrFun List.modifyHead_id _).symm
  | plain notOpen notClose _ ih =>
      simp [outerPartsFrom, notOpen, notClose, ih, Function.comp_def]
  | group _ _ innerIH ih => simp [outerPartsFrom, innerIH, ih, Function.comp_def]

theorem outerPartsFrom_stars (stars : Nat) :
    outerPartsFrom 0 (List.replicate stars '*' ++ rest) =
      (outerPartsFrom 0 rest).modifyHead (List.replicate stars '*' ++ ·) := by
  induction stars with
  | zero => exact (congrFun List.modifyHead_id _).symm
  | succ stars ih => simp [List.replicate_succ, outerPartsFrom, ih, Function.comp_def]

theorem outerPartsFrom_text (p : Pattern) (rest : List Char) :
    outerPartsFrom 0 (p.text ++ rest) = p.closedAlternatives.map Pattern.text ++
      (outerPartsFrom 0 rest).modifyHead (p.lastAlternative.text ++ ·) := by
  induction p generalizing rest with
  | empty => exact (congrFun List.modifyHead_id _).symm
  | letter before c valid stars ih =>
      have plain := ne_brackets_of_isLetter valid
      simp [Pattern.text, Pattern.closedAlternatives, Pattern.lastAlternative, ih, outerPartsFrom,
        plain, outerPartsFrom_stars, Function.comp_def]
  | group before content stars ih _ =>
      simp [Pattern.text, Pattern.closedAlternatives, Pattern.lastAlternative, ih, outerPartsFrom,
        outerPartsFrom_stars, outerPartsFrom_nested (nested_text content), Function.comp_def]
  | bar before ih =>
      simp [Pattern.text, Pattern.closedAlternatives, Pattern.lastAlternative, ih, outerPartsFrom]
      exact (congrFun List.modifyHead_id _).symm

theorem outerParts_text (p : Pattern) : outerParts p.text = p.alternatives.map Pattern.text := by
  simpa [outerParts, outerPartsFrom, Pattern.alternatives] using outerPartsFrom_text p []

theorem hasBar_iff (p : Pattern) : p.hasBar = true ↔ 2 ≤ p.alternatives.length := by
  induction p with
  | empty => simp [Pattern.hasBar, Pattern.alternatives, Pattern.closedAlternatives]
  | letter before c valid stars ih =>
      simpa [Pattern.hasBar, Pattern.alternatives, Pattern.closedAlternatives] using ih
  | group before content stars ih _ =>
      simpa [Pattern.hasBar, Pattern.alternatives, Pattern.closedAlternatives] using ih
  | bar before => simp [Pattern.hasBar, Pattern.alternatives, Pattern.closedAlternatives]

end RegexAutomaton.Expression
