import Mathlib.Order.CompletePartialOrder
import RegexAutomaton.Proofs.Patterns

namespace RegexAutomaton.Expression.Pattern

/-- No letter and no bar at any depth. -/
def silent : Pattern → Bool
  | empty => true
  | letter .. => false
  | group before content _ => before.silent && content.silent
  | bar _ => false

/-- No factor of the last alternative leaves a trace. -/
def lastSilent : Pattern → Bool
  | empty | bar _ => true
  | letter .. => false
  | group before content _ => before.lastSilent && content.silent

/-- The letters on edges out of the start. -/
def heads : Pattern → Char → Bool
  | empty, _ | bar _, _ => false
  | letter before c _ _, d => if before.silent then c == d else before.heads d
  | group before content _, d => if before.silent then content.heads d else before.heads d

/-- The letters on edges out of the state behind the pattern: those with which
the last factor begins again, if it is starred. -/
def loops : Pattern → Char → Bool
  | empty, _ | bar _, _ => false
  | letter _ c _ stars, d => stars != 0 && c == d
  | group before content stars, d =>
      if content.silent then before.loops d else stars != 0 && content.heads d

/-- No starred letter stands behind a starred factor that begins with the same
letter. -/
def Fresh : Pattern → Prop
  | empty => True
  | letter before c _ stars => before.Fresh ∧ (stars ≠ 0 → before.loops c = false)
  | group before content _ => before.Fresh ∧ content.Fresh
  | bar before => before.Fresh

/-- One passage through the factor, or any further number if it is starred. -/
def passed (stars : Nat) (factor : Language Char) : Language Char :=
  if stars = 0 then factor else factor * KStar.kstar factor

/-- Where a path may stop before a factor with these stars. -/
def skipped (stars : Nat) (path : Language Char) : Language Char :=
  if stars = 0 then 0 else path

/-- The words accepted before the end of the last alternative, and those that lead to its end.
A star makes the state before its factor accepting, but what follows is attached behind the
factor: it has to be passed at least once to go on. -/
def said : Pattern → Language Char × Language Char
  | empty => (0, 1)
  | letter before c _ stars =>
      (before.said.1 + skipped stars before.said.2, before.said.2 * passed stars {[c]})
  | group before content stars =>
      if content.silent then before.said
      else
        (before.said.1 + skipped stars before.said.2,
          before.said.2 * passed stars (content.said.1 + content.said.2))
  | bar before => (before.said.1 + before.said.2, 1)

/-- Whether a star stands outside all groups. -/
def hasOuterStar : Pattern → Bool
  | empty => false
  | letter before _ _ stars | group before _ stars => before.hasOuterStar || stars != 0
  | bar before => before.hasOuterStar

/-- The language of the automaton. Without letters and bars it is a single
state, which only a star makes accepting. -/
def accepted (p : Pattern) : Language Char :=
  if p.silent then if p.hasOuterStar then 1 else 0
  else p.said.1 + p.said.2

/-- As `languages`, but a star means one repetition or more. -/
def plusLanguages : Pattern → Language Char × Language Char
  | empty => (0, 1)
  | letter before c _ stars =>
      (before.plusLanguages.1, before.plusLanguages.2 * passed stars {[c]})
  | group before content stars =>
      (before.plusLanguages.1,
        before.plusLanguages.2 * passed stars (content.plusLanguages.1 + content.plusLanguages.2))
  | bar before => (before.plusLanguages.1 + before.plusLanguages.2, 1)

/-- The words of the pattern in which no starred factor is skipped. -/
def plusLanguage (p : Pattern) : Language Char :=
  p.plusLanguages.1 + p.plusLanguages.2

theorem silent_eq (p : Pattern) : p.silent = (p.lastSilent && !p.hasBar) := by
  induction p with
  | empty => rfl
  | letter => rfl
  | group before content stars ih _ =>
      simp only [silent, lastSilent, hasBar, ih]
      cases before.lastSilent <;> cases before.hasBar <;> simp
  | bar => rfl

theorem hasBar_of_silent {p : Pattern} (silent : p.silent = true) : p.hasBar = false := by
  rw [silent_eq] at silent
  simp_all

theorem heads_of_silent {p : Pattern} (silent : p.silent = true) (c : Char) :
    p.heads c = false := by
  induction p with
  | empty | bar => rfl
  | letter => cases silent
  | group before content stars ih inside =>
      simp only [Pattern.silent, Bool.and_eq_true] at silent
      rw [heads, if_pos silent.1, inside silent.2]

/-- Behind a bar the start is left by epsilons only. -/
theorem hasBar_of_heads {p : Pattern} {c : Char} (heads : p.heads c = true) : p.hasBar = false := by
  induction p with
  | empty => rfl
  | letter before d valid stars ih | group before content stars ih =>
      rw [Pattern.heads] at heads
      rw [hasBar]
      split at heads
      · exact hasBar_of_silent ‹_›
      · exact ih heads
  | bar => cases heads

theorem loops_of_lastSilent {p : Pattern} (last : p.lastSilent = true) (c : Char) :
    p.loops c = false := by
  induction p with
  | empty | bar => rfl
  | letter => cases last
  | group before content stars ih _ =>
      simp only [lastSilent, Bool.and_eq_true] at last
      rw [loops, if_pos last.2, ih last.1]

/-- Something loud whose last alternative is silent has another one. -/
theorem several_of_lastSilent {p : Pattern} {several : Bool}
    (bars : several = false → p.hasBar = false) (loud : several = true ∨ p.silent = false)
    (last : p.lastSilent = true) : several = true := by
  rcases loud with several | loud
  · exact several
  · by_contra single
    rw [silent_eq, last, bars (by simpa using single)] at loud
    cases loud

/-- `after` has one more factor than `before`: with so many stars, this language,
and these letters to begin with. -/
structure Adds (before after : Pattern) (stars : Nat) (factor : Language Char)
    (first : Char → Bool) : Prop where
  silent : after.silent = false
  lastSilent : after.lastSilent = false
  heads (d : Char) : after.heads d = if before.silent then first d else before.heads d
  loops (d : Char) : after.loops d = (stars != 0 && first d)
  said : after.said = (before.said.1 + skipped stars before.said.2,
    before.said.2 * passed stars factor)

theorem adds_letter (before : Pattern) (c : Char) (valid : isLetter c = true) (stars : Nat) :
    Adds before (letter before c valid stars) stars {[c]} (c == ·) where
  silent := rfl
  lastSilent := rfl
  heads _ := rfl
  loops _ := rfl
  said := rfl

theorem adds_group (before : Pattern) {content : Pattern} (loud : content.silent = false)
    (stars : Nat) : Adds before (group before content stars) stars
      (content.said.1 + content.said.2) content.heads where
  silent := by simp [silent, loud]
  lastSilent := by simp [lastSilent, loud]
  heads _ := rfl
  loops d := by simp [loops, loud]
  said := by simp [said, loud]

theorem passed_mono {stars : Nat} {factor wider : Language Char} (le : factor ≤ wider) :
    passed stars factor ≤ passed stars wider := by
  rw [passed, passed]
  split
  · exact le
  · exact mul_le_mul' le (kstar_mono le)

theorem le_passed (stars : Nat) (factor : Language Char) : factor ≤ passed stars factor := by
  rw [passed]
  split
  · exact le_rfl
  · exact le_mul_of_one_le_right' one_le_kstar

theorem passed_le_starred (stars : Nat) (factor : Language Char) :
    passed stars factor ≤ starred stars factor := by
  rw [passed, starred]
  split
  · exact le_rfl
  · exact mul_kstar_le_kstar

theorem passed_one (stars : Nat) : passed stars 1 = 1 := by
  rw [passed]
  split
  · rfl
  · rw [kstar_one, one_mul]

theorem plusLanguages_of_silent {p : Pattern} (silent : p.silent = true) :
    p.plusLanguages = (0, 1) := by
  induction p with
  | empty => rfl
  | letter | bar => cases silent
  | group before content stars ih inside =>
      simp only [Pattern.silent, Bool.and_eq_true] at silent
      simp [plusLanguages, ih silent.1, inside silent.2, passed_one]

theorem plusLanguages_le_languages (p : Pattern) :
    p.plusLanguages.1 ≤ p.languages.1 ∧ p.plusLanguages.2 ≤ p.languages.2 := by
  induction p with
  | empty => exact ⟨le_rfl, le_rfl⟩
  | letter before c valid stars ih => exact ⟨ih.1, mul_le_mul' ih.2 (passed_le_starred stars _)⟩
  | group before content stars ih inside =>
      refine ⟨ih.1, mul_le_mul' ih.2 ?_⟩
      exact (passed_mono (add_le_add inside.1 inside.2)).trans (passed_le_starred stars _)
  | bar before ih => exact ⟨add_le_add ih.1 ih.2, le_rfl⟩

theorem plusLanguages_le_said (p : Pattern) :
    p.plusLanguages.1 ≤ p.said.1 ∧ p.plusLanguages.2 ≤ p.said.2 := by
  induction p with
  | empty => exact ⟨le_rfl, le_rfl⟩
  | letter before c valid stars ih =>
      exact ⟨ih.1.trans le_self_add, mul_le_mul' ih.2 le_rfl⟩
  | group before content stars ih inside =>
      cases quiet : content.silent with
      | true =>
          have nothing := plusLanguages_of_silent quiet
          simpa [plusLanguages, said, quiet, nothing, passed_one] using ih
      | false =>
          simp only [plusLanguages, said, quiet, Bool.false_eq_true, ↓reduceIte]
          exact ⟨ih.1.trans le_self_add,
            mul_le_mul' ih.2 (passed_mono (add_le_add inside.1 inside.2))⟩
  | bar before ih => exact ⟨add_le_add ih.1 ih.2, le_rfl⟩

theorem plusLanguage_le_language (p : Pattern) : p.plusLanguage ≤ p.language :=
  add_le_add (plusLanguages_le_languages p).1 (plusLanguages_le_languages p).2

theorem plusLanguage_le_accepted {p : Pattern} (loud : p.silent = false) :
    p.plusLanguage ≤ p.accepted := by
  rw [accepted, loud]
  exact add_le_add (plusLanguages_le_said p).1 (plusLanguages_le_said p).2

end RegexAutomaton.Expression.Pattern
