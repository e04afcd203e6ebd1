import RegexAutomaton.Expression.Pattern
import RegexAutomaton.Proofs.Nesting

namespace RegexAutomaton.Expression

namespace Pattern

/-- Whether there is more than one alternative. -/
def hasBar : Pattern → Bool
  | empty => false
  | letter before _ _ _ => before.hasBar
  | group before _ _ => before.hasBar
  | bar _ => true

/-- Whether the last alternative has no factor. -/
def isOpen : Pattern → Bool
  | empty | bar _ => true
  | letter .. | group .. => false

/-- The pattern with one more star on its last factor, if it has one. -/
def addStar : Pattern → Pattern
  | empty => empty
  | letter before c valid stars => letter before c valid (stars + 1)
  | group before content stars => group before content (stars + 1)
  | bar before => bar before

theorem text_group (before content : Pattern) (stars : Nat) :
    (group before content stars).text =
      before.text ++ '(' :: (content.text ++ ')' :: List.replicate stars '*') := by
  simp [text]

theorem text_addStar {p : Pattern} (closed : p.isOpen = false) :
    p.addStar.text = p.text ++ ['*'] := by
  cases p <;> simp_all [isOpen, addStar, text, List.replicate_succ']

end Pattern

variable {depth k : Nat} {p : Pattern} {chars rest : List Char} {prev : Char}

theorem ne_brackets_of_isLetter {c : Char} (letter : isLetter c = true) :
    c ≠ '(' ∧ c ≠ ')' ∧ c ≠ '*' ∧ c ≠ '|' := by
  refine ⟨?_, ?_, ?_, ?_⟩ <;> rintro rfl <;> exact absurd letter (by decide)

theorem nested_stars (stars : Nat) : Nested (List.replicate stars '*') := by
  induction stars with
  | zero => exact .nil
  | succ stars ih => exact .plain (by decide) (by decide) ih

theorem nested_text (p : Pattern) : Nested p.text := by
  induction p with
  | empty => exact .nil
  | letter before c valid stars ih =>
      have plain := ne_brackets_of_isLetter valid
      exact ih.append (.plain plain.1 plain.2.1 (nested_stars stars))
  | group before content stars ih inside =>
      rw [Pattern.text_group]
      exact ih.append (.group inside (nested_stars stars))
  | bar before ih => exact ih.append (.plain (by decide) (by decide) .nil)

theorem hasOuterBarFrom_stars (stars : Nat) :
    hasOuterBarFrom 0 (List.replicate stars '*' ++ rest) = hasOuterBarFrom 0 rest := by
  induction stars with
  | zero => rfl
  | succ stars ih => simpa [List.replicate_succ, hasOuterBarFrom] using ih

theorem hasOuterBarFrom_text (p : Pattern) (rest : List Char) :
    hasOuterBarFrom 0 (p.text ++ rest) = (p.hasBar || hasOuterBarFrom 0 rest) := by
  induction p generalizing rest with
  | empty => rfl
  | letter before c valid stars ih =>
      have plain := ne_brackets_of_isLetter valid
      simp [Pattern.text, Pattern.hasBar, ih, hasOuterBarFrom, plain, hasOuterBarFrom_stars]
  | group before content stars ih _ =>
      simp [Pattern.text, Pattern.hasBar, ih, hasOuterBarFrom, hasOuterBarFrom_stars,
        hasOuterBarFrom_nested (nested_text content)]
  | bar before ih => simp [Pattern.text, Pattern.hasBar, ih, hasOuterBarFrom]

theorem hasOuterBar_text (p : Pattern) : hasOuterBar p.text = p.hasBar := by
  simpa [hasOuterBar, hasOuterBarFrom] using hasOuterBarFrom_text p []

/-- A star with nothing to repeat, when the text is preceded by `prev`. -/
def LoneAfter (prev : Char) (chars : List Char) (k : Nat) : Prop :=
  chars[k]? = some '*' ∧ ((prev :: chars)[k]? = some '(' ∨ (prev :: chars)[k]? = some '|')

theorem loneStar_iff : LoneStar chars k ↔ LoneAfter '(' chars k := by
  cases k <;> simp [LoneStar, LoneAfter]

/-- The last of some characters that follow `prev`. -/
def lastFrom (prev : Char) (chars : List Char) : Char :=
  chars.foldl (fun _ c => c) prev

theorem loneAfter_append_left (inside : k < chars.length) :
    LoneAfter prev (chars ++ rest) k ↔ LoneAfter prev chars k := by
  unfold LoneAfter
  rw [List.getElem?_append_left inside, ← List.cons_append,
    List.getElem?_append_left (by simp; omega)]

theorem loneAfter_append_right :
    LoneAfter prev (chars ++ rest) (chars.length + k) ↔ LoneAfter (lastFrom prev chars) rest k := by
  induction chars generalizing prev with
  | nil => simp [lastFrom]
  | cons c chars ih =>
      have shift : LoneAfter prev (c :: (chars ++ rest)) ((c :: chars).length + k) ↔
          LoneAfter c (chars ++ rest) (chars.length + k) := by
        unfold LoneAfter
        rw [List.length_cons, Nat.add_right_comm, List.getElem?_cons_succ, List.getElem?_cons_succ]
      rw [List.cons_append, shift, ih]
      rfl

/-- Stars after a letter, a closing parenthesis or another star have an operand. -/
theorem not_loneAfter_stars (repeatable : prev ≠ '(' ∧ prev ≠ '|') (stars : Nat) :
    ¬ LoneAfter prev (List.replicate stars '*') k := by
  intro lone
  obtain ⟨_, before⟩ := lone
  cases k with
  | zero => simp_all
  | succ k =>
      rw [List.getElem?_cons_succ, List.getElem?_replicate] at before
      split at before <;> simp at before

theorem not_loneAfter_text (p : Pattern) (prev : Char) (k : Nat) : ¬ LoneAfter prev p.text k := by
  -- A factor begins with no star, whatever stands before it; so `prev` is free.
  induction p generalizing prev k with
  | empty => simp [LoneAfter, Pattern.text]
  | letter before c valid stars ih =>
      have plain := ne_brackets_of_isLetter valid
      rw [Pattern.text]
      by_cases early : k < before.text.length
      · rw [loneAfter_append_left early]
        exact ih prev k
      · obtain ⟨k, rfl⟩ := Nat.exists_eq_add_of_le (Nat.le_of_not_lt early)
        rw [loneAfter_append_right]
        cases k with
        | zero => exact fun lone => plain.2.2.1 (by simpa using lone.1)
        | succ k => exact not_loneAfter_stars ⟨plain.1, plain.2.2.2⟩ stars
  | group before content stars ih inside =>
      rw [Pattern.text_group]
      by_cases early : k < before.text.length
      · rw [loneAfter_append_left early]
        exact ih prev k
      · obtain ⟨k, rfl⟩ := Nat.exists_eq_add_of_le (Nat.le_of_not_lt early)
        rw [loneAfter_append_right]
        cases k with
        | zero => exact fun lone => by simpa using lone.1
        | succ k =>
            by_cases early : k < content.text.length
            · exact fun lone => inside '(' k ((loneAfter_append_left early).mp lone)
            · obtain ⟨k, rfl⟩ := Nat.exists_eq_add_of_le (Nat.le_of_not_lt early)
              intro lone
              have behind := loneAfter_append_right.mp (show LoneAfter '(' _ _ from lone)
              cases k with
              | zero => simpa using behind.1
              | succ k => exact not_loneAfter_stars (by decide) stars behind
  | bar before ih =>
      rw [Pattern.text]
      by_cases early : k < before.text.length
      · rw [loneAfter_append_left early]
        exact ih prev k
      · obtain ⟨k, rfl⟩ := Nat.exists_eq_add_of_le (Nat.le_of_not_lt early)
        rw [loneAfter_append_right]
        cases k with
        | zero => exact fun lone => by simpa using lone.1
        | succ k => exact fun lone => by simpa using lone.1

/-- A pattern without a factor in its last alternative ends so that no star can
follow. -/
theorem lastFrom_text_of_isOpen (isOpen : p.isOpen = true) :
    lastFrom '(' p.text = '(' ∨ lastFrom '(' p.text = '|' := by
  cases p with
  | empty => exact .inl rfl
  | bar before => exact .inr (by simp [lastFrom, Pattern.text])
  | letter => cases isOpen
  | group => cases isOpen

namespace Pattern

/-- How a pattern ends: with its text without the last character, and that character. -/
inductive Ending : Pattern → List Char → Char → Prop where
  | bar (before : Pattern) : Ending (bar before) before.text '|'
  | letter (before : Pattern) (c : Char) (valid : isLetter c = true) :
      Ending (letter before c valid 0) before.text c
  | group (before content : Pattern) :
      Ending (group before content 0) (before.text ++ '(' :: content.text) ')'
  | star (once : Pattern) : once.isOpen = false → Ending once.addStar once.text '*'

theorem Ending.text {p : Pattern} {init : List Char} {c : Char} (ending : Ending p init c) :
    p.text = init ++ [c] := by
  cases ending with
  | bar | letter => rfl
  | group before content => simp [Pattern.text]
  | star once closed => exact text_addStar closed

theorem ending_exists (p : Pattern) : p = empty ∨ ∃ init c, Ending p init c := by
  cases p with
  | empty => exact .inl rfl
  | bar before => exact .inr ⟨_, _, .bar before⟩
  | letter before c valid stars =>
      cases stars with
      | zero => exact .inr ⟨_, _, .letter before c valid⟩
      | succ stars => exact .inr ⟨_, _, .star (letter before c valid stars) rfl⟩
  | group before content stars =>
      cases stars with
      | zero => exact .inr ⟨_, _, .group before content⟩
      | succ stars => exact .inr ⟨_, _, .star (group before content stars) rfl⟩

/-- Patterns that end in the same way differ in smaller patterns, if at all. -/
theorem eq_of_ending {p q : Pattern} {init init' : List Char} {c c' : Char}
    (first : Ending p init c) (second : Ending q init' c') (starts : init = init') (ends : c = c')
    (smaller : ∀ r r' : Pattern, r.text.length ≤ init.length → r.text = r'.text → r = r') :
    p = q := by
  cases first with
  | bar before =>
      cases second with
      | bar before' => rw [smaller before before' (Nat.le_refl _) starts]
      | letter _ _ valid => exact absurd ends.symm (ne_brackets_of_isLetter valid).2.2.2
      | group | star => exact absurd ends (by decide)
  | letter before c valid =>
      have plain := ne_brackets_of_isLetter valid
      cases second with
      | letter before' =>
          subst ends
          rw [smaller before before' (Nat.le_refl _) starts]
      | bar => exact absurd ends plain.2.2.2
      | group => exact absurd ends plain.2.1
      | star => exact absurd ends plain.2.2.1
  | group before content =>
      cases second with
      | group before' content' =>
          obtain ⟨outside, inside⟩ := nested_split (nested_text before) (nested_text content)
            (nested_text before') (nested_text content') starts
          rw [smaller before before' (by simp) outside,
            smaller content content' (by simp; omega) inside]
      | letter _ _ valid => exact absurd ends.symm (ne_brackets_of_isLetter valid).2.1
      | bar | star => exact absurd ends (by decide)
  | star once closed =>
      cases second with
      | star once' closed' => rw [smaller once once' (Nat.le_refl _) starts]
      | letter _ _ valid => exact absurd ends.symm (ne_brackets_of_isLetter valid).2.2.1
      | bar | group => exact absurd ends (by decide)

/-- No expression can be read in two ways. -/
theorem text_injective {p q : Pattern} (same : p.text = q.text) : p = q := by
  induction size : p.text.length using Nat.strong_induction_on generalizing p q with
  | _ length ih =>
      rcases ending_exists p with rfl | ⟨init, c, first⟩
      · rcases ending_exists q with rfl | ⟨init', c', second⟩
        · rfl
        · rw [second.text] at same
          simp [Pattern.text] at same
      · rcases ending_exists q with rfl | ⟨init', c', second⟩
        · rw [first.text] at same
          simp [Pattern.text] at same
        · have split := same
          rw [first.text, second.text] at split
          obtain ⟨starts, ends⟩ := List.append_inj' split rfl
          refine eq_of_ending first second starts (by simpa using ends) fun r r' bound equal => ?_
          refine ih r.text.length ?_ equal rfl
          rw [← size, first.text, List.length_append]
          exact Nat.lt_succ_of_le bound

end Pattern

end RegexAutomaton.Expression
