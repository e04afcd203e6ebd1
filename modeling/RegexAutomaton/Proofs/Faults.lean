import RegexAutomaton.Proofs.Reading

namespace RegexAutomaton.Expression

open Nfa Progress

/-- Behind `p`, reading is stuck at place `k` of the rest. -/
inductive Stuck : Pattern → List Char → Nat → Prop where
  | close {p : Pattern} {rest : List Char} : Stuck p (')' :: rest) 0
  | star {p : Pattern} {rest : List Char} : p.isOpen = true → Stuck p ('*' :: rest) 0
  | unclosed {p : Pattern} {rest : List Char} :
      closing? ('(' :: rest) 0 = .ok none → Stuck p ('(' :: rest) 0
  | inside {p q : Pattern} {inner rest : List Char} {k : Nat} :
      Nested (q.text ++ inner) → Stuck q inner k →
      Stuck p ('(' :: (q.text ++ inner ++ ')' :: rest)) (q.text.length + k + 1)

variable {p : Pattern} {progress : Progress} {chars rest : List Char} {c prev : Char}
  {j k position : Nat}

theorem isValidCharacter_iff : isValidCharacter c = true ↔
    isLetter c = true ∨ c = '(' ∨ c = ')' ∨ c = '*' ∨ c = '|' := by
  simp [isValidCharacter, or_assoc]

theorem read_from (p : Pattern) (rest : List Char)
    (valid : ∀ c ∈ rest, isValidCharacter c = true) :
    ∃ q remaining, p.text ++ rest = q.text ++ remaining ∧
      (remaining = [] ∨ ∃ k, Stuck q remaining k) := by
  -- Strong induction: the content of a group is read from the empty pattern.
  induction size : rest.length using Nat.strong_induction_on generalizing p rest with
  | _ length ih =>
      cases rest with
      | nil => exact ⟨p, [], rfl, .inl rfl⟩
      | cons c rest =>
          have shorter : rest.length < length := by simp [← size]
          have later : ∀ d ∈ rest, isValidCharacter d = true := fun d member =>
            valid d (List.mem_cons_of_mem c member)
          have step : ∀ next : Pattern, next.text = p.text ++ [c] → ∃ q remaining,
              p.text ++ c :: rest = q.text ++ remaining ∧
                (remaining = [] ∨ ∃ k, Stuck q remaining k) := by
            intro next text
            obtain ⟨q, remaining, same, done⟩ := ih _ shorter next rest later rfl
            refine ⟨q, remaining, ?_, done⟩
            rw [← same, text, List.append_assoc, List.singleton_append]
          rcases isValidCharacter_iff.mp (valid c (by simp)) with letter | rfl | rfl | rfl | rfl
          · exact step (.letter p c letter 0) rfl
          · obtain ⟨answer, closing⟩ := closingFrom_exists 0 1 rest
            rw [← closing?_eq] at closing
            cases answer with
            | none => exact ⟨p, _, rfl, .inr ⟨0, .unclosed closing⟩⟩
            | some place =>
                obtain ⟨content, after, rfl, _, nested⟩ := closing?_some closing
                have inner_valid : ∀ d ∈ content, isValidCharacter d = true := fun d member =>
                  later d (by simp [member])
                have after_valid : ∀ d ∈ after, isValidCharacter d = true := fun d member =>
                  later d (by simp [member])
                simp only [List.length_append, List.length_cons] at shorter
                obtain ⟨q, inner, rfl, done⟩ : ∃ q inner, content = Pattern.text q ++ inner ∧
                    (inner = [] ∨ ∃ k, Stuck q inner k) :=
                  ih content.length (by omega) .empty content inner_valid rfl
                rcases done with rfl | ⟨k, stuck⟩
                · obtain ⟨r, remaining, same, done⟩ :=
                    ih after.length (by omega) (.group p q 0) after after_valid rfl
                  refine ⟨r, remaining, ?_, done⟩
                  rw [← same]
                  simp [Pattern.text]
                · exact ⟨p, _, rfl, .inr ⟨_, .inside nested stuck⟩⟩
          · exact ⟨p, _, rfl, .inr ⟨0, .close⟩⟩
          · cases isOpen : p.isOpen with
            | true => exact ⟨p, _, rfl, .inr ⟨0, .star isOpen⟩⟩
            | false => exact step p.addStar (Pattern.text_addStar isOpen)
          · exact step (.bar p) rfl

theorem read_exists (valid : ∀ c ∈ chars, isValidCharacter c = true) :
    ∃ p rest, chars = Pattern.text p ++ rest ∧ (rest = [] ∨ ∃ k, Stuck p rest k) :=
  read_from .empty chars valid

theorem loneAfter_cons :
    LoneAfter prev (c :: chars) (k + 1) ↔ LoneAfter c chars k := by
  simp [LoneAfter]

theorem LoneAfter.lt (lone : LoneAfter prev chars k) : k < chars.length :=
  (List.getElem?_eq_some_iff.mp lone.1).1

namespace Stuck

theorem lt (stuck : Stuck p rest k) : k < rest.length := by
  induction stuck with
  | close | star | unclosed => simp
  | inside _ _ ih =>
      simp only [List.length_cons, List.length_append]
      omega

/-- Parentheses do not stop reading inside a closed group, so a star does. -/
theorem loneAfter (stuck : Stuck p rest k) (nested : Nested (p.text ++ rest)) :
    LoneAfter '(' (p.text ++ rest) (p.text.length + k) := by
  have balanced := balanced_of_nested nested
  induction stuck with
  | @close p rest =>
      have lone := mem_lone_close (nested_text p) rest
      rw [balanced] at lone
      cases lone
  | @unclosed p rest unclosed =>
      have lone := mem_lone_unclosed (nested_text p) unclosed
      rw [balanced] at lone
      cases lone
  | star isOpen =>
      rw [loneAfter_append_right]
      exact ⟨rfl, by simpa using lastFrom_text_of_isOpen isOpen⟩
  | inside within _ ih =>
      have inner := ih within (balanced_of_nested within)
      rw [loneAfter_append_right, loneAfter_cons, loneAfter_append_left inner.lt]
      exact inner

theorem faulty (stuck : Stuck p rest k) : Faulty (p.text ++ rest) (p.text.length + k) := by
  cases stuck with
  | close => exact .inl (mem_lone_close (nested_text p) _)
  | unclosed unclosed => exact .inl (mem_lone_unclosed (nested_text p) unclosed)
  | star isOpen =>
      refine .inr (loneStar_iff.mpr ?_)
      rw [loneAfter_append_right]
      exact ⟨rfl, by simpa using lastFrom_text_of_isOpen isOpen⟩
  | inside within stuck =>
      have inner := stuck.loneAfter within
      refine .inr (loneStar_iff.mpr ?_)
      rw [loneAfter_append_right, loneAfter_cons, loneAfter_append_left inner.lt]
      exact inner

theorem not_loneAfter (stuck : Stuck p rest k) (before : j < p.text.length + k) :
    ¬ LoneAfter prev (p.text ++ rest) j := by
  induction stuck generalizing j prev with
  | close | star | unclosed =>
      rw [loneAfter_append_left before]
      exact not_loneAfter_text _ prev j
  | @inside p q inner rest k nested stuck ih =>
      by_cases early : j < p.text.length
      · rw [loneAfter_append_left early]
        exact not_loneAfter_text p prev j
      · obtain ⟨i, rfl⟩ := Nat.exists_eq_add_of_le (Nat.le_of_not_lt early)
        rw [loneAfter_append_right]
        cases i with
        | zero => exact fun lone => by simpa using lone.1
        | succ i =>
            have inner_lt := stuck.lt
            have early : i < (q.text ++ inner).length := by
              rw [List.length_append]
              omega
            rw [loneAfter_cons, loneAfter_append_left early]
            exact ih (by omega)

theorem le_of_mem_lone (stuck : Stuck p rest k) (lone : j ∈ (matching (p.text ++ rest)).lone) :
    p.text.length + k ≤ j := by
  rw [matching, lone_nested (nested_text p)] at lone
  cases stuck with
  | close | star | unclosed =>
      rcases mem_lone lone with free | ⟨lower, _⟩
      · cases free
      · omega
  | inside within stuck =>
      have inner_lt := stuck.lt
      rw [show ∀ content after : List Char, '(' :: (content ++ ')' :: after) =
        '(' :: (content ++ [')']) ++ after by simp, lone_nested within.wrapped] at lone
      rcases mem_lone lone with free | ⟨lower, _⟩
      · cases free
      · simp only [List.length_cons, List.length_append, List.length_nil] at lower
        omega

/-- The place where reading is stuck is the first faulty one. -/
theorem isLeast (stuck : Stuck p rest k) :
    IsLeast { j | Faulty (p.text ++ rest) j } (p.text.length + k) := by
  refine ⟨stuck.faulty, ?_⟩
  intro j faulty
  rcases faulty with lone | star
  · exact stuck.le_of_mem_lone lone
  · exact Nat.le_of_not_lt fun before => stuck.not_loneAfter before (loneStar_iff.mp star)

end Stuck

theorem not_faulty_text (p : Pattern) (k : Nat) : ¬ Faulty p.text k := by
  intro faulty
  rcases faulty with lone | star
  · rw [balanced_of_nested (nested_text p)] at lone
    cases lone
  · exact not_loneAfter_text p '(' k (loneStar_iff.mp star)

/-- What is wrong with a faulty `c`. -/
def complaint (c : Char) (position : Nat) : ExpressionError :=
  if c = '*' then .nothingToRepeat position else .unbalancedParentheses position

theorem compileFrom_stuck (position : Nat) (stuck : Stuck p rest k) (sound : progress.Sound)
    (reads : progress.last.isSome = !p.isOpen) : ∃ c, rest[k]? = some c ∧
      (c = '*' ∨ c = '(' ∨ c = ')') ∧ (compileFrom position progress rest).outcome =
        .error (.expression (complaint c (position + k))) := by
  induction stuck generalizing progress position with
  | close => exact ⟨')', rfl, by simp, compileFrom_close⟩
  | unclosed unclosed => exact ⟨'(', rfl, by simp, compileFrom_unclosed unclosed⟩
  | star isOpen =>
      have none : progress.last = none := by simpa [isOpen] using reads
      refine ⟨'*', rfl, by simp, ?_⟩
      rw [compileFrom_star, star_none none, error_bind]
      rfl
  | @inside p q inner rest k within stuck ih =>
      have opened_sound := Sound.opened (hasOuterBar (q.text ++ inner))
      obtain ⟨c, found, faulty, failed⟩ := ih (position + 1 + q.text.length)
        (through_sound q _ opened_sound) (last_through q _ (opened_last _))
      have inner_lt := stuck.lt
      refine ⟨c, ?_, faulty, ?_⟩
      · rw [List.getElem?_cons_succ, List.append_assoc, List.getElem?_append_right (by omega),
          Nat.add_sub_cancel_left, List.getElem?_append_left inner_lt, found]
      · rw [compileFrom_group within, compileFrom_text q _ _ opened_sound, failed, error_bind]
        congr 3
        omega

/-- Valid characters make up the text of a pattern, or compilation fails at the
first fault. -/
theorem compileChars_exists (valid : ∀ c ∈ chars, isValidCharacter c = true) :
    (∃ p, chars = Pattern.text p ∧ (compileChars chars).outcome = .ok (compiled p)) ∨
      ∃ k c, IsLeast { j | Faulty chars j } k ∧ chars[k]? = some c ∧
        (c = '*' ∨ c = '(' ∨ c = ')') ∧
        (compileChars chars).outcome = .error (.expression (complaint c k)) := by
  obtain ⟨p, rest, rfl, rfl | ⟨k, stuck⟩⟩ := read_exists valid
  · rw [List.append_nil]
    exact .inl ⟨p, rfl, compileChars_text p⟩
  · have sound := Sound.opened (hasOuterBar (p.text ++ rest))
    obtain ⟨c, found, faulty, failed⟩ := compileFrom_stuck (0 + p.text.length) stuck
      (through_sound _ _ sound) (last_through p _ (opened_last _))
    refine .inr ⟨p.text.length + k, c, stuck.isLeast, ?_, faulty, ?_⟩
    · rw [List.getElem?_append_right (Nat.le_add_right ..), Nat.add_sub_cancel_left, found]
    · simp only [compileChars, Traced.outcome_bind, opening_eq, ok_bind, compileFrom_text p _ _ sound]
      rw [failed, Nat.zero_add]

def AllValid (chars : List Char) : Prop :=
  ∀ c ∈ chars, isValidCharacter c = true

/-- What is wrong with an expression, and where it first is. -/
def Refused (e : String) : ExpressionError → Prop
  | .empty => e = ""
  | .invalidCharacter c k => e.toList[k]? = some c ∧ isValidCharacter c = false ∧
      ∀ j d, j < k → e.toList[j]? = some d → isValidCharacter d = true
  | .unbalancedParentheses k => AllValid e.toList ∧ IsLeast { j | Faulty e.toList j } k ∧
      (e.toList[k]? = some '(' ∨ e.toList[k]? = some ')')
  | .nothingToRepeat k => AllValid e.toList ∧ IsLeast { j | Faulty e.toList j } k ∧
      e.toList[k]? = some '*'

theorem firstInvalid?_none : firstInvalid? chars = none ↔ AllValid chars := by
  simp only [firstInvalid?, List.find?_eq_none, AllValid, Prod.forall,
    List.mk_mem_zipIdx_iff_getElem?, Bool.not_eq_true', Bool.not_eq_false]
  apply Iff.intro
  · intro none c member
    obtain ⟨k, found⟩ := List.mem_iff_getElem?.mp member
    exact none c k found
  · exact fun valid c k found => valid c (List.mem_of_getElem? found)

theorem firstInvalid?_some : firstInvalid? chars = some (c, k) ↔
    chars[k]? = some c ∧ isValidCharacter c = false ∧
      ∀ j d, j < k → chars[j]? = some d → isValidCharacter d = true := by
  simp only [firstInvalid?, List.find?_eq_some_iff_getElem, List.getElem_zipIdx,
    List.length_zipIdx, Nat.zero_add, Prod.mk.injEq, Bool.not_eq_true', Bool.not_not]
  apply Iff.intro
  · intro first
    obtain ⟨invalid, i, i_lt, ⟨here, rfl⟩, before⟩ := first
    refine ⟨List.getElem?_eq_some_iff.mpr ⟨i_lt, here⟩, invalid, fun j d j_lt found => ?_⟩
    obtain ⟨_, rfl⟩ := List.getElem?_eq_some_iff.mp found
    exact before j j_lt
  · intro first
    obtain ⟨found, invalid, before⟩ := first
    obtain ⟨k_lt, here⟩ := List.getElem?_eq_some_iff.mp found
    exact ⟨invalid, k, k_lt, ⟨here, rfl⟩, fun j j_lt =>
      before j _ j_lt (List.getElem?_eq_getElem (Nat.lt_trans j_lt k_lt))⟩

theorem compile_empty : (compile "").outcome = .error (.expression .empty) := rfl

theorem compile_invalid {e : String} (found : firstInvalid? e.toList = some (c, k)) :
    (compile e).outcome = .error (.expression (.invalidCharacter c k)) := by
  have nonempty : e.toList.isEmpty = false := by
    cases chars : e.toList with
    | nil => simp [chars, firstInvalid?] at found
    | cons => rfl
  simp [compile, validate, nonempty, found]

theorem compile_valid {e : String} (nonempty : e.toList ≠ []) (valid : AllValid e.toList) :
    (compile e).outcome = (compileChars e.toList).outcome := by
  have notEmpty : e.toList.isEmpty = false := by simpa using nonempty
  simp only [compile, validate, notEmpty, firstInvalid?_none.mpr valid, Traced.outcome_bind,
    Traced.outcome_lift, Bool.false_eq_true, ↓reduceIte, ok_bind, Traced.outcome_emit,
    Traced.outcome_pure]
  cases (compileChars e.toList).outcome <;> rfl

theorem toList_eq_nil {e : String} : e.toList = [] ↔ e = "" := by
  simp

/-- The four ways in which compilation ends. -/
theorem compile_cases (e : String) :
    (∃ p : Pattern, e ≠ "" ∧ p.text = e.toList ∧ (compile e).outcome = .ok (compiled p)) ∨
      ∃ cause, Refused e cause ∧ (compile e).outcome = .error (.expression cause) := by
  by_cases empty : e = ""
  · subst empty
    exact .inr ⟨.empty, rfl, compile_empty⟩
  cases first : firstInvalid? e.toList with
  | some found =>
      obtain ⟨c, k⟩ := found
      exact .inr ⟨.invalidCharacter c k, firstInvalid?_some.mp first, compile_invalid first⟩
  | none =>
      have valid := firstInvalid?_none.mp first
      have same := compile_valid (fun none => empty (toList_eq_nil.mp none)) valid
      rcases compileChars_exists valid with ⟨p, text, done⟩ | ⟨k, c, least, found, faulty, failed⟩
      · exact .inl ⟨p, empty, text.symm, same.trans done⟩
      · refine .inr ⟨complaint c k, ?_, same.trans failed⟩
        rcases faulty with rfl | rfl | rfl
        · exact ⟨valid, least, found⟩
        · exact ⟨valid, least, .inl found⟩
        · exact ⟨valid, least, .inr found⟩

theorem allValid_text (p : Pattern) : AllValid p.text := by
  have stars : ∀ stars : Nat, AllValid (List.replicate stars '*') := by
    intro stars c member
    rw [List.eq_of_mem_replicate member]
    decide
  have append : ∀ {left right}, AllValid left → AllValid right → AllValid (left ++ right) := by
    intro left right first second c member
    exact (List.mem_append.mp member).elim (first c) (second c)
  have cons : ∀ {d right}, isValidCharacter d = true → AllValid right → AllValid (d :: right) := by
    intro d right first second c member
    rcases List.mem_cons.mp member with rfl | member
    · exact first
    · exact second c member
  induction p with
  | empty => exact fun _ member => by cases member
  | letter before c valid count ih =>
      exact append ih (cons (isValidCharacter_iff.mpr (.inl valid)) (stars count))
  | group before content count ih inside =>
      rw [Pattern.text_group]
      exact append ih (cons rfl (append inside (cons rfl (stars count))))
  | bar before ih => exact append ih (cons rfl (fun _ member => by cases member))

theorem compile_of_text {e : String} (nonempty : e ≠ "") (text : p.text = e.toList) :
    (compile e).outcome = .ok (compiled p) := by
  have valid : AllValid e.toList := text ▸ allValid_text p
  rw [compile_valid (fun none => nonempty (toList_eq_nil.mp none)) valid, ← text,
    compileChars_text]

theorem compile_of_least {e : String} (valid : AllValid e.toList)
    (least : IsLeast { j | Faulty e.toList j } k) (found : e.toList[k]? = some c) :
    (compile e).outcome = .error (.expression (complaint c k)) := by
  have nonempty : e.toList ≠ [] := by
    intro none
    simp [none] at found
  rw [compile_valid nonempty valid]
  rcases compileChars_exists valid with ⟨p, text, _⟩ | ⟨j, d, first, here, _, failed⟩
  · exact absurd least.1 (text ▸ not_faulty_text p k)
  · obtain rfl := least.unique first
    cases found.symm.trans here
    exact failed

theorem Refused.compile_eq {e : String} {cause : ExpressionError} (refused : Refused e cause) :
    (compile e).outcome = .error (.expression cause) := by
  cases cause with
  | empty =>
      obtain rfl : e = "" := refused
      exact compile_empty
  | invalidCharacter c k => exact compile_invalid (firstInvalid?_some.mpr refused)
  | unbalancedParentheses k =>
      obtain ⟨valid, least, found | found⟩ := refused
      · exact compile_of_least valid least found
      · exact compile_of_least valid least found
  | nothingToRepeat k =>
      obtain ⟨valid, least, found⟩ := refused
      exact compile_of_least valid least found

theorem Refused.not_accepted {e : String} {cause : ExpressionError} (refused : Refused e cause) :
    ¬ (e ≠ "" ∧ AllValid e.toList ∧ ∀ k, ¬ Faulty e.toList k) := by
  intro accepted
  obtain ⟨nonempty, valid, faultless⟩ := accepted
  cases cause with
  | empty => exact nonempty refused
  | invalidCharacter c k =>
      obtain ⟨found, invalid, _⟩ := refused
      simp [valid c (List.mem_of_getElem? found)] at invalid
  | unbalancedParentheses k => exact faultless k refused.2.1.1
  | nothingToRepeat k => exact faultless k refused.2.1.1

/-- An accepted expression can be read in exactly one way, and is compiled accordingly. -/
theorem reading_exists {e : String} {n : Nfa} (done : (compile e).outcome = .ok n) :
    ∃ p : Pattern, (∀ q : Pattern, q.text = e.toList ↔ q = p) ∧ n = compiled p := by
  rcases compile_cases e with ⟨p, nonempty, text, compiles⟩ | ⟨cause, _, failed⟩
  · refine ⟨p, fun q => ⟨fun same => Pattern.text_injective (same.trans text.symm), ?_⟩, ?_⟩
    · intro same
      subst same
      exact text
    · cases compiles.symm.trans done
      rfl
  · cases failed.symm.trans done

/-- Compilation succeeds on faultless expressions, and fails on the others with
the first fault. It fails in no other way. -/
theorem compile_verdict (e : String) :
    ((∃ n, (compile e).outcome = .ok n) ↔
      e ≠ "" ∧ AllValid e.toList ∧ ∀ k, ¬ Faulty e.toList k) ∧
    ∀ failure, (compile e).outcome = .error failure ↔
      ∃ cause, failure = .expression cause ∧ Refused e cause := by
  rcases compile_cases e with ⟨p, nonempty, text, done⟩ | ⟨cause, refused, failed⟩
  · have faultless : ∀ k, ¬ Faulty e.toList k := text ▸ not_faulty_text p
    refine ⟨⟨fun _ => ⟨nonempty, text ▸ allValid_text p, faultless⟩, fun _ => ⟨_, done⟩⟩, ?_⟩
    intro failure
    rw [done]
    apply Iff.intro
    · intro failed
      cases failed
    · intro refusal
      obtain ⟨cause, rfl, refused⟩ := refusal
      exact absurd ⟨nonempty, text ▸ allValid_text p, faultless⟩ refused.not_accepted
  · refine ⟨⟨fun ⟨n, done⟩ => ?_, fun accepted => absurd accepted refused.not_accepted⟩, ?_⟩
    · cases done.symm.trans failed
    · intro failure
      apply Iff.intro
      · intro same
        cases same.symm.trans failed
        exact ⟨cause, rfl, refused⟩
      · intro refusal
        obtain ⟨cause, rfl, refused⟩ := refusal
        exact refused.compile_eq

end RegexAutomaton.Expression
