import RegexAutomaton.Expression.Course
import RegexAutomaton.Proofs.Faults

namespace RegexAutomaton.Expression

open Nfa Progress

variable {p q : Progress} {n : Nfa} {chars rest : List Char} {position other closing : Nat}

/-- A star that can be obeyed is obeyed wherever it stands. -/
theorem star_anywhere (done : (p.star position).outcome = .ok q) :
    (p.star other).outcome = .ok q := by
  cases last : p.last with
  | none => cases (star_none last).symm.trans done
  | some atom =>
      rw [← done]
      cases atom <;> simp only [Progress.star, last]

/-- Compilation that comes to an end has passed all characters. -/
theorem exists_passes (done : (compileFrom position p chars).outcome = .ok n) :
    ∃ q, Passes p chars q [] ∧ q.close = .ok n := by
  -- Strong induction: a group is followed by what stands behind it, not by the next character.
  induction size : chars.length using Nat.strong_induction_on generalizing position p n chars with
  | _ length ih =>
      cases chars with
      | nil => exact ⟨p, .here p [], compileFrom_nil.symm.trans done⟩
      | cons c rest =>
          have shorter : rest.length < length := by simp [← size]
          cases valid : isValidCharacter c with
          | false => cases (compileFrom_invalid valid).symm.trans done
          | true =>
              rcases isValidCharacter_iff.mp valid with letter | rfl | rfl | rfl | rfl
              · rw [compileFrom_plain letter] at done
                obtain ⟨next, lettered, done⟩ := exists_of_bind done
                obtain ⟨q, later, close⟩ := ih _ shorter done rfl
                exact ⟨q, .letter letter lettered later, close⟩
              · obtain ⟨answer, closed⟩ := closingFrom_exists 0 1 rest
                rw [← closing?_eq] at closed
                cases answer with
                | none => cases (compileFrom_unclosed closed).symm.trans done
                | some closing =>
                    rw [compileFrom_closed closed] at done
                    obtain ⟨entered, opened, done⟩ := exists_of_bind done
                    obtain ⟨sub, inside, done⟩ := exists_of_bind done
                    obtain ⟨next, grouped, done⟩ := exists_of_bind done
                    have taken : (rest.take (closing - 1)).length < length :=
                      Nat.lt_of_le_of_lt (List.length_take_le' ..) shorter
                    have dropped : (rest.drop closing).length < length := by
                      rw [List.length_drop]
                      omega
                    obtain ⟨last, content, ended⟩ := ih _ taken inside rfl
                    obtain ⟨q, later, close⟩ := ih _ dropped done rfl
                    exact ⟨q, .group closed opened content ended grouped later, close⟩
              · cases compileFrom_close.symm.trans done
              · rw [compileFrom_star] at done
                obtain ⟨next, starred, done⟩ := exists_of_bind done
                obtain ⟨q, later, close⟩ := ih _ shorter done rfl
                exact ⟨q, .star starred later, close⟩
              · rw [compileFrom_barred] at done
                obtain ⟨next, barred, done⟩ := exists_of_bind done
                obtain ⟨q, later, close⟩ := ih _ shorter done rfl
                exact ⟨q, .bar barred later, close⟩

theorem Passes.exists_compileFrom (passes : Passes p chars q rest) (position : Nat) :
    ∃ later, (compileFrom position p chars).outcome = (compileFrom later q rest).outcome := by
  induction passes generalizing position with
  | here => exact ⟨position, rfl⟩
  | letter valid lettered _ ih =>
      obtain ⟨later, same⟩ := ih (position + 1)
      exact ⟨later, by rw [compileFrom_plain valid, lettered, ok_bind, same]⟩
  | star starred _ ih =>
      obtain ⟨later, same⟩ := ih (position + 1)
      exact ⟨later, by rw [compileFrom_star, star_anywhere starred, ok_bind, same]⟩
  | bar barred _ ih =>
      obtain ⟨later, same⟩ := ih (position + 1)
      exact ⟨later, by rw [compileFrom_barred, barred, ok_bind, same]⟩
  | @group _ _ _ _ _ _ closing _ _ closed opened _ ended grouped _ inside ih =>
      obtain ⟨_, within⟩ := inside (position + 1)
      obtain ⟨later, same⟩ := ih (position + closing + 1)
      rw [compileFrom_nil, ended] at within
      refine ⟨later, ?_⟩
      rw [compileFrom_closed closed, opened, ok_bind, within, ok_bind, grouped, ok_bind, same]

/-- The course leads to the result, and to nothing else. -/
theorem compileFrom_eq_ok_iff : (compileFrom position p chars).outcome = .ok n ↔
    ∃ q, Passes p chars q [] ∧ q.close = .ok n := by
  refine ⟨exists_passes, fun course => ?_⟩
  obtain ⟨q, passes, ended⟩ := course
  obtain ⟨later, same⟩ := passes.exists_compileFrom position
  rw [same, compileFrom_nil, ended]

/-- What is behind a closed group, and what is in it. -/
theorem group_exists (closed : closing? ('(' :: chars) 0 = .ok (some closing)) :
    ∃ content, Nested content ∧ chars = content ++ ')' :: chars.drop closing ∧
      chars.take (closing - 1) = content := by
  obtain ⟨content, after, rfl, rfl, nested⟩ := closing?_some closed
  refine ⟨content, nested, ?_, by simp⟩
  rw [List.drop_append, List.drop_of_length_le (Nat.le_succ _)]
  simp

/-- Induction along a course of sound progress, where every turn has the total form of
its step. -/
theorem Passes.sound_induction {motive : Progress → List Char → Progress → List Char → Prop}
    (passes : Passes p chars q rest) (sound : p.Sound)
    (here : ∀ {p : Progress} {chars : List Char}, p.Sound → motive p chars p chars)
    (letter : ∀ {p q : Progress} {c : Char} {chars rest : List Char}, p.Sound →
      isLetter c = true → motive (p.lettered c) chars q rest → motive p (c :: chars) q rest)
    (star : ∀ {p q : Progress} {chars rest : List Char}, p.Sound → p.last.isSome →
      motive p.again chars q rest → motive p ('*' :: chars) q rest)
    (bar : ∀ {p q : Progress} {chars rest : List Char}, p.Sound →
      motive p.barred chars q rest → motive p ('|' :: chars) q rest)
    (group : ∀ {p last q : Progress} {content chars rest : List Char}, p.Sound →
      Nested content → last.Sound → motive (opened (hasOuterBar content)) content last [] →
      motive (p.grouped last.closed) chars q rest →
        motive p ('(' :: (content ++ ')' :: chars)) q rest) :
    motive p chars q rest ∧ q.Sound := by
  induction passes with
  | here => exact ⟨here sound, sound⟩
  | @letter _ _ _ c _ _ valid lettered _ ih =>
      cases (letter_eq sound c).symm.trans lettered
      obtain ⟨kept, sound'⟩ := ih (sound.lettered c)
      exact ⟨letter sound valid kept, sound'⟩
  | @star p _ _ position _ _ starred _ ih =>
      cases last : p.last with
      | none => cases (star_none last).symm.trans starred
      | some atom =>
          have repeats : p.last.isSome := by rw [last]; rfl
          cases (star_eq sound repeats).symm.trans starred
          obtain ⟨kept, sound'⟩ := ih sound.again
          exact ⟨star sound repeats kept, sound'⟩
  | bar barred _ ih =>
      cases (bar_eq sound).symm.trans barred
      obtain ⟨kept, sound'⟩ := ih sound.barred
      exact ⟨bar sound kept, sound'⟩
  | group closed entered _ ended grouped _ inside ih =>
      obtain ⟨content, nested, split, taken⟩ := group_exists closed
      rw [taken] at entered inside
      cases (opening_eq content).symm.trans entered
      obtain ⟨within, last⟩ := inside (.opened _)
      cases (close_eq last).symm.trans ended
      have attached := (closed_start _).trans last.attached
      cases (group_eq sound (closed_wired last) attached).symm.trans grouped
      obtain ⟨kept, sound'⟩ := ih (sound.grouped (closed_wired last) attached)
      rw [split]
      exact ⟨group sound nested last within kept, sound'⟩

theorem through_addStar {pattern : Pattern} (closed : pattern.isOpen = false) (p : Progress) :
    through pattern.addStar p = (through pattern p).again := by
  cases pattern with
  | empty => cases closed
  | letter before c valid stars => exact Function.iterate_succ_apply' ..
  | group before content stars => exact Function.iterate_succ_apply' ..
  | bar before => cases closed

/-- Progress on characters is progress through a pattern, the text of which is what has
been passed. -/
theorem Passes.exists_through {first : Progress} {pattern : Pattern} (passes : Passes p chars q rest)
    (sound : p.Sound) (fresh : first.last = none) (read : p = through pattern first) :
    ∃ more passed, chars = passed ++ rest ∧ Pattern.text more = pattern.text ++ passed ∧
      q = through more first := by
  refine (passes.sound_induction (motive := fun p chars q rest =>
    ∀ (first : Progress) (pattern : Pattern), first.last = none → p = through pattern first →
      ∃ more passed, chars = passed ++ rest ∧ Pattern.text more = pattern.text ++ passed ∧
        q = through more first)
    sound ?_ ?_ ?_ ?_ ?_).1 first pattern fresh read
  · intro p chars _ first pattern _ read
    exact ⟨pattern, [], rfl, (List.append_nil _).symm, read⟩
  · intro p q c chars rest _ letter ih first pattern fresh read
    obtain ⟨more, passed, rfl, text, reached⟩ := ih first (.letter pattern c letter 0) fresh
      (by rw [read]; rfl)
    exact ⟨more, c :: passed, rfl, by rw [text]; simp [Pattern.text], reached⟩
  · intro p q chars rest _ repeats ih first pattern fresh read
    have closed : pattern.isOpen = false := by
      simpa [read, last_through pattern first fresh] using repeats
    obtain ⟨more, passed, rfl, text, reached⟩ := ih first pattern.addStar fresh
      (by rw [read, through_addStar closed])
    exact ⟨more, '*' :: passed, rfl, by rw [text, Pattern.text_addStar closed]; simp, reached⟩
  · intro p q chars rest _ ih first pattern fresh read
    obtain ⟨more, passed, rfl, text, reached⟩ := ih first (.bar pattern) fresh (by rw [read]; rfl)
    exact ⟨more, '|' :: passed, rfl, by rw [text]; simp [Pattern.text], reached⟩
  · intro p last q content chars rest _ _ _ inside ih first pattern fresh read
    obtain ⟨inner, whole, split, text, ended⟩ := inside _ .empty (opened_last _) rfl
    obtain rfl : content = inner.text := by rw [split, text, List.append_nil]; rfl
    obtain ⟨more, passed, rfl, text, reached⟩ := ih first (.group pattern inner 0) fresh
      (by rw [read, ended, hasOuterBar_text]; rfl)
    exact ⟨more, '(' :: (inner.text ++ ')' :: passed), by simp, by rw [text]; simp [Pattern.text],
      reached⟩

end RegexAutomaton.Expression
