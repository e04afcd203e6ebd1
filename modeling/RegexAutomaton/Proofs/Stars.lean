import RegexAutomaton.Expression.Stars
import RegexAutomaton.Proofs.Accepted

namespace RegexAutomaton.Expression

variable {t content before : Pattern} {stars : Nat} {c : Char}
  {front inner back chars atom : List Char}

theorem run_eq (stars : Nat) (back : List Char) :
    List.replicate stars '*' ++ '*' :: back = '*' :: (List.replicate stars '*' ++ back) := by
  rw [List.append_cons, ← List.replicate_succ', List.replicate_succ, List.cons_append]

theorem Repeats.widen (repeats : Repeats chars atom) (front back : List Char) :
    Repeats (front ++ (chars ++ back)) atom := by
  obtain ⟨isAtom, first, stars, rest, rfl⟩ := repeats
  exact ⟨isAtom, front ++ first, stars, rest ++ back, by simp⟩

theorem RepeatsInside.widen (repeats : RepeatsInside chars atom) (front back : List Char) :
    RepeatsInside (front ++ (chars ++ back)) atom := by
  obtain ⟨first, content, rest, rfl, balanced, repeats⟩ := repeats
  exact ⟨front ++ first, content, rest ++ back, by simp, balanced, repeats⟩

theorem hasLetter_iff : HasLetter chars ↔ chars.filter isLetter ≠ [] := by
  simp [HasLetter]

namespace Pattern

/-- The letters, in order. -/
def word : Pattern → List Char
  | empty => []
  | letter before c _ _ => before.word ++ [c]
  | group before content _ => before.word ++ content.word
  | bar before => before.word

/-- A bar at any depth. -/
def hasBars : Pattern → Bool
  | empty => false
  | letter before _ _ _ => before.hasBars
  | group before content _ => before.hasBars || content.hasBars
  | bar _ => true

/-- A star outside all groups repeats something with a letter. -/
def repeatsOutside : Pattern → Bool
  | empty => false
  | letter before _ _ stars => before.repeatsOutside || stars != 0
  | group before content stars => before.repeatsOutside || stars != 0 && content.word != []
  | bar before => before.repeatsOutside

/-- A star in a group repeats something with a letter. -/
def repeatsInside : Pattern → Bool
  | empty => false
  | letter before _ _ _ => before.repeatsInside
  | group before content _ =>
      before.repeatsInside || content.repeatsOutside || content.repeatsInside
  | bar before => before.repeatsInside

theorem word_text (p : Pattern) : p.text.filter isLetter = p.word := by
  have stars (count : Nat) : (List.replicate count '*').filter isLetter = [] := by
    simp [show isLetter '*' = false by decide]
  induction p with
  | empty => rfl
  | letter before c valid count ih => simp [text, word, ih, valid, stars]
  | group before content count ih inside =>
      simp [text_group, word, ih, inside, stars, show isLetter '(' = false by decide,
        show isLetter ')' = false by decide]
  | bar before ih => simp [text, word, ih, show isLetter '|' = false by decide]

theorem hasLetter_text (p : Pattern) : HasLetter p.text ↔ p.word ≠ [] := by
  rw [hasLetter_iff, word_text]

theorem hasBars_text (p : Pattern) : '|' ∈ p.text ↔ p.hasBars = true := by
  induction p with
  | empty => simp [text, hasBars]
  | letter before c valid stars ih =>
      have plain := ne_brackets_of_isLetter valid
      simp [text, ih, hasBars, plain.2.2.2.symm]
  | group before content stars ih inside => simp [text_group, ih, inside, hasBars]
  | bar before => simp [text, hasBars]

theorem hasBar_of_hasBars (bars : t.hasBars = false) : t.hasBar = false := by
  induction t with
  | empty => rfl
  | letter before c valid stars ih => exact ih bars
  | group before content stars ih _ =>
      simp only [hasBars, Bool.or_eq_false_iff] at bars
      exact ih bars.1
  | bar => cases bars

theorem word_of_loud (loud : t.silent = false) (bars : t.hasBars = false) : t.word ≠ [] := by
  induction t with
  | empty => cases loud
  | letter => simp [word]
  | group before content stars ih inside =>
      simp only [hasBars, Bool.or_eq_false_iff] at bars
      simp only [silent, Bool.and_eq_false_iff] at loud
      rcases loud with loud | loud
      · simp [word, ih loud bars.1]
      · simp [word, inside loud bars.2]
  | bar => cases bars

/-- Without letters and bars, nothing is there to be found. -/
theorem nothing_of_silent (silent : t.silent = true) : t.word = [] ∧
    t.hasBars = false ∧ t.repeatsOutside = false ∧ t.repeatsInside = false := by
  induction t with
  | empty => exact ⟨rfl, rfl, rfl, rfl⟩
  | letter | bar => cases silent
  | group before content stars ih inside =>
      simp only [Pattern.silent, Bool.and_eq_true] at silent
      obtain ⟨letters, bars, outside, within⟩ := ih silent.1
      obtain ⟨letters', bars', outside', within'⟩ := inside silent.2
      simp [word, hasBars, repeatsOutside, repeatsInside, *]

theorem repeats_letter {valid : isLetter c = true} :
    ((letter before c valid stars).repeatsOutside || (letter before c valid stars).repeatsInside) =
      true ↔ (before.repeatsOutside || before.repeatsInside) = true ∨ stars ≠ 0 := by
  simp only [repeatsOutside, repeatsInside, Bool.or_eq_true, bne_iff_ne]
  grind

theorem repeats_group :
    ((group before content stars).repeatsOutside || (group before content stars).repeatsInside) =
      true ↔ (before.repeatsOutside || before.repeatsInside) = true ∨
        (content.repeatsOutside || content.repeatsInside) = true ∨
          stars ≠ 0 ∧ content.word ≠ [] := by
  simp only [repeatsOutside, repeatsInside, Bool.or_eq_true, Bool.and_eq_true, bne_iff_ne]
  grind

/-- The pattern has a group with this content and so many stars, at any depth. -/
inductive HasGroup (content : Pattern) (stars : Nat) : Pattern → Prop where
  | here {before : Pattern} : HasGroup content stars (group before content stars)
  | letter {before : Pattern} {c : Char} {valid : isLetter c = true} {count : Nat} :
      HasGroup content stars before → HasGroup content stars (letter before c valid count)
  | before {before other : Pattern} {count : Nat} :
      HasGroup content stars before → HasGroup content stars (group before other count)
  | inside {before other : Pattern} {count : Nat} :
      HasGroup content stars other → HasGroup content stars (group before other count)
  | bar {before : Pattern} : HasGroup content stars before → HasGroup content stars (bar before)

theorem HasGroup.repeats (has : HasGroup content stars t) (starred : stars ≠ 0)
    (letter : content.word ≠ []) : (t.repeatsOutside || t.repeatsInside) = true := by
  induction has with
  | here => exact repeats_group.mpr (.inr (.inr ⟨starred, letter⟩))
  | letter _ ih => exact repeats_letter.mpr (.inl ih)
  | before _ ih => exact repeats_group.mpr (.inl ih)
  | inside _ ih => exact repeats_group.mpr (.inr (.inl ih))
  | bar _ ih => exact ih

theorem HasGroup.repeatsInside (has : HasGroup content stars t)
    (repeats : (content.repeatsOutside || content.repeatsInside) = true) :
    t.repeatsInside = true := by
  induction has with
  | here => simpa [Pattern.repeatsInside, or_assoc] using .inr (by simpa using repeats)
  | letter _ ih | bar _ ih => exact ih
  | before _ ih | inside _ ih => simp [Pattern.repeatsInside, ih]

/-- Wherever parentheses enclose a nested text, they are those of a group. -/
theorem hasGroup_exists (inside : Nested inner)
    (text : t.text = front ++ '(' :: (inner ++ ')' :: back)) :
    ∃ content stars, HasGroup content stars t ∧ content.text = inner ∧
      (back.head? = some '*' → stars ≠ 0) := by
  -- The group ends before the last factor or bar of the pattern, or else it is that
  -- factor or stands within it: no parenthesis opens behind.
  have absent : ∀ {tail between back : List Char}, '(' ∉ tail →
      tail ≠ between ++ '(' :: (inner ++ ')' :: back) := by
    intro tail between back absent same
    simp [same] at absent
  have starred : ∀ {between rest : List Char}, rest.head? ≠ some '*' →
      (between ++ rest).head? = some '*' → between.head? = some '*' := by
    intro between rest other first
    cases between with
    | nil => exact absurd first other
    | cons c between => exact first
  induction t generalizing front back with
  | empty => simp [Pattern.text] at text
  | letter before c valid count ih =>
      rcases group_within_or_behind (nested_text before) inside text with
        ⟨between, within, rfl⟩ | ⟨between, _, tail⟩
      · obtain ⟨content, stars, has, spelled, first⟩ := ih within
        have other := (ne_brackets_of_isLetter valid).2.2.1
        exact ⟨content, stars, .letter has, spelled, fun star => first (starred (by simpa) star)⟩
      · refine absurd tail (absent ?_)
        simp [(ne_brackets_of_isLetter valid).1.symm]
  | group before other count ih innerIH =>
      rw [text_group] at text
      rcases group_within_or_behind (nested_text before) inside text with
        ⟨between, within, rfl⟩ | ⟨between, rfl, tail⟩
      · obtain ⟨content, stars, has, spelled, first⟩ := ih within
        exact ⟨content, stars, .before has, spelled, fun star => first (starred (by simp) star)⟩
      · cases between with
        | nil =>
            obtain ⟨rfl, rfl⟩ := close_unique (nested_text other) inside (List.cons.inj tail).2
            refine ⟨other, count, .here, rfl, ?_⟩
            cases count <;> simp
        | cons _ between =>
            obtain ⟨rfl, later⟩ := List.cons.inj tail
            rcases group_within_or_behind (nested_text other) inside later with
              ⟨behind, within, rfl⟩ | ⟨_, _, after⟩
            · obtain ⟨content, stars, has, spelled, first⟩ := innerIH within
              exact ⟨content, stars, .inside has, spelled,
                fun star => first (starred (by simp) star)⟩
            · exact absurd after (absent (by simp))
  | bar before ih =>
      rcases group_within_or_behind (nested_text before) inside text with
        ⟨between, within, rfl⟩ | ⟨between, _, tail⟩
      · obtain ⟨content, stars, has, spelled, first⟩ := ih within
        exact ⟨content, stars, .bar has, spelled, fun star => first (starred (by simp) star)⟩
      · exact absurd tail (absent (by decide))

/-- A starred letter does not reach from one text into the next. -/
theorem letter_within_or_behind {rest : List Char} (other : rest.head? ≠ some '*')
    (same : chars ++ rest = front ++ c :: '*' :: back) :
    (∃ between, chars = front ++ c :: '*' :: between) ∨
      ∃ between, rest = between ++ c :: '*' :: back := by
  rcases List.append_eq_append_iff.mp same with ⟨between, _, tail⟩ | ⟨between, split, tail⟩
  · exact .inr ⟨between, tail⟩
  · match between with
    | [] => exact .inr ⟨[], tail.symm⟩
    | [_] =>
        obtain ⟨rfl, rfl⟩ := List.cons.inj tail
        exact absurd rfl other
    | _ :: _ :: between =>
        obtain ⟨rfl, later⟩ := List.cons.inj tail
        obtain ⟨rfl, _⟩ := List.cons.inj later
        exact .inl ⟨between, split⟩

theorem repeats_of_letter (valid : isLetter c = true) (text : t.text = front ++ c :: '*' :: back) :
    (t.repeatsOutside || t.repeatsInside) = true := by
  obtain ⟨notOpen, notClose, notStar, notBar⟩ := ne_brackets_of_isLetter valid
  induction t generalizing front back with
  | empty => simp [Pattern.text] at text
  | letter before d letter count ih =>
      have other := (ne_brackets_of_isLetter letter).2.2.1
      rcases letter_within_or_behind (by simpa using other) text with
        ⟨between, within⟩ | ⟨between, behind⟩
      · exact repeats_letter.mpr (.inl (ih within))
      · have starred : count ≠ 0 := by
          rintro rfl
          have length := congrArg List.length behind
          simp at length
          omega
        exact repeats_letter.mpr (.inr starred)
  | group before content count ih inside =>
      rw [text_group] at text
      rcases letter_within_or_behind (by simp) text with ⟨between, within⟩ | ⟨between, behind⟩
      · exact repeats_group.mpr (.inl (ih within))
      · cases between with
        | nil => exact absurd (List.cons.inj behind).1.symm notOpen
        | cons _ between =>
            rcases letter_within_or_behind (by simp) (List.cons.inj behind).2 with
              ⟨_, within⟩ | ⟨_, behind⟩
            · exact repeats_group.mpr (.inr (.inl (inside within)))
            · have member : c ∈ ')' :: List.replicate count '*' := by simp [behind]
              simp [notClose, notStar] at member
  | bar before ih =>
      rcases letter_within_or_behind (by simp) text with ⟨between, within⟩ | ⟨between, behind⟩
      · exact ih within
      · have length := congrArg List.length behind
        simp at length
        omega

/-- What a star repeats in the text has a letter only if this is so in the pattern. -/
theorem repeats_of_text (repeats : Repeats t.text atom) (lettered : HasLetter atom) :
    (t.repeatsOutside || t.repeatsInside) = true := by
  obtain ⟨isAtom, front, run, back, text⟩ := repeats
  rw [run_eq] at text
  rcases isAtom with ⟨c, valid, rfl⟩ | ⟨inner, balanced, rfl⟩
  · exact repeats_of_letter valid text
  · have text : t.text = front ++ '(' :: (inner ++ ')' :: ('*' :: (List.replicate run '*' ++ back))) :=
      text.trans (by simp)
    obtain ⟨content, stars, has, rfl, starred⟩ :=
      hasGroup_exists (balanced_iff_nested.mp balanced) text
    refine has.repeats (starred rfl) ((hasLetter_text content).mp ?_)
    obtain ⟨c, member, letter⟩ := lettered
    have plain := ne_brackets_of_isLetter letter
    exact ⟨c, by simpa [plain.1, plain.2.1] using member, letter⟩

/-- A starred atom is repeated, whatever stands around it. -/
theorem repeats_atom (isAtom : IsAtom atom) (starred : stars ≠ 0) (front : List Char) :
    Repeats (front ++ (atom ++ List.replicate stars '*')) atom := by
  obtain ⟨more, rfl⟩ := Nat.exists_eq_succ_of_ne_zero starred
  exact ⟨isAtom, front, more, [], by rw [List.replicate_succ']⟩

theorem repeats_text (repeats : (t.repeatsOutside || t.repeatsInside) = true) :
    ∃ atom, Repeats t.text atom ∧ HasLetter atom := by
  induction t with
  | empty => cases repeats
  | letter before c valid count ih =>
      rcases repeats_letter.mp repeats with earlier | starred
      · obtain ⟨atom, repeats, lettered⟩ := ih earlier
        exact ⟨atom, repeats.widen [] _, lettered⟩
      · exact ⟨[c], repeats_atom (.inl ⟨c, valid, rfl⟩) starred before.text, c, by simp, valid⟩
  | group before content count ih inside =>
      rw [text_group]
      rcases repeats_group.mp repeats with earlier | within | ⟨starred, lettered⟩
      · obtain ⟨atom, repeats, lettered⟩ := ih earlier
        exact ⟨atom, repeats.widen [] _, lettered⟩
      · obtain ⟨atom, repeats, lettered⟩ := inside within
        refine ⟨atom, ?_, lettered⟩
        simpa using repeats.widen (before.text ++ ['(']) (')' :: List.replicate count '*')
      · have isAtom : IsAtom ('(' :: (content.text ++ [')'])) :=
          .inr ⟨content.text, balanced_of_nested (nested_text content), rfl⟩
        refine ⟨_, by simpa using repeats_atom isAtom starred before.text, ?_⟩
        obtain ⟨c, member, letter⟩ := (hasLetter_text content).mpr lettered
        exact ⟨c, by simp [member], letter⟩
  | bar before ih =>
      obtain ⟨atom, repeats, lettered⟩ := ih repeats
      exact ⟨atom, repeats.widen [] _, lettered⟩

theorem repeatsInside_text (p : Pattern) :
    (∃ atom, RepeatsInside p.text atom ∧ HasLetter atom) ↔ p.repeatsInside = true := by
  apply Iff.intro
  · intro present
    obtain ⟨atom, ⟨front, inner, back, text, balanced, repeats⟩, lettered⟩ := present
    obtain ⟨content, _, has, rfl, _⟩ := hasGroup_exists (balanced_iff_nested.mp balanced) text
    exact has.repeatsInside (repeats_of_text repeats lettered)
  · intro repeats
    induction p with
    | empty => cases repeats
    | letter before c valid count ih | bar before ih =>
        obtain ⟨atom, repeats, lettered⟩ := ih repeats
        exact ⟨atom, repeats.widen [] _, lettered⟩
    | group before content count ih _ =>
        simp only [repeatsInside, Bool.or_assoc, Bool.or_eq_true before.repeatsInside] at repeats
        rw [text_group]
        rcases repeats with earlier | within
        · obtain ⟨atom, repeats, lettered⟩ := ih earlier
          exact ⟨atom, repeats.widen [] _, lettered⟩
        · obtain ⟨atom, repeats, lettered⟩ := repeats_text within
          exact ⟨atom, ⟨before.text, content.text, List.replicate count '*', rfl,
            balanced_of_nested (nested_text content), repeats⟩, lettered⟩

end Pattern

end RegexAutomaton.Expression
