import RegexAutomaton.Expression.Brackets
import RegexAutomaton.Expression.Matching

namespace RegexAutomaton.Expression

/-- The parentheses of the text are closed within it. Every scan passes over such a text
without a trace. -/
inductive Nested : List Char → Prop where
  | nil : Nested []
  | plain {c : Char} {rest : List Char} :
      c ≠ '(' → c ≠ ')' → Nested rest → Nested (c :: rest)
  | group {inner rest : List Char} :
      Nested inner → Nested rest → Nested ('(' :: (inner ++ ')' :: rest))

variable {depth place opening j k : Nat} {content chars rest inner : List Char} {free : List Nat}

namespace Nested

theorem append (first : Nested content) (second : Nested rest) : Nested (content ++ rest) := by
  induction first with
  | nil => exact second
  | plain notOpen notClose _ ih => exact .plain notOpen notClose ih
  | group inside _ _ ih =>
      rw [List.cons_append, List.append_assoc]
      exact .group inside ih

theorem wrapped (inside : Nested inner) : Nested ('(' :: (inner ++ [')'])) :=
  .group inside .nil

end Nested

theorem closingFrom_nested (nested : Nested content) :
    closingFrom (depth + 1) place (content ++ rest) =
      closingFrom (depth + 1) (place + content.length) rest := by
  induction nested generalizing depth place rest with
  | nil => rfl
  | @plain c content notOpen notClose _ ih =>
      simp only [List.cons_append, closingFrom, notOpen, notClose, ↓reduceIte, ih,
        List.length_cons]
      congr 1
      omega
  | @group inner content _ _ innerIH ih =>
      simp only [List.cons_append, List.append_assoc, closingFrom, ↓reduceIte, innerIH,
        List.length_cons, List.length_append, Char.reduceEq]
      rw [ih]
      congr 1
      omega

theorem hasOuterBarFrom_nested (nested : Nested content) :
    hasOuterBarFrom (depth + 1) (content ++ rest) = hasOuterBarFrom (depth + 1) rest := by
  induction nested generalizing depth rest with
  | nil => rfl
  | plain notOpen notClose _ ih => simp [hasOuterBarFrom, notOpen, notClose, ih]
  | group _ _ innerIH ih => simp [hasOuterBarFrom, innerIH, ih]

theorem lone_nested (nested : Nested content) :
    (matchFrom place free (content ++ rest)).lone =
      (matchFrom (place + content.length) free rest).lone := by
  induction nested generalizing place free rest with
  | nil => rfl
  | @plain c content notOpen notClose _ ih =>
      simp only [List.cons_append, matchFrom, notOpen, notClose, ↓reduceIte, ih, List.length_cons]
      congr 2
      omega
  | @group inner content _ _ innerIH ih =>
      simp only [List.cons_append, List.append_assoc, matchFrom, ↓reduceIte, innerIH,
        List.length_cons, List.length_append, Char.reduceEq, ih]
      congr 2
      omega

theorem closing?_eq : closing? ('(' :: chars) 0 = closingFrom 1 1 chars := by
  simp [closing?, closingFrom]

theorem closingFrom_exists (depth place : Nat) (chars : List Char) :
    ∃ answer, closingFrom (depth + 1) place chars = .ok answer := by
  induction chars generalizing depth place with
  | nil => exact ⟨none, rfl⟩
  | cons c rest ih =>
      by_cases opens : c = '('
      · simpa only [closingFrom, opens, ↓reduceIte] using ih (depth + 1) (place + 1)
      · by_cases closes : c = ')'
        · cases depth with
          | zero => exact ⟨some place, by simp [closingFrom, closes]⟩
          | succ depth => simpa [closingFrom, closes] using ih depth (place + 1)
        · simpa only [closingFrom, opens, closes, ↓reduceIte] using ih depth (place + 1)

/-- What stands before the parenthesis that closes the last of `depth` levels:
one nested text for each level, closed one after the other. -/
inductive Closes : Nat → List Char → Prop where
  | last {content : List Char} : Nested content → Closes 0 content
  | level {depth : Nat} {content rest : List Char} :
      Nested content → Closes depth rest → Closes (depth + 1) (content ++ ')' :: rest)

theorem Closes.prepend (closes : Closes depth content) (nested : Nested inner) :
    Closes depth (inner ++ content) := by
  cases closes with
  | last last => exact .last (nested.append last)
  | level level rest =>
      rw [← List.append_assoc]
      exact .level (nested.append level) rest

theorem closingFrom_some (closed : closingFrom (depth + 1) place chars = .ok (some j)) :
    ∃ content rest, chars = content ++ ')' :: rest ∧ j = place + content.length ∧
      Closes depth content := by
  induction chars generalizing depth place with
  | nil => cases closed
  | cons c rest ih =>
      by_cases opens : c = '('
      · subst opens
        simp only [closingFrom, ↓reduceIte] at closed
        obtain ⟨content, tail, rfl, rfl, closes⟩ := ih closed
        cases closes with
        | @level _ inner later inside closes =>
            refine ⟨'(' :: (inner ++ ')' :: later), tail, by simp, by simp; omega, ?_⟩
            simpa using closes.prepend inside.wrapped
      · by_cases closes : c = ')'
        · subst closes
          cases depth with
          | zero =>
              simp only [closingFrom, ↓reduceIte, Char.reduceEq] at closed
              cases closed
              exact ⟨[], rest, rfl, rfl, .last .nil⟩
          | succ depth =>
              simp only [closingFrom, ↓reduceIte, Char.reduceEq] at closed
              obtain ⟨content, tail, rfl, rfl, closes⟩ := ih closed
              exact ⟨')' :: content, tail, rfl, by simp; omega, .level .nil closes⟩
        · simp only [closingFrom, opens, closes, ↓reduceIte] at closed
          obtain ⟨content, tail, rfl, rfl, before⟩ := ih closed
          have single : Nested [c] := .plain opens closes .nil
          exact ⟨c :: content, tail, rfl, by simp; omega, before.prepend single⟩

/-- A closed parenthesis encloses a nested text. -/
theorem closing?_some (closed : closing? ('(' :: chars) 0 = .ok (some j)) :
    ∃ content rest, chars = content ++ ')' :: rest ∧ j = content.length + 1 ∧ Nested content := by
  rw [closing?_eq] at closed
  obtain ⟨content, rest, rfl, rfl, closes⟩ := closingFrom_some closed
  cases closes with
  | last nested => exact ⟨content, rest, rfl, Nat.add_comm 1 _, nested⟩

theorem closing?_nested (nested : Nested content) :
    closing? ('(' :: (content ++ ')' :: rest)) 0 = .ok (some (content.length + 1)) := by
  rw [closing?_eq, closingFrom_nested nested]
  simp [closingFrom, Nat.add_comm]

/-- An opening parenthesis under `depth` others that are never all closed stays
alone. -/
theorem lone_of_unclosed {above below : List Nat}
    (unclosed : closingFrom (above.length + 1) j chars = .ok none) :
    opening ∈ (matchFrom place (above ++ opening :: below) chars).lone := by
  induction chars generalizing above j place with
  | nil => simp [matchFrom]
  | cons c rest ih =>
      by_cases opens : c = '('
      · simp only [closingFrom, opens, ↓reduceIte] at unclosed
        have deeper : opening ∈
            (matchFrom (place + 1) ((place :: above) ++ opening :: below) rest).lone := ih unclosed
        simpa only [matchFrom, opens, ↓reduceIte, List.cons_append] using deeper
      · by_cases closes : c = ')'
        · cases above with
          | nil => simp [closingFrom, closes] at unclosed
          | cons top above =>
              simp only [List.length_cons, closingFrom, closes, ↓reduceIte, Char.reduceEq] at unclosed
              simpa [matchFrom, closes] using ih unclosed
        · simp only [closingFrom, opens, closes, ↓reduceIte] at unclosed
          simpa only [matchFrom, opens, closes, ↓reduceIte] using ih unclosed

/-- What stays alone was free before, or is a parenthesis of the text. -/
theorem mem_lone (alone : k ∈ (matchFrom place free chars).lone) :
    k ∈ free ∨ place ≤ k ∧ k < place + chars.length ∧
      (chars[k - place]? = some '(' ∨ chars[k - place]? = some ')') := by
  induction chars generalizing place free with
  | nil => exact .inl alone
  | cons c rest ih =>
      have later : ∀ {free}, k ∈ (matchFrom (place + 1) free rest).lone →
          k ∈ free ∨ place ≤ k ∧ k < place + (c :: rest).length ∧
            ((c :: rest)[k - place]? = some '(' ∨ (c :: rest)[k - place]? = some ')') := by
        intro free alone
        rcases ih alone with old | ⟨lower, upper, bracket⟩
        · exact .inl old
        · refine .inr ⟨by omega, by simp only [List.length_cons]; omega, ?_⟩
          rwa [show k - place = k - (place + 1) + 1 by omega, List.getElem?_cons_succ]
      have here : ∀ c', c' = '(' ∨ c' = ')' → place ≤ place ∧ place < place + (c' :: rest).length ∧
          ((c' :: rest)[place - place]? = some '(' ∨ (c' :: rest)[place - place]? = some ')') := by
        intro c' bracket
        rcases bracket with rfl | rfl <;> simp
      by_cases opens : c = '('
      · simp only [matchFrom, opens, ↓reduceIte] at alone
        rcases later alone with old | found
        · rcases List.mem_cons.mp old with rfl | old
          · exact .inr (here c (.inl opens))
          · exact .inl old
        · exact .inr found
      · by_cases closes : c = ')'
        · cases free with
          | nil =>
              simp only [matchFrom, closes, ↓reduceIte, Char.reduceEq, List.mem_cons] at alone
              rcases alone with rfl | alone
              · exact .inr (here c (.inr closes))
              · exact later alone
          | cons top free =>
              simp only [matchFrom, closes, ↓reduceIte, Char.reduceEq] at alone
              exact (later alone).imp_left (List.mem_cons_of_mem top)
        · simp only [matchFrom, opens, closes, ↓reduceIte] at alone
          exact later alone

theorem balanced_of_nested (nested : Nested chars) : Balanced chars := by
  have passed : (matchFrom 0 [] (chars ++ [])).lone = (matchFrom (0 + chars.length) [] []).lone :=
    lone_nested nested
  simpa [Balanced, matching, matchFrom] using passed

theorem nested_of_lone (none : (matchFrom place [] chars).lone = []) : Nested chars := by
  induction size : chars.length using Nat.strongRecOn generalizing chars place with
  | ind length ih =>
      cases chars with
      | nil => exact .nil
      | cons c rest =>
          by_cases opens : c = '('
          · subst opens
            obtain ⟨answer, closing⟩ := closingFrom_exists 0 1 rest
            cases answer with
            | none =>
                have lone : place ∈ (matchFrom (place + 1) ([] ++ place :: []) rest).lone :=
                  lone_of_unclosed closing
                simp only [matchFrom, ↓reduceIte] at none
                rw [List.nil_append, none] at lone
                cases lone
            | some j =>
                rw [← closing?_eq] at closing
                obtain ⟨inner, after, rfl, _, inside⟩ := closing?_some closing
                have split : '(' :: (inner ++ ')' :: after) = '(' :: (inner ++ [')']) ++ after := by
                  simp
                rw [split, lone_nested inside.wrapped] at none
                refine .group inside (ih _ ?_ none rfl)
                simp only [← size, List.length_cons, List.length_append]
                omega
          · by_cases closes : c = ')'
            · simp [matchFrom, closes] at none
            · simp only [matchFrom, opens, closes, ↓reduceIte] at none
              exact .plain opens closes (ih _ (by simp [← size]) none rfl)

theorem balanced_iff_nested : Balanced chars ↔ Nested chars :=
  ⟨nested_of_lone, balanced_of_nested⟩

theorem mem_lone_close (nested : Nested content) (rest : List Char) :
    content.length ∈ (matching (content ++ ')' :: rest)).lone := by
  rw [matching, lone_nested nested]
  simp [matchFrom]

theorem mem_lone_unclosed (nested : Nested content)
    (unclosed : closing? ('(' :: rest) 0 = .ok none) :
    content.length ∈ (matching (content ++ '(' :: rest)).lone := by
  rw [closing?_eq] at unclosed
  have lone : content.length ∈
      (matchFrom (0 + content.length + 1) ([] ++ content.length :: []) rest).lone :=
    lone_of_unclosed unclosed
  rw [matching, lone_nested nested]
  simpa [matchFrom] using lone

theorem not_nested_close (nested : Nested content) : ¬ Nested (content ++ ')' :: rest) := by
  intro closed
  have lone := mem_lone_close nested rest
  rw [balanced_of_nested closed] at lone
  cases lone

/-- An opening parenthesis within a nested text is closed there. -/
theorem exists_closed {front : List Char} (whole : Nested (front ++ '(' :: rest)) :
    ∃ inside after, rest = inside ++ ')' :: after ∧ Nested inside := by
  generalize same : front ++ '(' :: rest = chars at whole
  induction whole generalizing front rest with
  | nil => simp at same
  | plain notOpen _ _ ih =>
      cases front with
      | nil => exact absurd (List.cons.inj same).1.symm notOpen
      | cons _ front => exact ih (List.cons.inj same).2
  | @group inner later inside _ innerIH ih =>
      cases front with
      | nil =>
          cases same
          exact ⟨inner, later, rfl, inside⟩
      | cons _ front =>
          rcases List.append_eq_append_iff.mp (List.cons.inj same).2 with
            ⟨between, split, tail⟩ | ⟨between, split, tail⟩
          · cases between with
            | nil => simp at tail
            | cons _ between =>
                obtain ⟨rfl, rfl⟩ := List.cons.inj tail
                obtain ⟨within, after, rfl, nested⟩ := innerIH split.symm
                exact ⟨within, after ++ ')' :: later, by simp, nested⟩
          · cases between with
            | nil => simp at tail
            | cons _ between => exact ih (List.cons.inj tail).2.symm

/-- A text has only one closing parenthesis behind a nested text. -/
theorem close_unique {content' rest' : List Char} (nested : Nested content)
    (nested' : Nested content') (same : content ++ ')' :: rest = content' ++ ')' :: rest') :
    content = content' ∧ rest = rest' := by
  have found : closing? ('(' :: (content ++ ')' :: rest)) 0 = .ok (some (content.length + 1)) :=
    closing?_nested nested
  rw [same, closing?_nested nested'] at found
  obtain ⟨first, second⟩ := List.append_inj same (by simpa using found.symm)
  exact ⟨first, (List.cons.inj second).2⟩

/-- A group does not reach out of a nested text: it ends there or begins behind it. -/
theorem group_within_or_behind {front back : List Char} (nested : Nested content)
    (inside : Nested inner) (same : content ++ rest = front ++ '(' :: (inner ++ ')' :: back)) :
    (∃ between, content = front ++ '(' :: (inner ++ ')' :: between) ∧ back = between ++ rest) ∨
      ∃ between, front = content ++ between ∧
        rest = between ++ '(' :: (inner ++ ')' :: back) := by
  rcases List.append_eq_append_iff.mp same with ⟨between, split, tail⟩ | ⟨between, split, tail⟩
  · exact .inr ⟨between, split, tail⟩
  · cases between with
    | nil => exact .inr ⟨[], by simpa using split.symm, by simpa using tail.symm⟩
    | cons _ between =>
        obtain ⟨rfl, later⟩ := List.cons.inj tail
        obtain ⟨within, after, rfl, nested⟩ := exists_closed (split ▸ nested)
        rw [List.append_eq, List.append_assoc] at later
        obtain ⟨rfl, rfl⟩ := close_unique inside nested later
        exact .inl ⟨after, split, rfl⟩

/-- An opening parenthesis between two nested texts stands in one place only. -/
theorem nested_split {content' inner' : List Char} (before : Nested content)
    (inside : Nested inner) (before' : Nested content') (inside' : Nested inner')
    (same : content ++ '(' :: inner = content' ++ '(' :: inner') :
    content = content' ∧ inner = inner' := by
  -- The earlier of two such places would be closed before the later one is reached.
  have earlier : ∀ {a b a' b' : List Char}, Nested b → Nested a' →
      ∀ c y, a' = a ++ c :: y → '(' :: b = c :: y ++ '(' :: b' → False := by
    intro a b a' b' second whole c y split rest
    obtain ⟨rfl, rfl⟩ := List.cons.inj rest
    obtain ⟨inside, after, rfl, nested⟩ := exists_closed (split ▸ whole)
    rw [List.append_eq, List.append_assoc] at second
    exact not_nested_close nested second
  rcases List.append_eq_append_iff.mp same with ⟨between, split, rest⟩ | ⟨between, split, rest⟩
  · cases between with
    | nil => simp_all
    | cons c y => exact (earlier inside before' c y split rest).elim
  · cases between with
    | nil => simp_all
    | cons c y => exact (earlier inside' before c y split rest).elim

end RegexAutomaton.Expression
