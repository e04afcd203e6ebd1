import RegexAutomaton.Proofs.Course
import RegexAutomaton.Proofs.Trimness

namespace RegexAutomaton.Expression

open Nfa Progress

variable {chars rest front : List Char} {free above below : List Nat} {pair : Nat × Nat}
  {opening place position j : Nat} {p q : Progress} {n : Nfa}

/-- The first of two partners was free before, or stands in the text. -/
theorem mem_pairs (paired : pair ∈ (matchFrom place free chars).pairs) :
    pair.1 ∈ free ∨ place ≤ pair.1 := by
  induction chars generalizing place free with
  | nil => cases paired
  | cons c rest ih =>
      by_cases opens : c = '('
      · simp only [matchFrom, opens, ↓reduceIte] at paired
        rcases ih paired with old | later
        · rcases List.mem_cons.mp old with here | old
          · exact .inr (Nat.le_of_eq here.symm)
          · exact .inl old
        · exact .inr (Nat.le_of_succ_le later)
      · by_cases closes : c = ')'
        · cases free with
          | nil =>
              simp only [matchFrom, closes, ↓reduceIte, Char.reduceEq] at paired
              exact (ih paired).imp_right Nat.le_of_succ_le
          | cons top free =>
              simp only [matchFrom, closes, ↓reduceIte, Char.reduceEq, List.mem_cons] at paired
              rcases paired with rfl | paired
              · exact .inl List.mem_cons_self
              · exact (ih paired).imp (List.mem_cons_of_mem top) Nat.le_of_succ_le
        · simp only [matchFrom, opens, closes, ↓reduceIte] at paired
          exact (ih paired).imp_right Nat.le_of_succ_le

/-- A scan that counts the free parentheses from `opening` on finds its partner. -/
theorem closingFrom_iff (above : List Nat) (before : opening < place) (notAbove : opening ∉ above)
    (notBelow : opening ∉ below) :
    closingFrom (above.length + 1) place chars = .ok (some j) ↔
      (opening, j) ∈ (matchFrom place (above ++ opening :: below) chars).pairs := by
  induction chars generalizing above place with
  | nil => simp [closingFrom, matchFrom]
  | cons c rest ih =>
      by_cases opens : c = '('
      · have notAbove' : opening ∉ place :: above := by
          simp [notAbove, Nat.ne_of_lt before]
        have deeper := ih (place :: above) (Nat.lt_succ_of_lt before) notAbove'
        simpa only [closingFrom, matchFrom, opens, ↓reduceIte, List.length_cons, List.cons_append]
          using deeper
      · by_cases closes : c = ')'
        · cases above with
          | nil =>
              have later : (opening, j) ∉ (matchFrom (place + 1) below rest).pairs := by
                intro paired
                rcases mem_pairs paired with old | later
                · exact notBelow old
                · exact Nat.not_lt_of_ge later (Nat.lt_succ_of_lt before)
              simp [closingFrom, matchFrom, closes, later, eq_comm]
          | cons top above =>
              have other : opening ≠ top := fun same => notAbove (same ▸ List.mem_cons_self)
              have lower := ih above (Nat.lt_succ_of_lt before) fun member =>
                notAbove (List.mem_cons_of_mem top member)
              simpa [closingFrom, matchFrom, closes, other] using lower
        · simpa only [closingFrom, matchFrom, opens, closes, ↓reduceIte] using
            ih above (Nat.lt_succ_of_lt before) notAbove

/-- What has been matched in `front` leaves some parentheses free for the rest. -/
theorem matchFrom_append (place : Nat) (free : List Nat) (front rest : List Char) :
    ∃ pairs left, (matchFrom place free (front ++ rest)).pairs =
        pairs ++ (matchFrom (place + front.length) left rest).pairs ∧
      (∀ pair ∈ pairs, pair.1 ∈ free ∨ pair.1 < place + front.length) ∧
      ∀ k ∈ left, k ∈ free ∨ k < place + front.length := by
  induction front generalizing place free with
  | nil => exact ⟨[], free, rfl, by simp, fun k member => .inl member⟩
  | cons c front ih =>
      have next : ∀ free', (∀ k ∈ free', k ∈ free ∨ k = place) → ∃ pairs left,
          (matchFrom (place + 1) free' (front ++ rest)).pairs =
            pairs ++ (matchFrom (place + (c :: front).length) left rest).pairs ∧
          (∀ pair ∈ pairs, pair.1 ∈ free ∨ pair.1 < place + (c :: front).length) ∧
          ∀ k ∈ left, k ∈ free ∨ k < place + (c :: front).length := by
        intro free' known
        obtain ⟨pairs, left, same, earlier, later⟩ := ih (place + 1) free'
        have length : place + 1 + front.length = place + (c :: front).length := by
          rw [List.length_cons]
          omega
        have widen : ∀ k, k ∈ free' ∨ k < place + (c :: front).length →
            k ∈ free ∨ k < place + (c :: front).length := by
          intro k bounded
          rcases bounded with old | below
          · refine (known k old).imp_right fun here => ?_
            rw [here, List.length_cons]
            omega
          · exact .inr below
        rw [length] at same earlier later
        exact ⟨pairs, left, same, fun pair member => widen _ (earlier pair member),
          fun k member => widen k (later k member)⟩
      by_cases opens : c = '('
      · subst opens
        simp only [List.cons_append, matchFrom, ↓reduceIte]
        exact next (place :: free) (by simp [or_comm])
      · by_cases closes : c = ')'
        · subst closes
          cases free with
          | nil =>
              simp only [List.cons_append, matchFrom, ↓reduceIte, Char.reduceEq]
              exact next [] (by simp)
          | cons top free =>
              simp only [List.cons_append, matchFrom, ↓reduceIte, Char.reduceEq]
              obtain ⟨pairs, left, same, earlier, later⟩ :=
                next free fun k member => .inl (List.mem_cons_of_mem top member)
              refine ⟨(top, place) :: pairs, left, by rw [same, List.cons_append], ?_, later⟩
              intro pair member
              rcases List.mem_cons.mp member with rfl | member
              · exact .inl List.mem_cons_self
              · exact earlier pair member
        · simp only [List.cons_append, matchFrom, opens, closes, ↓reduceIte]
          exact next free fun k member => .inl member

theorem closing?_append (front rest : List Char) :
    closing? (front ++ '(' :: rest) front.length = closingFrom 1 (front.length + 1) rest := by
  simp [closing?, closingFrom]

theorem partners_iff :
    Partners (front ++ '(' :: rest) front.length j ↔
      closing? (front ++ '(' :: rest) front.length = .ok (some j) := by
  obtain ⟨pairs, left, same, earlier, later⟩ := matchFrom_append 0 [] front ('(' :: rest)
  rw [Nat.zero_add] at same earlier later
  have apart : ∀ k, ((k, j) : Nat × Nat) ∈ pairs → k < front.length := fun k member =>
    (earlier _ member).elim (fun none => by cases none) id
  have notLeft : front.length ∉ left := fun member =>
    (later _ member).elim (fun none => by cases none) (Nat.lt_irrefl _)
  rw [Partners, matching, same, List.mem_append, or_iff_right fun member =>
    Nat.lt_irrefl _ (apart _ member), closing?_append]
  simp only [matchFrom, ↓reduceIte]
  exact (closingFrom_iff [] (Nat.lt_succ_self _) (by simp) notLeft).symm

/-- Between partners the parentheses are balanced. -/
theorem balanced_between (closed : closing? (front ++ '(' :: rest) front.length = .ok (some j)) :
    front.length < j ∧
      Balanced (((front ++ '(' :: rest).take j).drop (front.length + 1)) := by
  rw [closing?_append] at closed
  obtain ⟨content, after, rfl, rfl, closes⟩ := closingFrom_some closed
  cases closes with
  | last nested =>
      refine ⟨by omega, ?_⟩
      have split : front ++ '(' :: (content ++ ')' :: after) =
          (front ++ ['(']) ++ (content ++ ')' :: after) := by simp
      have length : (front ++ ['(']).length = front.length + 1 := by simp
      rw [split, ← length, List.take_length_add_append, List.drop_left, List.take_left]
      exact balanced_of_nested nested

theorem hasOuterBar_plain {c : Char} (opens : c ≠ '(') (closes : c ≠ ')') (bar : c ≠ '|') :
    hasOuterBar (c :: rest) = hasOuterBar rest := by
  simp only [hasOuterBar, hasOuterBarFrom, opens, closes, bar, ↓reduceIte, false_and]

theorem hasOuterBar_closed {closing : Nat} (closed : closing? ('(' :: chars) 0 = .ok (some closing)) :
    hasOuterBar ('(' :: chars) = hasOuterBar (chars.drop closing) := by
  obtain ⟨content, nested, split, _⟩ := group_exists closed
  generalize chars.drop closing = after at split
  subst split
  simp only [hasOuterBar, hasOuterBarFrom, ↓reduceIte, hasOuterBarFrom_nested nested]
  simp

/-- A bar that compilation comes to is found by the scan for bars. -/
theorem Passes.hasOuterBar_of_rest (passes : Passes p chars q rest) (bar : hasOuterBar rest = true) :
    hasOuterBar chars = true := by
  induction passes with
  | here => exact bar
  | letter valid _ _ ih =>
      obtain ⟨opens, closes, _, bars⟩ := ne_brackets_of_isLetter valid
      rw [hasOuterBar_plain opens closes bars, ih bar]
  | star _ _ ih => rw [hasOuterBar_plain (by decide) (by decide) (by decide), ih bar]
  | bar => rfl
  | group closed _ _ _ _ _ _ ih => rw [hasOuterBar_closed closed, ih bar]

/-- Compilation that has come to the end has come to the bar that the scan has found. -/
theorem Passes.exists_bar (passes : Passes p chars q rest) (passed : hasOuterBar rest = false)
    (bar : hasOuterBar chars = true) : ∃ here behind, Passes p chars here ('|' :: behind) := by
  induction passes with
  | here =>
      rw [passed] at bar
      cases bar
  | letter valid lettered _ ih =>
      obtain ⟨opens, closes, _, bars⟩ := ne_brackets_of_isLetter valid
      rw [hasOuterBar_plain opens closes bars] at bar
      obtain ⟨here, behind, later⟩ := ih passed bar
      exact ⟨here, behind, .letter valid lettered later⟩
  | star starred _ ih =>
      rw [hasOuterBar_plain (by decide) (by decide) (by decide)] at bar
      obtain ⟨here, behind, later⟩ := ih passed bar
      exact ⟨here, behind, .star starred later⟩
  | @bar p _ _ chars => exact ⟨p, chars, .here p _⟩
  | group closed entered content ended grouped _ _ ih =>
      rw [hasOuterBar_closed closed] at bar
      obtain ⟨here, behind, later⟩ := ih passed bar
      exact ⟨here, behind, .group closed entered content ended grouped later⟩

/-- An epsilon out of the first state leads to the open alternative. -/
def Forks (p : Progress) : Prop :=
  ∃ entry, p.alternative = some entry ∧ p.nfa.Step origin .epsilon entry

theorem forks_opened : Forks (opened true) :=
  ⟨1, rfl, (step_branched .new (by decide)).mpr (.inr ⟨rfl, rfl, rfl⟩)⟩

theorem Forks.of_step {next : Progress} (forks : Forks p)
    (alternative : next.alternative = p.alternative)
    (keeps : ∀ {a s b}, p.nfa.Step a s b → next.nfa.Step a s b) : Forks next := by
  obtain ⟨entry, opened, step⟩ := forks
  exact ⟨entry, alternative.trans opened, keeps step⟩

theorem Forks.again (forks : Forks p) (sound : p.Sound) : Forks p.again := by
  obtain ⟨_, appends, _⟩ := again_appends sound
  exact forks.of_step p.again_alternative appends.step

theorem Forks.grouped {sub : Nfa} (forks : Forks p) (sound : p.Sound) (subWired : sub.Wired)
    (attached : sub.start = some origin) : Forks (p.grouped sub) := by
  obtain ⟨_, appends, _⟩ := grouped_appends sound subWired attached
  exact forks.of_step rfl appends.step

theorem forks_barred (sound : p.Sound) : Forks p.barred := by
  have origin_lt : origin < p.closed.stateCount := by
    rw [closed_stateCount]
    exact sound.origin_lt
  exact ⟨_, rfl, (step_branched (closed_wired sound) origin_lt).mpr (.inr ⟨rfl, rfl, rfl⟩)⟩

/-- What each turn keeps holds of the whole course: behind an epsilon once, behind an
epsilon for good. -/
theorem Passes.forks (passes : Passes p chars q rest) (sound : p.Sound) (forks : Forks p) :
    Forks q := by
  refine (passes.sound_induction (motive := fun p _ q _ => Forks p → Forks q) sound ?_ ?_ ?_ ?_
    ?_).1 forks
  · exact fun _ forks => forks
  · intro p q c chars rest sound _ ih forks
    exact ih (forks.of_step (p.lettered_alternative c)
      (Appends.extended sound.wired.current_lt c).step)
  · exact fun sound _ ih forks => ih (forks.again sound)
  · exact fun sound ih _ => ih (forks_barred sound)
  · intro p last q content chars rest sound _ ended _ ih forks
    exact ih (forks.grouped sound (closed_wired ended) ((closed_start _).trans ended.attached))

/-- The scan for a closing parenthesis always ends, with the partner on the stack if there
is one. Where compilation succeeds, the scan for a bar foretells whether it comes to one,
and no alternative is ended that was not opened behind an epsilon. -/
theorem scans_agree :
    (∀ (chars : List Char) (opening : Nat), chars[opening]? = some '(' →
      ∃ answer, closing? chars opening = .ok answer ∧
        (∀ j, answer = some j ↔ Partners chars opening j) ∧
        (∀ j, answer = some j → opening < j ∧ Balanced ((chars.take j).drop (opening + 1))) ∧
        (answer = none ↔ ¬ ∃ j, Partners chars opening j)) ∧
    ∀ (chars : List Char) (position : Nat) (p : Progress) (n : Nfa),
      (Progress.opening chars).outcome = .ok p →
      (compileFrom position p chars).outcome = .ok n →
        (hasOuterBar chars = true ↔ ∃ q rest, Passes p chars q ('|' :: rest)) ∧
        ∀ q rest, Passes p chars q ('|' :: rest) →
          ∃ entry, q.alternative = some entry ∧ q.nfa.Step origin .epsilon entry := by
  refine ⟨fun chars opening opens => ?_, fun chars position p n opened done => ?_⟩
  · obtain ⟨opening_lt, here⟩ := List.getElem?_eq_some_iff.mp opens
    obtain ⟨front, rest, rfl, rfl⟩ : ∃ front rest, chars = front ++ '(' :: rest ∧
        front.length = opening :=
      ⟨chars.take opening, chars.drop (opening + 1),
        by rw [← here, ← List.drop_eq_getElem_cons, List.take_append_drop],
        List.length_take_of_le (Nat.le_of_lt opening_lt)⟩
    obtain ⟨answer, closed⟩ := closingFrom_exists 0 (front.length + 1) rest
    rw [← closing?_append] at closed
    have partner : ∀ j, answer = some j ↔ Partners (front ++ '(' :: rest) front.length j := by
      intro j
      rw [partners_iff, closed, Except.ok.injEq]
    refine ⟨answer, closed, partner, fun j found => ?_, ?_⟩
    · exact balanced_between (closed.trans (congrArg Except.ok found))
    · simp only [← partner, Option.eq_none_iff_forall_ne_some, not_exists, ne_eq]
  · obtain ⟨last, whole, _⟩ := compileFrom_eq_ok_iff.mp done
    have found : ∀ {q rest}, Passes p chars q ('|' :: rest) → hasOuterBar chars = true :=
      fun passes => passes.hasOuterBar_of_rest rfl
    refine ⟨⟨whole.exists_bar rfl, fun ⟨q, rest, passes⟩ => found passes⟩, fun q rest passes => ?_⟩
    cases (opening_eq chars).symm.trans opened
    rw [found passes] at passes
    exact passes.forks (.opened true) forks_opened

/-- With a bar in a group, one behind it, and a parenthesis that is never closed. -/
theorem scans_agree_around_groups :
    (closing? "((a|b)".toList 0 = .ok none ∧ closing? "((a|b)".toList 1 = .ok (some 5) ∧
      Partners "((a|b)".toList 1 5 ∧ ¬ ∃ j, Partners "((a|b)".toList 0 j) ∧
    ∃ p n, (Progress.opening "(a|b)c|()".toList).outcome = .ok p ∧
      (compileFrom 0 p "(a|b)c|()".toList).outcome = .ok n ∧
      ∃ q rest entry, Passes p "(a|b)c|()".toList q ('|' :: rest) ∧ q.alternative = some entry ∧
        q.nfa.Step origin .epsilon entry := by
  have unclosed : closing? "((a|b)".toList 0 = .ok none := by decide
  have closed : closing? "((a|b)".toList 1 = .ok (some 5) := by decide
  obtain ⟨answer, same, _, _, none⟩ := scans_agree.1 "((a|b)".toList 0 rfl
  obtain ⟨answer', same', partner, _⟩ := scans_agree.1 "((a|b)".toList 1 rfl
  cases unclosed.symm.trans same
  cases closed.symm.trans same'
  let pattern : Pattern := .group (.bar (.letter (.group .empty
    (.letter (.bar (.letter .empty 'a' rfl 0)) 'b' rfl 0) 0) 'c' rfl 0)) .empty 0
  have opened : (Progress.opening pattern.text).outcome = .ok _ := opening_eq _
  have done : (compileChars pattern.text).outcome = .ok (compiled pattern) :=
    compileChars_text pattern
  rw [compileChars, Traced.outcome_bind, opened, ok_bind] at done
  obtain ⟨bar, behind⟩ := scans_agree.2 pattern.text 0 _ _ opened done
  obtain ⟨q, rest, passes⟩ := bar.mp rfl
  obtain ⟨entry, alternative, step⟩ := behind q rest passes
  exact ⟨⟨unclosed, closed, (partner 5).mp rfl, none.mp rfl⟩, _, _, opened, done, q, rest, entry,
    passes, alternative, step⟩

end RegexAutomaton.Expression
