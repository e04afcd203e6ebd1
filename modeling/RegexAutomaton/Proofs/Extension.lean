import RegexAutomaton.Proofs.Alternation

namespace RegexAutomaton.Expression

open Nfa

variable {pattern before content : Pattern} {c : Char} {stars : Nat} {n : Nfa}

namespace Pattern

theorem silent_lastAlternative (p : Pattern) : p.lastAlternative.silent = p.lastSilent := by
  induction p with
  | empty | letter | bar => rfl
  | group before content stars ih _ => rw [lastAlternative, silent, lastSilent, ih]

/-- A text that ends in a repeated letter is that of a pattern which ends in it. -/
theorem exists_letter {front : List Char} (valid : isLetter c = true)
    (ends : pattern.text = front ++ c :: List.replicate stars '*') :
    ∃ before, pattern = letter before c valid stars := by
  induction stars generalizing pattern with
  | zero =>
      rcases pattern.ending_exists with rfl | ⟨init, last, ending⟩
      · simp [text] at ends
      · rw [ending.text] at ends
        obtain ⟨_, same⟩ := List.append_inj' ends rfl
        obtain rfl : last = c := by simpa using same
        have plain := ne_brackets_of_isLetter valid
        cases ending with
        | letter before => exact ⟨before, rfl⟩
        | bar | group | star => simp at plain
  | succ stars ih =>
      rcases pattern.ending_exists with rfl | ⟨init, last, ending⟩
      · simp [text] at ends
      · rw [ending.text, List.replicate_succ', ← List.cons_append, ← List.append_assoc] at ends
        obtain ⟨shorter, same⟩ := List.append_inj' ends rfl
        obtain rfl : last = '*' := by simpa using same
        cases ending with
        | letter _ _ star => exact absurd star (by decide)
        | star once =>
            obtain ⟨before, rfl⟩ := ih shorter
            exact ⟨before, rfl⟩

end Pattern

namespace Progress

/-- A trace behind the last bar leads away from the first state of the alternative. -/
theorem alternative_ne_current (loud : pattern.lastSilent = false) :
    (through pattern (opened pattern.hasBar)).alternative ≠
      some (through pattern (opened pattern.hasBar)).nfa.current := by
  cases several : pattern.hasBar with
  | false =>
      have tidy : Tidy false pattern (through pattern (opened false)) :=
        tidy_through pattern fun _ => several
      have alone : (through pattern (opened false)).alternative = none := by simpa using tidy.several
      simp [alone]
  | true =>
      obtain ⟨host, _, _, abreast⟩ := forked_through pattern
      have moved := (current_eq_origin_iff pattern.hasBar_lastAlternative).not.mpr
        (by simp [pattern.silent_lastAlternative, loud])
      rw [abreast.alternative, abreast.nfa.current_eq, ne_eq, Option.some_inj]
      exact fun same => moved (Nat.left_eq_add.mp same)

/-- Nothing is left to do at the end of an alternative with a trace. -/
theorem compiled_of_lastLoud (loud : pattern.lastSilent = false) :
    compiled pattern = (through pattern (opened pattern.hasBar)).nfa := by
  rcases closed_cases (through pattern (opened pattern.hasBar)) with ⟨here, _⟩ | ⟨_, same⟩
  · exact absurd here (alternative_ne_current loud)
  · exact same

/-- At most the acceptance of the current state is settled at the end. -/
theorem compiled_cases (pattern : Pattern) :
    compiled pattern = (through pattern (opened pattern.hasBar)).nfa.marked
        (through pattern (opened pattern.hasBar)).nfa.current true ∨
      compiled pattern = (through pattern (opened pattern.hasBar)).nfa :=
  (closed_cases _).imp And.right And.right

/-- A silent group leaves no trace. -/
theorem attach_silent (silent : content.silent = true) (n : Nfa) :
    (attach n (compiled content)).1 = n := by
  obtain ⟨accepting, lone⟩ := compiled_silent silent
  rw [lone, attach, if_pos (lone_stuck accepting origin)]

theorem compiled_letter (before : Pattern) (valid : isLetter c = true) :
    compiled (.letter before c valid 0) = (compiled before).extended c := by
  have sound := through_sound before _ (.opened before.hasBar)
  rw [compiled_of_lastLoud rfl]
  show (through before (opened before.hasBar)).nfa.extended c = _
  rcases compiled_cases before with same | same
  · rw [same, extended_marked sound.wired.current_lt]
  · rw [same]

theorem compiled_group (before content : Pattern) :
    compiled (.group before content 0) = (attach (compiled before) (compiled content)).1 := by
  have sound := through_sound before _ (.opened before.hasBar)
  cases quiet : content.silent with
  | true =>
      rw [attach_silent quiet]
      exact closed_congr (attach_silent quiet _) rfl
  | false =>
      have spliceable := spliceable_compiled quiet
      have loud : (Pattern.group before content 0).lastSilent = false := by
        simp [Pattern.lastSilent, quiet]
      rw [compiled_of_lastLoud loud, attach_spliced spliceable]
      show (attach (through before (opened before.hasBar)).nfa (compiled content)).1 = _
      rw [attach_spliced spliceable]
      rcases compiled_cases before with same | same
      · rw [same, spliced_marked sound.wired.current_lt spliceable.start_lt]
      · rw [same]

theorem repeatLetter_compiled (before : Pattern) (valid : isLetter c = true) (stars : Nat) :
    ((compiled (.letter before c valid stars)).repeatLetter c).outcome =
      .ok (compiled (.letter before c valid (stars + 1)), .ok ()) := by
  have sound := through_sound (.letter before c valid stars) _ (.opened before.hasBar)
  have last : (through (.letter before c valid stars) (opened before.hasBar)).last =
      some (.letter c) := by simp [through, iterate_again_last, lettered]
  rw [compiled_of_lastLoud rfl, compiled_of_lastLoud rfl]
  refine (repeatLetter_present sound.wired (sound.repeatable _ last)).trans ?_
  rw [← again_letter last]
  show _ = Except.ok ((again^[stars + 1] _).nfa, _)
  rw [Function.iterate_succ_apply']
  rfl

end Progress

open Progress

/-- Compiling an expression with one more letter, group or star at its end is
building on with the automaton of the expression. -/
theorem compile_extension {e : String} (done : (compile e).outcome = .ok n) :
    (∀ c, isLetter c = true → ∃ after fragment,
      (n.concatenate c).outcome = .ok (after, fragment) ∧
        (compile (e.push c)).outcome = .ok after) ∧
    (∀ g sub, (g = "" ∧ sub = Nfa.new ∨ (compile g).outcome = .ok sub) →
      ∃ after fragment, (n.splice sub).outcome = .ok (after, fragment) ∧
        (compile (e ++ "(" ++ g ++ ")")).outcome = .ok after) ∧
    (∀ front c stars, isLetter c = true →
      e.toList = front ++ c :: List.replicate stars '*' →
      ∃ after, (n.repeatLetter c).outcome = .ok (after, .ok ()) ∧
        (compile (e.push '*')).outcome = .ok after) := by
  obtain ⟨p, unique, rfl⟩ := reading_exists done
  have text : p.text = e.toList := (unique p).mpr rfl
  have wired := compiled_wired p
  refine ⟨?_, ?_, ?_⟩
  · intro c valid
    refine ⟨_, _, concatenate_eq wired.current_lt c, ?_⟩
    rw [← compiled_letter p valid]
    exact compile_of_text (by simp) (by simp [Pattern.text, text])
  · intro g sub inside
    obtain ⟨content, spelled, rfl⟩ : ∃ content : Pattern,
        content.text = g.toList ∧ sub = compiled content := by
      rcases inside with ⟨rfl, rfl⟩ | inside
      · exact ⟨.empty, rfl, rfl⟩
      · obtain ⟨content, unique, rfl⟩ := reading_exists inside
        exact ⟨content, (unique content).mpr rfl, rfl⟩
    have spliced := splice_eq_attach wired (compiled_wired content) (compiled_start content)
    refine ⟨(attach (compiled p) (compiled content)).1, _, spliced, ?_⟩
    rw [← compiled_group]
    exact compile_of_text (by simp) (by simp [Pattern.text, text, spelled])
  · intro front c stars valid ends
    obtain ⟨before, rfl⟩ := Pattern.exists_letter valid (text.trans ends)
    refine ⟨_, repeatLetter_compiled before valid stars, ?_⟩
    refine compile_of_text (by simp) ?_
    rw [String.toList_push, ← text]
    exact Pattern.text_addStar (p := .letter before c valid stars) rfl

/-- The star has moved the end of the path back to an older state, from which all
three ways of going on start. -/
theorem compile_extension_of_moved_end : ∃ n, (compile "b|(ab)*a*").outcome = .ok n ∧
    (∃ after fragment, (n.concatenate 'b').outcome = .ok (after, fragment) ∧
      (compile "b|(ab)*a*b").outcome = .ok after) ∧
    (∃ sub after fragment, (compile "a|").outcome = .ok sub ∧
      (n.splice sub).outcome = .ok (after, fragment) ∧
      (compile "b|(ab)*a*(a|)").outcome = .ok after) ∧
    ∃ after, (n.repeatLetter 'a').outcome = .ok (after, .ok ()) ∧
      (compile "b|(ab)*a**").outcome = .ok after := by
  let p : Pattern := .letter (.group (.bar (.letter .empty 'b' rfl 0))
    (.letter (.letter .empty 'a' rfl 0) 'b' rfl 0) 1) 'a' rfl 1
  have done : (compile "b|(ab)*a*").outcome = .ok (compiled p) := compile_of_text (by decide) rfl
  have inside : (compile "a|").outcome = .ok (compiled (.bar (.letter .empty 'a' rfl 0))) :=
    compile_of_text (by decide) rfl
  obtain ⟨letters, groups, stars⟩ := compile_extension done
  obtain ⟨after, fragment, spliced, grouped⟩ := groups "a|" _ (.inr inside)
  exact ⟨_, done, letters 'b' (by decide), ⟨_, after, fragment, inside, spliced, grouped⟩,
    stars "b|(ab)*".toList 'a' 1 (by decide) (by decide)⟩

end RegexAutomaton.Expression
