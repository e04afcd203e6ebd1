import RegexAutomaton.Proofs.Consistency

namespace RegexAutomaton.Nfa

variable {n m : Nfa} {symbol : Symbol} {ids more : List Nat} {c : Char} {source a b : Nat}

theorem oldest?_append : n.oldest? symbol (ids ++ more) =
    (n.oldest? symbol ids).or (n.oldest? symbol more) := by
  rw [oldest?, List.filterMap_append, List.find?_append]
  rfl

/-- What is found depends on the transitions that are looked at. -/
theorem oldest?_of_same (same : ∀ id ∈ ids, m.transitions[id]? = n.transitions[id]?) :
    m.oldest? symbol ids = n.oldest? symbol ids := by
  rw [oldest?, oldest?, List.filterMap_congr same]

theorem oldest?_extended (old : ∀ id ∈ ids, id < n.transitions.size) :
    (n.extended c).oldest? symbol ids = n.oldest? symbol ids := by
  refine oldest?_of_same fun id member => ?_
  rw [transitions_extended, Array.getElem?_push, if_neg (Nat.ne_of_lt (old id member))]

theorem oldest?_added : (n.extended c).oldest? (.char c) [n.transitions.size] =
    some ⟨.char c, n.current, n.stateCount⟩ := by
  simp [oldest?]

/-- The new state is entered by the new edge only. -/
theorem oldest?_into_added (wired : n.Wired) :
    (n.extended c).oldest? (.char c) ((n.extended c).stateAt (n.extended c).current).incoming =
      some ⟨.char c, n.current, n.stateCount⟩ := by
  rw [current_extended, stateAt_extended wired.current_lt, stateAt_beyond (Nat.le_refl _)]
  simpa using oldest?_added

/-- The new edge comes last among those out of the old end of the path. -/
theorem oldest?_out_extended (wired : n.Wired) :
    (n.extended c).oldest? (.char c) ((n.extended c).stateAt n.current).outgoing =
      (n.oldest? (.char c) (n.stateAt n.current).outgoing).or
        (some ⟨.char c, n.current, n.stateCount⟩) := by
  rw [stateAt_extended wired.current_lt]
  simp only [↓reduceIte]
  rw [oldest?_append, oldest?_extended fun _ => wired.outgoing_lt, oldest?_added]

theorem withCurrent_eq (here : n.current = a) : { n with current := a } = n := by
  rw [← here]

theorem repeated_extended (n : Nfa) (c : Char) :
    (n.extended c).repeated ⟨n.current, n.stateCount, [n.transitions.size]⟩ =
      (n.extended c).looped c n.current n.stateCount := by
  have copied : (n.extended c).copies n.stateCount [n.transitions.size] =
      [⟨.char c, n.stateCount, n.stateCount⟩] := by
    simp [copies]
  rw [repeated, copied, looped, withCurrent_eq (by simp)]
  rfl

theorem looped_inj : n.looped c source a = n.looped c source b ↔ a = b := by
  apply Iff.intro
  · exact congrArg Nfa.current
  · intro same
    rw [same]

/-- The loop lands where the older edges with this letter lead, if there are any. -/
theorem repeatedLetter_extended (wired : n.Wired) (c : Char) :
    (n.extended c).repeatedLetter c = (n.extended c).looped c n.current
      (((n.oldest? (.char c) (n.stateAt n.current).outgoing).map (·.target)).getD n.stateCount) := by
  have entering := oldest?_into_added (c := c) wired
  obtain ⟨into, out, oldestIn, oldestOut, looped⟩ :=
    (wired.extended c).exists_looped (Option.isSome_of_eq_some entering)
  cases entering.symm.trans oldestIn
  rw [oldest?_out_extended wired] at oldestOut
  cases oldest : n.oldest? (.char c) (n.stateAt n.current).outgoing with
  | none =>
      rw [oldest, Option.none_or, Option.some_inj] at oldestOut
      rw [looped, ← oldestOut]
      rfl
  | some older =>
      rw [oldest, Option.some_or, Option.some_inj] at oldestOut
      rw [looped, ← oldestOut]
      rfl

theorem repeatLetter_extended (wired : n.Wired) (c : Char) :
    ((n.extended c).repeatLetter c).outcome = .ok ((n.extended c).looped c n.current
      (((n.oldest? (.char c) (n.stateAt n.current).outgoing).map (·.target)).getD n.stateCount),
      .ok ()) := by
  rw [← repeatedLetter_extended wired]
  exact repeatLetter_present (wired.extended c) (Option.isSome_of_eq_some (oldest?_into_added wired))

/-- Repeating the letter just added never fails. Its loop lands on the oldest target
of that letter from the old end of the path, so it is the loop of the repeated
fragment only if there was none before. -/
theorem repeatLetter_of_concatenate (built : Built n) (c : Char) :
    ∃ after older,
      (n.concatenate c).outcome =
        .ok (after, ⟨n.current, n.stateCount, [n.transitions.size]⟩) ∧
      n.firstTarget n.current (.char c) = .ok older ∧
      (after.repeatFragment ⟨n.current, n.stateCount, [n.transitions.size]⟩).outcome =
        .ok (after.looped c n.current n.stateCount) ∧
      (after.repeatLetter c).outcome =
        .ok (after.looped c n.current (older.getD n.stateCount), .ok ()) ∧
      (after.looped c n.current (older.getD n.stateCount) =
        after.looped c n.current n.stateCount ↔ older = none) := by
  have wired := built.wired
  have current_lt := wired.current_lt
  have kept := wired.extended c
  refine ⟨n.extended c, _, concatenate_eq current_lt c, firstTarget_eq wired current_lt, ?_,
    repeatLetter_extended wired c, ?_⟩
  · rw [repeatFragment_eq kept, repeated_extended]
    refine ⟨?_, ?_, ?_⟩
    all_goals simp
    omega
  · rw [looped_inj]
    cases oldest : n.oldest? (.char c) (n.stateAt n.current).outgoing with
    | none => simp
    | some out =>
        have target_lt := (wired.oldest_lt oldest).2
        simp only [Option.map_some, Option.getD_some, reduceCtorEq, iff_false]
        omega

/-- Behind a repeated letter, the repetition of the same letter finds the older loop. -/
theorem repeatLetter_of_concatenate_behind_loop :
    let n : Nfa := {
      states := #[{ accepting := true, outgoing := [0] },
        { accepting := true, outgoing := [1], incoming := [0, 1] }]
      transitions := #[⟨.char 'a', 0, 1⟩, ⟨.char 'a', 1, 1⟩]
      start := some 0
      current := 1 }
    Built n ∧ ∃ after, (n.concatenate 'a').outcome = .ok (after, ⟨1, 2, [2]⟩) ∧
      (after.repeatFragment ⟨1, 2, [2]⟩).outcome = .ok (after.looped 'a' 1 2) ∧
      (after.repeatLetter 'a').outcome = .ok (after.looped 'a' 1 1, .ok ()) ∧
      after.looped 'a' 1 1 ≠ after.looped 'a' 1 2 := by
  intro n
  have built : Built n := .repeatLetter (c := 'a') (.concatenate (c := 'a') .new rfl) rfl
  obtain ⟨after, older, extended, first, fragment, letter, agree⟩ :=
    repeatLetter_of_concatenate built 'a'
  obtain rfl : some 1 = older := Except.ok.inj (show n.firstTarget 1 (.char 'a') = _ from first)
  exact ⟨built, after, extended, fragment, letter, fun same => by cases agree.mp same⟩

end RegexAutomaton.Nfa
