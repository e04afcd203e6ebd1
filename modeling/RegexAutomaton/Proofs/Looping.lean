import RegexAutomaton.Nfa.Looping
import RegexAutomaton.Proofs.Consistency

namespace RegexAutomaton.Nfa

variable {n : Nfa} {symbol : Symbol} {ids : List Nat} {q source target : Nat} {t : Transition}
  {c : Char}

theorem oldest?_least (increasing : ids.Pairwise (· < ·))
    (oldest : n.oldest? symbol ids = some t) :
    ∃ id ∈ ids, n.transitions[id]? = some t ∧ ∀ other ∈ ids, ∀ u,
      n.transitions[other]? = some u → u.symbol = symbol → id ≤ other := by
  induction ids with
  | nil => cases oldest
  | cons id rest ih =>
      obtain ⟨below, later⟩ := List.pairwise_cons.mp increasing
      by_cases reads : ∃ u, n.transitions[id]? = some u ∧ u.symbol = symbol
      · obtain ⟨u, found, reads⟩ := reads
        obtain rfl : u = t := by simpa [oldest?, found, reads] using oldest
        refine ⟨id, by simp, found, fun other member _ _ _ => ?_⟩
        rcases List.mem_cons.mp member with rfl | behind
        · exact Nat.le_refl _
        · exact Nat.le_of_lt (below other behind)
      · have passed : n.oldest? symbol rest = some t := by
          rw [← oldest, oldest?, oldest?, List.filterMap_cons]
          cases found : n.transitions[id]? with
          | none => rfl
          | some u =>
              have other : ¬ u.symbol = symbol := fun same => reads ⟨u, found, same⟩
              simp [other]
        obtain ⟨first, member, found, least⟩ := ih later passed
        refine ⟨first, by simp [member], found, fun other listed u named same => ?_⟩
        rcases List.mem_cons.mp listed with rfl | behind
        · exact absurd ⟨u, named, same⟩ reads
        · exact least other behind u named same

theorem Wired.oldest_entering (wired : n.Wired)
    (oldest : n.oldest? symbol (n.stateAt q).incoming = some t) :
    ∃ id, n.Oldest (fun t => t.symbol = symbol ∧ t.target = q) id t := by
  obtain ⟨id, listed, found, least⟩ := oldest?_least (wired.incoming_increasing q) oldest
  have reads := (oldest?_some oldest).1
  obtain ⟨u, named, leads⟩ := wired.incoming_target listed
  cases found.symm.trans named
  refine ⟨id, found, ?_, ⟨reads, leads⟩, fun other u named linked property => ?_⟩
  · rw [linkedOut_iff, wired.mirrored found, leads]
    exact listed
  · rw [linkedOut_iff, wired.mirrored named, property.2] at linked
    exact least other linked u named property.1

theorem Wired.oldest_leaving (wired : n.Wired)
    (oldest : n.oldest? symbol (n.stateAt q).outgoing = some t) :
    ∃ id, n.Oldest (fun t => t.symbol = symbol ∧ t.source = q) id t := by
  obtain ⟨id, listed, found, least⟩ := oldest?_least (wired.outgoing_increasing q) oldest
  have reads := (oldest?_some oldest).1
  obtain ⟨u, named, leaves⟩ := wired.outgoing_source listed
  cases found.symm.trans named
  refine ⟨id, found, ?_, ⟨reads, leaves⟩, fun other u named linked property => ?_⟩
  · rw [linkedOut_iff, leaves]
    exact listed
  · rw [linkedOut_iff, property.2] at linked
    exact least other linked u named property.1

/-- Nothing is found exactly if no linked transition of the letter enters the state. -/
theorem Wired.oldest?_entering_eq_none (wired : n.Wired) :
    n.oldest? symbol (n.stateAt q).incoming = none ↔
      ¬ ∃ id t, n.transitions[id]? = some t ∧ n.LinkedOut id t ∧ t.symbol = symbol ∧ t.target = q := by
  rw [← Option.not_isSome_iff_eq_none, oldest?_isSome]
  refine not_congr ⟨fun listed => ?_, fun linked => ?_⟩
  · obtain ⟨id, member, t, found, reads⟩ := listed
    obtain ⟨u, named, leads⟩ := wired.incoming_target member
    cases found.symm.trans named
    refine ⟨id, t, found, ?_, reads, leads⟩
    rw [linkedOut_iff, wired.mirrored found, leads]
    exact member
  · obtain ⟨id, t, found, linked, reads, leads⟩ := linked
    rw [linkedOut_iff, wired.mirrored found, leads] at linked
    exact ⟨id, linked, t, found, reads⟩

theorem loops_looped (source_lt : source < n.stateCount) (target_lt : target < n.stateCount) :
    n.Loops c source target (n.looped c source target) where
  stateCount_eq := stateCount_looped
  transitions_eq := rfl
  start_eq := rfl
  current_eq := rfl
  states := by
    intro q s found
    have q_lt : q < n.stateCount := (Array.getElem?_eq_some_iff.mp found).1
    rw [getElem?_states (by rwa [stateCount_looped]), looped, stateAt_current,
      stateAt_connected (by simpa using target_lt) (by simpa using target_lt),
      marked_accepting source_lt, marked_outgoing source_lt, marked_incoming source_lt,
      stateAt_of_getElem? found]
    by_cases here : q = source <;> simp [here]

/-- A repetition is refused exactly if no linked transition of the letter enters the
current state, and a refused one leaves the automaton as it was. Otherwise the source of
the oldest such transition accepts, and where the oldest transition of the letter out of
that source leads, there is a loop more, and the new current state. -/
theorem repeatLetter_all_or_nothing (built : Built n) (c : Char) :
    ∃ after result, (n.repeatLetter c).outcome = .ok (after, result) ∧
      ((∃ cause, result = .error cause) ↔ ¬ ∃ id t, n.transitions[id]? = some t ∧
        n.LinkedOut id t ∧ t.symbol = .char c ∧ t.target = n.current) ∧
      (∀ cause, result = .error cause → cause = .nothingToRepeat (.char c) ∧ after = n) ∧
      (result = .ok () → ∃ first into second out,
        n.Oldest (fun t => t.symbol = .char c ∧ t.target = n.current) first into ∧
        n.Oldest (fun t => t.symbol = .char c ∧ t.source = into.source) second out ∧
        n.Loops c into.source out.target after) := by
  have wired := built.wired
  rw [← wired.oldest?_entering_eq_none]
  cases entering : n.oldest? (.char c) (n.stateAt n.current).incoming with
  | none =>
      refine ⟨n, _, repeatLetter_absent wired entering, by simp, fun cause refused => ?_, nofun⟩
      cases refused
      exact ⟨rfl, rfl⟩
  | some into =>
      obtain ⟨out, leaving⟩ := wired.exists_oldest_leaving entering
      obtain ⟨first, oldestIn⟩ := wired.oldest_entering entering
      obtain ⟨second, oldestOut⟩ := wired.oldest_leaving leaving
      have source_lt := (wired.oldest_lt entering).1
      have target_lt := (wired.oldest_lt leaving).2
      exact ⟨_, _, repeatLetter_eq wired entering leaving, by simp, nofun,
        fun _ => ⟨first, into, second, out, oldestIn, oldestOut, loops_looped source_lt target_lt⟩⟩

/-- The first two transitions are unlinked with the state between them. So the fifth is
the oldest `a` into the current state, and the loop on its source the oldest `a` out of
there. No `c` is left. -/
theorem repeatLetter_all_or_nothing_after_deletion :
    let n : Nfa := {
      states := #[{ outgoing := [2, 3, 4], incoming := [3] }, {},
        { accepting := true, incoming := [2, 4] }]
      transitions := #[⟨.char 'c', 0, 1⟩, ⟨.char 'a', 1, 2⟩, ⟨.char 'b', 0, 2⟩, ⟨.char 'a', 0, 0⟩,
        ⟨.char 'a', 0, 2⟩]
      start := some 0
      current := 2 }
    Built n ∧
      (∃ after, (n.repeatLetter 'a').outcome = .ok (after, .ok ()) ∧ after.current = 0 ∧
        ∃ first into second out,
          n.Oldest (fun t => t.symbol = .char 'a' ∧ t.target = 2) first into ∧
          n.Oldest (fun t => t.symbol = .char 'a' ∧ t.source = into.source) second out ∧
          n.Loops 'a' into.source out.target after) ∧
      (n.repeatLetter 'c').outcome = .ok (n, .error (.nothingToRepeat (.char 'c'))) := by
  intro n
  have line : Built _ := .concatenate (c := 'a') (.concatenate (c := 'c') .new rfl) rfl
  have linked := ((line.connected 0 (.char 'b') 2 (by decide) (by decide)).connected
    0 (.char 'a') 0 (by decide) (by decide)).connected 0 (.char 'a') 2 (by decide) (by decide)
  have built : Built n := .deleteState (q := 1) linked (by decide) rfl
  obtain ⟨after, result, made, _, _, loops⟩ := repeatLetter_all_or_nothing built 'a'
  obtain ⟨same, other, left, _, refusal, _⟩ := repeatLetter_all_or_nothing built 'c'
  have moved : (n.repeatLetter 'a').outcome.map (fun r => (r.1.current, r.2)) = .ok (0, .ok ()) := rfl
  have refused : (n.repeatLetter 'c').outcome.map (·.2) =
      .ok (.error (.nothingToRepeat (.char 'c'))) := rfl
  rw [made] at moved
  rw [left] at refused
  obtain ⟨here, rfl⟩ := Prod.mk.inj (Except.ok.inj moved)
  obtain rfl := Except.ok.inj refused
  obtain ⟨-, rfl⟩ := refusal _ rfl
  exact ⟨built, ⟨after, made, here, loops rfl⟩, left⟩

end RegexAutomaton.Nfa
