import Mathlib.Algebra.Order.Kleene
import RegexAutomaton.Proofs.Products

namespace RegexAutomaton.Nfa

/-! Repeating a fragment iterates its language.

The repetition copies to the exit what leaves the entry through the fragment, and
lets the entry accept again. A path that has left for the fragment never comes back
to the entry, so the words before it stay what they were, and behind it every copy
begins one more round. The exit may have steps of its own: they belong to the round
that reached it.
-/

variable {n m host sub : Nfa} {fragment : Fragment} {inner : Steps}
  {copies : Symbol → Nat → Prop} {start q a b : Nat} {s : Symbol} {c : Char}

/-- The fragment leads from the current state of `n`, the only one that accepted, to
a fresh exit, which is the only one to accept in `m`. -/
structure Stretch (n m : Nfa) (fragment : Fragment) (inner : Steps)
    (copies : Symbol → Nat → Prop) : Prop where
  attaches : Attaches n.Step inner m.Step n.stateCount n.current
  valid : m.HasFragment fragment
  entry_eq : fragment.entry = n.current
  exit_fresh : n.stateCount ≤ fragment.exit
  edges : EdgesAre m fragment.edges copies
  copied {s : Symbol} {b : Nat} : copies s b → inner n.current s b
  covered {s : Symbol} {b : Nat} :
    inner n.current s b → copies s b ∨ s = .epsilon ∧ b = fragment.exit
  start_eq : m.start = n.start
  accepting_iff {q : Nat} : m.Accepting q ↔ q = fragment.exit

@[simp] theorem start_repeated : (n.repeated fragment).start = n.start := by
  rw [repeated, start_connectedAll, start_marked]

theorem language_of_only {first : Nat} (attached : n.start = some first)
    (only : ∀ q, n.Accepting q ↔ q = n.current) :
    n.language = words n.Step first n.current := by
  ext word
  simp [mem_language_iff, attached, only]

/-- What is added behind the entry does not change the words that lead to it. -/
theorem language_of_attaches (wired : n.Wired)
    (attaches : Attaches n.Step inner m.Step n.stateCount n.current) (start : m.start = n.start)
    (only : ∀ q, n.Accepting q ↔ q = n.current) (same : ∀ q, m.Accepting q ↔ q = n.current) :
    m.language = n.language := by
  ext word
  simp only [mem_language_iff, start, only, same, exists_and_left, exists_eq_left,
    attaches.words_old wired.current_lt]

namespace Stretch

variable (stretch : Stretch n m fragment inner copies)

include stretch

theorem attaches_repeated (kept : m.Wired) :
    Attaches n.Step (fun a s b => inner a s b ∨ a = fragment.exit ∧ copies s b)
      (m.repeated fragment).Step n.stateCount n.current where
  step_iff := by
    intro a s b
    rw [step_repeated kept stretch.valid, stretch.edges, stretch.attaches.step_iff, or_assoc]
  old := stretch.attaches.old
  source := by
    intro a s b added
    rcases added with inside | ⟨rfl, _⟩
    · exact stretch.attaches.source inside
    · exact .inr stretch.exit_fresh
  target := by
    intro a s b added
    rcases added with inside | ⟨_, copy⟩
    · exact stretch.attaches.target inside
    · exact stretch.attaches.target (stretch.copied copy)

theorem repeats (wired : n.Wired) :
    Repeats inner (fun a s b => inner a s b ∨ a = fragment.exit ∧ copies s b) copies
      n.current fragment.exit where
  step_iff := Iff.rfl
  copied := stretch.copied
  covered := stretch.covered
  apart := Nat.ne_of_lt (Nat.lt_of_lt_of_le wired.current_lt stretch.exit_fresh)

theorem accepting_repeated (kept : m.Wired) :
    (m.repeated fragment).Accepting q ↔ q = n.current ∨ q = fragment.exit := by
  rw [Nfa.accepting_repeated kept stretch.valid, stretch.accepting_iff, stretch.entry_eq]

theorem language_repeated (wired : n.Wired) (kept : m.Wired)
    (only : ∀ q, n.Accepting q ↔ q = n.current) :
    (m.repeated fragment).language =
      n.language * KStar.kstar (words inner n.current fragment.exit) := by
  have attaches := stretch.attaches_repeated kept
  have start : (m.repeated fragment).start = n.start := start_repeated.trans stretch.start_eq
  cases attached : n.start with
  | none =>
      rw [language_of_detached (start.trans attached), language_of_detached attached, zero_mul]
  | some first =>
      have first_lt := wired.start_lt attached
      let before := words n.Step first n.current
      let round := words inner n.current fragment.exit
      calc (m.repeated fragment).language
          = words (m.repeated fragment).Step first n.current +
              words (m.repeated fragment).Step first fragment.exit := by
            ext word
            simp [mem_language_iff, stretch.start_eq, attached, stretch.accepting_repeated kept,
              Language.mem_add, or_and_right, exists_or]
        _ = before + before * (round * KStar.kstar round) := by
            rw [attaches.words_old wired.current_lt, attaches.words_fresh first_lt stretch.exit_fresh,
              (stretch.repeats wired).words_exit]
        _ = before * (1 + round * KStar.kstar round) := by rw [mul_add, mul_one]
        _ = before * KStar.kstar round := by rw [Language.one_add_self_mul_kstar_eq_kstar]
        _ = n.language * KStar.kstar round := by rw [language_of_only attached only]

end Stretch

theorem attaches_letter (wired : n.Wired) (c : Char) :
    Attaches n.Step (letterSteps n c) (n.extended c).Step n.stateCount n.current where
  step_iff := step_extended wired
  old := wired.step_lt
  source inside := .inl inside.1
  target inside := Nat.le_of_eq inside.2.2.symm

theorem stretch_letter (wired : n.Wired) (only : ∀ q, n.Accepting q ↔ q = n.current) (c : Char) :
    Stretch n (n.extended c) ⟨n.current, n.stateCount, [n.transitions.size]⟩
      (letterSteps n c) (letterCopies n c) where
  attaches := attaches_letter wired c
  valid := by
    have current_lt := wired.current_lt
    refine ⟨?_, ?_, ?_⟩
    all_goals simp
    omega
  entry_eq := rfl
  exit_fresh := Nat.le_refl _
  edges := by
    intro s b
    simp [letterCopies, eq_comm]
  copied copy := ⟨rfl, copy⟩
  covered inside := .inl inside.2
  start_eq := start_extended
  accepting_iff := by
    intro q
    rw [accepting_extended wired, only]
    simp

theorem stretch_group (spliceable : Spliceable sub start) (wired : n.Wired)
    (only : ∀ q, n.Accepting q ↔ q = n.current) :
    Stretch n (n.spliced sub start).1 (n.spliced sub start).2 (groupSteps n sub start)
      (groupCopies n sub start) where
  attaches := {
    step_iff := spliceable.step_spliced wired
    old := wired.step_lt
    source := groupSteps_source
    target := spliceable.groupSteps_fresh }
  valid := wired.hasFragment_spliced spliceable.wired spliceable.start_lt
  entry_eq := rfl
  exit_fresh := spliceable.exit_fresh
  edges := edgesAre_spliced spliceable.wired
  copied := groupSteps_of_copies
  covered := spliceable.groupSteps_entry wired
  start_eq := start_exited.trans start_imported
  accepting_iff := by
    intro q
    rw [spliceable.accepting_spliced wired, only]
    refine or_iff_left fun old => ?_
    exact old.2.1 old.2.2

/-- Only the empty word leads back to a start that is not entered again. -/
theorem eq_nil_of_mem_language (unreached : ∀ a s, ¬ sub.Step a s start)
    (attached : sub.start = some start) (ends : ∀ q, sub.Accepting q → q = start)
    {word : List Char} (accepted : word ∈ sub.language) : word = [] := by
  obtain ⟨first, q, same, accepting, spells⟩ := mem_language_iff.mp accepted
  cases attached.symm.trans same
  obtain rfl := ends q accepting
  exact (Spells.of_unreached unreached spells).2

/-- No join is needed. -/
theorem spliced_idle (n : Nfa) (ends : ∀ q, sub.Accepting q → q = start) :
    ∃ p, (n.spliced sub start).1 = { n.imported sub start with current := placeIn n start p } := by
  have one : ∀ q ∈ sub.acceptingStates, q = start :=
    fun q member => ends q (mem_acceptingStates.mp member)
  have increasing := sub.acceptingStates_increasing
  unfold spliced exited
  match exits : sub.acceptingStates with
  | [] => exact ⟨sub.current, rfl⟩
  | [exit] => exact ⟨exit, rfl⟩
  | first :: second :: rest =>
      rw [exits] at one increasing
      have before := (List.pairwise_cons.mp increasing).1 second (by simp)
      rw [one first (by simp), one second (by simp)] at before
      exact absurd before (Nat.lt_irrefl _)

theorem language_repeated_idle (wired : n.Wired) (subWired : sub.Wired)
    (unreached : ∀ a s, ¬ sub.Step a s start) (attached : sub.start = some start)
    (ends : ∀ q, sub.Accepting q → q = start) (only : ∀ q, n.Accepting q ↔ q = n.current) :
    ((n.spliced sub start).1.repeated (n.spliced sub start).2).language = n.language := by
  have start_lt := subWired.start_lt attached
  have kept := wired.spliced subWired start_lt
  have valid := wired.hasFragment_spliced subWired start_lt
  have edges : EdgesAre (n.spliced sub start).1 (n.spliced sub start).2.edges _ :=
    edgesAre_spliced subWired
  obtain ⟨p, result⟩ := spliced_idle n ends
  have exit : (n.spliced sub start).2.exit = placeIn n start p :=
    congrArg Nfa.current result
  have fresh : ∀ {a s b}, sub.Step a s b → n.stateCount ≤ placeIn n start b :=
    fun step => placeIn_fresh fun first => unreached _ _ (first ▸ step)
  have attaches : Attaches n.Step (fun a s b => placedSteps n sub start a s b ∨
      a = placeIn n start p ∧ groupCopies n sub start s b)
      ((n.spliced sub start).1.repeated (n.spliced sub start).2).Step n.stateCount n.current := {
    step_iff := by
      intro a s b
      rw [step_repeated kept valid, edges, exit, ← or_assoc]
      rw [result, step_current, step_imported wired subWired start_lt]
      rfl
    old := wired.step_lt
    source := by
      intro a s b added
      rcases added with ⟨k, _, _, rfl, _⟩ | ⟨rfl, _⟩
      · exact placeIn_cases n start k
      · exact placeIn_cases n start p
    target := by
      intro a s b added
      rcases added with ⟨_, k, step, _, rfl⟩ | ⟨_, k, step, rfl⟩
      · exact fresh step
      · exact fresh step }
  refine language_of_attaches wired attaches ?_ only fun q => ?_
  · exact start_repeated.trans (start_exited.trans start_imported)
  · rw [accepting_repeated kept valid]
    refine or_iff_left_of_imp fun accepting => ?_
    rw [result] at accepting
    obtain ⟨k, member, rfl⟩ :=
      List.mem_map.mp ((accepting_imported_of_only wired subWired attached only).mp accepting)
    rw [ends k (mem_acceptingStates.mp member), placeIn_start]
    rfl

theorem concatenate_repeated (wired : host.Wired) (only : ∀ q, host.Accepting q ↔ q = host.current)
    (c : Char) : ∃ after fragment last, (host.concatenate c).outcome = .ok (after, fragment) ∧
      (after.repeatFragment fragment).outcome = .ok last ∧
      last.language = host.language * KStar.kstar {[c]} := by
  have stretch := stretch_letter wired only c
  have kept := wired.extended c
  refine ⟨_, _, _, concatenate_eq wired.current_lt c, repeatFragment_eq kept stretch.valid, ?_⟩
  rw [stretch.language_repeated wired kept only, words_letterSteps wired]

theorem splice_repeated (wired : host.Wired) (only : ∀ q, host.Accepting q ↔ q = host.current)
    (subWired : sub.Wired) (attached : sub.start = some start)
    (leads : (sub.stateAt start).outgoing ≠ []) (unreached : ∀ a s, ¬ sub.Step a s start) :
    ∃ after fragment last, (host.splice sub).outcome = .ok (after, fragment) ∧
      (after.repeatFragment fragment).outcome = .ok last ∧
      last.language = host.language * KStar.kstar sub.language := by
  have start_lt := subWired.start_lt attached
  have kept := wired.spliced subWired start_lt
  refine ⟨(host.spliced sub start).1, (host.spliced sub start).2, _,
    splice_eq wired subWired attached leads, repeatFragment_eq kept (wired.hasFragment_spliced subWired start_lt), ?_⟩
  by_cases ends : ∃ q, q ≠ start ∧ sub.Accepting q
  · have spliceable : Spliceable sub start :=
      ⟨subWired, attached, unreached, subWired.exists_step leads, ends⟩
    have stretch := stretch_group spliceable wired only
    rw [stretch.language_repeated wired kept only]
    congr 2
    exact words_groupSteps spliceable wired
  · have ends : ∀ q, sub.Accepting q → q = start := by
      intro q accepting
      by_contra other
      exact ends ⟨q, other, accepting⟩
    rw [language_repeated_idle wired subWired unreached attached ends only,
      kstar_eq_one.mpr fun _ => eq_nil_of_mem_language unreached attached ends, mul_one]

/-- If the host accepts in its current state alone, then attaching a letter or an
automaton, and repeating what has been attached, makes the language of the host be
followed by any number of words of it. -/
theorem repeatFragment_language_kstar (hostBuilt : Built host)
    (only : ∀ q, host.Accepting q ↔ q = host.current) :
    (∀ c, ∃ after fragment last, (host.concatenate c).outcome = .ok (after, fragment) ∧
      (after.repeatFragment fragment).outcome = .ok last ∧
      last.language = host.language * KStar.kstar {[c]}) ∧
    ∀ sub start, Built sub → sub.start = some start →
      (∃ s, sub.states[start]? = some s ∧ s.outgoing ≠ [] ∧ s.incoming = []) →
      ∃ after fragment last, (host.splice sub).outcome = .ok (after, fragment) ∧
        (after.repeatFragment fragment).outcome = .ok last ∧
        last.language = host.language * KStar.kstar sub.language := by
  have wired := hostBuilt.wired
  refine ⟨concatenate_repeated wired only, ?_⟩
  intro sub start built attached ends
  obtain ⟨s, found, leads, unreached⟩ := ends
  have subWired := built.wired
  rw [← stateAt_of_getElem? found] at leads unreached
  exact splice_repeated wired only subWired attached leads
    fun a s step => subWired.incoming_ne_nil step unreached

/-- The current state of the host loops already. The group accepts in its start, and
in a state that loops as well, so its exit is a join. -/
theorem repeatFragment_language_kstar_of_loops :
    let host : Nfa := {
      states := #[{ outgoing := [0] }, { accepting := true, outgoing := [1], incoming := [0, 1] }]
      transitions := #[⟨.char 'a', 0, 1⟩, ⟨.char 'a', 1, 1⟩]
      start := some 0
      current := 1 }
    let sub : Nfa := {
      states := #[{ accepting := true, outgoing := [0] },
        { accepting := true, outgoing := [1], incoming := [0, 1] }]
      transitions := #[⟨.char 'b', 0, 1⟩, ⟨.char 'c', 1, 1⟩]
      start := some 0
      current := 1 }
    Built host ∧ Built sub ∧ (∀ q, host.Accepting q ↔ q = host.current) ∧
      (∃ after fragment last, (host.concatenate 'a').outcome = .ok (after, fragment) ∧
        (after.repeatFragment fragment).outcome = .ok last ∧
        last.language = host.language * KStar.kstar {['a']}) ∧
      ∃ after fragment last, (host.splice sub).outcome = .ok (after, fragment) ∧
        (after.repeatFragment fragment).outcome = .ok last ∧
        last.language = host.language * KStar.kstar sub.language := by
  intro host sub
  have hostBuilt : Built host :=
    (Built.new.extended 'a').connected 1 (.char 'a') 1 (by decide) (by decide)
  have marked : Built ((Nfa.new.extended 'b').marked 0 true) :=
    (Built.new.extended 'b').marked (by decide) true
  have built : Built sub := marked.connected 1 (.char 'c') 1 (by decide) (by decide)
  have only : ∀ q, host.Accepting q ↔ q = host.current := by
    intro q
    rw [← mem_acceptingStates, show host.acceptingStates = [1] by decide, List.mem_singleton]
  obtain ⟨letters, groups⟩ := repeatFragment_language_kstar hostBuilt only
  exact ⟨hostBuilt, built, only, letters 'a',
    groups sub 0 built rfl ⟨_, rfl, by decide, rfl⟩⟩

end RegexAutomaton.Nfa
