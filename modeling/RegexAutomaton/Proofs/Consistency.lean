import RegexAutomaton.Proofs.Deletion
import RegexAutomaton.Proofs.Splicing
import RegexAutomaton.Proofs.Walking
import RegexAutomaton.Table.Text

namespace RegexAutomaton.Nfa

variable {n : Nfa}

theorem Built.wired (built : Built n) : n.Wired := by
  induction built with
  | new => exact .new
  | @concatenate n after c fragment _ run wired =>
      rw [concatenate_eq wired.current_lt] at run
      cases run
      exact wired.extended c
  | branch _ origin_lt run wired =>
      rw [branch_eq origin_lt] at run
      cases run
      exact wired.branched origin_lt
  | @repeatLetter n after c result _ run wired =>
      rcases repeatLetter_exists wired c with ⟨_, refused⟩ | ⟨source, target, source_lt, target_lt, made⟩
      · cases refused.symm.trans run
        exact wired
      · cases made.symm.trans run
        exact wired.looped source_lt target_lt c
  | repeatFragment _ valid run wired =>
      rw [repeatFragment_eq wired valid] at run
      cases run
      exact wired.repeated valid
  | @splice n sub after fragment _ _ run wired subWired =>
      cases attached : sub.start with
      | none =>
          rw [splice_detached attached] at run
          cases run
      | some start =>
          have start_lt := subWired.start_lt attached
          by_cases idle : (sub.stateAt start).outgoing = []
          · rw [splice_idle attached start_lt idle] at run
            cases run
            exact wired
          · rw [splice_eq wired subWired attached idle] at run
            cases run
            exact wired.spliced subWired start_lt
  | addTransition _ source_lt target_lt run wired =>
      rw [addTransition_eq source_lt target_lt] at run
      cases run
      exact wired.connected source_lt target_lt
  | deleteState _ q_lt run wired =>
      obtain ⟨m, deleted, _, kept⟩ := deleteState_exists wired q_lt
      cases deleted.symm.trans run
      exact kept
  | setAccepting _ q_lt run wired =>
      rw [setAccepting_eq q_lt] at run
      cases run
      exact wired.marked q_lt _
  | detachStart _ wired => exact wired.detached

theorem Built.extended (built : Built n) (c : Char) : Built (n.extended c) :=
  .concatenate built (concatenate_eq built.wired.current_lt c)

theorem Built.marked {q : Nat} (built : Built n) (inRange : q < n.stateCount) (accepting : Bool) :
    Built (n.marked q accepting) :=
  .setAccepting built inRange (setAccepting_eq inRange accepting)

theorem Built.connected (built : Built n) (source : Nat) (symbol : Symbol) (target : Nat)
    (source_lt : source < n.stateCount) (target_lt : target < n.stateCount) :
    Built (n.connected source symbol target) :=
  .addTransition built source_lt target_lt (addTransition_eq source_lt target_lt)

/-- Every operation that is given parts of `n` has an answer. Only an automaton
without a start is refused, by `splice`. -/
structure Answers (n : Nfa) : Prop where
  concatenate (c : Char) : ∃ answer, (n.concatenate c).outcome = .ok answer
  branch : ∀ origin < n.stateCount, ∃ answer, (n.branch origin).outcome = .ok answer
  repeatLetter (c : Char) : ∃ answer, (n.repeatLetter c).outcome = .ok answer
  repeatFragment : ∀ fragment, n.HasFragment fragment →
    ∃ answer, (n.repeatFragment fragment).outcome = .ok answer
  splice : ∀ sub, Built sub → sub.start.isSome → ∃ answer, (n.splice sub).outcome = .ok answer
  spliceDetached : ∀ sub, Built sub → sub.start = none →
    (n.splice sub).outcome = .error (.build .detachedStart)
  addTransition : ∀ source < n.stateCount, ∀ target < n.stateCount, ∀ symbol,
    ∃ answer, n.addTransition source symbol target = .ok answer
  deleteState : ∀ q < n.stateCount, ∃ answer, (n.deleteState q).outcome = .ok answer
  setAccepting : ∀ q < n.stateCount, ∀ accepting, ∃ answer, n.setAccepting q accepting = .ok answer
  state : ∀ q < n.stateCount, ∃ answer, n.state q = .ok answer
  transition : ∀ id < n.transitions.size, ∃ answer, n.transition id = .ok answer
  isAccepting : ∀ q < n.stateCount, ∃ answer, n.isAccepting q = .ok answer
  successors : ∀ q < n.stateCount, ∃ answer, n.successors q = .ok answer
  firstTarget : ∀ q < n.stateCount, ∀ symbol, ∃ answer, n.firstTarget q symbol = .ok answer
  firstSource : ∀ q < n.stateCount, ∀ symbol, ∃ answer, n.firstSource q symbol = .ok answer
  reads : ∀ q < n.stateCount, ∀ symbol, ∃ answer, n.reads q symbol = .ok answer
  rows : ∃ answer, n.rows = .ok answer
  firstRows (count : Nat) : ∃ answer, n.firstRows count = .ok answer
  table : ∃ answer, n.table = .ok answer
  digraph : ∃ answer, Table.digraph <$> n.table = .ok answer
  containsEpsilon : ∃ answer, n.containsEpsilon = .ok answer
  selfLoops : ∃ answer, n.selfLoops = .ok answer
  reduce : ∃ answer, n.reduce.outcome = .ok answer

theorem splice_exists {sub : Nfa} (wired : n.Wired) (subWired : sub.Wired)
    (attached : sub.start.isSome) : ∃ answer, (n.splice sub).outcome = .ok answer := by
  obtain ⟨start, attached⟩ := Option.isSome_iff_exists.mp attached
  by_cases idle : (sub.stateAt start).outgoing = []
  · exact ⟨_, splice_idle attached (subWired.start_lt attached) idle⟩
  · exact ⟨_, splice_eq wired subWired attached idle⟩

theorem Wired.answers (wired : n.Wired) : n.Answers where
  concatenate c := ⟨_, concatenate_eq wired.current_lt c⟩
  branch origin origin_lt := ⟨_, branch_eq origin_lt⟩
  repeatLetter c := by
    rcases repeatLetter_exists wired c with ⟨_, refused⟩ | ⟨source, target, _, _, made⟩
    · exact ⟨_, refused⟩
    · exact ⟨_, made⟩
  repeatFragment fragment valid := ⟨_, repeatFragment_eq wired valid⟩
  splice sub built attached := splice_exists wired built.wired attached
  spliceDetached sub _ detached := splice_detached detached
  addTransition source source_lt target target_lt symbol := ⟨_, addTransition_eq source_lt target_lt⟩
  deleteState q q_lt := by
    obtain ⟨m, deleted, _⟩ := deleteState_exists wired q_lt
    exact ⟨m, deleted⟩
  setAccepting q q_lt accepting := ⟨_, setAccepting_eq q_lt accepting⟩
  state q q_lt := ⟨_, state_eq q_lt⟩
  transition id id_lt := ⟨_, transition_eq (Array.getElem?_eq_getElem id_lt)⟩
  isAccepting q q_lt := ⟨_, isAccepting_eq q_lt⟩
  successors q q_lt := ⟨_, successors_eq wired.walkable q_lt⟩
  firstTarget q q_lt symbol := ⟨_, firstTarget_eq wired q_lt⟩
  firstSource q q_lt symbol := ⟨_, firstSource_eq wired q_lt⟩
  reads q q_lt symbol := ⟨_, by simp only [reads, firstTarget_eq wired q_lt, ok_bind]; rfl⟩
  rows := ⟨_, rows_eq wired.walkable⟩
  firstRows count := firstRows_exists wired.walkable count
  table := ⟨_, table_eq wired.walkable⟩
  digraph := ⟨Table.digraph ⟨n.walked.rows⟩, by rw [table_eq wired.walkable]; rfl⟩
  containsEpsilon := ⟨_, containsEpsilon_eq wired.walkable⟩
  selfLoops := ⟨_, selfLoops_eq wired.walkable⟩
  reduce := ⟨_, reduce_eq wired.walkable⟩

/-- One step of the builder keeps the wiring, so a whole run does. On a wired automaton no
operation meets a missing part. -/
theorem built_consistent_and_answering (built : Built n) :
    n.Consistent ∧
      (∃ list, n.linkedTransitions = .ok list ∧ (list.map Prod.fst).Pairwise (· < ·) ∧
        ∀ id t, (id, t) ∈ list ↔ n.transitions[id]? = some t ∧ n.LinkedOut id t) ∧
      n.Answers := by
  have wired := built.wired
  refine ⟨wired.consistent, ⟨n.linked, linkedTransitions_eq wired, linked_increasing n, ?_⟩,
    wired.answers⟩
  intro id t
  rw [mem_linked, linkedOut_iff]

/-- A loop and two parallel transitions stay linked when the state behind them is deleted. -/
theorem built_consistent_after_deletion :
    let n : Nfa := {
      states := #[{ accepting := true, outgoing := [0, 2] }, { outgoing := [1], incoming := [0, 1, 2] },
        { accepting := true }]
      transitions := #[⟨.char 'a', 0, 1⟩, ⟨.char 'a', 1, 1⟩, ⟨.char 'a', 0, 1⟩, ⟨.char 'b', 1, 2⟩]
      start := some 0
      current := 2 }
    let list : List (Nat × Transition) :=
      [(0, ⟨.char 'a', 0, 1⟩), (1, ⟨.char 'a', 1, 1⟩), (2, ⟨.char 'a', 0, 1⟩)]
    Built n ∧ n.Consistent ∧
      (n.linkedTransitions = .ok list ∧ (list.map Prod.fst).Pairwise (· < ·) ∧
        ∀ id t, (id, t) ∈ list ↔ n.transitions[id]? = some t ∧ n.LinkedOut id t) ∧
      n.Answers := by
  intro n list
  have repeated := Built.repeatLetter (c := 'a') (.concatenate (c := 'a') .new rfl) rfl
  have parallel := Built.connected repeated 0 (.char 'a') 1 (by decide) (by decide)
  have built : Built n :=
    .deleteState (q := 2) (.concatenate (c := 'b') parallel rfl) (by decide) rfl
  obtain ⟨consistent, ⟨found, linked, increasing, listed⟩, answers⟩ :=
    built_consistent_and_answering built
  obtain rfl : list = found := Except.ok.inj (show n.linkedTransitions = _ from linked)
  exact ⟨built, consistent, ⟨linked, increasing, listed⟩, answers⟩

end RegexAutomaton.Nfa
