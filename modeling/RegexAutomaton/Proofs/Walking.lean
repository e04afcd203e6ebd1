import RegexAutomaton.Proofs.Building
import RegexAutomaton.Reduction
import RegexAutomaton.Table.BreadthFirst

namespace RegexAutomaton

variable {n : Nfa} {q r id : Nat} {s : Symbol} {found : List Nat} {t : Traversal}
  {targets : List (Symbol × Nat)}

namespace Nfa

/-- What can follow a state, when all that it lists exists. -/
def successorsAt (n : Nfa) (q : Nat) : List (Symbol × Nat) :=
  (n.stateAt q).outgoing.filterMap fun id => n.transitions[id]?.map fun t => (t.symbol, t.target)

theorem mem_successorsAt : (s, r) ∈ n.successorsAt q ↔ n.Step q s r := by
  simp only [successorsAt, List.mem_filterMap, Option.map_eq_some_iff, Prod.mk.injEq, step_iff]

theorem Wired.walkable (wired : n.Wired) : n.Walkable where
  start_lt _ attached := wired.start_lt attached
  listed_lt s member id listed := by
    obtain ⟨q, found⟩ := Array.mem_iff_getElem?.mp member
    rw [← stateAt_of_getElem? found] at listed
    exact wired.outgoing_lt listed
  target_lt t member := by
    obtain ⟨id, found⟩ := Array.mem_iff_getElem?.mp member
    exact (wired.endpoints_lt found).2

namespace Walkable

theorem listed_exists (walkable : n.Walkable) (listed : id ∈ (n.stateAt q).outgoing) :
    ∃ t, n.transitions[id]? = some t ∧ t.target < n.stateCount := by
  have inRange : q < n.stateCount := by
    by_contra beyond
    simp [stateAt_beyond (Nat.le_of_not_lt beyond)] at listed
  have id_lt := walkable.listed_lt _ (Array.mem_of_getElem? (getElem?_states inRange)) id listed
  have found : n.transitions[id]? = some n.transitions[id] := Array.getElem?_eq_getElem id_lt
  exact ⟨_, found, walkable.target_lt _ (Array.mem_of_getElem? found)⟩

theorem target_lt_of_step (walkable : n.Walkable) (step : n.Step q s r) : r < n.stateCount := by
  obtain ⟨id, listed, t, found, _, rfl⟩ := step_iff.mp step
  obtain ⟨u, named, u_lt⟩ := walkable.listed_exists listed
  cases found.symm.trans named
  exact u_lt

theorem reaches_lt (walkable : n.Walkable) (q_lt : q < n.stateCount) (reaches : n.Reaches q r) :
    r < n.stateCount := by
  obtain ⟨symbols, path⟩ := reaches
  induction path with
  | nil => exact q_lt
  | cons step _ ih => exact ih (walkable.target_lt_of_step step)

theorem successorsAt_lt (walkable : n.Walkable) (q : Nat) :
    ∀ e ∈ n.successorsAt q, e.2 < n.stateCount := fun _ member =>
  walkable.target_lt_of_step (mem_successorsAt.mp member)

end Walkable

theorem successors_eq (walkable : n.Walkable) (q_lt : q < n.stateCount) :
    n.successors q = .ok (n.successorsAt q) := by
  have valid : ∀ id ∈ (n.stateAt q).outgoing, ∃ t, n.transitions[id]? = some t ∧
      t.target < n.stateCount := fun _ => walkable.listed_exists
  simp only [successors, state_eq q_lt, ok_bind, successorsAt]
  generalize (n.stateAt q).outgoing = ids at valid
  induction ids with
  | nil => rfl
  | cons id rest ih =>
      obtain ⟨t, found, _⟩ := valid id (by simp)
      have tail := ih fun id member => valid id (by simp [member])
      simp only [List.mapM_cons, transition_eq found, ok_bind, tail, List.filterMap_cons, found,
        Option.map_some]
      rfl

theorem lt_of_successors {list : List (Symbol × Nat)} (listed : n.successors q = .ok list) :
    q < n.stateCount := by
  by_contra beyond
  have absent : n.states[q]? = none := Array.getElem?_eq_none (Nat.le_of_not_lt beyond)
  simp [successors, state, absent] at listed

theorem isAccepting_eq (q_lt : q < n.stateCount) :
    n.isAccepting q = .ok (n.stateAt q).accepting := by
  simp only [isAccepting, state_eq q_lt, ok_bind]
  rfl

/-- Whether the state lists a transition that leads back to its source. -/
def loopsAt (n : Nfa) (q : Nat) : Bool :=
  (n.stateAt q).outgoing.any fun id => n.transitions[id]?.any Transition.isSelfLoop

theorem hasSelfLoop_eq (walkable : n.Walkable) (q_lt : q < n.stateCount) :
    n.hasSelfLoop q = .ok (n.loopsAt q) := by
  have valid : ∀ id ∈ (n.stateAt q).outgoing, ∃ t, n.transitions[id]? = some t ∧
      t.target < n.stateCount := fun _ => walkable.listed_exists
  simp only [hasSelfLoop, state_eq q_lt, ok_bind, loopsAt]
  generalize (n.stateAt q).outgoing = ids at valid
  induction ids with
  | nil => rfl
  | cons id rest ih =>
      obtain ⟨t, found, _⟩ := valid id (by simp)
      have tail := ih fun id member => valid id (by simp [member])
      simp only [List.anyM_cons, transition_eq found, ok_bind, List.any_cons, found, Option.any_some]
      cases loop : t.isSelfLoop with
      | true => rfl
      | false => simpa [loop, pure, Except.pure] using tail

end Nfa

namespace Traversal

open Nfa

/-- All labeled states exist. -/
def InRange (n : Nfa) (found : List Nat) : Prop :=
  ∀ r ∈ found, r < n.stateCount

/-- The labeled states after `q` has been met. -/
def noted (found : List Nat) (q : Nat) : List Nat :=
  if q ∈ found then found else found ++ [q]

/-- The labeled states after the given targets have been met. -/
def discovered (found : List Nat) (targets : List (Symbol × Nat)) : List Nat :=
  targets.foldl (fun found e => noted found e.2) found

theorem mem_noted : r ∈ noted found q ↔ r ∈ found ∨ r = q := by
  rw [noted]
  split
  · exact ⟨.inl, fun met => met.elim id fun same => same ▸ ‹_›⟩
  · simp

theorem mem_discovered :
    r ∈ discovered found targets ↔ r ∈ found ∨ ∃ e ∈ targets, e.2 = r := by
  induction targets generalizing found with
  | nil => simp [discovered]
  | cons e rest ih =>
      have later : r ∈ discovered found (e :: rest) ↔ r ∈ discovered (noted found e.2) rest := Iff.rfl
      rw [later, ih, mem_noted, List.exists_mem_cons_iff, or_assoc, eq_comm]

theorem nodup_noted (distinct : found.Nodup) (q : Nat) : (noted found q).Nodup := by
  rw [noted]
  split
  · exact distinct
  · rename_i fresh
    refine List.nodup_append.mpr ⟨distinct, by simp, fun r member other last same => ?_⟩
    rw [List.mem_singleton.mp last] at same
    exact fresh (same ▸ member)

theorem nodup_discovered (distinct : found.Nodup) (targets : List (Symbol × Nat)) :
    (discovered found targets).Nodup := by
  induction targets generalizing found with
  | nil => exact distinct
  | cons e rest ih => exact ih (nodup_noted distinct e.2)

/-- States are labeled behind those that have a label. -/
theorem discovered_eq_append (found : List Nat) (targets : List (Symbol × Nat)) :
    ∃ fresh, discovered found targets = found ++ fresh ∧ ∀ r ∈ fresh, r ∉ found := by
  induction targets generalizing found with
  | nil => exact ⟨[], by simp [discovered], by simp⟩
  | cons e rest ih =>
      obtain ⟨fresh, same, apart⟩ := ih (noted found e.2)
      rw [noted] at same apart
      by_cases known : e.2 ∈ found
      · rw [if_pos known] at same apart
        exact ⟨fresh, by rw [← same, discovered, List.foldl_cons, noted, if_pos known]; rfl, apart⟩
      · rw [if_neg known] at same apart
        refine ⟨e.2 :: fresh, ?_, ?_⟩
        · rw [discovered, List.foldl_cons, noted, if_neg known]
          exact same.trans (by simp)
        · intro r member
          rcases List.mem_cons.mp member with rfl | later
          · exact known
          · exact fun old => apart r later (List.mem_append_left _ old)

theorem idxOf_noted (found : List Nat) (q : Nat) : (noted found q).idxOf q = found.idxOf q := by
  rw [noted]
  split
  · rfl
  · rename_i fresh
    rw [List.idxOf_append_of_notMem fresh, List.idxOf_eq_length fresh]
    simp

theorem idxOf_discovered (known : q ∈ found) (targets : List (Symbol × Nat)) :
    (discovered found targets).idxOf q = found.idxOf q := by
  obtain ⟨fresh, same, _⟩ := discovered_eq_append found targets
  rw [same, List.idxOf_append_of_mem known]

theorem label_eq (q_lt : q < n.stateCount) :
    Traversal.label n found q = .ok (found.idxOf q, noted found q) := by
  rw [Traversal.label, if_pos q_lt, noted, List.idxOf_eq_getD_idxOf?]
  cases place : found.idxOf? q with
  | some label =>
      have known : q ∈ found := by
        by_contra fresh
        rw [List.idxOf?_eq_none_iff.mpr fresh] at place
        cases place
      simp [known]
  | none => simp [List.idxOf?_eq_none_iff.mp place]

/-- Every target gets the label that it has in the end. -/
theorem labelTargets_eq (targets_lt : ∀ e ∈ targets, e.2 < n.stateCount) :
    labelTargets n found targets =
      .ok (targets.map fun e => (e.1, (discovered found targets).idxOf e.2),
        discovered found targets) := by
  induction targets generalizing found with
  | nil => rfl
  | cons e rest ih =>
      have tail := @ih (noted found e.2) fun e member => targets_lt e (by simp [member])
      have head : (discovered (noted found e.2) rest).idxOf e.2 = found.idxOf e.2 := by
        rw [idxOf_discovered (mem_noted.mpr (.inr rfl)), idxOf_noted]
      simp only [labelTargets, label_eq (targets_lt e (by simp)), ok_bind, tail]
      simp only [pure, Except.pure, List.map_cons, discovered, List.foldl_cons] at head ⊢
      rw [head]

/-- The row of `q`, the next state in line. -/
def rowAt (n : Nfa) (t : Traversal) (q : Nat) : Row where
  state := q
  label := t.next
  start := n.start == some q
  accepting := (n.stateAt q).accepting
  transitions := (n.successorsAt q).map fun e =>
    (e.1, (discovered t.found (n.successorsAt q)).idxOf e.2)

/-- The walk after the row of `q`. -/
def advanced (n : Nfa) (t : Traversal) (q : Nat) : Traversal where
  found := discovered t.found (n.successorsAt q)
  next := t.next + 1

theorem describe_eq (walkable : n.Walkable) (q_lt : q < n.stateCount) :
    describe n t q = .ok (rowAt n t q, advanced n t q) := by
  simp only [describe, successors_eq walkable q_lt, labelTargets_eq (walkable.successorsAt_lt q),
    isAccepting_eq q_lt, ok_bind]
  rfl

theorem inRange_advanced (walkable : n.Walkable) (inRange : InRange n t.found) (q : Nat) :
    InRange n (advanced n t q).found := by
  intro r member
  rcases mem_discovered.mp member with old | ⟨e, target, rfl⟩
  · exact inRange r old
  · exact walkable.successorsAt_lt q e target

theorem walk_done (done : t.found[t.next]? = none) : walk n t = ⟨[], .ok ()⟩ := by
  unfold walk
  split
  · rfl
  · simp_all

theorem walk_row (walkable : n.Walkable) (inRange : InRange n t.found)
    (inLine : t.found[t.next]? = some q) :
    walk n t = ⟨rowAt n t q :: (walk n (advanced n t q)).rows, (walk n (advanced n t q)).stop⟩ := by
  have described := describe_eq (t := t) walkable (inRange q (List.mem_of_getElem? inLine))
  rw [walk]
  split
  · simp_all
  · rename_i q' inLine'
    cases inLine.symm.trans inLine'
    split
    · rename_i failed
      cases described.symm.trans failed
    · rename_i row after described'
      cases described.symm.trans described'
      rfl

/-- What a walk keeps from row to row it has at its end. -/
theorem walk_induction (walkable : n.Walkable) (kept : List Row → Traversal → Prop)
    (rows : List Row) (t : Traversal) (inRange : InRange n t.found) (now : kept rows t)
    (step : ∀ rows t q, InRange n t.found → kept rows t → t.found[t.next]? = some q →
      kept (rows ++ [rowAt n t q]) (advanced n t q)) :
    (walk n t).stop = .ok () ∧ ∃ last, InRange n last.found ∧ last.found.length ≤ last.next ∧
      kept (rows ++ (walk n t).rows) last := by
  induction size : remaining n t using Nat.strongRecOn generalizing t rows with
  | ind size ih =>
      cases inLine : t.found[t.next]? with
      | none =>
          rw [walk_done inLine]
          exact ⟨rfl, t, inRange, List.getElem?_eq_none_iff.mp inLine, by simpa using now⟩
      | some q =>
          have q_lt := inRange q (List.mem_of_getElem? inLine)
          have fewer := describe_progress inLine (describe_eq walkable q_lt)
          have later := ih _ (size ▸ fewer) _ _ (inRange_advanced walkable inRange q)
            (step rows t q inRange now inLine) rfl
          rw [walk_row walkable inRange inLine]
          simpa using later

theorem enter_eq (walkable : n.Walkable) :
    enter n = .ok ⟨n.start.toList, 0⟩ ∧ InRange n n.start.toList := by
  unfold enter
  cases attached : n.start with
  | none => exact ⟨rfl, by simp [InRange]⟩
  | some start =>
      have start_lt := walkable.start_lt start attached
      simp only [label_eq start_lt, ok_bind]
      exact ⟨rfl, by simpa [InRange] using start_lt⟩

end Traversal

namespace Nfa

/-- The walk from the start to its end. -/
def walked (n : Nfa) : Walk :=
  Traversal.walk n ⟨n.start.toList, 0⟩

theorem walked_stop (walkable : n.Walkable) : n.walked.stop = .ok () :=
  (Traversal.walk_induction walkable (fun _ _ => True) [] _ (Traversal.enter_eq walkable).2 trivial
    fun _ _ _ _ _ _ => trivial).1

theorem walked_inRange (walkable : n.Walkable) : ∀ row ∈ n.walked.rows, row.state < n.stateCount := by
  obtain ⟨_, _, _, _, inRange⟩ := Traversal.walk_induction walkable
    (fun rows _ => ∀ row ∈ rows, row.state < n.stateCount) [] ⟨n.start.toList, 0⟩
    (Traversal.enter_eq walkable).2 (by simp) (by
      intro rows t q inRange before inLine row member
      rcases List.mem_append.mp member with old | last
      · exact before row old
      · rw [List.mem_singleton.mp last]
        exact inRange q (List.mem_of_getElem? inLine))
  rw [walked]
  simpa using inRange

theorem rows_eq (walkable : n.Walkable) : n.rows = .ok n.walked.rows := by
  have stopped := walked_stop walkable
  rw [walked] at stopped
  simp only [Nfa.rows, (Traversal.enter_eq walkable).1, ok_bind, stopped]
  rfl

theorem firstRows_exists (walkable : n.Walkable) (count : Nat) :
    ∃ rows, n.firstRows count = .ok rows := by
  have stopped := walked_stop walkable
  rw [walked] at stopped
  refine ⟨n.walked.rows.take count, ?_⟩
  simp only [firstRows, (Traversal.enter_eq walkable).1, ok_bind, stopped]
  split <;> rfl

theorem table_eq (walkable : n.Walkable) : n.table = .ok ⟨n.walked.rows⟩ := by
  simp only [table, rows_eq walkable, ok_bind]
  rfl

/-- A row with an epsilon is found wherever it stands. -/
theorem containsEpsilon_eq (walkable : n.Walkable) :
    n.containsEpsilon = .ok (n.walked.rows.any Row.hasEpsilon) := by
  have stopped := walked_stop walkable
  rw [walked] at stopped ⊢
  simp only [containsEpsilon, (Traversal.enter_eq walkable).1, ok_bind, stopped]
  cases (Traversal.walk n ⟨n.start.toList, 0⟩).rows.any Row.hasEpsilon <;> rfl

theorem filterM_eq {ε α : Type} {test : α → Except ε Bool} {keep : α → Bool} {list : List α}
    (total : ∀ x ∈ list, test x = .ok (keep x)) : list.filterM test = .ok (list.filter keep) := by
  have collected : ∀ kept, list.filterAuxM test kept = .ok ((list.filter keep).reverse ++ kept) := by
    induction list with
    | nil => exact fun kept => rfl
    | cons x rest ih =>
        intro kept
        have tail := ih (fun y member => total y (by simp [member])) (cond (keep x) (x :: kept) kept)
        simp only [List.filterAuxM, total x (by simp), ok_bind, tail]
        cases passes : keep x <;> simp [passes]
  simp only [List.filterM, collected, ok_bind]
  simp [pure, Except.pure]

theorem selfLoops_eq (walkable : n.Walkable) :
    n.selfLoops = .ok ((n.walked.rows.map (·.state)).filter n.loopsAt) := by
  simp only [selfLoops, rows_eq walkable, ok_bind]
  refine filterM_eq fun q member => hasSelfLoop_eq walkable ?_
  obtain ⟨row, inRows, rfl⟩ := List.mem_map.mp member
  exact walked_inRange walkable row inRows

theorem reduce_eq (walkable : n.Walkable) : n.reduce.outcome = .ok {
    containsEpsilon := n.walked.rows.any Row.hasEpsilon
    selfLoops := if n.walked.rows.any Row.hasEpsilon then none
      else some ((n.walked.rows.map (·.state)).filter n.loopsAt) } := by
  simp only [reduce, Traced.outcome_bind, Traced.outcome_lift, containsEpsilon_eq walkable, ok_bind]
  cases n.walked.rows.any Row.hasEpsilon with
  | true => rfl
  | false =>
      simp only [Bool.false_eq_true, ↓reduceIte, selfLoops_eq walkable]
      rfl

end Nfa

end RegexAutomaton
