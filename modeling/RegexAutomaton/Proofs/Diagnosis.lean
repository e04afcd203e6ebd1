import RegexAutomaton.Proofs.Consistency
import RegexAutomaton.Proofs.Discovery
import RegexAutomaton.Session
import RegexAutomaton.Table.Loops

namespace RegexAutomaton

open Nfa

variable {n : Nfa} {start q : Nat} {s : Symbol} {rows : List Row}

theorem Nfa.Wired.loopsAt_iff (wired : n.Wired) : n.loopsAt q = true ↔ ∃ s, n.Step q s q := by
  simp only [loopsAt, List.any_eq_true, Option.any_eq_true, Transition.isSelfLoop, beq_iff_eq,
    step_iff]
  apply Iff.intro
  · intro loop
    obtain ⟨id, listed, t, found, back⟩ := loop
    obtain ⟨u, named, leaves⟩ := wired.outgoing_source listed
    cases found.symm.trans named
    exact ⟨t.symbol, id, listed, t, found, rfl, back ▸ leaves⟩
  · intro loop
    obtain ⟨s, id, listed, t, found, _, back⟩ := loop
    obtain ⟨u, named, leaves⟩ := wired.outgoing_source listed
    cases found.symm.trans named
    exact ⟨id, listed, t, found, leaves.trans back.symm⟩

namespace BreadthFirst

variable (enumerates : BreadthFirst n start rows) (walkable : n.Walkable)

include enumerates

theorem labels_increasing : (rows.map (·.label)).Pairwise (· < ·) := by
  have labels : rows.map (·.label) = List.range rows.length := by
    apply List.ext_getElem (by simp)
    intro i first second
    rw [List.length_map] at first
    simpa using enumerates.label i _ (List.getElem?_eq_getElem first)
  rw [labels]
  exact List.pairwise_lt_range

theorem labelOf_row {row : Row} (member : row ∈ rows) : LabelOf rows row.state row.label := by
  obtain ⟨i, place⟩ := List.mem_iff_getElem?.mp member
  rw [enumerates.label i row place]
  exact ⟨row, place, rfl⟩

include walkable

theorem hasEpsilon_iff :
    rows.any Row.hasEpsilon = true ↔ ∃ q r, n.Reaches start q ∧ n.Step q .epsilon r := by
  have silent : ∀ s : Symbol, s.isEpsilon = true ↔ s = .epsilon := by
    intro s
    cases s <;> simp [Symbol.isEpsilon]
  simp only [List.any_eq_true, Row.hasEpsilon, silent, Prod.exists]
  apply Iff.intro
  · intro shown
    obtain ⟨row, member, _, label, entry, rfl⟩ := shown
    obtain ⟨r, step, _⟩ := (enumerates.mem_transitions walkable member).mp entry
    exact ⟨row.state, r, (enumerates.complete _).mp (List.mem_map_of_mem member), step⟩
  · intro present
    obtain ⟨q, r, reaches, step⟩ := present
    obtain ⟨row, member, rfl⟩ := List.mem_map.mp ((enumerates.complete q).mpr reaches)
    obtain ⟨other, listed, rfl⟩ :=
      List.mem_map.mp ((enumerates.complete r).mpr (reaches.trans (.of_step step)))
    exact ⟨row, member, .epsilon, other.label, (enumerates.mem_transitions walkable member).mpr
      ⟨_, step, enumerates.labelOf_row listed⟩, rfl⟩

theorem shows_loop {row : Row} (member : row ∈ rows) :
    (∃ s, (s, row.label) ∈ row.transitions) ↔ ∃ s, n.Step row.state s row.state := by
  refine exists_congr fun s => (enumerates.mem_transitions walkable member).trans ?_
  apply Iff.intro
  · intro step
    obtain ⟨r, step, other, place, same⟩ := step
    obtain ⟨row', place', same'⟩ := enumerates.labelOf_row member
    cases place.symm.trans place'
    rwa [← same, same'] at step
  · exact fun step => ⟨row.state, step, enumerates.labelOf_row member⟩

end BreadthFirst

theorem listsLoops (wired : n.Wired) (enumerates : BreadthFirst n start rows)
    (attached : n.start = some start) :
    ListsLoops n ⟨rows⟩ ((rows.map (·.state)).filter n.loopsAt)
      ((rows.filter fun row => n.loopsAt row.state).map (·.label)) where
  mem_iff q := by
    rw [List.mem_filter, enumerates.complete, wired.loopsAt_iff]
    simp [Reachable, attached]
  distinct := enumerates.distinct.filter _
  labeled := by
    rw [List.filter_map, List.map_map, List.map_map]
    refine List.map_congr_left fun row kept => ?_
    exact enumerates.label?_eq_some.mpr (enumerates.labelOf_row (List.mem_filter.mp kept).1)
  increasing := enumerates.labels_increasing.sublist (List.filter_sublist.map _)
  shown row member := by
    rw [enumerates.shows_loop wired.walkable member, ← wired.loopsAt_iff, List.mem_filter]
    exact and_iff_right (List.mem_map_of_mem member)

/-- If all states have labels, the report has a line for each. -/
theorem reductionText_labeled {table : Table} {loops labels : List Nat}
    (labeled : loops.map table.label? = labels.map some) :
    Session.reductionText table { containsEpsilon := false, selfLoops := some loops } =
      "\n---Reduction---\n" ++ if labels = [] then "No self-referential transition.\n"
        else String.join (labels.map fun label =>
          "State " ++ labelText label ++ " has a self-referential transition.\n") := by
  have known : loops.filterMap table.label? = labels := by
    have same := congrArg (List.filterMap id) labeled
    simpa [List.filterMap_map] using same
  cases loops with
  | nil =>
      obtain rfl : [] = labels := by simpa using labeled
      rfl
  | cons q rest =>
      have present : labels ≠ [] := by
        rintro rfl
        simp at labeled
      rw [if_neg present, ← known]
      rfl

/-- An epsilon is reported exactly if one can be reached. The states listed otherwise are
those with a loop, each one once and in the order of their labels, as the table has them;
the report names them all. -/
theorem reduce_exact (built : Built n) : ∃ table contains loops labels,
    n.table = .ok table ∧ n.containsEpsilon = .ok contains ∧ n.selfLoops = .ok loops ∧
      (contains = true ↔ ∃ q r, n.Reachable q ∧ n.Step q .epsilon r) ∧
      ListsLoops n table loops labels ∧
      n.reduce.outcome = .ok {
        containsEpsilon := contains
        selfLoops := if contains then none else some loops } ∧
      Session.reductionText table { containsEpsilon := false, selfLoops := some loops } =
        ("\n---Reduction---\n" ++ if labels = [] then "No self-referential transition.\n"
          else String.join (labels.map fun label =>
            "State " ++ labelText label ++ " has a self-referential transition.\n")) ∧
      (n.start = none → table.rows = [] ∧ contains = false ∧ loops = []) := by
  have wired := built.wired
  have walkable := wired.walkable
  refine ⟨_, _, _, (n.walked.rows.filter fun row => n.loopsAt row.state).map (·.label),
    table_eq walkable, containsEpsilon_eq walkable, selfLoops_eq walkable, ?_⟩
  cases attached : n.start with
  | none =>
      have empty : n.walked.rows = [] := by rw [walked, attached, Traversal.walk_done rfl]
      rw [reduce_eq walkable, empty]
      have nothing : ListsLoops n ⟨[]⟩ [] [] := by
        constructor <;> simp [Reachable, attached]
      exact ⟨by simp [Reachable, attached], nothing, rfl, reductionText_labeled nothing.labeled,
        fun _ => ⟨rfl, rfl, rfl⟩⟩
  | some start =>
      have enumerates := walked_breadthFirst walkable attached
      have lists := listsLoops wired enumerates attached
      refine ⟨?_, lists, reduce_eq walkable, reductionText_labeled lists.labeled,
        fun detached => absurd detached (Option.some_ne_none start)⟩
      rw [enumerates.hasEpsilon_iff walkable]
      simp [Reachable, attached]

/-- The third state with a loop has a smaller place than the second, but a larger label. A
state out of reach still has its epsilon, and two transitions are unlinked. -/
theorem reduce_exact_of_cycle :
    let n : Nfa := {
      states := #[{ accepting := true, outgoing := [0, 6] },
        { outgoing := [1, 2], incoming := [0, 1] }, { outgoing := [3, 8], incoming := [2, 8] },
        { outgoing := [7], incoming := [3, 6, 7] }, {},
        { accepting := true, outgoing := [9], incoming := [9] }]
      transitions := #[⟨.char 'a', 0, 1⟩, ⟨.char 'a', 1, 1⟩, ⟨.char 'b', 1, 2⟩, ⟨.char 'c', 2, 3⟩,
        ⟨.char 'd', 3, 4⟩, ⟨.char 'e', 4, 5⟩, ⟨.char 'f', 0, 3⟩, ⟨.char 'g', 3, 3⟩,
        ⟨.char 'h', 2, 2⟩, ⟨.epsilon, 5, 5⟩]
      start := some 0
      current := 5 }
    Built n ∧ ∃ table, n.table = .ok table ∧
      n.reduce.outcome = .ok { containsEpsilon := false, selfLoops := some [1, 3, 2] } ∧
      ListsLoops n table [1, 3, 2] [1, 2, 3] ∧ ¬ ∃ q r, n.Reachable q ∧ n.Step q .epsilon r := by
  intro n
  have line : Built _ := .concatenate (c := 'e') (.concatenate (c := 'd') (.concatenate (c := 'c')
    (.concatenate (c := 'b') (.repeatLetter (c := 'a') (.concatenate (c := 'a') .new rfl) rfl)
      rfl) rfl) rfl) rfl
  have linked := (((line.connected 0 (.char 'f') 3 (by decide) (by decide)).connected
    3 (.char 'g') 3 (by decide) (by decide)).connected 2 (.char 'h') 2 (by decide) (by decide)
      ).connected 5 .epsilon 5 (by decide) (by decide)
  have built : Built n := .deleteState (q := 4) linked (by decide) rfl
  obtain ⟨table, contains, loops, labels, made, epsilon, found, exact, lists, reduced, _⟩ :=
    reduce_exact built
  have silent : n.containsEpsilon = .ok false := by decide +kernel
  have looping : n.selfLoops = .ok [1, 3, 2] := by decide +kernel
  have labeling : n.table.map (fun table => [1, 3, 2].map table.label?) =
      .ok ([1, 2, 3].map some) := by decide +kernel
  cases epsilon.symm.trans silent
  cases found.symm.trans looping
  rw [made] at labeling
  obtain rfl : labels = [1, 2, 3] := List.map_injective_iff.mpr (fun _ _ => Option.some.inj)
    (lists.labeled.symm.trans (Except.ok.inj labeling))
  exact ⟨built, table, made, reduced, lists, fun present => by cases exact.mpr present⟩

end RegexAutomaton
