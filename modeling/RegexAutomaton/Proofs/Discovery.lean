import Mathlib.Data.List.Perm.Subperm
import RegexAutomaton.Proofs.Walking

namespace RegexAutomaton

open Nfa

/-! The table of an automaton is the breadth-first enumeration of the states that
its start reaches.

A walk keeps two invariants from row to row. The rows so far describe the labeled
states in the order of their labels. And the labeled states come by their depth,
the described ones leading to labeled ones at most one step deeper. At the end of
the walk all labeled states are described, and depths are distances.
-/

variable {n : Nfa} {start q r : Nat} {s : Symbol} {rows : List Row} {t : Traversal}
  {found : List Nat} {targets : List (Symbol × Nat)} {symbols : List Symbol} {depth : Nat → Nat}

theorem eraseDups_concat (labels : List Nat) (label : Nat) : (labels ++ [label]).eraseDups =
    labels.eraseDups ++ if label ∈ labels then [] else [label] := by
  rw [List.eraseDups_append, List.removeAll]
  by_cases used : label ∈ labels <;> simp [used, List.eraseDups_cons]

namespace Traversal

/-- The labels of targets go on where the labels before them have stopped. -/
theorem eraseDups_labels {labels : List Nat} (before : labels.eraseDups = List.range found.length)
    (targets : List (Symbol × Nat)) :
    (labels ++ targets.map fun e => (discovered found targets).idxOf e.2).eraseDups =
      List.range (discovered found targets).length := by
  induction targets generalizing found labels with
  | nil => simpa [discovered] using before
  | cons e rest ih =>
      have used : found.idxOf e.2 ∈ labels ↔ e.2 ∈ found := by
        rw [← List.mem_eraseDups, before, List.mem_range, List.idxOf_lt_length_iff]
      have next : (labels ++ [found.idxOf e.2]).eraseDups = List.range (noted found e.2).length := by
        rw [eraseDups_concat, before, noted]
        by_cases known : e.2 ∈ found
        · rw [if_pos known, if_pos (used.mpr known), List.append_nil]
        · rw [if_neg known, if_neg (mt used.mp known), List.idxOf_eq_length known, List.length_append,
            List.length_singleton, List.range_succ]
      have first : (discovered (noted found e.2) rest).idxOf e.2 = found.idxOf e.2 := by
        rw [idxOf_discovered (mem_noted.mpr (.inr rfl)), idxOf_noted]
      have later := ih next
      rw [List.append_assoc, List.singleton_append] at later
      simp only [discovered, List.foldl_cons, List.map_cons] at first later ⊢
      rw [first]
      exact later

/-- The rows describe the first labeled states. -/
structure Described (n : Nfa) (start : Nat) (rows : List Row) (t : Traversal) : Prop where
  next_eq : t.next = rows.length
  states : rows.map (·.state) = t.found.take rows.length
  first : t.found.head? = some start
  distinct : t.found.Nodup
  label : ∀ (i : Nat) (row : Row), rows[i]? = some row → row.label = i
  start_iff : ∀ row ∈ rows, row.start = true ↔ row.state = start
  accepting_iff : ∀ row ∈ rows, row.accepting = true ↔ n.Accepting row.state
  transitions : ∀ row ∈ rows, row.transitions =
    (n.successorsAt row.state).map fun e => (e.1, t.found.idxOf e.2)
  listed : ∀ row ∈ rows, ∀ e ∈ n.successorsAt row.state, e.2 ∈ t.found
  discovery : (0 :: rows.flatMap (·.transitions.map Prod.snd)).eraseDups =
    List.range t.found.length

theorem Described.enter (n : Nfa) (start : Nat) : Described n start [] ⟨[start], 0⟩ where
  next_eq := rfl
  states := rfl
  first := rfl
  distinct := by simp
  label _ _ found := by cases found
  start_iff _ member := by cases member
  accepting_iff _ member := by cases member
  transitions _ member := by cases member
  listed _ member := by cases member
  discovery := rfl

/-- One more row describes one more state, and labels what it leads to. -/
theorem Described.row (described : Described n start rows t) (attached : n.start = some start)
    (inLine : t.found[t.next]? = some q) :
    Described n start (rows ++ [rowAt n t q]) (advanced n t q) := by
  obtain ⟨fresh, grown, _⟩ := discovered_eq_append t.found (n.successorsAt q)
  have inLine' : t.found[rows.length]? = some q := described.next_eq ▸ inLine
  have bound : rows.length < t.found.length := (List.getElem?_eq_some_iff.mp inLine').1
  have kept : ∀ r ∈ t.found, (advanced n t q).found.idxOf r = t.found.idxOf r := fun _ known =>
    idxOf_discovered known _
  exact {
    next_eq := by simp [advanced, described.next_eq]
    states := by
      rw [List.map_append, described.states, List.length_append, List.length_singleton, advanced,
        grown, List.take_append_of_le_length bound, List.take_add_one, inLine']
      rfl
    first := by
      rw [advanced, grown, List.head?_append, described.first]
      rfl
    distinct := nodup_discovered described.distinct _
    label := by
      intro i row place
      rw [List.getElem?_append] at place
      split at place
      · exact described.label i row place
      · obtain ⟨last, same⟩ := List.getElem?_eq_some_iff.mp place
        simp only [List.length_singleton] at last
        rw [← same]
        simp only [List.getElem_singleton, rowAt, described.next_eq]
        omega
    start_iff := by
      intro row member
      rcases List.mem_append.mp member with old | last
      · exact described.start_iff row old
      · rw [List.mem_singleton.mp last]
        simpa [rowAt, attached] using eq_comm
    accepting_iff := by
      intro row member
      rcases List.mem_append.mp member with old | last
      · exact described.accepting_iff row old
      · rw [List.mem_singleton.mp last, Nfa.accepting_iff]
        rfl
    transitions := by
      intro row member
      rcases List.mem_append.mp member with old | last
      · rw [described.transitions row old]
        refine List.map_congr_left fun e target => ?_
        rw [kept _ (described.listed row old e target)]
      · rw [List.mem_singleton.mp last]
        rfl
    listed := by
      intro row member e target
      rcases List.mem_append.mp member with old | last
      · exact mem_discovered.mpr (.inl (described.listed row old e target))
      · rw [List.mem_singleton.mp last] at target
        exact mem_discovered.mpr (.inr ⟨e, target, rfl⟩)
    discovery := by
      have labels := eraseDups_labels described.discovery (n.successorsAt q)
      rw [List.flatMap_append, ← List.cons_append]
      simpa [rowAt, advanced, Function.comp_def] using labels }

/-- Labeled states come by their depth, and what a described state leads to is at
most one step deeper. -/
structure Layered (n : Nfa) (start : Nat) (t : Traversal) (depth : Nat → Nat) : Prop where
  root : start ∈ t.found ∧ depth start = 0
  paths : ∀ q ∈ t.found, ∃ symbols, n.Path start symbols q ∧ symbols.length = depth q
  sorted : t.found.Pairwise fun q r => depth q ≤ depth r
  /-- Nothing lies deeper than one step behind the next state in line. -/
  front : ∀ q, t.found[t.next]? = some q → ∀ r ∈ t.found, depth r ≤ depth q + 1
  edges : ∀ q ∈ t.found.take t.next, ∀ s r, n.Step q s r → r ∈ t.found ∧ depth r ≤ depth q + 1

theorem Layered.enter (n : Nfa) (start : Nat) : Layered n start ⟨[start], 0⟩ fun _ => 0 where
  root := ⟨List.mem_singleton_self start, rfl⟩
  paths q member := by
    rw [List.mem_singleton.mp member]
    exact ⟨[], .nil start, rfl⟩
  sorted := List.pairwise_singleton _ start
  front _ _ _ _ := Nat.zero_le _
  edges q member := by cases member

theorem Layered.row (layered : Layered n start t depth) (inLine : t.found[t.next]? = some q) :
    ∃ deeper, Layered n start (advanced n t q) deeper := by
  obtain ⟨fresh, grown, apart⟩ := discovered_eq_append t.found (n.successorsAt q)
  have bound : t.next < t.found.length := (List.getElem?_eq_some_iff.mp inLine).1
  have here : q ∈ t.found := List.mem_of_getElem? inLine
  let deeper : Nat → Nat := fun r => if r ∈ t.found then depth r else depth q + 1
  have old : ∀ r ∈ t.found, deeper r = depth r := fun r known => if_pos known
  have new : ∀ r ∈ fresh, deeper r = depth q + 1 := fun r member => if_neg (apart r member)
  have below : ∀ r, deeper r ≤ depth q + 1 := by
    intro r
    by_cases known : r ∈ t.found
    · rw [old r known]
      exact layered.front q inLine r known
    · exact Nat.le_of_eq (if_neg known)
  have sorted : (t.found ++ fresh).Pairwise fun q r => deeper q ≤ deeper r := by
    refine List.pairwise_append.mpr ⟨?_, ?_, fun r known f member => ?_⟩
    · exact layered.sorted.imp_of_mem fun {q r} first second le => by
        rwa [old q first, old r second]
    · exact List.pairwise_of_forall_mem_list fun r first f second =>
        Nat.le_of_eq ((new r first).trans (new f second).symm)
    · rw [new f member]
      exact below r
  refine ⟨deeper, ?_⟩
  exact {
    root := ⟨mem_discovered.mpr (.inl layered.root.1), by rw [old _ layered.root.1, layered.root.2]⟩
    paths := by
      intro r member
      rw [advanced, grown] at member
      rcases List.mem_append.mp member with known | last
      · rw [old r known]
        exact layered.paths r known
      · have found := grown ▸ List.mem_append_right t.found last
        rcases mem_discovered.mp found with known | ⟨e, target, rfl⟩
        · exact absurd known (apart r last)
        · obtain ⟨symbols, path, length⟩ := layered.paths q here
          refine ⟨symbols ++ [e.1], path.append (.cons (mem_successorsAt.mp target) (.nil _)), ?_⟩
          rw [new _ last, List.length_append, List.length_singleton, length]
    sorted := by rwa [advanced, grown]
    front := by
      intro next nextInLine r _
      rw [advanced, grown] at nextInLine
      have behind : deeper q ≤ deeper next := by
        have bound' : t.next < (t.found ++ fresh).length := by
          rw [List.length_append]
          omega
        obtain ⟨next_lt, rfl⟩ := List.getElem?_eq_some_iff.mp nextInLine
        obtain ⟨_, rfl⟩ := List.getElem?_eq_some_iff.mp inLine
        have same : (t.found ++ fresh)[t.next] = t.found[t.next] := List.getElem_append_left bound
        rw [← same]
        exact List.pairwise_iff_getElem.mp sorted _ _ bound' next_lt (Nat.lt_succ_self _)
      rw [old q here] at behind
      have deepest := below r
      omega
    edges := by
      intro p member s r step
      rw [advanced, grown, List.take_append_of_le_length bound, List.take_add_one, inLine] at member
      rcases List.mem_append.mp member with before | last
      · obtain ⟨known, le⟩ := layered.edges p before s r step
        rw [old p (List.mem_of_mem_take before), old r known]
        exact ⟨mem_discovered.mpr (.inl known), le⟩
      · obtain rfl : p = q := by simpa using last
        refine ⟨mem_discovered.mpr (.inr ⟨(s, r), mem_successorsAt.mpr step, rfl⟩), ?_⟩
        rw [old p here]
        exact below r }

namespace Layered

variable (layered : Layered n start t depth) (done : t.found.length ≤ t.next)

include layered done

theorem le_of_path (path : n.Path q symbols r) (known : q ∈ t.found) :
    r ∈ t.found ∧ depth r ≤ depth q + symbols.length := by
  induction path with
  | nil => exact ⟨known, Nat.le_refl _⟩
  | cons step _ ih =>
      obtain ⟨next, le⟩ := layered.edges _ (by rwa [List.take_of_length_le done]) _ _ step
      obtain ⟨last, le'⟩ := ih next
      rw [List.length_cons]
      exact ⟨last, by omega⟩

/-- At the end of the walk the depth of a state is its distance. -/
theorem distance (known : q ∈ t.found) : n.Distance start q (depth q) := by
  refine ⟨layered.paths q known, fun symbols path => ?_⟩
  obtain ⟨_, le⟩ := layered.le_of_path done path layered.root.1
  rwa [layered.root.2, Nat.zero_add] at le

theorem mem_iff_reaches : q ∈ t.found ↔ n.Reaches start q := by
  apply Iff.intro
  · intro known
    obtain ⟨symbols, path, _⟩ := layered.paths q known
    exact ⟨symbols, path⟩
  · intro reaches
    obtain ⟨symbols, path⟩ := reaches
    exact (layered.le_of_path done path layered.root.1).1

end Layered

end Traversal

open Traversal

theorem walked_breadthFirst (walkable : n.Walkable) (attached : n.start = some start) :
    BreadthFirst n start n.walked.rows := by
  have inRange := (enter_eq walkable).2
  rw [attached] at inRange
  obtain ⟨_, last, inRange, done, described, depth, layered⟩ := walk_induction walkable
    (fun rows t => Described n start rows t ∧ ∃ depth, Layered n start t depth) [] ⟨[start], 0⟩
    inRange ⟨.enter n start, _, .enter n start⟩ fun rows t q _ kept inLine => by
      obtain ⟨described, depth, layered⟩ := kept
      exact ⟨described.row attached inLine, layered.row inLine⟩
  have walked : n.walked = walk n ⟨[start], 0⟩ := by rw [Nfa.walked, attached]; rfl
  rw [List.nil_append, ← walked] at described
  generalize n.walked.rows = rows at described
  have length_le : last.found.length ≤ rows.length := described.next_eq ▸ done
  have states : rows.map (·.state) = last.found := by
    rw [described.states, List.take_of_length_le length_le]
  have length : rows.length = last.found.length := by rw [← states, List.length_map]
  have labelOf : ∀ {q i}, LabelOf rows q i ↔ last.found[i]? = some q := by
    intro q i
    rw [LabelOf, ← states, List.getElem?_map, Option.map_eq_some_iff]
  have known : ∀ row ∈ rows, row.state ∈ last.found := fun row member =>
    states ▸ List.mem_map_of_mem member
  exact {
    first := by rw [labelOf, ← List.head?_eq_getElem?, described.first]
    distinct := states ▸ described.distinct
    complete q := by rw [states, layered.mem_iff_reaches done]
    label := described.label
    start_iff i row place := by
      rw [described.start_iff row (List.mem_of_getElem? place)]
      have here := labelOf.mp ⟨row, place, rfl⟩
      have first := described.first
      rw [List.head?_eq_getElem?] at first
      apply Iff.intro
      · intro same
        rw [same] at here
        exact (List.getElem?_inj (List.getElem?_eq_some_iff.mp here).1 described.distinct).mp
          (here.trans first.symm)
      · intro zero
        subst zero
        exact Option.some.inj (here.symm.trans first)
    accepting_iff := described.accepting_iff
    transitions row member := by
      have row_lt := inRange _ (known row member)
      refine ⟨_, successors_eq walkable row_lt, ?_⟩
      rw [described.transitions row member, List.forall₂_map_right_iff, List.forall₂_same]
      intro e target
      exact ⟨rfl, labelOf.mpr (List.getElem?_idxOf (described.listed row member e target))⟩
    sorted := by
      refine ⟨last.found.map depth, ?_, List.pairwise_map.mpr layered.sorted⟩
      rw [← states, List.map_map, List.forall₂_map_right_iff, List.forall₂_same]
      exact fun row member => layered.distance done (known row member)
    discovery := by rw [described.discovery, length] }

theorem exists_mem_iff_of_forall₂ {α β : Type} {P : α → Prop} {Q : β → Prop} {list : List α}
    {others : List β} (pairs : List.Forall₂ (fun x y => P x ↔ Q y) list others) :
    (∃ x ∈ list, P x) ↔ ∃ y ∈ others, Q y := by
  induction pairs with
  | nil => simp
  | cons head _ ih => simp [head, ih]

namespace BreadthFirst

variable (enumerates : BreadthFirst n start rows)

include enumerates

/-- No state has two rows. -/
theorem length_le (walkable : n.Walkable) (start_lt : start < n.stateCount) :
    rows.length ≤ n.stateCount := by
  have among : rows.map (·.state) ⊆ List.range n.stateCount := by
    intro q member
    exact List.mem_range.mpr (walkable.reaches_lt start_lt ((enumerates.complete q).mp member))
  simpa using (enumerates.distinct.subperm among).length_le

/-- If all states are reached, there are as many rows as states. -/
theorem length_eq (walkable : n.Walkable) (start_lt : start < n.stateCount)
    (reached : ∀ q < n.stateCount, n.Reaches start q) : rows.length = n.stateCount := by
  have all : (rows.map (·.state)).Perm (List.range n.stateCount) := by
    rw [List.perm_ext_iff_of_nodup enumerates.distinct List.nodup_range]
    intro q
    rw [enumerates.complete, List.mem_range]
    exact ⟨fun reaches => walkable.reaches_lt start_lt reaches, reached q⟩
  simpa using all.length_eq

theorem labelOf_unique {i j : Nat} (first : LabelOf rows q i) (second : LabelOf rows q j) :
    i = j := by
  obtain ⟨row, place, same⟩ := first
  obtain ⟨row', place', same'⟩ := second
  have i_lt := (List.getElem?_eq_some_iff.mp place).1
  refine (List.getElem?_inj (by rwa [List.length_map]) enumerates.distinct).mp ?_
  rw [List.getElem?_map, List.getElem?_map, place, place', Option.map_some, Option.map_some, same,
    same']

theorem label?_eq_some {i : Nat} : (Table.mk rows).label? q = some i ↔ LabelOf rows q i := by
  rw [Table.label?, Option.map_eq_some_iff]
  have labelOf : ∀ {row}, rows.find? (fun row => row.state == q) = some row →
      LabelOf rows q row.label := by
    intro row first
    obtain ⟨j, place⟩ := List.mem_iff_getElem?.mp (List.mem_of_find?_eq_some first)
    rw [enumerates.label j row place]
    exact ⟨row, place, by simpa using List.find?_some first⟩
  apply Iff.intro
  · intro found
    obtain ⟨row, first, rfl⟩ := found
    exact labelOf first
  · intro labeled
    obtain ⟨row, place, same⟩ := labeled
    have present : (rows.find? fun row => row.state == q).isSome := by
      rw [List.find?_isSome]
      exact ⟨row, List.mem_of_getElem? place, by simpa using same⟩
    obtain ⟨other, first⟩ := Option.isSome_iff_exists.mp present
    exact ⟨other, first, enumerates.labelOf_unique (labelOf first) ⟨row, place, same⟩⟩

theorem label?_eq_none : (Table.mk rows).label? q = none ↔ ¬ n.Reaches start q := by
  rw [← enumerates.complete, Table.label?, Option.map_eq_none_iff, List.find?_eq_none, List.mem_map]
  simp

/-- A row shows the steps of its state, with the labels of their targets. -/
theorem mem_transitions (walkable : n.Walkable) {row : Row} (member : row ∈ rows) {label : Nat} :
    (s, label) ∈ row.transitions ↔ ∃ r, n.Step row.state s r ∧ LabelOf rows r label := by
  obtain ⟨list, listed, pairs⟩ := enumerates.transitions row member
  obtain rfl : n.successorsAt row.state = list := by
    have row_lt := Nfa.lt_of_successors listed
    rw [successors_eq walkable row_lt] at listed
    exact Except.ok.inj listed
  have same : ∀ (e d : Symbol × Nat), d.1 = e.1 ∧ LabelOf rows e.2 d.2 →
      (e.1 = s ∧ LabelOf rows e.2 label ↔ d = (s, label)) := by
    intro e d pair
    obtain ⟨shown, known⟩ := pair
    rw [Prod.ext_iff, shown]
    refine and_congr_right fun _ => ⟨enumerates.labelOf_unique known, fun same => ?_⟩
    rwa [show d.2 = label from same] at known
  have found := exists_mem_iff_of_forall₂ (pairs.imp same)
  simp only [exists_eq_right, Prod.exists, mem_successorsAt] at found
  rw [← found]
  apply Iff.intro
  · intro step
    obtain ⟨_, r, step, rfl, known⟩ := step
    exact ⟨r, step, known⟩
  · intro step
    obtain ⟨r, step, known⟩ := step
    exact ⟨s, r, step, rfl, known⟩

/-- The labels of a table are places of rows. -/
theorem labels_lt (walkable : n.Walkable) {row : Row} (member : row ∈ rows) :
    row.label < rows.length ∧ ∀ e ∈ row.transitions, e.2 < rows.length := by
  obtain ⟨i, place⟩ := List.mem_iff_getElem?.mp member
  have i_lt := (List.getElem?_eq_some_iff.mp place).1
  refine ⟨by rwa [enumerates.label i row place], fun e shown => ?_⟩
  obtain ⟨_, _, _, found, _⟩ := (enumerates.mem_transitions walkable member).mp shown
  exact (List.getElem?_eq_some_iff.mp found).1

end BreadthFirst

/-- The table exists, enumerates the reachable states breadth first, and knows
their labels. -/
theorem table_breadthFirst (walkable : n.Walkable) :
    ∃ table, n.table = .ok table ∧ (n.start = none → table.rows = []) ∧
      (∀ start, n.start = some start → BreadthFirst n start table.rows) ∧
      ∀ q, (∀ i, table.label? q = some i ↔ LabelOf table.rows q i) ∧
        (table.label? q = none ↔ ¬ n.Reachable q) := by
  refine ⟨⟨n.walked.rows⟩, table_eq walkable, ?_, fun _ => walked_breadthFirst walkable, ?_⟩
  · intro detached
    rw [walked, detached, walk_done rfl]
  · intro q
    cases attached : n.start with
    | none =>
        have empty : n.walked.rows = [] := by rw [walked, attached, walk_done rfl]
        rw [empty]
        simp [Table.label?, LabelOf, Reachable, attached]
    | some start =>
        have enumerates := walked_breadthFirst walkable attached
        refine ⟨fun i => enumerates.label?_eq_some, ?_⟩
        rw [enumerates.label?_eq_none]
        simp [Reachable, attached]

/-- With a cycle, a loop, two parallel transitions, one that is not linked, and a
state out of reach. -/
theorem table_breadthFirst_of_cycle :
    let n : Nfa := {
      states := #[{ outgoing := [0, 1, 2] }, { accepting := true, outgoing := [3] },
        { outgoing := [4] }, {}]
      transitions := #[⟨.epsilon, 0, 2⟩, ⟨.char 'a', 0, 1⟩, ⟨.char 'a', 0, 1⟩, ⟨.char 'b', 1, 1⟩,
        ⟨.char 'c', 2, 0⟩, ⟨.char 'd', 3, 0⟩]
      start := some 0
      current := 3 }
    n.Walkable ∧ ∃ table, n.table = .ok table ∧ BreadthFirst n 0 table.rows ∧
      table.rows.map (·.state) = [0, 2, 1] ∧ table.label? 1 = some 2 ∧ ¬ n.Reachable 3 := by
  intro n
  have walkable : n.Walkable := ⟨by decide, by decide, by decide⟩
  obtain ⟨table, made, _, enumerates, labels⟩ := table_breadthFirst walkable
  have rows : n.table.map (·.rows.map (·.state)) = .ok [0, 2, 1] := by decide +kernel
  have known : n.table.map (·.label? 1) = .ok (some 2) := by decide +kernel
  have absent : n.table.map (·.label? 3) = .ok none := by decide +kernel
  rw [made] at rows known absent
  exact ⟨walkable, table, made, enumerates 0 rfl, Except.ok.inj rows, Except.ok.inj known,
    (labels 3).2.mp (Except.ok.inj absent)⟩

end RegexAutomaton
