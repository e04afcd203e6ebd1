import RegexAutomaton.Nfa.Isomorphism
import RegexAutomaton.Nfa.Language
import RegexAutomaton.Proofs.Discovery

namespace RegexAutomaton

open Nfa

variable {n m : Nfa} {q r a b i : Nat} {s : Symbol} {symbols : List Symbol} {place : Nat → Nat}
  {found : List Nat} {targets : List (Symbol × Nat)} {rows others : List Row}

/-- Some path from `q` to an accepting state spells the word. -/
def Nfa.AcceptsFrom (n : Nfa) (q : Nat) (word : List Char) : Prop :=
  ∃ symbols last, n.Path q symbols last ∧ spelled symbols = word ∧ n.Accepting last

theorem Nfa.mem_language_of_start (attached : n.start = some q) {word : List Char} :
    word ∈ n.language ↔ n.AcceptsFrom q word := by
  simp [mem_language, Accepts, AcceptsFrom, attached]

namespace Nfa.Isomorphism

variable (iso : Isomorphism n q m r place) (walkable : n.Walkable) (walkable' : m.Walkable)

include iso

theorem place_lt (reached : n.Reaches q a) : place a < m.stateCount := by
  obtain ⟨list, _, placed⟩ := iso.successors a reached
  exact lt_of_successors placed

include walkable walkable'

theorem successorsAt_place (reached : n.Reaches q a) :
    m.successorsAt (place a) = (n.successorsAt a).map fun e => (e.1, place e.2) := by
  obtain ⟨list, listed, placed⟩ := iso.successors a reached
  have same := (successors_eq walkable (lt_of_successors listed)).symm.trans listed
  have same' := (successors_eq walkable' (lt_of_successors placed)).symm.trans placed
  rw [Except.ok.inj same', Except.ok.inj same]

theorem step_place (reached : n.Reaches q a) :
    m.Step (place a) s b ↔ ∃ c, n.Step a s c ∧ place c = b := by
  rw [← mem_successorsAt, iso.successorsAt_place walkable walkable' reached, List.mem_map]
  simp [mem_successorsAt]

theorem path_place (path : n.Path a symbols b) (reached : n.Reaches q a) :
    m.Path (place a) symbols (place b) := by
  induction path with
  | nil => exact .nil _
  | cons step _ ih =>
      have next := reached.trans (.of_step step)
      exact .cons ((iso.step_place walkable walkable' reached).mpr ⟨_, step, rfl⟩) (ih next)

theorem exists_path (path : m.Path (place a) symbols b) (reached : n.Reaches q a) :
    ∃ c, n.Path a symbols c ∧ place c = b := by
  generalize here : place a = start at path
  induction path generalizing a with
  | nil => exact ⟨a, .nil a, here⟩
  | cons step _ ih =>
      subst here
      obtain ⟨next, step, same⟩ := (iso.step_place walkable walkable' reached).mp step
      obtain ⟨c, path, rfl⟩ := ih (reached.trans (.of_step step)) same
      exact ⟨c, .cons step path, rfl⟩

/-- The same words are accepted from both roots. -/
theorem acceptsFrom_iff {word : List Char} : n.AcceptsFrom q word ↔ m.AcceptsFrom r word := by
  have here := Reaches.refl n q
  apply Iff.intro
  · intro accepts
    obtain ⟨symbols, last, path, spells, accepting⟩ := accepts
    have placed := iso.path_place walkable walkable' path here
    rw [iso.root] at placed
    exact ⟨symbols, place last, placed, spells, (iso.accepting last ⟨symbols, path⟩).mp accepting⟩
  · intro accepts
    obtain ⟨symbols, last, path, spells, accepting⟩ := accepts
    rw [← iso.root] at path
    obtain ⟨c, original, rfl⟩ := iso.exists_path walkable walkable' path here
    exact ⟨symbols, c, original, spells, (iso.accepting c ⟨symbols, original⟩).mpr accepting⟩

theorem language_eq (attached : n.start = some q) (attached' : m.start = some r) :
    n.language = m.language := by
  ext word
  rw [mem_language_of_start attached, mem_language_of_start attached',
    iso.acceptsFrom_iff walkable walkable']

end Nfa.Isomorphism

namespace Traversal

/-- Where `place` confuses no two labeled states, it keeps the labels. -/
def Faithful (place : Nat → Nat) (known : Nat → Prop) : Prop :=
  ∀ a b, known a → known b → place a = place b → a = b

variable {known : Nat → Prop} (faithful : Faithful place known)

include faithful

theorem mem_map_place (all : ∀ r ∈ found, known r) (this : known q) :
    place q ∈ found.map place ↔ q ∈ found := by
  rw [List.mem_map]
  apply Iff.intro
  · intro placed
    obtain ⟨r, member, same⟩ := placed
    rwa [← faithful r q (all r member) this same]
  · exact fun member => ⟨q, member, rfl⟩

theorem idxOf_map_place (all : ∀ r ∈ found, known r) (this : known q) :
    (found.map place).idxOf (place q) = found.idxOf q := by
  induction found with
  | nil => rfl
  | cons r rest ih =>
      have tail := ih fun r member => all r (List.mem_cons_of_mem _ member)
      rw [List.map_cons, List.idxOf_cons, List.idxOf_cons, tail]
      by_cases same : r = q
      · simp [same]
      · have apart : place r ≠ place q := fun equal =>
          same (faithful r q (all r List.mem_cons_self) this equal)
        rw [beq_eq_false_iff_ne.mpr same, beq_eq_false_iff_ne.mpr apart]

theorem discovered_map_place (all : ∀ r ∈ found, known r) (these : ∀ e ∈ targets, known e.2) :
    discovered (found.map place) (targets.map fun e => (e.1, place e.2)) =
      (discovered found targets).map place := by
  induction targets generalizing found with
  | nil => rfl
  | cons e rest ih =>
      have this := these e List.mem_cons_self
      have noted_map : noted (found.map place) (place e.2) = (noted found e.2).map place := by
        rw [noted, noted]
        by_cases member : e.2 ∈ found
        · rw [if_pos member, if_pos ((mem_map_place faithful all this).mpr member)]
        · rw [if_neg member, if_neg (mt (mem_map_place faithful all this).mp member)]
          simp
      have all' : ∀ r ∈ noted found e.2, known r := by
        intro r member
        rcases mem_noted.mp member with old | same
        · exact all r old
        · exact same ▸ this
      have tail := ih all' fun e member => these e (List.mem_cons_of_mem _ member)
      simpa only [discovered, List.map_cons, List.foldl_cons, noted_map] using tail

end Traversal

open Traversal

/-- The walk over the image that stands where `t` stands. -/
def Traversal.carried (place : Nat → Nat) (t : Traversal) : Traversal :=
  ⟨t.found.map place, t.next⟩

namespace Nfa.Isomorphism

variable {t : Traversal} (iso : Isomorphism n q m r place) (walkable : n.Walkable)
  (walkable' : m.Walkable)

include iso

theorem faithful : Faithful place (n.Reaches q) :=
  iso.injective

theorem inRange_carried (reached : ∀ c ∈ t.found, n.Reaches q c) :
    InRange m (carried place t).found := by
  intro c member
  obtain ⟨c, known, rfl⟩ := List.mem_map.mp member
  exact iso.place_lt (reached c known)

include walkable walkable'

theorem advanced_carried (reached : ∀ c ∈ t.found, n.Reaches q c) (here : n.Reaches q a) :
    advanced m (carried place t) (place a) = carried place (advanced n t a) ∧
      ∀ c ∈ (advanced n t a).found, n.Reaches q c := by
  have targets : ∀ e ∈ n.successorsAt a, n.Reaches q e.2 := fun e member =>
    here.trans (.of_step (mem_successorsAt.mp member))
  refine ⟨?_, fun c member => ?_⟩
  · simp only [advanced, carried, iso.successorsAt_place walkable walkable' here,
      discovered_map_place iso.faithful reached targets]
  · rcases mem_discovered.mp member with old | ⟨e, target, rfl⟩
    · exact reached c old
    · exact targets e target

theorem content_rowAt (attached : n.start = some q) (attached' : m.start = some r)
    (reached : ∀ c ∈ t.found, n.Reaches q c) (here : n.Reaches q a) :
    (rowAt m (carried place t) (place a)).content = (rowAt n t a).content := by
  obtain ⟨found, reached'⟩ := iso.advanced_carried walkable walkable' reached here
  have found := congrArg Traversal.found found
  simp only [advanced, carried, iso.successorsAt_place walkable walkable' here] at found reached'
  have start : (some r == some (place a)) = (some q == some a) := by
    rw [Bool.eq_iff_iff, beq_iff_eq, beq_iff_eq, Option.some.injEq, Option.some.injEq, ← iso.root]
    exact ⟨iso.injective q a (.refl n q) here, congrArg place⟩
  have accepting : (m.stateAt (place a)).accepting = (n.stateAt a).accepting := by
    rw [Bool.eq_iff_iff, ← accepting_iff, ← accepting_iff]
    exact (iso.accepting a here).symm
  simp only [rowAt, Row.content, carried, attached, attached', start, accepting,
    iso.successorsAt_place walkable walkable' here, found, List.map_map]
  congr 3
  refine List.map_congr_left fun e member => ?_
  have known : n.Reaches q e.2 := here.trans (.of_step (mem_successorsAt.mp member))
  simp only [Function.comp_apply, idxOf_map_place iso.faithful reached' known]

/-- The two walks stay in step, so they say the same. -/
theorem content_walked (attached : n.start = some q) (attached' : m.start = some r) :
    n.walked.rows.map Row.content = m.walked.rows.map Row.content := by
  have inRange := (enter_eq walkable).2
  rw [attached] at inRange
  have walked : n.walked = walk n ⟨[q], 0⟩ := by rw [Nfa.walked, attached]; rfl
  have walked' : m.walked = walk m (carried place ⟨[q], 0⟩) := by
    rw [Nfa.walked, attached', ← iso.root]
    rfl
  obtain ⟨_, last, _, done, _, ended⟩ := walk_induction walkable
    (fun rows t => (∀ c ∈ t.found, n.Reaches q c) ∧ rows.map Row.content ++
      (walk m (carried place t)).rows.map Row.content = m.walked.rows.map Row.content)
    [] ⟨[q], 0⟩ inRange ⟨by simpa using Reaches.refl n q, by rw [walked']; rfl⟩ (by
      intro rows t a _ kept inLine
      obtain ⟨reached, before⟩ := kept
      have here := reached a (List.mem_of_getElem? inLine)
      obtain ⟨next, reached'⟩ := iso.advanced_carried walkable walkable' reached here
      have inLine' : (carried place t).found[(carried place t).next]? = some (place a) := by
        simp [carried, inLine]
      refine ⟨reached', ?_⟩
      rw [← before, walk_row walkable' (iso.inRange_carried reached) inLine', next]
      simp [iso.content_rowAt walkable walkable' attached attached' reached here])
  have ended' : walk m (carried place last) = ⟨[], .ok ()⟩ :=
    walk_done (by simpa [carried] using done)
  rw [walked, ← ended, ended']
  simp

end Nfa.Isomorphism

theorem LabelOf.state_unique (first : LabelOf rows a i) (second : LabelOf rows b i) : a = b := by
  obtain ⟨row, place, rfl⟩ := first
  obtain ⟨row', place', rfl⟩ := second
  cases place.symm.trans place'
  rfl

theorem exists_labelOf : a ∈ rows.map (·.state) ↔ ∃ i, LabelOf rows a i := by
  rw [List.mem_map]
  apply Iff.intro
  · intro listed
    obtain ⟨row, member, same⟩ := listed
    obtain ⟨i, found⟩ := List.mem_iff_getElem?.mp member
    exact ⟨i, row, found, same⟩
  · intro labeled
    obtain ⟨i, row, found, same⟩ := labeled
    exact ⟨row, List.mem_of_getElem? found, same⟩

/-- The state that has in `others` the label of `a` in `rows`. -/
def counterpart (rows others : List Row) (a : Nat) : Nat :=
  (others[(rows.map (·.state)).idxOf a]?.map (·.state)).getD 0

theorem exists_row (same : rows.map Row.content = others.map Row.content) {row : Row}
    (found : rows[i]? = some row) :
    ∃ other, others[i]? = some other ∧ other.content = row.content := by
  have content : (others.map Row.content)[i]? = some row.content := by
    rw [← same, List.getElem?_map, found, Option.map_some]
  rw [List.getElem?_map, Option.map_eq_some_iff] at content
  exact content

namespace BreadthFirst

variable (first : BreadthFirst n q rows) (second : BreadthFirst m r others)
  (same : rows.map Row.content = others.map Row.content)

include first same

theorem labelOf_counterpart (labeled : LabelOf rows a i) :
    LabelOf others (counterpart rows others a) i := by
  have place : (rows.map (·.state)).idxOf a = i := by
    have member : a ∈ rows.map (·.state) := exists_labelOf.mpr ⟨i, labeled⟩
    have found := List.getElem?_idxOf member
    rw [List.getElem?_map, Option.map_eq_some_iff] at found
    exact first.labelOf_unique found labeled
  obtain ⟨row, found, rfl⟩ := labeled
  obtain ⟨other, found', _⟩ := exists_row same found
  exact ⟨other, found', by rw [counterpart, place, found']; rfl⟩

theorem counterpart_eq (labeled : LabelOf rows a i) (labeled' : LabelOf others b i) :
    counterpart rows others a = b :=
  (first.labelOf_counterpart same labeled).state_unique labeled'

/-- Two lists of targets that are described by the same labels correspond. -/
theorem targets_counterpart {list list' shown : List (Symbol × Nat)}
    (describes : List.Forall₂ (fun e l => l.1 = e.1 ∧ LabelOf rows e.2 l.2) list shown)
    (describes' : List.Forall₂ (fun e l => l.1 = e.1 ∧ LabelOf others e.2 l.2) list' shown) :
    list' = list.map fun e => (e.1, counterpart rows others e.2) := by
  induction describes generalizing list' with
  | nil =>
      cases describes'
      rfl
  | cons head _ ih =>
      cases describes' with
      | cons head' tail' =>
          rw [List.map_cons, ← ih tail', first.counterpart_eq same head.2 head'.2, ← head.1, head'.1]

include second

/-- Tables that say the same make the states with the same label correspond. -/
theorem isomorphism : Isomorphism n q m r (counterpart rows others) := by
  have labeled : ∀ {a}, n.Reaches q a → ∃ i, LabelOf rows a i := fun reached =>
    exists_labelOf.mp ((first.complete _).mpr reached)
  exact {
    root := first.counterpart_eq same first.first second.first
    injective := by
      intro a b reached reached' equal
      obtain ⟨i, here⟩ := labeled reached
      obtain ⟨j, there⟩ := labeled reached'
      have image := first.labelOf_counterpart same here
      have image' := first.labelOf_counterpart same there
      rw [equal] at image
      obtain rfl := second.labelOf_unique image image'
      exact here.state_unique there
    surjective := by
      intro b reached
      obtain ⟨i, other, found, rfl⟩ := exists_labelOf.mp ((second.complete b).mpr reached)
      obtain ⟨row, found', _⟩ := exists_row same.symm found
      have here : LabelOf rows row.state i := ⟨row, found', rfl⟩
      exact ⟨row.state, (first.complete _).mp (exists_labelOf.mpr ⟨i, here⟩),
        first.counterpart_eq same here ⟨other, found, rfl⟩⟩
    accepting := by
      intro a reached
      obtain ⟨i, here⟩ := labeled reached
      obtain ⟨other, found', there⟩ := first.labelOf_counterpart same here
      obtain ⟨row, found, rfl⟩ := here
      obtain ⟨_, found'', content⟩ := exists_row same found
      cases found'.symm.trans found''
      simp only [Row.content, Prod.mk.injEq] at content
      rw [← first.accepting_iff row (List.mem_of_getElem? found), ← there,
        ← second.accepting_iff other (List.mem_of_getElem? found'), content.2.2.1]
    successors := by
      intro a reached
      obtain ⟨i, here⟩ := labeled reached
      obtain ⟨other, found', there⟩ := first.labelOf_counterpart same here
      obtain ⟨row, found, rfl⟩ := here
      obtain ⟨_, found'', content⟩ := exists_row same found
      cases found'.symm.trans found''
      simp only [Row.content, Prod.mk.injEq] at content
      obtain ⟨list, listed, shown⟩ := first.transitions row (List.mem_of_getElem? found)
      obtain ⟨list', listed', shown'⟩ := second.transitions other (List.mem_of_getElem? found')
      rw [content.2.2.2] at shown'
      refine ⟨list, listed, ?_⟩
      rw [← there, listed', first.targets_counterpart same shown shown'] }

end BreadthFirst

/-- What is the same from `q` on in two automata is isomorphic by the identity. -/
theorem isomorphism_of_same (walkable : n.Walkable) (attached : n.start = some q)
    (same : ∀ p, n.Reaches q p → (n.Accepting p ↔ m.Accepting p) ∧ m.successors p = n.successors p)
    (walkable' : m.Walkable) : Isomorphism n q m q id := by
  have reached_lt : ∀ {p}, n.Reaches q p → p < n.stateCount :=
    walkable.reaches_lt (walkable.start_lt q attached)
  have listed : ∀ {p}, n.Reaches q p → n.successors p = .ok (n.successorsAt p) ∧
      m.successorsAt p = n.successorsAt p := by
    intro p reached
    have here := successors_eq walkable (reached_lt reached)
    have there := (same p reached).2.trans here
    refine ⟨here, ?_⟩
    exact Except.ok.inj ((successors_eq walkable' (lt_of_successors there)).symm.trans there)
  have back : ∀ {p symbols b}, m.Path p symbols b → n.Reaches q p → n.Reaches q b := by
    intro p symbols b path
    induction path with
    | nil => exact id
    | cons step _ ih =>
        intro reached
        rw [← mem_successorsAt, (listed reached).2, mem_successorsAt] at step
        exact ih (reached.trans (.of_step step))
  exact {
    root := rfl
    injective := fun _ _ _ _ => id
    surjective := fun b ⟨_, path⟩ => ⟨b, back path (.refl n q), rfl⟩
    accepting := fun p reached => (same p reached).1
    successors := fun p reached =>
      ⟨_, (listed reached).1, by simpa using (same p reached).2.trans (listed reached).1⟩ }

/-- Tables are equal exactly if the reachable parts are isomorphic. Then the
languages are equal as well. What is not reachable counts for nothing. -/
theorem table_beq_iff_isomorphic (walkable : n.Walkable) (walkable' : m.Walkable)
    (attached : n.start = some q) (attached' : m.start = some r) :
    ∃ first second, n.table = .ok first ∧ m.table = .ok second ∧
      ((first == second) = true ↔ Isomorphic n q m r) ∧
      ((first == second) = true → n.language = m.language) ∧
      (q = r → (∀ p, n.Reaches q p →
        (n.Accepting p ↔ m.Accepting p) ∧ m.successors p = n.successors p) →
          (first == second) = true) := by
  have equal : (Table.mk n.walked.rows == Table.mk m.walked.rows) = true ↔ Isomorphic n q m r := by
    rw [Table.beq_iff]
    apply Iff.intro
    · exact fun same => ⟨_, (walked_breadthFirst walkable attached).isomorphism
        (walked_breadthFirst walkable' attached') same⟩
    · intro isomorphic
      obtain ⟨place, iso⟩ := isomorphic
      exact iso.content_walked walkable walkable' attached attached'
  refine ⟨_, _, table_eq walkable, table_eq walkable', equal, ?_, ?_⟩
  · intro same
    obtain ⟨place, iso⟩ := equal.mp same
    exact iso.language_eq walkable walkable' attached attached'
  · intro here same
    subst here
    exact equal.mpr ⟨id, isomorphism_of_same walkable attached same walkable'⟩

/-- The same cycle twice: the second time with other places, a state out of
reach and a transition that is not linked. -/
theorem isomorphic_of_renumbered_cycle :
    let n : Nfa := {
      states := #[{ outgoing := [0] }, { accepting := true, outgoing := [1, 2] }]
      transitions := #[⟨.char 'a', 0, 1⟩, ⟨.epsilon, 1, 0⟩, ⟨.char 'b', 1, 1⟩]
      start := some 0
      current := 1 }
    let m : Nfa := {
      states := #[{ accepting := true, outgoing := [1, 3] }, { outgoing := [2] },
        { outgoing := [4] }]
      transitions := #[⟨.char 'c', 2, 1⟩, ⟨.epsilon, 0, 2⟩, ⟨.char 'd', 1, 2⟩, ⟨.char 'b', 0, 0⟩,
        ⟨.char 'a', 2, 0⟩]
      start := some 2
      current := 1 }
    n.Walkable ∧ m.Walkable ∧ Isomorphic n 0 m 2 ∧ n.language = m.language := by
  intro n m
  have walkable : n.Walkable := ⟨by decide, by decide, by decide⟩
  have walkable' : m.Walkable := ⟨by decide, by decide, by decide⟩
  obtain ⟨first, second, made, made', equal, language, _⟩ :=
    table_beq_iff_isomorphic (q := 0) (r := 2) walkable walkable' rfl rfl
  have same : (n.table >>= fun first => m.table.map (first == ·)) = .ok true := by
    decide +kernel
  rw [made, made'] at same
  have same := Except.ok.inj same
  exact ⟨walkable, walkable', equal.mp same, language same⟩

end RegexAutomaton
