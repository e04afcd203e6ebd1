import RegexAutomaton.Proofs.Adoption

namespace RegexAutomaton.Nfa

variable {n sub : Nfa} {start base q r a b j id : Nat} {s : Symbol} {t : Transition}
  {list : List (Nat × Transition)} {place : Nat → Nat} {exits : List Nat}

/-- The given transitions, between the images of their endpoints. -/
def moved (place : Nat → Nat) (list : List (Nat × Transition)) : List Transition :=
  list.map fun (_, t) => { symbol := t.symbol, source := place t.source, target := place t.target }

/-- The names that the moved transitions out of `start` receive, when names are
given from `base` on. -/
def departures (start base : Nat) : List (Nat × Transition) → List Nat
  | [] => []
  | (_, t) :: rest =>
      if t.source = start then base :: departures start (base + 1) rest
      else departures start (base + 1) rest

theorem mem_departures : id ∈ departures start base list ↔
    ∃ k e, list[k]? = some e ∧ e.2.source = start ∧ id = base + k := by
  induction list generalizing base with
  | nil => simp [departures]
  | cons e rest ih =>
      have first : id ∈ departures start base (e :: rest) ↔
          (e.2.source = start ∧ id = base) ∨ id ∈ departures start (base + 1) rest := by
        simp only [departures]
        split <;> simp [*]
      rw [first, ih]
      apply Iff.intro
      · intro member
        rcases member with ⟨leaves, rfl⟩ | ⟨k, e, found, leaves, rfl⟩
        · exact ⟨0, e, rfl, leaves, rfl⟩
        · exact ⟨k + 1, e, by simpa using found, leaves, by omega⟩
      · intro departs
        obtain ⟨k, d, found, leaves, rfl⟩ := departs
        cases k with
        | zero =>
            cases found
            exact .inl ⟨leaves, rfl⟩
        | succ k => exact .inr ⟨k, d, by simpa using found, leaves, by omega⟩

/-- The states of `sub` land on states of `n`. -/
def Places (place : Nat → Nat) (sub n : Nfa) : Prop :=
  ∀ p < sub.stateCount, place p < n.stateCount

theorem Wired.connects_moved (wired : sub.Wired) (places : Places place sub n)
    (linked : ∀ e ∈ list, sub.transitions[e.1]? = some e.2) : n.Connects (moved place list) := by
  intro t member
  obtain ⟨e, inList, rfl⟩ := List.mem_map.mp member
  have inRange := wired.endpoints_lt (linked e inList)
  exact ⟨places _ inRange.1, places _ inRange.2⟩

theorem adoptTransition_eq (places : Places place sub n)
    (inRange : t.source < sub.stateCount ∧ t.target < sub.stateCount) (edges : List Nat) :
    sub.adoptTransition start place n edges t =
      .ok (n.connected (place t.source) t.symbol (place t.target),
        if t.source = start then edges ++ [n.transitions.size] else edges) := by
  simp only [adoptTransition, state_eq inRange.2, ok_bind,
    addTransition_eq (places _ inRange.1) (places _ inRange.2)]
  rfl

theorem adoptAll_eq (wired : sub.Wired) (places : Places place sub n)
    (linked : ∀ e ∈ list, sub.transitions[e.1]? = some e.2) (edges : List Nat) :
    list.foldlM (fun (n, edges) (_, t) => sub.adoptTransition start place n edges t) (n, edges) =
      .ok (n.connectedAll (moved place list),
        edges ++ departures start n.transitions.size list) := by
  induction list generalizing n edges with
  | nil => simp [moved, departures, Nfa.connectedAll, pure, Except.pure]
  | cons e rest ih =>
      have inRange := wired.endpoints_lt (linked e (by simp))
      have next := ih (n := n.connected (place e.2.source) e.2.symbol (place e.2.target))
        (fun p p_lt => by simpa using places p p_lt) (fun e member => linked e (by simp [member]))
      simp only [List.foldlM_cons, adoptTransition_eq places inRange, ok_bind, next]
      simp only [transitions_connected, Array.size_push, departures]
      split <;> simp [moved, Nfa.connectedAll]

theorem adoptTransitions_eq (wired : sub.Wired) (places : Places place sub n) :
    n.adoptTransitions sub start place =
      .ok (n.connectedAll (moved place sub.linked),
        departures start n.transitions.size sub.linked) := by
  simp only [adoptTransitions, linkedTransitions_eq wired, ok_bind]
  exact (adoptAll_eq wired places (fun e member => (mem_linked.mp member).1) []).trans (by simp)

theorem Wired.mem_moved (wired : sub.Wired) : ⟨s, a, b⟩ ∈ moved place sub.linked ↔
    ∃ p q, sub.Step p s q ∧ a = place p ∧ b = place q := by
  apply Iff.intro
  · intro member
    obtain ⟨⟨id, t⟩, inList, same⟩ := List.mem_map.mp member
    obtain ⟨found, listed⟩ := mem_linked.mp inList
    cases same
    exact ⟨t.source, t.target, step_iff.mpr ⟨id, listed, t, found, rfl, rfl⟩, rfl, rfl⟩
  · intro original
    obtain ⟨p, q, step, rfl, rfl⟩ := original
    obtain ⟨id, listed, _, found⟩ := wired.exists_linked step
    exact List.mem_map.mpr ⟨(id, ⟨s, p, q⟩), mem_linked.mpr ⟨found, listed⟩, rfl⟩

/-- The automaton after the given states have handed their acceptance over to `j`. -/
def handedOver (j : Nat) (n : Nfa) (exits : List Nat) : Nfa :=
  exits.foldl (fun n q => (n.marked q false).connected q .epsilon j) n

@[simp] theorem stateCount_handedOver : (n.handedOver j exits).stateCount = n.stateCount := by
  induction exits generalizing n with
  | nil => rfl
  | cons q rest ih => exact ih.trans (by simp)

@[simp] theorem start_handedOver : (n.handedOver j exits).start = n.start := by
  induction exits generalizing n with
  | nil => rfl
  | cons q rest ih => exact ih.trans (by simp)

@[simp] theorem current_handedOver : (n.handedOver j exits).current = n.current := by
  induction exits generalizing n with
  | nil => rfl
  | cons q rest ih => exact ih.trans (by simp)

theorem transitions_handedOver : (n.handedOver j exits).transitions.toList =
    n.transitions.toList ++ exits.map fun q => ⟨.epsilon, q, j⟩ := by
  induction exits generalizing n with
  | nil => simp [handedOver]
  | cons q rest ih =>
      refine ih.trans ?_
      simp

theorem Wired.handedOver (wired : n.Wired) (j_lt : j < n.stateCount)
    (exits_lt : ∀ q ∈ exits, q < n.stateCount) : (n.handedOver j exits).Wired := by
  induction exits generalizing n with
  | nil => exact wired
  | cons q rest ih =>
      have q_lt := exits_lt q (by simp)
      refine ih ((wired.marked q_lt false).connected (by simpa using q_lt) (by simpa using j_lt))
        (by simpa using j_lt) fun r member => ?_
      simpa using exits_lt r (by simp [member])

theorem step_handedOver (wired : n.Wired) (j_lt : j < n.stateCount)
    (exits_lt : ∀ q ∈ exits, q < n.stateCount) :
    (n.handedOver j exits).Step a s b ↔ n.Step a s b ∨ a ∈ exits ∧ s = .epsilon ∧ b = j := by
  induction exits generalizing n with
  | nil => simp [Nfa.handedOver]
  | cons q rest ih =>
      have q_lt := exits_lt q (by simp)
      have marked := wired.marked q_lt false
      refine (ih (marked.connected (by simpa using q_lt) (by simpa using j_lt))
        (by simpa using j_lt) fun r member => ?_).trans ?_
      · simpa using exits_lt r (by simp [member])
      · rw [step_connected marked (by simpa using q_lt) (by simpa using j_lt), step_marked q_lt]
        rw [List.mem_cons, or_and_right, or_assoc]

theorem accepting_handedOver (j_lt : j < n.stateCount)
    (exits_lt : ∀ q ∈ exits, q < n.stateCount) :
    (n.handedOver j exits).Accepting r ↔ n.Accepting r ∧ r ∉ exits := by
  induction exits generalizing n with
  | nil => simp [Nfa.handedOver]
  | cons q rest ih =>
      have q_lt := exits_lt q (by simp)
      refine (ih (by simpa using j_lt) fun r member => ?_).trans ?_
      · simpa using exits_lt r (by simp [member])
      · simp only [accepting_iff, stateAt_connected (n := n.marked q false) (by simpa using q_lt)
          (by simpa using j_lt), marked_accepting q_lt, List.mem_cons]
        split <;> simp_all

/-- The automaton after the given states have been joined into a fresh one. -/
def joined (n : Nfa) (exits : List Nat) : Nfa :=
  (n.grown.handedOver n.stateCount exits).marked n.stateCount true

theorem handOver_eq (j_lt : j < n.stateCount) (exits_lt : ∀ q ∈ exits, q < n.stateCount) :
    exits.foldlM (joinInto j) n = .ok (n.handedOver j exits) := by
  refine (foldlM_eq (fun m => m.stateCount = n.stateCount) exits ?_ n rfl).1
  intro m size q member
  have q_lt : q < m.stateCount := size ▸ exits_lt q member
  have j_lt : j < m.stateCount := size ▸ j_lt
  refine ⟨?_, by simpa using size⟩
  simp only [joinInto, setAccepting_eq q_lt, ok_bind]
  rw [addTransition_eq (by simpa using q_lt) (by simpa using j_lt)]
  rfl

theorem lt_grown (exits_lt : ∀ q ∈ exits, q < n.stateCount) :
    ∀ q ∈ exits, q < n.grown.stateCount := by
  intro q member
  rw [stateCount_grown]
  exact Nat.lt_succ_of_lt (exits_lt q member)

theorem join_eq (exits_lt : ∀ q ∈ exits, q < n.stateCount) :
    n.join exits = .ok (n.joined exits, n.stateCount) := by
  simp only [join, addState_eq, handOver_eq (n := n.grown) (j := n.stateCount) (by simp)
    (lt_grown exits_lt), ok_bind]
  rw [setAccepting_eq (by simp)]
  rfl

theorem Wired.joined (wired : n.Wired) (exits_lt : ∀ q ∈ exits, q < n.stateCount) :
    (n.joined exits).Wired := by
  exact Wired.marked (wired.grown.handedOver (by simp) (lt_grown exits_lt)) (by simp) true

@[simp] theorem stateCount_joined : (n.joined exits).stateCount = n.stateCount + 1 := by
  simp [joined]

@[simp] theorem start_joined : (n.joined exits).start = n.start := by
  simp [joined]

@[simp] theorem current_joined : (n.joined exits).current = n.current := by
  simp [joined]

theorem transitions_joined : (n.joined exits).transitions.toList =
    n.transitions.toList ++ exits.map fun q => ⟨.epsilon, q, n.stateCount⟩ :=
  transitions_handedOver

theorem step_joined (wired : n.Wired) (exits_lt : ∀ q ∈ exits, q < n.stateCount) :
    (n.joined exits).Step a s b ↔
      n.Step a s b ∨ a ∈ exits ∧ s = .epsilon ∧ b = n.stateCount := by
  rw [joined, step_marked (by simp), step_handedOver wired.grown (by simp) (lt_grown exits_lt),
    step_grown]

theorem accepting_joined (exits_lt : ∀ q ∈ exits, q < n.stateCount) :
    (n.joined exits).Accepting r ↔ r = n.stateCount ∨ n.Accepting r ∧ r ∉ exits := by
  have handed := accepting_handedOver (n := n.grown) (j := n.stateCount) (r := r) (by simp)
    (lt_grown exits_lt)
  rw [accepting_iff] at handed ⊢
  rw [joined, marked_accepting (by simp)]
  split
  · simp [*]
  · rw [handed]
    simp [accepting_iff, *]

/-- `n` with the states and the linked transitions of `sub`. -/
def imported (n sub : Nfa) (start : Nat) : Nfa :=
  (n.adopted sub start).connectedAll (moved (image n.stateCount n.current start) sub.linked)

theorem places_image (current_lt : n.current < n.stateCount) (start_lt : start < sub.stateCount) :
    Places (image n.stateCount n.current start) sub (n.adopted sub start) := by
  intro p p_lt
  rw [stateCount_adopted start_lt]
  exact image_lt current_lt start_lt p_lt

theorem stateCount_imported (start_lt : start < sub.stateCount) :
    (n.imported sub start).stateCount = n.stateCount + (sub.stateCount - 1) := by
  rw [imported, stateCount_connectedAll, stateCount_adopted start_lt]

theorem places_imported (current_lt : n.current < n.stateCount) (start_lt : start < sub.stateCount) :
    Places (image n.stateCount n.current start) sub (n.imported sub start) := by
  intro p p_lt
  rw [imported, stateCount_connectedAll]
  exact places_image current_lt start_lt p p_lt

@[simp] theorem start_imported : (n.imported sub start).start = n.start := by
  rw [imported, start_connectedAll, start_adopted]

@[simp] theorem current_imported : (n.imported sub start).current = n.current := by
  rw [imported, current_connectedAll, current_adopted]

theorem Wired.connects_imported (wired : n.Wired) (subWired : sub.Wired)
    (start_lt : start < sub.stateCount) :
    (n.adopted sub start).Connects (moved (image n.stateCount n.current start) sub.linked) :=
  subWired.connects_moved (places_image wired.current_lt start_lt)
    fun _ member => (mem_linked.mp member).1

theorem Wired.imported (wired : n.Wired) (subWired : sub.Wired)
    (start_lt : start < sub.stateCount) : (n.imported sub start).Wired :=
  (wired.adopted start_lt).connectedAll (wired.connects_imported subWired start_lt)

theorem step_imported (wired : n.Wired) (subWired : sub.Wired) (start_lt : start < sub.stateCount) :
    (n.imported sub start).Step a s b ↔ n.Step a s b ∨ ∃ p q, sub.Step p s q ∧
      a = image n.stateCount n.current start p ∧ b = image n.stateCount n.current start q := by
  rw [imported, step_connectedAll (wired.adopted start_lt)
    (wired.connects_imported subWired start_lt), step_adopted wired.current_lt start_lt,
    subWired.mem_moved]

theorem accepting_imported (wired : n.Wired) (subWired : sub.Wired)
    (start_lt : start < sub.stateCount) :
    (n.imported sub start).Accepting r ↔
      (∃ p, sub.Accepting p ∧ r = image n.stateCount n.current start p) ∨
        (r < n.stateCount ∧ r ≠ n.current ∧ n.Accepting r) := by
  rw [← accepting_adopted wired.current_lt start_lt, accepting_iff, accepting_iff, imported,
    accepting_connectedAll (wired.connects_imported subWired start_lt)]

theorem mem_acceptingStates : q ∈ n.acceptingStates ↔ n.Accepting q := by
  simp only [acceptingStates, List.mem_map, List.mem_filter, Accepting]
  apply Iff.intro
  · intro listed
    obtain ⟨⟨s, place⟩, ⟨member, accepting⟩, rfl⟩ := listed
    exact ⟨s, by simpa [List.mk_mem_zipIdx_iff_getElem?] using member, accepting⟩
  · intro accepts
    obtain ⟨s, found, accepting⟩ := accepts
    exact ⟨(s, q), ⟨by simpa [List.mk_mem_zipIdx_iff_getElem?] using found, accepting⟩, rfl⟩

theorem acceptingStates_increasing (n : Nfa) : n.acceptingStates.Pairwise (· < ·) :=
  places_increasing _ _

/-- The host brought to the single exit of the adopted automaton, and that exit. -/
def exited (n sub : Nfa) (place : Nat → Nat) : Nfa × Nat :=
  match sub.acceptingStates with
  | [] => (n, place sub.current)
  | [exit] => (n, place exit)
  | exits => (n.joined (exits.map place), n.stateCount)

theorem places_accepting (places : Places place sub n) :
    ∀ q ∈ sub.acceptingStates.map place, q < n.stateCount := by
  intro q member
  obtain ⟨p, inList, rfl⟩ := List.mem_map.mp member
  exact places p (lt_of_accepting (mem_acceptingStates.mp inList))

theorem adoptExit_eq (current_lt : sub.current < sub.stateCount) (places : Places place sub n) :
    n.adoptExit sub place = .ok (n.exited sub place) := by
  have inRange := places_accepting places
  match exits : sub.acceptingStates with
  | [] =>
      simp only [adoptExit, exited, exits, state_eq current_lt, ok_bind]
      rfl
  | [exit] =>
      simp only [adoptExit, exited, exits]
      rfl
  | first :: second :: rest =>
      rw [exits] at inRange
      simp only [adoptExit, exited, exits]
      exact join_eq inRange

theorem Wired.exited (wired : n.Wired) (current_lt : sub.current < sub.stateCount)
    (places : Places place sub n) : (n.exited sub place).1.Wired ∧
      (n.exited sub place).2 < (n.exited sub place).1.stateCount := by
  have inRange := places_accepting places
  rw [Nfa.exited]
  split
  · exact ⟨wired, places _ current_lt⟩
  · rename_i exit single
    exact ⟨wired, inRange _ (by simp [single])⟩
  · exact ⟨wired.joined (by simpa [*] using inRange), by simp⟩

@[simp] theorem start_exited : (n.exited sub place).1.start = n.start := by
  rw [exited]
  split <;> simp

theorem stateCount_le_exited : n.stateCount ≤ (n.exited sub place).1.stateCount := by
  rw [exited]
  split <;> simp

/-- At the exit acceptance is reduced to a single state, and stays what it was apart
from the images. -/
theorem accepting_exited {apart : Nat → Prop} (places : Places place sub n)
    (images : ∀ r, n.Accepting r ↔ (∃ p, sub.Accepting p ∧ r = place p) ∨ apart r)
    (outside : ∀ p, ¬ apart (place p)) : (n.exited sub place).1.Accepting r ↔
      (r = (n.exited sub place).2 ∧ ∃ p, sub.Accepting p) ∨ apart r := by
  have inRange := places_accepting places
  simp only [← mem_acceptingStates (n := sub)] at images ⊢
  unfold exited
  match exits : sub.acceptingStates with
  | [] =>
      rw [exits] at images
      simp [images]
  | [exit] =>
      rw [exits] at images
      simp [images]
  | first :: second :: rest =>
      rw [exits] at images inRange
      have several : ∃ p, p ∈ first :: second :: rest := ⟨first, by simp⟩
      show (n.joined _).Accepting r ↔ _
      rw [accepting_joined inRange, images, and_iff_left several]
      refine or_congr Iff.rfl ?_
      apply Iff.intro
      · intro accepts
        obtain ⟨⟨p, member, rfl⟩ | old, elsewhere⟩ := accepts
        · exact absurd (List.mem_map_of_mem member) elsewhere
        · exact old
      · intro old
        refine ⟨.inr old, fun member => ?_⟩
        obtain ⟨p, _, rfl⟩ := List.mem_map.mp member
        exact outside p old

/-- The outcome of splicing an automaton whose start leads somewhere. -/
def spliced (n sub : Nfa) (start : Nat) : Nfa × Fragment :=
  let result := (n.imported sub start).exited sub (image n.stateCount n.current start)
  ({ result.1 with current := result.2 },
    ⟨n.current, result.2, departures start n.transitions.size sub.linked⟩)

theorem splice_detached (detached : sub.start = none) :
    (n.splice sub).outcome = .error (.build .detachedStart) := by
  simp [splice, detached]

theorem splice_idle (attached : sub.start = some start) (start_lt : start < sub.stateCount)
    (idle : (sub.stateAt start).outgoing = []) :
    (n.splice sub).outcome = .ok (n, ⟨n.current, n.current, []⟩) := by
  simp [splice, attached, state_eq start_lt, idle]

theorem splice_eq (wired : n.Wired) (subWired : sub.Wired) (attached : sub.start = some start)
    (leads : (sub.stateAt start).outgoing ≠ []) :
    (n.splice sub).outcome = .ok (n.spliced sub start) := by
  have start_lt := subWired.start_lt attached
  have places := places_image wired.current_lt start_lt
  have nonempty : (sub.stateAt start).outgoing.isEmpty = false := by simpa using leads
  simp only [splice, attached, Traced.outcome_bind, Traced.outcome_lift, state_eq start_lt, ok_bind,
    nonempty, Bool.false_eq_true, ↓reduceIte, adoptStates_eq wired.current_lt start_lt,
    adoptTransitions_eq subWired places]
  rw [adoptExit_eq (n := (n.adopted sub start).connectedAll _) subWired.current_lt
    (fun p p_lt => by simpa using places p p_lt)]
  rfl

theorem spliced_marked (current_lt : n.current < n.stateCount) (start_lt : start < sub.stateCount)
    (accepting : Bool) :
    (n.marked n.current accepting).spliced sub start = n.spliced sub start := by
  simp only [spliced, imported, adopted_marked current_lt start_lt, stateCount_marked,
    current_marked, transitions_marked]

/-- Of what has been spliced in, at most the exit accepts. -/
theorem accepting_spliced (wired : n.Wired) (subWired : sub.Wired)
    (start_lt : start < sub.stateCount) : (n.spliced sub start).1.Accepting r ↔
      (r = (n.spliced sub start).2.exit ∧ ∃ p, sub.Accepting p) ∨
        r < n.stateCount ∧ r ≠ n.current ∧ n.Accepting r := by
  refine accepting_exited (places_imported wired.current_lt start_lt)
    (fun r => accepting_imported wired subWired start_lt) fun p old => ?_
  by_cases first : p = start
  · exact old.2.1 (first ▸ image_start)
  · exact Nat.lt_irrefl _ (Nat.lt_of_lt_of_le old.1 (image_fresh first))

theorem Wired.spliced (wired : n.Wired) (subWired : sub.Wired)
    (start_lt : start < sub.stateCount) : (n.spliced sub start).1.Wired := by
  obtain ⟨exited, exit_lt⟩ := (wired.imported subWired start_lt).exited subWired.current_lt
    (places_imported wired.current_lt start_lt)
  exact exited.withCurrent exit_lt

theorem getElem?_handedOver (found : n.transitions[id]? = some t) :
    (n.handedOver j exits).transitions[id]? = some t := by
  have old : id < n.transitions.toList.length := (Array.getElem?_eq_some_iff.mp found).1
  rw [← Array.getElem?_toList, transitions_handedOver, List.getElem?_append_left old]
  simpa using found

theorem getElem?_exited (found : n.transitions[id]? = some t) :
    (n.exited sub place).1.transitions[id]? = some t := by
  rw [exited]
  split
  · exact found
  · exact found
  · exact getElem?_handedOver (n := n.grown) found

/-- The place of a copied transition follows from its place among the linked ones. -/
theorem getElem?_spliced {k : Nat} {e : Nat × Transition} (listed : sub.linked[k]? = some e) :
    (n.spliced sub start).1.transitions[n.transitions.size + k]? = some {
      symbol := e.2.symbol
      source := image n.stateCount n.current start e.2.source
      target := image n.stateCount n.current start e.2.target } := by
  refine getElem?_exited ?_
  rw [imported, transitions_connectedAll, transitions_adopted,
    Array.getElem?_append_right (Nat.le_add_right ..)]
  simp [moved, listed]

/-- The edges of the fragment stand for the steps out of the adopted start. -/
theorem Wired.edges_spliced (wired : sub.Wired) :
    (∃ id ∈ (n.spliced sub start).2.edges, ∃ t, (n.spliced sub start).1.transitions[id]? = some t ∧
        t.symbol = s ∧ t.target = b) ↔
      ∃ q, sub.Step start s q ∧ b = image n.stateCount n.current start q := by
  apply Iff.intro
  · intro edge
    obtain ⟨id, member, t, found, rfl, rfl⟩ := edge
    obtain ⟨k, e, listed, leaves, rfl⟩ := mem_departures.mp member
    cases (getElem?_spliced listed).symm.trans found
    obtain ⟨known, linked⟩ := mem_linked.mp (List.mem_of_getElem? listed)
    rw [leaves] at linked
    exact ⟨_, step_iff.mpr ⟨_, linked, _, known, rfl, rfl⟩, rfl⟩
  · intro original
    obtain ⟨q, step, rfl⟩ := original
    obtain ⟨id, listed, _, found⟩ := wired.exists_linked step
    obtain ⟨k, place⟩ := List.mem_iff_getElem?.mp (mem_linked.mpr ⟨found, listed⟩)
    exact ⟨_, mem_departures.mpr ⟨k, _, place, rfl, rfl⟩, _, getElem?_spliced place, rfl, rfl⟩

theorem Wired.hasFragment_spliced (wired : n.Wired) (subWired : sub.Wired)
    (start_lt : start < sub.stateCount) :
    (n.spliced sub start).1.HasFragment (n.spliced sub start).2 := by
  have kept := wired.spliced subWired start_lt
  have grew : n.stateCount ≤ (n.spliced sub start).1.stateCount :=
    Nat.le_trans (by rw [stateCount_imported start_lt]; omega)
      (stateCount_le_exited (n := n.imported sub start))
  refine ⟨Nat.lt_of_lt_of_le wired.current_lt grew, kept.current_lt, fun id member => ?_⟩
  obtain ⟨k, e, listed, _, rfl⟩ := mem_departures.mp member
  exact (Array.getElem?_eq_some_iff.mp (getElem?_spliced listed)).1

end RegexAutomaton.Nfa
