import RegexAutomaton.Nfa.Embedding
import RegexAutomaton.Proofs.Groups

namespace RegexAutomaton.Nfa

variable {n m sub : Nfa} {start base q j id : Nat} {t : Transition}
  {list more : List Transition} {entries : List (Nat × Transition)} {exits : List Nat}
  {place : Nat → Nat} {endpoint : Transition → Nat}

theorem numbered_cons : numbered base (t :: list) = (base, t) :: numbered (base + 1) list := by
  simp [numbered, List.zipIdx_cons]

theorem numbered_append :
    numbered base (list ++ more) = numbered base list ++ numbered (base + list.length) more := by
  simp [numbered, List.zipIdx_append]

theorem mem_numbered : (id, t) ∈ numbered base list ↔ base ≤ id ∧ list[id - base]? = some t := by
  simp [numbered, List.mk_mem_zipIdx_iff_le_and_getElem?_sub]

theorem named_cons : named endpoint q base (t :: list) =
    if endpoint t = q then base :: named endpoint q (base + 1) list
    else named endpoint q (base + 1) list := by
  rw [named, named, numbered_cons, List.filter_cons]
  by_cases here : endpoint t = q
  · simp [here]
  · simp [here]

theorem named_append : named endpoint q base (list ++ more) =
    named endpoint q base list ++ named endpoint q (base + list.length) more := by
  rw [named, numbered_append, List.filter_append, List.map_append]
  rfl

theorem mem_named : id ∈ named endpoint q base list ↔
    base ≤ id ∧ ∃ t, list[id - base]? = some t ∧ endpoint t = q := by
  simp only [named, List.mem_map, List.mem_filter, beq_iff_eq]
  apply Iff.intro
  · intro entry
    obtain ⟨⟨name, t⟩, ⟨member, here⟩, rfl⟩ := entry
    obtain ⟨le, found⟩ := mem_numbered.mp member
    exact ⟨le, t, found, here⟩
  · intro position
    obtain ⟨le, t, found, here⟩ := position
    exact ⟨(id, t), ⟨mem_numbered.mpr ⟨le, found⟩, here⟩, rfl⟩

theorem departures_eq_named :
    departures start base entries = named (·.source) start base (entries.map Prod.snd) := by
  induction entries generalizing base with
  | nil => rfl
  | cons e rest ih => rw [departures, List.map_cons, named_cons, ih]

/-- The automaton `m` has the transitions `list` in addition to those of `n`, and its
states list them behind what they listed in `n`. -/
structure Appends (n m : Nfa) (list : List Transition) : Prop where
  transitions_eq : m.transitions.toList = n.transitions.toList ++ list
  outgoing (q : Nat) : (m.stateAt q).outgoing =
    (n.stateAt q).outgoing ++ named (·.source) q n.transitions.size list
  incoming (q : Nat) : (m.stateAt q).incoming =
    (n.stateAt q).incoming ++ named (·.target) q n.transitions.size list

namespace Appends

theorem size (appends : Appends n m list) :
    m.transitions.size = n.transitions.size + list.length := by
  rw [← Array.length_toList, appends.transitions_eq, List.length_append, Array.length_toList]

theorem of_same_lists (transitions : m.transitions = n.transitions)
    (outgoing : ∀ q, (m.stateAt q).outgoing = (n.stateAt q).outgoing)
    (incoming : ∀ q, (m.stateAt q).incoming = (n.stateAt q).incoming) : Appends n m [] where
  transitions_eq := by rw [transitions, List.append_nil]
  outgoing q := (outgoing q).trans (List.append_nil _).symm
  incoming q := (incoming q).trans (List.append_nil _).symm

theorem refl (n : Nfa) : Appends n n [] :=
  of_same_lists rfl (fun _ => rfl) fun _ => rfl

theorem trans {last : Nfa} (first : Appends n m list) (second : Appends m last more) :
    Appends n last (list ++ more) where
  transitions_eq := by
    rw [second.transitions_eq, first.transitions_eq, List.append_assoc]
  outgoing q := by
    rw [second.outgoing, first.outgoing, first.size, named_append, List.append_assoc]
  incoming q := by
    rw [second.incoming, first.incoming, first.size, named_append, List.append_assoc]

theorem connected {source target : Nat} {symbol : Symbol} (source_lt : source < n.stateCount)
    (target_lt : target < n.stateCount) :
    Appends n (n.connected source symbol target) [⟨symbol, source, target⟩] where
  transitions_eq := by simp
  outgoing q := by
    rw [stateAt_connected source_lt target_lt, named_cons]
    simp only [eq_comm (a := q)]
    rfl
  incoming q := by
    rw [stateAt_connected source_lt target_lt, named_cons]
    simp only [eq_comm (a := q)]
    rfl

theorem grown (n : Nfa) : Appends n n.grown [] :=
  of_same_lists rfl (fun _ => by rw [stateAt_grown]) fun _ => by rw [stateAt_grown]

theorem marked (q_lt : q < n.stateCount) (accepting : Bool) :
    Appends n (n.marked q accepting) [] :=
  of_same_lists rfl (fun _ => marked_outgoing q_lt accepting) fun _ => marked_incoming q_lt accepting

theorem connectedAll (connects : n.Connects list) : Appends n (n.connectedAll list) list := by
  induction list generalizing n with
  | nil => exact .refl n
  | cons t rest ih =>
      have inRange := connects t (by simp)
      refine (connected inRange.1 inRange.2).trans (ih ?_)
      intro u member
      simpa using connects u (by simp [member])

theorem handedOver (j_lt : j < n.stateCount) (exits_lt : ∀ q ∈ exits, q < n.stateCount) :
    Appends n (n.handedOver j exits) (exits.map fun q => ⟨.epsilon, q, j⟩) := by
  induction exits generalizing n with
  | nil => exact .refl n
  | cons q rest ih =>
      have q_lt := exits_lt q (by simp)
      have first : Appends n ((n.marked q false).connected q .epsilon j) [⟨.epsilon, q, j⟩] :=
        (marked q_lt false).trans (connected (by simpa using q_lt) (by simpa using j_lt))
      refine first.trans (ih (by simpa using j_lt) fun r member => ?_)
      simpa using exits_lt r (by simp [member])

theorem joined (exits_lt : ∀ q ∈ exits, q < n.stateCount) :
    Appends n (n.joined exits) (exits.map fun q => ⟨.epsilon, q, n.stateCount⟩) := by
  have handed : Appends n (n.grown.handedOver n.stateCount exits) _ :=
    (grown n).trans (handedOver (by simp) (lt_grown exits_lt))
  simpa [Nfa.joined] using handed.trans (marked (by simp) true)

theorem withCurrent (appends : Appends n m list) (q : Nat) :
    Appends n { m with current := q } list :=
  { appends with }

theorem exited (places : Places place sub n) :
    Appends n (n.exited sub place).1 (sub.joints place n.stateCount) := by
  have inRange := places_accepting places
  unfold Nfa.exited joints
  match exits : sub.acceptingStates with
  | [] => exact .refl n
  | [exit] => exact .refl n
  | first :: second :: rest =>
      rw [exits] at inRange
      simpa [Function.comp_def] using joined inRange

theorem imported (wired : n.Wired) (subWired : sub.Wired) (start_lt : start < sub.stateCount) :
    Appends n (n.imported sub start) (sub.imports (placeIn n start)) := by
  have adopted : Appends n (n.adopted sub start) [] :=
    of_same_lists rfl (fun _ => outgoing_adopted wired.current_lt start_lt)
      fun _ => incoming_adopted wired.current_lt start_lt
  exact adopted.trans (connectedAll (wired.connects_imported subWired start_lt))

theorem spliced (wired : n.Wired) (subWired : sub.Wired) (start_lt : start < sub.stateCount) :
    Appends n (n.spliced sub start).1 (sub.imports (placeIn n start) ++
      sub.joints (placeIn n start) (n.stateCount + (sub.stateCount - 1))) := by
  have exited := Appends.exited (places_imported wired.current_lt start_lt)
  rw [stateCount_imported start_lt] at exited
  exact ((imported wired subWired start_lt).trans exited).withCurrent _

theorem step {r : Nat} {symbol : Symbol} (appends : Appends n m list) (step : n.Step q symbol r) :
    m.Step q symbol r := by
  obtain ⟨id, listed, t, found, reads, leads⟩ := step_iff.mp step
  refine step_iff.mpr ⟨id, appends.outgoing q ▸ List.mem_append_left _ listed, t, ?_, reads, leads⟩
  have old := (Array.getElem?_eq_some_iff.mp found).1
  rw [← Array.getElem?_toList, appends.transitions_eq,
    List.getElem?_append_left (by rwa [Array.length_toList]), Array.getElem?_toList, found]

theorem extended (current_lt : n.current < n.stateCount) (c : Char) :
    Appends n (n.extended c) [⟨.char c, n.current, n.stateCount⟩] :=
  ((((grown n).trans (connected (by simp; omega) (by simp))).trans (marked (by simp) true)).trans
    (marked (by simp; omega) false)).withCurrent n.stateCount

theorem branched {origin : Nat} (origin_lt : origin < n.stateCount) :
    Appends n (n.branched origin) [⟨.epsilon, origin, n.stateCount⟩] :=
  ((grown n).trans (connected (by simp; omega) (by simp))).withCurrent n.stateCount

theorem looped {source target : Nat} (source_lt : source < n.stateCount)
    (target_lt : target < n.stateCount) (c : Char) :
    Appends n (n.looped c source target) [⟨.char c, target, target⟩] :=
  ((marked source_lt true).trans (connected (by simpa using target_lt)
    (by simpa using target_lt))).withCurrent target

theorem repeated {fragment : Fragment} (wired : n.Wired) (valid : n.HasFragment fragment) :
    Appends n (n.repeated fragment) (n.copies fragment.exit fragment.edges) :=
  (marked valid.1 true).trans (connectedAll (wired.connects_repeated valid))

/-- An appended transition is listed by its source, and no old name is listed anew. -/
theorem linked_eq (appends : Appends n m list) :
    m.linked = n.linked ++ numbered n.transitions.size list := by
  rw [linked, linked, appends.transitions_eq, List.zipIdx_append, List.filter_append, List.map_append,
    Array.length_toList, Nat.zero_add]
  congr 2
  · refine List.filter_congr fun entry member => ?_
    obtain ⟨t, id⟩ := entry
    have old : id < n.transitions.size := by
      have found : n.transitions[id]? = some t := by
        simpa [List.mk_mem_zipIdx_iff_getElem?] using member
      exact (Array.getElem?_eq_some_iff.mp found).1
    have apart : id ∉ named (·.source) t.source n.transitions.size list :=
      fun listed => Nat.not_le_of_lt old (mem_named.mp listed).1
    rw [Bool.eq_iff_iff, lists_iff, lists_iff, appends.outgoing]
    simp [apart]
  · refine List.filter_eq_self.mpr fun entry member => ?_
    obtain ⟨t, id⟩ := entry
    obtain ⟨le, found⟩ := List.mk_mem_zipIdx_iff_le_and_getElem?_sub.mp member
    rw [lists_iff, appends.outgoing]
    exact List.mem_append_right _ (mem_named.mpr ⟨le, t, found, rfl⟩)

end Appends

end RegexAutomaton.Nfa
