import RegexAutomaton.Proofs.Splicing

namespace RegexAutomaton.Nfa

/-! Building in a fresh branch is building alone.

An automaton stands beside a host if its places follow those of the host, and the
epsilon that opens the branch leads to its first state. Every change of the lone
automaton has a counterpart in the host, so that the two go on to stand beside
each other.
-/

variable {origin : Nat} {host sub n x : Nfa} {q r id source target start j exit : Nat}
  {s : Symbol} {c : Char} {t : Transition} {list : List Transition} {ids edges exits : List Nat}
  {fragment : Fragment}

/-- The transitions of the host, with the epsilon into the branch. -/
def width (host : Nfa) : Nat :=
  host.transitions.size + 1

def shifted (host : Nfa) (t : Transition) : Transition where
  symbol := t.symbol
  source := host.stateCount + t.source
  target := host.stateCount + t.target

/-- The state `q` behind the host. -/
def settled (host : Nfa) (q : Nat) (s : State) : State where
  accepting := s.accepting
  outgoing := s.outgoing.map (host.width + ·)
  incoming := (if q = 0 then [host.transitions.size] else []) ++ s.incoming.map (host.width + ·)

def hosted (host : Nfa) (fragment : Fragment) : Fragment where
  entry := host.stateCount + fragment.entry
  exit := host.stateCount + fragment.exit
  edges := fragment.edges.map (host.width + ·)

structure Beside (origin : Nat) (host sub n : Nfa) : Prop where
  stateCount_eq : n.stateCount = host.stateCount + sub.stateCount
  size_eq : n.transitions.size = host.width + sub.transitions.size
  state (q : Nat) : n.stateAt (host.stateCount + q) = host.settled q (sub.stateAt q)
  transition (id : Nat) : n.transitions[host.width + id]? = sub.transitions[id]?.map host.shifted
  old_state : ∀ q < host.stateCount, n.stateAt q = (host.branched origin).stateAt q
  old_transition : ∀ id < host.width, n.transitions[id]? = (host.branched origin).transitions[id]?
  current_eq : n.current = host.stateCount + sub.current
  start_eq : n.start = host.start

theorem beside_branched (origin_lt : origin < host.stateCount) :
    Beside origin host .new (host.branched origin) where
  stateCount_eq := stateCount_branched
  size_eq := by simp [branched, width, Nfa.new]
  state q := by
    rw [branched, stateAt_current, stateAt_connected (by simp; omega) (by simp), stateAt_grown,
      stateAt_beyond (Nat.le_add_right _ _), if_neg (by omega)]
    cases q with
    | zero => simp [settled, stateAt, Nfa.new]
    | succ q => simp [settled, stateAt, Nfa.new]
  transition id := by
    have beyond : (host.branched origin).transitions.size ≤ host.width + id := by
      rw [branched, transitions_connected, Array.size_push]
      exact Nat.le_add_right _ _
    rw [Array.getElem?_eq_none beyond]
    rfl
  old_state _ _ := rfl
  old_transition _ _ := rfl
  current_eq := rfl
  start_eq := rfl

theorem departures_shifted (width : Nat) (members : List (Nat × Transition)) (base : Nat) :
    departures start (width + base) members =
      (departures start base members).map (width + ·) := by
  induction members generalizing base with
  | nil => rfl
  | cons e rest ih =>
      simp only [departures, Nat.add_assoc, ih]
      split <;> rfl

namespace Beside

variable (beside : Beside origin host sub n)

include beside

theorem accepting_iff : n.Accepting (host.stateCount + q) ↔ sub.Accepting q := by
  rw [Nfa.accepting_iff, Nfa.accepting_iff, beside.state, settled]

theorem outgoing_eq : (n.stateAt (host.stateCount + q)).outgoing =
    (sub.stateAt q).outgoing.map (host.width + ·) := by
  rw [beside.state, settled]

theorem opening : n.transitions[host.transitions.size]? =
    some ⟨.epsilon, origin, host.stateCount⟩ := by
  rw [beside.old_transition _ (Nat.lt_succ_self _), branched]
  exact Array.getElem?_push_size

theorem grown : Beside origin host sub.grown n.grown where
  stateCount_eq := by
    rw [stateCount_grown, stateCount_grown, beside.stateCount_eq]
    rfl
  size_eq := beside.size_eq
  state q := by
    rw [stateAt_grown, stateAt_grown]
    exact beside.state q
  transition := beside.transition
  old_state q q_lt := by
    rw [stateAt_grown]
    exact beside.old_state q q_lt
  old_transition := beside.old_transition
  current_eq := beside.current_eq
  start_eq := beside.start_eq

theorem marked (q_lt : q < sub.stateCount) (accepting : Bool) :
    Beside origin host (sub.marked q accepting) (n.marked (host.stateCount + q) accepting) := by
  have inRange : host.stateCount + q < n.stateCount := by
    rw [beside.stateCount_eq]
    omega
  exact {
    stateCount_eq := by
      rw [stateCount_marked, stateCount_marked]
      exact beside.stateCount_eq
    size_eq := beside.size_eq
    state := by
      intro r
      rw [stateAt_marked inRange, stateAt_marked q_lt, beside.state, beside.state]
      by_cases same : r = q
      · simp [same, settled, State.setAccepting]
      · simp [same]
    transition := beside.transition
    old_state := by
      intro r r_lt
      rw [stateAt_marked inRange, if_neg (by omega)]
      exact beside.old_state r r_lt
    old_transition := beside.old_transition
    current_eq := beside.current_eq
    start_eq := beside.start_eq }

theorem withCurrent (q : Nat) :
    Beside origin host { sub with current := q } { n with current := host.stateCount + q } :=
  { beside with current_eq := rfl }

theorem connected (source_lt : source < sub.stateCount) (target_lt : target < sub.stateCount) :
    Beside origin host (sub.connected source s target)
      (n.connected (host.stateCount + source) s (host.stateCount + target)) := by
  have source_in : host.stateCount + source < n.stateCount := by
    rw [beside.stateCount_eq]
    omega
  have target_in : host.stateCount + target < n.stateCount := by
    rw [beside.stateCount_eq]
    omega
  exact {
    stateCount_eq := by
      rw [stateCount_connected, stateCount_connected]
      exact beside.stateCount_eq
    size_eq := by
      rw [transitions_connected, transitions_connected, Array.size_push, Array.size_push,
        beside.size_eq]
      omega
    state := by
      intro r
      rw [stateAt_connected source_in target_in, stateAt_connected source_lt target_lt,
        beside.state, beside.size_eq]
      simp only [settled, List.map_append, Nat.add_left_cancel_iff, List.append_assoc,
        apply_ite (List.map _), List.map_cons, List.map_nil]
    transition := by
      intro id
      rw [transitions_connected, transitions_connected, Array.getElem?_push, Array.getElem?_push,
        beside.size_eq, beside.transition]
      simp only [Nat.add_left_cancel_iff]
      split <;> rfl
    old_state := by
      intro r r_lt
      rw [stateAt_connected source_in target_in, if_neg (by omega), if_neg (by omega)]
      simpa using beside.old_state r r_lt
    old_transition := by
      intro id id_lt
      rw [transitions_connected, Array.getElem?_push, if_neg (by rw [beside.size_eq]; omega)]
      exact beside.old_transition id id_lt
    current_eq := beside.current_eq
    start_eq := beside.start_eq }

theorem connectedAll (connects : sub.Connects list) :
    Beside origin host (sub.connectedAll list) (n.connectedAll (list.map host.shifted)) := by
  induction list generalizing sub n with
  | nil => exact beside
  | cons t rest ih =>
      have inRange := connects t (by simp)
      refine ih (beside.connected inRange.1 inRange.2) ?_
      intro u member
      simpa using connects u (by simp [member])

theorem extended (wired : sub.Wired) (c : Char) :
    Beside origin host (sub.extended c) (n.extended c) := by
  have current_lt := wired.current_lt
  have grew : sub.current < sub.grown.stateCount := by
    rw [stateCount_grown]
    omega
  have last : sub.stateCount < sub.grown.stateCount := by
    rw [stateCount_grown]
    exact Nat.lt_succ_self _
  have added := beside.grown.connected (s := .char c) grew last
  have accepting := added.marked (by rwa [stateCount_connected]) true
  have rejecting := accepting.marked (q := sub.current)
    (by rwa [stateCount_marked, stateCount_connected]) false
  rw [Nfa.extended, Nfa.extended, beside.stateCount_eq, beside.current_eq]
  exact rejecting.withCurrent sub.stateCount

theorem oldest?_eq : n.oldest? s (ids.map (host.width + ·)) =
    (sub.oldest? s ids).map host.shifted := by
  have found : (ids.map (host.width + ·)).filterMap (fun id => n.transitions[id]?) =
      (ids.filterMap fun id => sub.transitions[id]?).map host.shifted := by
    rw [List.filterMap_map, List.map_filterMap]
    exact congrArg (List.filterMap · ids) (funext beside.transition)
  rw [oldest?, oldest?, found, List.find?_map]
  rfl

theorem oldest?_outgoing : n.oldest? s (n.stateAt (host.stateCount + q)).outgoing =
    (sub.oldest? s (sub.stateAt q).outgoing).map host.shifted := by
  rw [beside.outgoing_eq, beside.oldest?_eq]

/-- The epsilon into the branch reads no letter, so the lookup passes over it. -/
theorem oldest?_incoming : n.oldest? (.char c) (n.stateAt (host.stateCount + q)).incoming =
    (sub.oldest? (.char c) (sub.stateAt q).incoming).map host.shifted := by
  rw [beside.state, settled]
  split
  · rw [← beside.oldest?_eq]
    simp [oldest?, beside.opening]
  · exact beside.oldest?_eq

theorem looped (source_lt : source < sub.stateCount) (target_lt : target < sub.stateCount)
    (c : Char) : Beside origin host (sub.looped c source target)
      (n.looped c (host.stateCount + source) (host.stateCount + target)) := by
  have marked := beside.marked source_lt true
  have target_in : target < (sub.marked source true).stateCount := by
    rwa [stateCount_marked]
  exact (marked.connected target_in target_in).withCurrent target

theorem repeatedLetter (wired : sub.Wired) (c : Char) :
    Beside origin host (sub.repeatedLetter c) (n.repeatedLetter c) := by
  unfold Nfa.repeatedLetter
  rw [beside.current_eq, beside.oldest?_incoming]
  cases oldestIn : sub.oldest? (.char c) (sub.stateAt sub.current).incoming with
  | none => exact beside
  | some into =>
      simp only [Option.map_some, shifted]
      rw [beside.oldest?_outgoing]
      cases oldestOut : sub.oldest? (.char c) (sub.stateAt into.source).outgoing with
      | none => exact beside
      | some out => exact beside.looped (wired.oldest_lt oldestIn).1 (wired.oldest_lt oldestOut).2 c

theorem image_eq (p : Nat) : image n.stateCount n.current start p =
    host.stateCount + image sub.stateCount sub.current start p := by
  rw [image, image, beside.stateCount_eq, beside.current_eq]
  split
  · rfl
  · split <;> omega

theorem adopted (wired : sub.Wired) (start_lt : start < x.stateCount) :
    Beside origin host (sub.adopted x start) (n.adopted x start) := by
  have current_lt := wired.current_lt
  have current_in : n.current < n.stateCount := by
    rw [beside.stateCount_eq, beside.current_eq]
    omega
  exact {
    stateCount_eq := by
      rw [stateCount_adopted start_lt, stateCount_adopted start_lt, beside.stateCount_eq,
        Nat.add_assoc]
    size_eq := beside.size_eq
    state := by
      intro q
      rw [stateAt_adopted current_in start_lt, stateAt_adopted current_lt start_lt,
        beside.stateCount_eq, beside.current_eq, beside.state]
      simp only [Nat.add_lt_add_iff_left, Nat.add_left_cancel_iff, Nat.add_sub_add_left]
      split
      · split <;> rfl
      · simp [settled, show q ≠ 0 by omega]
    transition := beside.transition
    old_state := by
      intro q q_lt
      rw [stateAt_adopted current_in start_lt, beside.stateCount_eq, beside.current_eq,
        if_pos (by omega), if_neg (by omega)]
      exact beside.old_state q q_lt
    old_transition := beside.old_transition
    current_eq := beside.current_eq
    start_eq := beside.start_eq }

theorem moved_eq (members : List (Nat × Transition)) :
    moved (image n.stateCount n.current start) members =
      (moved (image sub.stateCount sub.current start) members).map host.shifted := by
  simp [moved, shifted, beside.image_eq]

theorem imported (wired : sub.Wired) (xWired : x.Wired) (start_lt : start < x.stateCount) :
    Beside origin host (sub.imported x start) (n.imported x start) := by
  rw [Nfa.imported, Nfa.imported, beside.moved_eq]
  exact (beside.adopted wired start_lt).connectedAll (wired.connects_imported xWired start_lt)

theorem handedOver (j_lt : j < sub.stateCount) (exits_lt : ∀ q ∈ exits, q < sub.stateCount) :
    Beside origin host (sub.handedOver j exits)
      (n.handedOver (host.stateCount + j) (exits.map (host.stateCount + ·))) := by
  induction exits generalizing sub n with
  | nil => exact beside
  | cons q rest ih =>
      have q_lt := exits_lt q (by simp)
      refine ih ((beside.marked q_lt false).connected (by rwa [stateCount_marked])
        (by rwa [stateCount_marked])) (by simpa using j_lt) fun r member => ?_
      simpa using exits_lt r (by simp [member])

theorem joined (exits_lt : ∀ q ∈ exits, q < sub.stateCount) :
    Beside origin host (sub.joined exits) (n.joined (exits.map (host.stateCount + ·))) := by
  rw [Nfa.joined, Nfa.joined, beside.stateCount_eq]
  exact (beside.grown.handedOver (by simp) (lt_grown exits_lt)).marked (by simp) true

theorem spliced (wired : sub.Wired) (xWired : x.Wired) (start_lt : start < x.stateCount) :
    Beside origin host (sub.spliced x start).1 (n.spliced x start).1 := by
  have imported := beside.imported wired xWired start_lt
  have exits_lt := places_accepting (places_imported wired.current_lt start_lt)
  unfold Nfa.spliced exited
  match exits : x.acceptingStates with
  | [] =>
      simp only [beside.image_eq]
      exact imported.withCurrent _
  | [exit] =>
      simp only [beside.image_eq]
      exact imported.withCurrent _
  | first :: second :: rest =>
      rw [exits] at exits_lt
      have joined := (imported.joined exits_lt).withCurrent (sub.imported x start).stateCount
      rw [List.map_map, ← imported.stateCount_eq] at joined
      simpa only [Function.comp_def, ← beside.image_eq] using joined

theorem fragment_eq (wired : sub.Wired) (xWired : x.Wired) (start_lt : start < x.stateCount) :
    (n.spliced x start).2 = host.hosted (sub.spliced x start).2 := by
  have exit := (beside.spliced wired xWired start_lt).current_eq
  show (⟨n.current, (n.spliced x start).1.current, departures start n.transitions.size x.linked⟩ :
    Fragment) = _
  rw [exit, beside.current_eq, beside.size_eq, departures_shifted]
  rfl

theorem copies_eq (edges : List Nat) : n.copies (host.stateCount + exit)
    (edges.map (host.width + ·)) = (sub.copies exit edges).map host.shifted := by
  rw [copies, copies, List.filterMap_map, List.map_filterMap]
  refine congrArg (List.filterMap · edges) (funext fun id => ?_)
  simp only [Function.comp_apply, beside.transition]
  cases sub.transitions[id]? <;> rfl

theorem repeated (wired : sub.Wired) (valid : sub.HasFragment fragment) :
    Beside origin host (sub.repeated fragment) (n.repeated (host.hosted fragment)) := by
  rw [Nfa.repeated, Nfa.repeated, hosted, beside.copies_eq]
  exact (beside.marked valid.1 true).connectedAll (wired.connects_repeated valid)

end Beside

end RegexAutomaton.Nfa
