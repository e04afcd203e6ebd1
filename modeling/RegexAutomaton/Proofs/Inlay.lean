import RegexAutomaton.Nfa.Embedding
import RegexAutomaton.Proofs.Growth

namespace RegexAutomaton.Nfa

/-! Building in place is building alone and splicing.

An automaton is inlaid in a host if its start has become the current state of the
host, and everything else of it stands behind the host, in its own order. Every
step of construction keeps this. Splicing inlays an automaton that accepts in its
current state alone, so it makes no difference whether such an automaton has been
spliced in or built on the spot.
-/

variable {n m sub x : Nfa} {start first p r : Nat} {exits : List Nat}

theorem moved_eq_map (place : Nat → Nat) (list : List (Nat × Transition)) :
    moved place list = (list.map Prod.snd).map (relocated place) := by
  rw [moved, List.map_map]
  rfl

theorem placeIn_of_ne (other : p ≠ start) :
    placeIn n start p = n.stateCount + if p < start then p else p - 1 := by
  rw [placeIn, image, if_neg other]
  split <;> omega

/-- Behind the automaton alone, the fresh states are those behind the host. -/
theorem placeIn_beyond (start_lt : start < sub.stateCount) (beyond : sub.stateCount ≤ p) :
    placeIn n start p = n.stateCount + (sub.stateCount - 1) + (p - sub.stateCount) := by
  rw [placeIn_of_ne (by omega), if_neg (by omega)]
  omega

theorem placeIn_ne (old : r < n.stateCount) (other : r ≠ n.current) : r ≠ placeIn n start p := by
  by_cases here : p = start
  · rwa [here, placeIn_start]
  · have fresh := placeIn_fresh (n := n) here
    omega

theorem transitions_imported : (n.imported sub start).transitions.toList =
    n.transitions.toList ++ (sub.linked.map Prod.snd).map (relocated (placeIn n start)) := by
  rw [imported, transitions_connectedAll, transitions_adopted, moved_eq_map]
  simp [placeIn]

theorem accepting_imported_iff (wired : n.Wired) (subWired : sub.Wired)
    (start_lt : start < sub.stateCount) : (n.imported sub start).Accepting r ↔
      (∃ p, sub.Accepting p ∧ r = placeIn n start p) ∨ r ≠ n.current ∧ n.Accepting r := by
  rw [accepting_imported wired subWired start_lt]
  exact or_congr Iff.rfl (and_iff_right_of_imp fun old => lt_of_accepting old.2)

structure Inlaid (n : Nfa) (start : Nat) (sub m : Nfa) : Prop where
  stateCount_eq : m.stateCount = n.stateCount + (sub.stateCount - 1)
  transitions_eq : m.transitions.toList =
    n.transitions.toList ++ sub.transitions.toList.map (relocated (placeIn n start))
  /-- The old states but the current one have kept their acceptance. -/
  accepting_iff {r : Nat} : m.Accepting r ↔ (∃ p, sub.Accepting p ∧ r = placeIn n start p) ∨
    r < n.stateCount ∧ r ≠ n.current ∧ n.Accepting r
  current_eq : m.current = placeIn n start sub.current
  start_eq : m.start = n.start

/-- An automaton that accepts nothing yet overwrites the acceptance of the current
state. -/
theorem inlaid_new (wired : n.Wired) : Inlaid n 0 .new (n.marked n.current false) where
  stateCount_eq := stateCount_marked false
  transitions_eq := by simp [Nfa.new]
  accepting_iff := by
    intro r
    simp only [new_rejects, false_and, exists_false, false_or]
    rw [Nfa.accepting_iff, marked_accepting wired.current_lt]
    by_cases here : r = n.current
    · simp [here]
    · simp only [here, ↓reduceIte, ne_eq, not_false_eq_true, true_and, ← Nfa.accepting_iff]
      exact ⟨fun accepting => ⟨lt_of_accepting accepting, accepting⟩, And.right⟩
  current_eq := (placeIn_start (n := n)).symm
  start_eq := rfl

/-- Splicing inlays what accepts in its current state alone. -/
theorem inlaid_spliced (wired : n.Wired) (subWired : sub.Wired) (attached : sub.start = some start)
    (linked : sub.AllLinked) (only : ∀ q, sub.Accepting q ↔ q = sub.current) :
    Inlaid n start sub (n.spliced sub start).1 := by
  have start_lt := subWired.start_lt attached
  have single : sub.acceptingStates = [sub.current] := by
    refine sub.acceptingStates_increasing.eq_of_mem_iff (List.pairwise_singleton _ _) fun q => ?_
    rw [mem_acceptingStates, only, List.mem_singleton]
  have result : (n.spliced sub start).1 =
      { n.imported sub start with current := placeIn n start sub.current } := by
    simp [spliced, exited, single, placeIn]
  rw [result]
  exact {
    stateCount_eq := stateCount_imported start_lt
    transitions_eq := by
      show (n.imported sub start).transitions.toList = _
      rw [transitions_imported, linked.linked_eq]
    accepting_iff := accepting_imported wired subWired start_lt
    current_eq := rfl
    start_eq := start_imported }

namespace Inlaid

variable (inlaid : Inlaid n start sub m)

include inlaid

/-- What is inlaid is determined by its parts. -/
protected theorem eq {m' : Nfa} (other : Inlaid n start sub m') (mWired : m.Wired)
    (mWired' : m'.Wired) (linked : m.AllLinked) (linked' : m'.AllLinked) : m = m' := by
  refine linked.eq linked' mWired mWired' ?_ ?_ (fun q => ?_) ?_ ?_
  · rw [inlaid.stateCount_eq, other.stateCount_eq]
  · rw [← Array.toList_inj, inlaid.transitions_eq, other.transitions_eq]
  · rw [inlaid.accepting_iff, other.accepting_iff]
  · rw [inlaid.start_eq, other.start_eq]
  · rw [inlaid.current_eq, other.current_eq]

theorem withCurrent (q : Nat) :
    Inlaid n start { sub with current := q } { m with current := placeIn n start q } :=
  { inlaid with current_eq := rfl }

variable (wired : n.Wired) (subWired : sub.Wired) (attached : sub.start = some start)

include subWired attached

theorem placeIn_stateCount : placeIn n start sub.stateCount = m.stateCount := by
  rw [placeIn_beyond (subWired.start_lt attached) (Nat.le_refl _), inlaid.stateCount_eq]
  omega

/-- Places in the automaton alone become places in the host. -/
theorem placeIn_placeIn (p : Nat) :
    placeIn n start (placeIn sub first p) = placeIn m first p := by
  by_cases here : p = first
  · rw [here, placeIn_start, placeIn_start, inlaid.current_eq]
  · have fresh := placeIn_fresh (n := sub) here
    rw [placeIn_beyond (subWired.start_lt attached) fresh, ← inlaid.stateCount_eq,
      placeIn_of_ne here, placeIn_of_ne here]
    omega

theorem placeIn_lt (wired : n.Wired) (known : p < sub.stateCount) :
    placeIn n start p < m.stateCount := by
  rw [inlaid.stateCount_eq]
  exact image_lt wired.current_lt (subWired.start_lt attached) known

omit subWired attached

/-- Outside of some states the host accepts what the automaton alone accepts outside
of theirs. -/
theorem accepting_outside (wired : n.Wired) :
    m.Accepting r ∧ r ∉ exits.map (placeIn n start) ↔
      (∃ p, (sub.Accepting p ∧ p ∉ exits) ∧ r = placeIn n start p) ∨
        r < n.stateCount ∧ r ≠ n.current ∧ n.Accepting r := by
  have outside {p : Nat} : placeIn n start p ∉ exits.map (placeIn n start) ↔ p ∉ exits :=
    (List.mem_map_of_injective fun _ _ => placeIn_injective wired).not
  rw [inlaid.accepting_iff]
  apply Iff.intro
  · intro accepts
    obtain ⟨⟨p, accepting, rfl⟩ | old, elsewhere⟩ := accepts
    · exact .inl ⟨p, ⟨accepting, outside.mp elsewhere⟩, rfl⟩
    · exact .inr old
  · intro accepts
    rcases accepts with ⟨p, ⟨accepting, elsewhere⟩, rfl⟩ | old
    · exact ⟨.inl ⟨p, accepting, rfl⟩, outside.mpr elsewhere⟩
    · refine ⟨.inr old, fun member => ?_⟩
      obtain ⟨p, _, rfl⟩ := List.mem_map.mp member
      exact placeIn_ne old.1 old.2.1 rfl

theorem accepting_apart (wired : n.Wired) : r ≠ m.current ∧ m.Accepting r ↔
    (∃ p, (p ≠ sub.current ∧ sub.Accepting p) ∧ r = placeIn n start p) ∨
      r < n.stateCount ∧ r ≠ n.current ∧ n.Accepting r := by
  have outside : m.Accepting r ∧ r ∉ [sub.current].map (placeIn n start) ↔ _ :=
    inlaid.accepting_outside wired
  simp only [List.map_singleton, List.mem_singleton, ← inlaid.current_eq] at outside
  simpa only [ne_eq, and_comm] using outside

variable (wired : n.Wired)

include wired subWired attached

theorem extended (mWired : m.Wired) (c : Char) :
    Inlaid n start (sub.extended c) (m.extended c) where
  stateCount_eq := by
    have start_lt := subWired.start_lt attached
    rw [stateCount_extended, stateCount_extended, inlaid.stateCount_eq]
    omega
  transitions_eq := by
    have next := inlaid.placeIn_stateCount subWired attached
    simp [inlaid.transitions_eq, inlaid.current_eq, relocated, next]
  accepting_iff := by
    intro r
    rw [accepting_extended mWired, inlaid.accepting_apart wired,
      ← inlaid.placeIn_stateCount subWired attached]
    simp only [accepting_extended subWired, or_and_right, exists_or, exists_eq_left, or_assoc]
  current_eq := by
    rw [current_extended, current_extended, inlaid.placeIn_stateCount subWired attached]
  start_eq := by
    rw [start_extended]
    exact inlaid.start_eq

theorem imported (mWired : m.Wired) (xWired : x.Wired) (first_lt : first < x.stateCount) :
    Inlaid n start (sub.imported x first) (m.imported x first) where
  stateCount_eq := by
    have start_lt := subWired.start_lt attached
    rw [stateCount_imported first_lt, stateCount_imported first_lt, inlaid.stateCount_eq]
    omega
  transitions_eq := by
    have places : relocated (placeIn m first) =
        relocated (placeIn n start) ∘ relocated (placeIn sub first) := by
      funext t
      simp [relocated, inlaid.placeIn_placeIn subWired attached]
    rw [transitions_imported, transitions_imported, inlaid.transitions_eq, places]
    simp
  accepting_iff := by
    intro r
    rw [accepting_imported_iff mWired xWired first_lt, inlaid.accepting_apart wired]
    simp only [accepting_imported_iff subWired xWired first_lt, or_and_right, exists_or, or_assoc]
    refine or_congr ?_ Iff.rfl
    apply Iff.intro
    · intro image
      obtain ⟨k, accepting, rfl⟩ := image
      exact ⟨_, ⟨k, accepting, rfl⟩, (inlaid.placeIn_placeIn subWired attached k).symm⟩
    · intro image
      obtain ⟨_, ⟨k, accepting, rfl⟩, rfl⟩ := image
      exact ⟨k, accepting, inlaid.placeIn_placeIn subWired attached k⟩
  current_eq := by
    rw [current_imported, current_imported, inlaid.current_eq]
  start_eq := by
    rw [start_imported]
    exact inlaid.start_eq

theorem joined (exits_lt : ∀ q ∈ exits, q < sub.stateCount) :
    Inlaid n start (sub.joined exits) (m.joined (exits.map (placeIn n start))) := by
  have placed_lt : ∀ q ∈ exits.map (placeIn n start), q < m.stateCount := by
    intro q member
    obtain ⟨p, inside, rfl⟩ := List.mem_map.mp member
    exact inlaid.placeIn_lt subWired attached wired (exits_lt p inside)
  have next := inlaid.placeIn_stateCount subWired attached
  exact {
    stateCount_eq := by
      have start_lt := subWired.start_lt attached
      rw [stateCount_joined, stateCount_joined, inlaid.stateCount_eq]
      omega
    transitions_eq := by
      rw [transitions_joined, transitions_joined, inlaid.transitions_eq]
      simp [relocated, next]
    accepting_iff := by
      intro r
      rw [accepting_joined placed_lt, inlaid.accepting_outside wired, ← next]
      simp only [accepting_joined exits_lt, or_and_right, exists_or, exists_eq_left, or_assoc]
    current_eq := by
      rw [current_joined, current_joined, inlaid.current_eq]
    start_eq := by
      rw [start_joined]
      exact inlaid.start_eq }

theorem spliced (mWired : m.Wired) (xWired : x.Wired) (first_lt : first < x.stateCount) :
    Inlaid n start (sub.spliced x first).1 (m.spliced x first).1 := by
  have imported := inlaid.imported wired subWired attached mWired xWired first_lt
  have kept := subWired.imported xWired first_lt
  have start_kept : (sub.imported x first).start = some start := start_imported.trans attached
  have place : image m.stateCount m.current first =
      placeIn n start ∘ image sub.stateCount sub.current first := by
    funext p
    exact (inlaid.placeIn_placeIn subWired attached p).symm
  have exits_lt := places_accepting (places_imported subWired.current_lt first_lt)
  unfold Nfa.spliced exited
  rw [place]
  match exits : x.acceptingStates with
  | [] => exact imported.withCurrent _
  | [exit] => exact imported.withCurrent _
  | exit :: other :: rest =>
      rw [exits] at exits_lt
      have joined := imported.joined wired kept start_kept exits_lt
      have moved := joined.withCurrent (sub.imported x first).stateCount
      rwa [imported.placeIn_stateCount kept start_kept, List.map_map] at moved

end Inlaid

end RegexAutomaton.Nfa
