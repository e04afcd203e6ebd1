import Mathlib.Data.List.Sort
import RegexAutomaton.Nfa.Trim
import RegexAutomaton.Proofs.Appending

namespace RegexAutomaton.Nfa

variable {n m sub : Nfa} {a b q r id start source target : Nat} {s : Symbol} {t : Transition}
  {c : Char} {symbols : List Symbol} {list : List Transition}

theorem Path.mono (keeps : ∀ {a s b}, n.Step a s b → m.Step a s b) (path : n.Path q symbols r) :
    m.Path q symbols r := by
  induction path with
  | nil q => exact .nil q
  | cons step _ ih => exact .cons (keeps step) ih

theorem Reaches.mono (keeps : ∀ {a s b}, n.Step a s b → m.Step a s b) (reaches : n.Reaches q r) :
    m.Reaches q r := by
  obtain ⟨symbols, path⟩ := reaches
  exact ⟨symbols, path.mono keeps⟩

theorem Path.last_step (path : n.Path q symbols r) : r = q ∨ ∃ a s, n.Step a s r := by
  induction path with
  | nil => exact .inl rfl
  | cons step _ ih =>
      rcases ih with rfl | entered
      · exact .inr ⟨_, _, step⟩
      · exact .inr entered

theorem Reaches.last_step (reaches : n.Reaches q r) : r = q ∨ ∃ a s, n.Step a s r := by
  obtain ⟨symbols, path⟩ := reaches
  exact path.last_step

theorem Reaches.first_step (reaches : n.Reaches q r) (other : r ≠ q) : ∃ s b, n.Step q s b := by
  obtain ⟨symbols, path⟩ := reaches
  cases path with
  | nil => exact absurd rfl other
  | cons step _ => exact ⟨_, _, step⟩

/-- What leads along placed steps. -/
theorem Reaches.placed {place : Nat → Nat}
    (placed : ∀ {a s b}, sub.Step a s b → n.Step (place a) s (place b))
    (reaches : sub.Reaches q r) : n.Reaches (place q) (place r) := by
  obtain ⟨symbols, path⟩ := reaches
  induction path with
  | nil q => exact .refl n _
  | cons step _ ih => exact (Reaches.of_step (placed step)).trans ih

/-- No path comes back to a state that nothing leads to. -/
theorem Reaches.ne_of_unreached (reaches : n.Reaches q r) (unreached : ∀ a s, ¬ n.Step a s start)
    (other : q ≠ start) : r ≠ start := by
  intro same
  subst same
  rcases reaches.last_step with same | ⟨a, s, step⟩
  · exact other same.symm
  · exact unreached a s step

/-- Every transition of the arena is listed by its source. -/
def AllLinked (n : Nfa) : Prop :=
  ∀ (id : Nat) (t : Transition), n.transitions[id]? = some t → id ∈ (n.stateAt t.source).outgoing

namespace AllLinked

theorem step (linked : n.AllLinked) (found : n.transitions[id]? = some t) :
    n.Step t.source t.symbol t.target :=
  step_iff.mpr ⟨id, linked id t found, t, found, rfl, rfl⟩

theorem mem_outgoing (linked : n.AllLinked) (wired : n.Wired) :
    id ∈ (n.stateAt q).outgoing ↔ ∃ t, n.transitions[id]? = some t ∧ t.source = q := by
  apply Iff.intro
  · exact wired.outgoing_source
  · intro leaving
    obtain ⟨t, found, rfl⟩ := leaving
    exact linked id t found

theorem mem_incoming (linked : n.AllLinked) (wired : n.Wired) :
    id ∈ (n.stateAt q).incoming ↔ ∃ t, n.transitions[id]? = some t ∧ t.target = q := by
  apply Iff.intro
  · exact wired.incoming_target
  · intro entering
    obtain ⟨t, found, rfl⟩ := entering
    exact (wired.mirrored found).mp (linked id t found)

/-- Where all transitions are linked, the arena determines the lists. -/
protected theorem eq (nLinked : n.AllLinked) (mLinked : m.AllLinked) (nWired : n.Wired)
    (mWired : m.Wired) (count : n.stateCount = m.stateCount)
    (transitions : n.transitions = m.transitions)
    (accepting : ∀ q, n.Accepting q ↔ m.Accepting q) (start : n.start = m.start)
    (current : n.current = m.current) : n = m := by
  refine eq_of_stateAt count (fun q => ?_) transitions start current
  ext1
  · rw [Bool.eq_iff_iff, ← accepting_iff, ← accepting_iff]
    exact accepting q
  · refine (nWired.outgoing_increasing q).eq_of_mem_iff (mWired.outgoing_increasing q) fun id => ?_
    rw [nLinked.mem_outgoing nWired, mLinked.mem_outgoing mWired, transitions]
  · refine (nWired.incoming_increasing q).eq_of_mem_iff (mWired.incoming_increasing q) fun id => ?_
    rw [nLinked.mem_incoming nWired, mLinked.mem_incoming mWired, transitions]

/-- All transitions are found when the linked ones are asked for. -/
theorem linked_eq (linked : n.AllLinked) : n.linked.map Prod.snd = n.transitions.toList := by
  rw [Nfa.linked, List.filter_eq_self.mpr, List.map_map]
  · exact List.zipIdx_map_fst 0 _
  · intro entry member
    obtain ⟨t, id⟩ := entry
    rw [List.mk_mem_zipIdx_iff_getElem?] at member
    exact lists_iff.mpr (linked id t (by simpa using member))

theorem new : Nfa.new.AllLinked := by
  intro id t found
  cases found

/-- Appended transitions are linked as well. -/
theorem appends (linked : n.AllLinked) (appends : Appends n m list) : m.AllLinked := by
  intro id t found
  rw [← Array.getElem?_toList, appends.transitions_eq, List.getElem?_append] at found
  rw [appends.outgoing]
  split at found
  · exact List.mem_append_left _ (linked id t (by simpa using found))
  · rename_i beyond
    rw [Array.length_toList] at found beyond
    exact List.mem_append_right _ (mem_named.mpr ⟨Nat.le_of_not_lt beyond, t, found, rfl⟩)

theorem marked (linked : n.AllLinked) (inRange : q < n.stateCount) (accepting : Bool) :
    (n.marked q accepting).AllLinked :=
  linked.appends (.marked inRange accepting)

theorem withCurrent (linked : n.AllLinked) (current : Nat) :
    { n with current }.AllLinked :=
  linked

theorem connected (linked : n.AllLinked) (source_lt : source < n.stateCount)
    (target_lt : target < n.stateCount) : (n.connected source s target).AllLinked :=
  linked.appends (.connected source_lt target_lt)

theorem extended (linked : n.AllLinked) (wired : n.Wired) (c : Char) :
    (n.extended c).AllLinked := by
  have current_lt := wired.current_lt
  refine withCurrent (marked (marked ((linked.appends (.grown n)).connected ?_ ?_) ?_ _) ?_ _) _
  all_goals simp
  all_goals omega

theorem branched (linked : n.AllLinked) {origin : Nat} (origin_lt : origin < n.stateCount) :
    (n.branched origin).AllLinked := by
  refine withCurrent ((linked.appends (.grown n)).connected ?_ ?_) _
  all_goals simp
  all_goals omega

theorem connectedAll (linked : n.AllLinked) (connects : n.Connects list) :
    (n.connectedAll list).AllLinked :=
  linked.appends (.connectedAll connects)

end AllLinked

/-- Every state is reached from the start, nothing leads back to it, and all transitions are
linked. -/
structure Rooted (n : Nfa) (start : Nat) : Prop where
  linked : n.AllLinked
  unreached (a : Nat) (s : Symbol) : ¬ n.Step a s start
  reached : ∀ q < n.stateCount, n.Reaches start q

/-- The state can be left towards an accepting one, if it is not accepting itself. -/
def Ends (n : Nfa) (q : Nat) : Prop :=
  ∃ r, n.Reaches q r ∧ n.Accepting r

theorem Ends.before (ends : n.Ends r) (reaches : n.Reaches q r) : n.Ends q := by
  obtain ⟨last, leads, accepting⟩ := ends
  exact ⟨last, reaches.trans leads, accepting⟩

theorem Ends.of_accepting (accepting : n.Accepting q) : n.Ends q :=
  ⟨q, .refl n q, accepting⟩

theorem Rooted.incoming_start (rooted : n.Rooted start) (wired : n.Wired) :
    (n.stateAt start).incoming = [] := by
  rw [List.eq_nil_iff_forall_not_mem]
  intro id listed
  obtain ⟨t, named, rfl⟩ := wired.incoming_target listed
  exact rooted.unreached _ _ (rooted.linked.step named)

theorem Rooted.trim (rooted : n.Rooted start) (wired : n.Wired) (attached : n.start = some start)
    (ends : ∀ q < n.stateCount, n.Ends q) : n.Trim start where
  attached
  start_lt := wired.start_lt attached
  reached := rooted.reached
  ends
  entered := by
    intro q s found
    have q_lt : q < n.stateCount := (Array.getElem?_eq_some_iff.mp found).1
    rw [← stateAt_of_getElem? found]
    apply Iff.intro
    · intro empty
      rcases (rooted.reached q q_lt).last_step with same | ⟨a, s, step⟩
      · exact same
      · exact absurd empty (wired.incoming_ne_nil step)
    · intro same
      subst same
      exact rooted.incoming_start wired
  linked := by
    intro id t found
    have listed := rooted.linked id t found
    exact ⟨linkedOut_iff.mpr listed, linkedIn_iff.mpr ((wired.mirrored found).mp listed)⟩

/-- Adds only transitions into states that were entered before. -/
structure Widens (n m : Nfa) : Prop where
  stateCount_eq : m.stateCount = n.stateCount
  keeps {a : Nat} {s : Symbol} {b : Nat} : n.Step a s b → m.Step a s b
  entered {a : Nat} {s : Symbol} {b : Nat} : m.Step a s b → ∃ a s, n.Step a s b
  accepting {q : Nat} : n.Accepting q → m.Accepting q
  linked : n.AllLinked → m.AllLinked

namespace Widens

variable (widens : Widens n m)

include widens

theorem reaches (reaches : n.Reaches q r) : m.Reaches q r :=
  reaches.mono widens.keeps

theorem ends (ends : n.Ends q) : m.Ends q := by
  obtain ⟨r, leads, accepting⟩ := ends
  exact ⟨r, widens.reaches leads, widens.accepting accepting⟩

theorem rooted (rooted : n.Rooted start) : m.Rooted start where
  linked := widens.linked rooted.linked
  unreached a s step := by
    obtain ⟨b, u, old⟩ := widens.entered step
    exact rooted.unreached b u old
  reached q q_lt := widens.reaches (rooted.reached q (widens.stateCount_eq ▸ q_lt))

end Widens

theorem Widens.refl (n : Nfa) : Widens n n where
  stateCount_eq := rfl
  keeps := id
  entered step := ⟨_, _, step⟩
  accepting := id
  linked := id

theorem Widens.trans {last : Nfa} (first : Widens n m) (second : Widens m last) : Widens n last where
  stateCount_eq := second.stateCount_eq.trans first.stateCount_eq
  keeps step := second.keeps (first.keeps step)
  entered step := by
    obtain ⟨_, _, step⟩ := second.entered step
    exact first.entered step
  accepting accepts := second.accepting (first.accepting accepts)
  linked linked := second.linked (first.linked linked)

theorem widens_marked (inRange : q < n.stateCount) : Widens n (n.marked q true) where
  stateCount_eq := stateCount_marked true
  keeps step := (step_marked inRange true).mpr step
  entered step := ⟨_, _, (step_marked inRange true).mp step⟩
  accepting accepts := by
    rw [accepting_iff] at accepts ⊢
    rw [marked_accepting inRange]
    split
    · rfl
    · exact accepts
  linked linked := linked.marked inRange true

theorem widens_looped (wired : n.Wired) (source_lt : source < n.stateCount)
    (entered : n.Step a s target) : Widens n (n.looped c source target) where
  stateCount_eq := stateCount_looped
  keeps step := (step_looped wired source_lt (wired.step_lt entered).2).mpr (.inl step)
  entered step := by
    rcases (step_looped wired source_lt (wired.step_lt entered).2).mp step with old | ⟨_, _, rfl⟩
    · exact ⟨_, _, old⟩
    · exact ⟨_, _, entered⟩
  accepting accepts := (accepting_looped source_lt (wired.step_lt entered).2).mpr (.inr accepts)
  linked linked := by
    have target_lt := (wired.step_lt entered).2
    exact AllLinked.connected (linked.marked source_lt true) (by simpa using target_lt)
      (by simpa using target_lt)

theorem widens_repeated {fragment : Fragment} (wired : n.Wired) (linked : n.AllLinked)
    (valid : n.HasFragment fragment) : Widens n (n.repeated fragment) where
  stateCount_eq := stateCount_repeated
  keeps step := (step_repeated wired valid).mpr (.inl step)
  entered step := by
    rcases (step_repeated wired valid).mp step with old | ⟨_, id, _, t, found, _, rfl⟩
    · exact ⟨_, _, old⟩
    · exact ⟨_, _, linked.step found⟩
  accepting accepts := (accepting_repeated wired valid).mpr (.inr accepts)
  linked linked := (linked.marked valid.1 true).connectedAll (wired.connects_repeated valid)

/-- Adds states behind the current one that lead on to accepting ones. -/
structure Prolongs (n m : Nfa) : Prop where
  grows : n.stateCount ≤ m.stateCount
  keeps {a : Nat} {s : Symbol} {b : Nat} : n.Step a s b → m.Step a s b
  fresh {a : Nat} {s : Symbol} {b : Nat} : m.Step a s b → n.Step a s b ∨ n.stateCount ≤ b
  reached : ∀ q < m.stateCount, n.stateCount ≤ q → m.Reaches n.current q
  ends : ∀ q < m.stateCount, q = n.current ∨ n.stateCount ≤ q → m.Ends q
  accepting {q : Nat} : q ≠ n.current → n.Accepting q → m.Accepting q
  linked : n.AllLinked → m.AllLinked
  current_entered : ∃ a s, m.Step a s m.current

namespace Prolongs

variable (prolongs : Prolongs n m)

include prolongs

theorem reaches (reaches : n.Reaches q r) : m.Reaches q r :=
  reaches.mono prolongs.keeps

theorem rooted (wired : n.Wired) (start_lt : start < n.stateCount) (rooted : n.Rooted start) :
    m.Rooted start where
  linked := prolongs.linked rooted.linked
  unreached a s step := by
    rcases prolongs.fresh step with old | beyond
    · exact rooted.unreached a s old
    · omega
  reached q q_lt := by
    by_cases known : q < n.stateCount
    · exact prolongs.reaches (rooted.reached q known)
    · have entry := prolongs.reaches (rooted.reached _ wired.current_lt)
      exact entry.trans (prolongs.reached q q_lt (Nat.le_of_not_lt known))

/-- Whatever had come to an end goes on to one, at least behind the current state. -/
theorem ends_old (wired : n.Wired) (ended : n.Ends q ∨ n.Reaches q n.current) : m.Ends q := by
  have onward := prolongs.ends _ (Nat.lt_of_lt_of_le wired.current_lt prolongs.grows) (.inl rfl)
  rcases ended with ⟨r, leads, accepting⟩ | leads
  · by_cases here : r = n.current
    · exact onward.before (prolongs.reaches (here ▸ leads))
    · exact ⟨r, prolongs.reaches leads, prolongs.accepting here accepting⟩
  · exact onward.before (prolongs.reaches leads)

end Prolongs

theorem prolongs_extended (wired : n.Wired) (c : Char) : Prolongs n (n.extended c) := by
  have added : (n.extended c).Step n.current (.char c) n.stateCount :=
    (step_extended wired).mpr (.inr ⟨rfl, rfl, rfl⟩)
  have accepting : (n.extended c).Accepting n.stateCount := (accepting_extended wired).mpr (.inl rfl)
  have last : ∀ q < (n.extended c).stateCount, n.stateCount ≤ q → q = n.stateCount := by
    intro q q_lt beyond
    rw [stateCount_extended] at q_lt
    omega
  exact {
    grows := by simp
    keeps := fun step => (step_extended wired).mpr (.inl step)
    fresh := by
      intro a s b step
      rcases (step_extended wired).mp step with old | ⟨_, _, rfl⟩
      · exact .inl old
      · exact .inr (Nat.le_refl _)
    reached := by
      intro q q_lt beyond
      rw [last q q_lt beyond]
      exact .of_step added
    ends := by
      intro q q_lt place
      rcases place with rfl | beyond
      · exact ⟨_, .of_step added, accepting⟩
      · rw [last q q_lt beyond]
        exact .of_accepting accepting
    accepting := fun other accepts => (accepting_extended wired).mpr (.inr ⟨other, accepts⟩)
    linked := fun linked => linked.extended wired c
    current_entered := ⟨_, _, added⟩ }

/-- Every fresh place is that of some state. -/
theorem exists_placeIn (start_lt : start < sub.stateCount) (beyond : n.stateCount ≤ r)
    (r_lt : r < (n.imported sub start).stateCount) :
    ∃ p < sub.stateCount, placeIn n start p = r := by
  rw [stateCount_imported start_lt] at r_lt
  by_cases before : r - n.stateCount < start
  · have place : placeIn n start (r - n.stateCount) = r := by
      rw [placeIn, image, if_neg (by omega), if_pos before]
      omega
    exact ⟨_, by omega, place⟩
  · have place : placeIn n start (r - n.stateCount + 1) = r := by
      rw [placeIn, image, if_neg (by omega), if_neg (by omega)]
      omega
    exact ⟨_, by omega, place⟩

theorem AllLinked.spliced (linked : n.AllLinked) (wired : n.Wired)
    (spliceable : Spliceable sub start) : (n.spliced sub start).1.AllLinked :=
  linked.appends (.spliced wired spliceable.wired spliceable.start_lt)

namespace Spliceable

variable (spliceable : Spliceable sub start)

include spliceable

/-- A fresh state is the place of some state, or the join. -/
theorem fresh_cases (beyond : n.stateCount ≤ r) (r_lt : r < (n.spliced sub start).1.stateCount) :
    (∃ p < sub.stateCount, placeIn n start p = r) ∨ r = (n.spliced sub start).1.current := by
  obtain ⟨q, _, accepting⟩ := spliceable.ends
  by_cases placed : r < (n.imported sub start).stateCount
  · exact .inl (exists_placeIn spliceable.start_lt beyond placed)
  · rcases spliced_cases n start ⟨q, accepting⟩ with ⟨exit, _, result⟩ | ⟨_, result⟩
    · rw [result, stateCount_current] at r_lt
      exact absurd r_lt placed
    · rw [result, stateCount_current, stateCount_joined] at r_lt
      rw [result]
      exact .inr (by show r = (n.imported sub start).stateCount; omega)

variable (wired : n.Wired)

include wired

theorem step_place {p : Nat} (step : sub.Step p s q) :
    (n.spliced sub start).1.Step (placeIn n start p) s (placeIn n start q) :=
  (spliceable.step_spliced wired).mpr (.inr (.inl ⟨p, q, step, rfl, rfl⟩))

theorem reaches_place {p : Nat} (reaches : sub.Reaches p q) :
    (n.spliced sub start).1.Reaches (placeIn n start p) (placeIn n start q) :=
  reaches.placed fun step => spliceable.step_place wired step

/-- An accepting state is the exit, or leads to it through an epsilon. -/
theorem reaches_exit (accepting : sub.Accepting q) :
    (n.spliced sub start).1.Reaches (placeIn n start q) (n.spliced sub start).1.current := by
  have member := mem_acceptingStates.mpr accepting
  rcases spliced_cases n start ⟨q, accepting⟩ with ⟨exit, single, result⟩ | ⟨several, result⟩
  · rw [single, List.mem_singleton] at member
    subst member
    rw [result]
    exact .refl _ _
  · have step : (n.spliced sub start).1.Step (placeIn n start q) .epsilon
        (n.imported sub start).stateCount :=
      (spliceable.step_spliced wired).mpr
        (.inr (.inr ⟨several, List.mem_map_of_mem member, rfl, rfl⟩))
    have reaches : (n.spliced sub start).1.Reaches (placeIn n start q)
        (n.imported sub start).stateCount := .of_step step
    rwa [show (n.imported sub start).stateCount = (n.spliced sub start).1.current by rw [result]]
      at reaches

theorem prolongs (rooted : sub.Rooted start) (ends : ∀ q < sub.stateCount, sub.Ends q) :
    Prolongs n (n.spliced sub start).1 := by
  have exit_accepting : (n.spliced sub start).1.Accepting (n.spliced sub start).1.current :=
    (spliceable.accepting_spliced wired).mpr (.inl rfl)
  have from_entry : ∀ {q}, sub.Reaches start q →
      (n.spliced sub start).1.Reaches n.current (placeIn n start q) := by
    intro q reaches
    have placed := spliceable.reaches_place wired reaches
    rwa [placeIn_start] at placed
  have place_ends : ∀ q < sub.stateCount, (n.spliced sub start).1.Ends (placeIn n start q) := by
    intro q q_lt
    obtain ⟨p, reaches, accepting⟩ := ends q q_lt
    exact (Ends.of_accepting exit_accepting).before
      ((spliceable.reaches_place wired reaches).trans (spliceable.reaches_exit wired accepting))
  have entry_to_exit : (n.spliced sub start).1.Reaches n.current (n.spliced sub start).1.current := by
    obtain ⟨q, _, accepting⟩ := spliceable.ends
    exact (from_entry (rooted.reached q (lt_of_accepting accepting))).trans
      (spliceable.reaches_exit wired accepting)
  exact {
    grows := by
      have imported : n.stateCount ≤ (n.imported sub start).stateCount := by
        rw [stateCount_imported spliceable.start_lt]
        omega
      exact imported.trans stateCount_le_exited
    keeps := fun step => (spliceable.step_spliced wired).mpr (.inl step)
    fresh := fun step =>
      ((spliceable.step_spliced wired).mp step).imp_right spliceable.groupSteps_fresh
    reached := by
      intro q q_lt beyond
      rcases spliceable.fresh_cases beyond q_lt with ⟨p, p_lt, rfl⟩ | rfl
      · exact from_entry (rooted.reached p p_lt)
      · exact entry_to_exit
    ends := by
      intro q q_lt place
      rcases place with rfl | beyond
      · have onward := place_ends start spliceable.start_lt
        rwa [placeIn_start] at onward
      · rcases spliceable.fresh_cases beyond q_lt with ⟨p, p_lt, rfl⟩ | rfl
        · exact place_ends p p_lt
        · exact .of_accepting exit_accepting
    accepting := fun other accepts => (spliceable.accepting_spliced wired).mpr
      (.inr ⟨lt_of_accepting accepts, other, accepts⟩)
    linked := fun linked => linked.spliced wired spliceable
    current_entered := by
      rcases entry_to_exit.last_step with same | entered
      · have fresh := spliceable.exit_fresh (n := n)
        have known := wired.current_lt
        omega
      · exact entered }

end Spliceable

end RegexAutomaton.Nfa
