import RegexAutomaton.Proofs.Factors

namespace RegexAutomaton.Nfa

variable {n m sub : Nfa} {stars q r a b : Nat} {s : Symbol} {word : List Char}

/-- What splicing relies on: nothing leads back to the start, something leads away
from it, and another state accepts. -/
structure Spliceable (sub : Nfa) (start : Nat) : Prop where
  wired : sub.Wired
  attached : sub.start = some start
  unreached (a : Nat) (s : Symbol) : ¬ sub.Step a s start
  leads : ∃ s b, sub.Step start s b
  ends : ∃ q, q ≠ start ∧ sub.Accepting q

/-- For a factor, an only accepting state has to be the end of all paths as well. -/
structure Attachable (sub : Nfa) (start : Nat) : Prop extends Spliceable sub start where
  stuck {q : Nat} : sub.acceptingStates = [q] → ∀ s b, ¬ sub.Step q s b

/-- The place of a state of `sub` in the host. -/
def placeIn (n : Nfa) (start : Nat) : Nat → Nat :=
  image n.stateCount n.current start

def placedSteps (n sub : Nfa) (start : Nat) : Steps := fun a s b =>
  ∃ p q, sub.Step p s q ∧ a = placeIn n start p ∧ b = placeIn n start q

def groupSteps (n sub : Nfa) (start : Nat) : Steps := fun a s b =>
  placedSteps n sub start a s b ∨
    2 ≤ sub.acceptingStates.length ∧ a ∈ sub.acceptingStates.map (placeIn n start) ∧
      s = .epsilon ∧ b = (n.imported sub start).stateCount

def groupCopies (n sub : Nfa) (start : Nat) (s : Symbol) (b : Nat) : Prop :=
  ∃ q, sub.Step start s q ∧ b = placeIn n start q

variable {start : Nat}

@[simp] theorem placeIn_start : placeIn n start start = n.current :=
  image_start

theorem placeIn_injective (wired : n.Wired) {p q : Nat}
    (same : placeIn n start p = placeIn n start q) : p = q :=
  image_injective wired.current_lt same

theorem placeIn_fresh {p : Nat} (other : p ≠ start) : n.stateCount ≤ placeIn n start p :=
  image_fresh other

theorem placeIn_cases (n : Nfa) (start p : Nat) :
    placeIn n start p = n.current ∨ n.stateCount ≤ placeIn n start p := by
  by_cases first : p = start
  · exact .inl (first ▸ placeIn_start)
  · exact .inr (placeIn_fresh first)

/-- A group leads on from its entry and from fresh states only. -/
theorem groupSteps_source (inside : groupSteps n sub start a s b) :
    a = n.current ∨ n.stateCount ≤ a := by
  rcases inside with ⟨p, q, _, rfl, _⟩ | ⟨_, member, _⟩
  · exact placeIn_cases n start p
  · obtain ⟨p, _, rfl⟩ := List.mem_map.mp member
    exact placeIn_cases n start p

theorem groupSteps_of_copies (copy : groupCopies n sub start s b) :
    groupSteps n sub start n.current s b := by
  obtain ⟨q, step, rfl⟩ := copy
  exact .inl ⟨start, q, step, placeIn_start.symm, rfl⟩

/-- A spliced automaton ends in its only accepting state, or in the join. -/
theorem spliced_cases (n : Nfa) (start : Nat) (ends : ∃ q, sub.Accepting q) :
    (∃ exit, sub.acceptingStates = [exit] ∧ (n.spliced sub start).1 =
      { n.imported sub start with current := placeIn n start exit }) ∨
    2 ≤ sub.acceptingStates.length ∧ (n.spliced sub start).1 =
      { (n.imported sub start).joined (sub.acceptingStates.map (placeIn n start)) with
        current := (n.imported sub start).stateCount } := by
  obtain ⟨q, accepting⟩ := ends
  have member := mem_acceptingStates.mpr accepting
  unfold spliced exited
  match exits : sub.acceptingStates with
  | [] =>
      rw [exits] at member
      cases member
  | [exit] => exact .inl ⟨exit, rfl, by simp [placeIn]⟩
  | first :: second :: rest => exact .inr ⟨by simp, by simp [placeIn]⟩

namespace Spliceable

variable (spliceable : Spliceable sub start) (wired : n.Wired)

include spliceable

theorem start_lt : start < sub.stateCount :=
  spliceable.wired.start_lt spliceable.attached

theorem exit_fresh : n.stateCount ≤ (n.spliced sub start).1.current := by
  obtain ⟨q, other, accepting⟩ := spliceable.ends
  rcases spliced_cases n start ⟨q, accepting⟩ with
    ⟨exit, single, result⟩ | ⟨several, result⟩
  · have member := mem_acceptingStates.mpr accepting
    rw [single, List.mem_singleton] at member
    subst member
    rw [result]
    exact placeIn_fresh other
  · rw [result]
    show n.stateCount ≤ (n.imported sub start).stateCount
    rw [stateCount_imported spliceable.start_lt]
    omega

/-- A group leads from its entry to fresh states only. -/
theorem groupSteps_fresh (inside : groupSteps n sub start a s b) : n.stateCount ≤ b := by
  rcases inside with ⟨p, q, step, _, rfl⟩ | ⟨_, _, _, rfl⟩
  · exact placeIn_fresh fun first => spliceable.unreached p s (first ▸ step)
  · rw [stateCount_imported spliceable.start_lt]
    omega

include wired

theorem place_lt {p : Nat} (known : p < sub.stateCount) :
    placeIn n start p < (n.imported sub start).stateCount := by
  rw [stateCount_imported spliceable.start_lt]
  exact image_lt wired.current_lt spliceable.start_lt known

theorem placed_lt (placed : placedSteps n sub start a s b) :
    a < (n.imported sub start).stateCount ∧ b < (n.imported sub start).stateCount := by
  obtain ⟨p, q, step, rfl, rfl⟩ := placed
  have known := spliceable.wired.step_lt step
  exact ⟨spliceable.place_lt wired known.1, spliceable.place_lt wired known.2⟩

theorem step_imported : (n.imported sub start).Step a s b ↔
    n.Step a s b ∨ placedSteps n sub start a s b :=
  Nfa.step_imported wired spliceable.wired spliceable.start_lt

theorem exits_lt : ∀ q ∈ sub.acceptingStates.map (placeIn n start),
    q < (n.imported sub start).stateCount := by
  intro q member
  obtain ⟨p, accepting, rfl⟩ := List.mem_map.mp member
  exact spliceable.place_lt wired (lt_of_accepting (mem_acceptingStates.mp accepting))

theorem step_spliced : (n.spliced sub start).1.Step a s b ↔
    n.Step a s b ∨ groupSteps n sub start a s b := by
  obtain ⟨q, _, accepting⟩ := spliceable.ends
  rcases spliced_cases n start ⟨q, accepting⟩ with
    ⟨exit, single, result⟩ | ⟨several, result⟩
  · rw [result, step_current, spliceable.step_imported wired, groupSteps, single]
    simp
  · rw [result, step_current, step_joined (wired.imported spliceable.wired spliceable.start_lt)
      (spliceable.exits_lt wired), spliceable.step_imported wired, or_assoc, groupSteps]
    simp [several]

/-- Only the exit of a spliced automaton accepts, beside the old states other
than its entry. -/
theorem accepting_spliced : (n.spliced sub start).1.Accepting r ↔
    r = (n.spliced sub start).1.current ∨
      r < n.stateCount ∧ r ≠ n.current ∧ n.Accepting r := by
  obtain ⟨q, _, accepting⟩ := spliceable.ends
  rw [Nfa.accepting_spliced wired spliceable.wired spliceable.start_lt]
  exact or_congr (and_iff_left ⟨q, accepting⟩) Iff.rfl

/-- What leaves the entry of a group is copied, but for an epsilon to the join. -/
theorem groupSteps_entry (inside : groupSteps n sub start n.current s b) :
    groupCopies n sub start s b ∨ s = .epsilon ∧ b = (n.spliced sub start).1.current := by
  rcases inside with ⟨p, q, step, same, rfl⟩ | ⟨several, _, reads, target⟩
  · obtain rfl : start = p := placeIn_injective wired (placeIn_start.trans same)
    exact .inl ⟨q, step, rfl⟩
  · obtain ⟨q, _, accepting⟩ := spliceable.ends
    rcases spliced_cases n start ⟨q, accepting⟩ with
      ⟨exit, single, _⟩ | ⟨_, result⟩
    · simp [single] at several
    · refine .inr ⟨reads, ?_⟩
      rw [target, result]

end Spliceable

/-- No step of the group leads on from its exit. -/
theorem Attachable.exit_stuck (attachable : Attachable sub start) (wired : n.Wired)
    (inside : groupSteps n sub start a s b) : a ≠ (n.spliced sub start).1.current := by
  obtain ⟨q, _, accepting⟩ := attachable.ends
  rcases spliced_cases n start ⟨q, accepting⟩ with
    ⟨exit, single, result⟩ | ⟨several, result⟩
  · rw [result]
    intro same
    subst same
    rcases inside with ⟨p, q, step, same, _⟩ | ⟨several, _⟩
    · obtain rfl : exit = p := placeIn_injective wired same
      exact attachable.stuck single s q step
    · simp [single] at several
  · rw [result]
    intro same
    subst same
    rcases inside with placed | ⟨_, member, _⟩
    · exact absurd (attachable.placed_lt wired placed).1 (Nat.lt_irrefl _)
    · exact absurd (attachable.exits_lt wired _ member) (Nat.lt_irrefl _)

theorem Factor.group (attachable : Attachable sub start) (wired : n.Wired) :
    Factor n (n.spliced sub start).1 (groupSteps n sub start) (groupCopies n sub start) 0 where
  step_iff := by simp [attachable.step_spliced wired]
  source inside := ⟨groupSteps_source inside, attachable.exit_stuck wired inside⟩
  target := attachable.groupSteps_fresh
  copied := groupSteps_of_copies
  covered := attachable.groupSteps_entry wired
  exit_fresh := attachable.exit_fresh
  accepting_iff := by simp [attachable.accepting_spliced wired]

theorem spells_placedSteps (wired : n.Wired) :
    Spells (placedSteps n sub start) n.current word r ↔
      ∃ q, r = placeIn n start q ∧ Spells sub.Step start word q := by
  have spells : Spells (placedSteps n sub start) (placeIn n start start) word r ↔
      ∃ q, r = placeIn n start q ∧ Spells sub.Step start word q :=
    spells_placed Iff.rfl (placeIn_injective wired)
  rwa [placeIn_start] at spells

/-- What leads through the group are the words of the automaton it stems from. -/
theorem words_groupSteps (spliceable : Spliceable sub start) (wired : n.Wired) :
    words (groupSteps n sub start) n.current (n.spliced sub start).1.current = sub.language := by
  ext word
  have spoken : word ∈ sub.language ↔ ∃ q, sub.Accepting q ∧ Spells sub.Step start word q := by
    simp [mem_language_iff, spliceable.attached, mem_words]
  rw [spoken, mem_words]
  obtain ⟨q, other, accepting⟩ := spliceable.ends
  rcases spliced_cases n start ⟨q, accepting⟩ with
    ⟨exit, single, result⟩ | ⟨several, result⟩
  · have only : ∀ {r}, sub.Accepting r ↔ r = exit := by
      intro r
      rw [← mem_acceptingStates, single, List.mem_singleton]
    have same : ∀ {a s b}, groupSteps n sub start a s b ↔ placedSteps n sub start a s b := by
      simp [groupSteps, single]
    rw [result]
    show Spells _ _ _ (placeIn n start exit) ↔ _
    apply Iff.intro
    · intro spells
      obtain ⟨r, place, inside⟩ := (spells_placedSteps wired).mp (spells.mono same.mp)
      exact ⟨r, only.mpr (placeIn_injective wired place.symm), inside⟩
    · intro accepted
      obtain ⟨r, accepting, inside⟩ := accepted
      exact ((spells_placedSteps wired).mpr ⟨r, by rw [only.mp accepting], inside⟩).mono same.mpr
  · rw [result]
    show Spells _ _ _ (n.imported sub start).stateCount ↔ _
    have bounded : ∀ {a s b}, placedSteps n sub start a s b → a < (n.imported sub start).stateCount ∧
        b < (n.imported sub start).stateCount := spliceable.placed_lt wired
    have joint : ∀ {a s b}, groupSteps n sub start a s b ↔ placedSteps n sub start a s b ∨
        a ∈ sub.acceptingStates.map (placeIn n start) ∧ s = .epsilon ∧
          b = (n.imported sub start).stateCount := by
      simp [groupSteps, several]
    rw [spells_joined joint]
    · apply Iff.intro
      · intro joins
        obtain ⟨r, member, spells⟩ := joins
        obtain ⟨p, accepting, rfl⟩ := List.mem_map.mp member
        obtain ⟨r, place, inside⟩ := (spells_placedSteps wired).mp spells
        obtain rfl := placeIn_injective wired place
        exact ⟨p, mem_acceptingStates.mp accepting, inside⟩
      · intro accepted
        obtain ⟨r, accepting, inside⟩ := accepted
        exact ⟨_, List.mem_map_of_mem (mem_acceptingStates.mpr accepting),
          (spells_placedSteps wired).mpr ⟨r, rfl, inside⟩⟩
    · intro a s step
      exact Nat.lt_irrefl _ (bounded step).2
    · intro s b step
      rcases step with step | ⟨_, member, _⟩
      · exact Nat.lt_irrefl _ (bounded step).1
      · exact Nat.lt_irrefl _ (spliceable.exits_lt wired _ member)
    · have known := spliceable.place_lt wired spliceable.start_lt
      rw [placeIn_start] at known
      exact Nat.ne_of_lt known

/-- The edges of the fragment are the given ones. -/
def EdgesAre (m : Nfa) (edges : List Nat) (copies : Symbol → Nat → Prop) : Prop :=
  ∀ {s b}, (∃ id ∈ edges, ∃ t, m.transitions[id]? = some t ∧ t.symbol = s ∧ t.target = b) ↔
    copies s b

theorem edgesAre_spliced (wired : sub.Wired) :
    EdgesAre (n.spliced sub start).1 (n.spliced sub start).2.edges (groupCopies n sub start) :=
  wired.edges_spliced

theorem EdgesAre.repeated {fragment : Fragment} {copies : Symbol → Nat → Prop}
    (edges : EdgesAre m fragment.edges copies) (valid : m.HasFragment fragment) :
    EdgesAre (m.repeated fragment) fragment.edges copies := by
  have same : ∀ id ∈ fragment.edges,
      (m.repeated fragment).transitions[id]? = m.transitions[id]? := by
    intro id member
    rw [Nfa.repeated, transitions_connectedAll, transitions_marked,
      Array.getElem?_append_left (valid.2.2 id member)]
  intro s b
  rw [← edges]
  apply Iff.intro
  · intro edge
    obtain ⟨id, member, rest⟩ := edge
    exact ⟨id, member, by rwa [same id member] at rest⟩
  · intro edge
    obtain ⟨id, member, rest⟩ := edge
    exact ⟨id, member, by rwa [same id member]⟩

theorem Factor.repeatFragment {fragment : Fragment} {inner : Steps}
    {copies : Symbol → Nat → Prop} (factor : Factor n m inner copies stars) (kept : m.Wired)
    (valid : m.HasFragment fragment) (entry : fragment.entry = n.current)
    (exit : fragment.exit = m.current) (edges : EdgesAre m fragment.edges copies) :
    Factor n (m.repeated fragment) inner copies (stars + 1) := by
  have current : (m.repeated fragment).current = m.current := by simp [Nfa.repeated]
  exact {
    step_iff := by
      intro a s b
      rw [step_repeated kept valid, factor.step_iff, current, exit, edges]
      grind
    source := fun inside => by
      rw [current]
      exact factor.source inside
    target := factor.target
    copied := factor.copied
    covered := fun inside => by
      rw [current]
      exact factor.covered inside
    exit_fresh := by
      rw [current]
      exact factor.exit_fresh
    accepting_iff := by
      intro r
      rw [accepting_repeated kept valid, factor.accepting_iff, current, entry]
      grind }

end RegexAutomaton.Nfa
