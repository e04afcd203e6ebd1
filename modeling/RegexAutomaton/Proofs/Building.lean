import RegexAutomaton.Nfa.Construction
import RegexAutomaton.Proofs.Wiring

namespace RegexAutomaton.Nfa

variable {n : Nfa} {q r a b id source target origin : Nat} {symbol s : Symbol} {t : Transition}
  {c : Char}

@[simp] theorem ok_bind {ε α β : Type} (value : α) (next : α → Except ε β) :
    (Except.ok value >>= next) = next value := rfl

@[simp] theorem error_bind {ε α β : Type} (error : ε) (next : α → Except ε β) :
    (Except.error error >>= next) = .error error := rfl

theorem exists_of_bind {ε α β : Type} {first : Except ε α} {next : α → Except ε β} {value : β}
    (done : first >>= next = .ok value) : ∃ a, first = .ok a ∧ next a = .ok value := by
  cases first with
  | error => cases done
  | ok a => exact ⟨a, rfl, done⟩

/-- A fold of steps that all have outcomes under an invariant, which they keep. -/
theorem foldlM_eq {ε α β : Type} {step : β → α → Except ε β} {value : β → α → β}
    (invariant : β → Prop) (list : List α)
    (steps : ∀ acc, invariant acc → ∀ x ∈ list,
      step acc x = .ok (value acc x) ∧ invariant (value acc x)) :
    ∀ acc, invariant acc →
      list.foldlM step acc = .ok (list.foldl value acc) ∧ invariant (list.foldl value acc) := by
  induction list with
  | nil => exact fun acc holds => ⟨rfl, holds⟩
  | cons x rest ih =>
      intro acc holds
      obtain ⟨head, kept⟩ := steps acc holds x (by simp)
      have tail := ih (fun acc holds y member => steps acc holds y (by simp [member])) _ kept
      simpa only [List.foldlM_cons, head, ok_bind, List.foldl_cons] using tail

/-- The automaton after its current path has been extended by `c`. -/
def extended (n : Nfa) (c : Char) : Nfa :=
  { ((n.grown.connected n.current (.char c) n.stateCount).marked n.stateCount true).marked
      n.current false with current := n.stateCount }

@[simp] theorem stateCount_extended : (n.extended c).stateCount = n.stateCount + 1 := by
  rw [extended, stateCount_current, stateCount_marked, stateCount_marked, stateCount_connected,
    stateCount_grown]

@[simp] theorem start_extended : (n.extended c).start = n.start := by
  simp [extended]

@[simp] theorem transitions_extended : (n.extended c).transitions =
    n.transitions.push { symbol := .char c, source := n.current, target := n.stateCount } := by
  simp [extended]

@[simp] theorem current_extended : (n.extended c).current = n.stateCount := by
  simp [extended]

theorem stateAt_extended (current_lt : n.current < n.stateCount) : (n.extended c).stateAt q = {
    accepting := if q = n.current then false else if q = n.stateCount then true
      else (n.stateAt q).accepting
    outgoing := (n.stateAt q).outgoing ++ if q = n.current then [n.transitions.size] else []
    incoming := (n.stateAt q).incoming ++
      if q = n.stateCount then [n.transitions.size] else [] } := by
  have current_in : n.current < n.grown.stateCount := by
    rw [stateCount_grown]
    omega
  have last : n.stateCount < n.grown.stateCount := by
    rw [stateCount_grown]
    exact Nat.lt_succ_self _
  have connected : (n.grown.connected n.current (.char c) n.stateCount).stateAt q = _ :=
    stateAt_connected current_in last
  rw [stateAt_grown] at connected
  ext1
  · rw [extended, stateAt_current, marked_accepting (by simpa using current_in),
      marked_accepting (by simp), connected]
  · rw [extended, stateAt_current, marked_outgoing (by simpa using current_in),
      marked_outgoing (by simp), connected]
    rfl
  · rw [extended, stateAt_current, marked_incoming (by simpa using current_in),
      marked_incoming (by simp), connected]
    rfl

/-- Extension overwrites the acceptance of the old end of the path. -/
theorem extended_marked (current_lt : n.current < n.stateCount) (accepting : Bool) (c : Char) :
    (n.marked n.current accepting).extended c = n.extended c := by
  apply eq_of_stateAt
  · simp
  · intro q
    rw [stateAt_extended (by simpa using current_lt), stateAt_extended current_lt,
      marked_outgoing current_lt, marked_incoming current_lt, marked_accepting current_lt]
    by_cases here : q = n.current <;> simp [here]
  · simp
  · simp
  · simp

theorem concatenate_eq (current_lt : n.current < n.stateCount) (c : Char) :
    (n.concatenate c).outcome =
      .ok (n.extended c, ⟨n.current, n.stateCount, [n.transitions.size]⟩) := by
  simp only [concatenate, addState_eq, Traced.outcome_bind, Traced.outcome_lift,
    Traced.outcome_emit, Traced.outcome_pure]
  rw [addTransition_eq (by rw [stateCount_grown]; omega) (by simp), ok_bind]
  rw [setAccepting_eq (by simp), ok_bind]
  rw [setAccepting_eq (by simp; omega), ok_bind]
  rfl

theorem Wired.extended (wired : n.Wired) (c : Char) : (n.extended c).Wired := by
  have current_lt := wired.current_lt
  refine Wired.withCurrent (Wired.marked (Wired.marked (wired.grown.connected ?_ ?_) ?_ _) ?_ _) ?_
  all_goals simp
  all_goals omega

theorem step_extended (wired : n.Wired) : (n.extended c).Step a s b ↔
    n.Step a s b ∨ a = n.current ∧ s = .char c ∧ b = n.stateCount := by
  have current_lt := wired.current_lt
  rw [extended, step_current, step_marked (by simp; omega), step_marked (by simp),
    step_connected wired.grown (by simp; omega) (by simp), step_grown]

theorem accepting_extended (wired : n.Wired) : (n.extended c).Accepting r ↔
    r = n.stateCount ∨ r ≠ n.current ∧ n.Accepting r := by
  have current_lt := wired.current_lt
  rw [accepting_iff, accepting_iff, extended, stateAt_current, marked_accepting (by simp; omega),
    marked_accepting (by simp), stateAt_connected (by simp; omega) (by simp), stateAt_grown]
  grind

/-- The automaton after a fresh alternative has been opened at `origin`. -/
def branched (n : Nfa) (origin : Nat) : Nfa :=
  { n.grown.connected origin .epsilon n.stateCount with current := n.stateCount }

@[simp] theorem stateCount_branched : (n.branched origin).stateCount = n.stateCount + 1 := by
  rw [branched, stateCount_current, stateCount_connected, stateCount_grown]

theorem branch_eq (origin_lt : origin < n.stateCount) :
    (n.branch origin).outcome = .ok (n.branched origin, n.stateCount) := by
  simp only [branch, addState_eq, Traced.outcome_bind, Traced.outcome_lift,
    Traced.outcome_emit, Traced.outcome_pure]
  rw [addTransition_eq (by rw [stateCount_grown]; omega) (by simp), ok_bind]
  rfl

theorem Wired.branched (wired : n.Wired) (origin_lt : origin < n.stateCount) :
    (n.branched origin).Wired := by
  refine Wired.withCurrent (wired.grown.connected ?_ ?_) ?_
  all_goals simp
  all_goals omega

theorem step_branched (wired : n.Wired) (origin_lt : origin < n.stateCount) :
    (n.branched origin).Step a s b ↔
      n.Step a s b ∨ a = origin ∧ s = .epsilon ∧ b = n.stateCount := by
  rw [branched, step_current, step_connected wired.grown (by simp; omega) (by simp), step_grown]

theorem accepting_branched (origin_lt : origin < n.stateCount) :
    (n.branched origin).Accepting r ↔ n.Accepting r := by
  rw [accepting_iff, accepting_iff, branched, stateAt_current,
    stateAt_connected (by simp; omega) (by simp), stateAt_grown]

/-- The first of the given transitions that reads `symbol`. -/
def oldest? (n : Nfa) (symbol : Symbol) (ids : List Nat) : Option Transition :=
  (ids.filterMap fun id => n.transitions[id]?).find? (·.symbol = symbol)

theorem firstWith_eq {ids : List Nat} (valid : ∀ id ∈ ids, ∃ t, n.transitions[id]? = some t) :
    n.firstWith symbol ids = .ok (n.oldest? symbol ids) := by
  induction ids with
  | nil => rfl
  | cons id rest ih =>
      obtain ⟨t, found⟩ := valid id (by simp)
      have tail := ih fun id member => valid id (by simp [member])
      simp only [firstWith, transition_eq found, ok_bind, oldest?, List.filterMap_cons, found,
        List.find?_cons]
      by_cases reads : t.symbol = symbol
      · simp [reads]
        rfl
      · simp only [reads, ↓reduceIte, decide_false]
        exact tail

theorem firstTarget_eq (wired : n.Wired) (inRange : q < n.stateCount) :
    n.firstTarget q symbol =
      .ok ((n.oldest? symbol (n.stateAt q).outgoing).map (·.target)) := by
  have valid : ∀ id ∈ (n.stateAt q).outgoing, ∃ t, n.transitions[id]? = some t := by
    intro id listed
    obtain ⟨t, found, _⟩ := wired.outgoing_source listed
    exact ⟨t, found⟩
  simp only [firstTarget, state_eq inRange, ok_bind, firstWith_eq valid]
  rfl

theorem firstSource_eq (wired : n.Wired) (inRange : q < n.stateCount) :
    n.firstSource q symbol =
      .ok ((n.oldest? symbol (n.stateAt q).incoming).map (·.source)) := by
  have valid : ∀ id ∈ (n.stateAt q).incoming, ∃ t, n.transitions[id]? = some t := by
    intro id listed
    obtain ⟨t, found, _⟩ := wired.incoming_target listed
    exact ⟨t, found⟩
  simp only [firstSource, state_eq inRange, ok_bind, firstWith_eq valid]
  rfl

theorem oldest?_isSome {ids : List Nat} : (n.oldest? symbol ids).isSome ↔
    ∃ id ∈ ids, ∃ t, n.transitions[id]? = some t ∧ t.symbol = symbol := by
  simp only [oldest?, List.find?_isSome, List.mem_filterMap, decide_eq_true_eq]
  apply Iff.intro
  · intro reading
    obtain ⟨t, ⟨id, member, found⟩, reads⟩ := reading
    exact ⟨id, member, t, found, reads⟩
  · intro reading
    obtain ⟨id, member, t, found, reads⟩ := reading
    exact ⟨t, ⟨id, member, found⟩, reads⟩

theorem oldest?_some {ids : List Nat} (oldest : n.oldest? symbol ids = some t) :
    t.symbol = symbol ∧ ∃ id ∈ ids, n.transitions[id]? = some t := by
  have member := List.mem_of_find?_eq_some oldest
  obtain ⟨id, listed, found⟩ := List.mem_filterMap.mp member
  exact ⟨by simpa using List.find?_some oldest, id, listed, found⟩

theorem lists_iff : n.lists q id = true ↔ id ∈ (n.stateAt q).outgoing := by
  unfold lists stateAt
  cases n.states[q]? <;> simp

theorem mem_linked :
    (id, t) ∈ n.linked ↔ n.transitions[id]? = some t ∧ id ∈ (n.stateAt t.source).outgoing := by
  simp only [linked, List.mem_map, List.mem_filter, lists_iff]
  apply Iff.intro
  · intro entry
    obtain ⟨⟨u, place⟩, ⟨member, listed⟩, same⟩ := entry
    cases same
    exact ⟨by simpa [List.mk_mem_zipIdx_iff_getElem?] using member, listed⟩
  · intro linked
    obtain ⟨found, listed⟩ := linked
    exact ⟨(t, id), ⟨by simpa [List.mk_mem_zipIdx_iff_getElem?] using found, listed⟩, rfl⟩

/-- What is picked from a list in order has increasing places. -/
theorem places_increasing {α : Type} (list : List α) (picked : α × Nat → Bool) :
    ((list.zipIdx.filter picked).map Prod.snd).Pairwise (· < ·) := by
  refine List.Pairwise.sublist (List.filter_sublist.map Prod.snd) ?_
  rw [List.zipIdx_map_snd]
  exact List.pairwise_lt_range'

theorem linked_increasing (n : Nfa) : (n.linked.map Prod.fst).Pairwise (· < ·) := by
  rw [linked, List.map_map]
  exact places_increasing _ _

theorem linkedTransitions_eq (wired : n.Wired) : n.linkedTransitions = .ok n.linked := by
  unfold linkedTransitions
  cases found : n.transitions.find? fun t => decide (n.stateCount ≤ t.source) with
  | none => rfl
  | some t =>
      obtain ⟨id, named⟩ := Array.mem_iff_getElem?.mp (Array.mem_of_find?_eq_some found)
      have beyond := Array.find?_some found
      have inRange := (wired.endpoints_lt named).1
      simp only [decide_eq_true_eq] at beyond
      omega

/-- The automaton after the repetition of a `c` from `source` to `target`. -/
def looped (n : Nfa) (c : Char) (source target : Nat) : Nfa :=
  { (n.marked source true).connected target (.char c) target with current := target }

@[simp] theorem stateCount_looped : (n.looped c source target).stateCount = n.stateCount := by
  rw [looped, stateCount_current, stateCount_connected, stateCount_marked]

theorem Wired.looped (wired : n.Wired) (source_lt : source < n.stateCount)
    (target_lt : target < n.stateCount) (c : Char) : (n.looped c source target).Wired := by
  refine Wired.withCurrent ((wired.marked source_lt true).connected ?_ ?_) ?_
  all_goals simpa using target_lt

theorem step_looped (wired : n.Wired) (source_lt : source < n.stateCount)
    (target_lt : target < n.stateCount) : (n.looped c source target).Step a s b ↔
      n.Step a s b ∨ a = target ∧ s = .char c ∧ b = target := by
  rw [looped, step_current, step_connected (wired.marked source_lt true) (by simpa using target_lt)
    (by simpa using target_lt), step_marked source_lt]

theorem accepting_looped (source_lt : source < n.stateCount) (target_lt : target < n.stateCount) :
    (n.looped c source target).Accepting r ↔ r = source ∨ n.Accepting r := by
  rw [accepting_iff, accepting_iff, looped, stateAt_current,
    stateAt_connected (by simpa using target_lt) (by simpa using target_lt),
    marked_accepting source_lt]
  grind

/-- Marking a state changes no lookup. -/
theorem oldest?_marked {ids : List Nat} (accepting : Bool) :
    (n.marked q accepting).oldest? symbol ids = n.oldest? symbol ids := rfl

theorem Wired.step_entering (wired : n.Wired) {into : Transition}
    (oldest : n.oldest? symbol (n.stateAt q).incoming = some into) :
    n.Step into.source symbol q := by
  obtain ⟨reads, id, listed, found⟩ := oldest?_some oldest
  obtain ⟨t, named, leads⟩ := wired.incoming_target listed
  cases found.symm.trans named
  exact step_iff.mpr ⟨id, (wired.mirrored found).mpr (by rwa [leads]), into, found, reads, leads⟩

theorem Wired.step_leaving {out : Transition}
    (oldest : n.oldest? symbol (n.stateAt q).outgoing = some out) :
    n.Step q symbol out.target := by
  obtain ⟨reads, id, listed, found⟩ := oldest?_some oldest
  exact step_iff.mpr ⟨id, listed, out, found, reads, rfl⟩

theorem exists_oldest_of_step (step : n.Step q symbol r) :
    ∃ out, n.oldest? symbol (n.stateAt q).outgoing = some out := by
  obtain ⟨id, listed, t, found, reads, _⟩ := step_iff.mp step
  exact Option.isSome_iff_exists.mp (oldest?_isSome.mpr ⟨id, listed, t, found, reads⟩)

/-- The source of a linked transition finds it among those that leave, so the
second lookup of a repetition never fails. -/
theorem Wired.exists_oldest_leaving (wired : n.Wired) {into : Transition}
    (oldest : n.oldest? symbol (n.stateAt q).incoming = some into) :
    ∃ out, n.oldest? symbol (n.stateAt into.source).outgoing = some out :=
  exists_oldest_of_step (wired.step_entering oldest)

theorem Wired.exists_oldest_entering (wired : n.Wired) (step : n.Step q symbol r) :
    ∃ into, n.oldest? symbol (n.stateAt r).incoming = some into := by
  obtain ⟨id, _, listed, found⟩ := wired.exists_linked step
  exact Option.isSome_iff_exists.mp (oldest?_isSome.mpr ⟨id, listed, _, found, rfl⟩)

theorem Wired.oldest_lt (wired : n.Wired) {ids : List Nat}
    (oldest : n.oldest? symbol ids = some t) :
    t.source < n.stateCount ∧ t.target < n.stateCount := by
  obtain ⟨_, id, _, found⟩ := oldest?_some oldest
  exact wired.endpoints_lt found

/-- The automaton after a repetition, with the two lookups it begins with. -/
def repeatedLetter (n : Nfa) (c : Char) : Nfa :=
  match n.oldest? (.char c) (n.stateAt n.current).incoming with
  | none => n
  | some into =>
      match n.oldest? (.char c) (n.stateAt into.source).outgoing with
      | none => n
      | some out => n.looped c into.source out.target

theorem repeatLetter_absent (wired : n.Wired)
    (absent : n.oldest? (.char c) (n.stateAt n.current).incoming = none) :
    (n.repeatLetter c).outcome = .ok (n, .error (.nothingToRepeat (.char c))) := by
  simp [repeatLetter, firstSource_eq wired wired.current_lt, absent]

theorem repeatLetter_eq (wired : n.Wired) {into out : Transition}
    (oldestIn : n.oldest? (.char c) (n.stateAt n.current).incoming = some into)
    (oldestOut : n.oldest? (.char c) (n.stateAt into.source).outgoing = some out) :
    (n.repeatLetter c).outcome = .ok (n.looped c into.source out.target, .ok ()) := by
  have source_lt := (wired.oldest_lt oldestIn).1
  have target_lt := (wired.oldest_lt oldestOut).2
  simp only [repeatLetter, Traced.outcome_bind, Traced.outcome_lift,
    firstSource_eq wired wired.current_lt, oldestIn, Option.map_some, ok_bind,
    setAccepting_eq source_lt]
  rw [firstTarget_eq (wired.marked source_lt true) (by simpa using source_lt),
    marked_outgoing source_lt, oldest?_marked, oldestOut]
  simp only [Option.map_some, ok_bind, Traced.outcome_bind, Traced.outcome_lift]
  rw [addTransition_eq (by simpa using target_lt) (by simpa using target_lt)]
  rfl

/-- An edge of the letter into the current state is enough: its source has an
edge of the letter, so the second lookup succeeds as well. -/
theorem Wired.exists_looped (wired : n.Wired) {c : Char}
    (present : (n.oldest? (.char c) (n.stateAt n.current).incoming).isSome) :
    ∃ into out, n.oldest? (.char c) (n.stateAt n.current).incoming = some into ∧
      n.oldest? (.char c) (n.stateAt into.source).outgoing = some out ∧
      n.repeatedLetter c = n.looped c into.source out.target := by
  obtain ⟨into, oldestIn⟩ := Option.isSome_iff_exists.mp present
  obtain ⟨out, oldestOut⟩ := wired.exists_oldest_leaving oldestIn
  exact ⟨into, out, oldestIn, oldestOut, by simp [repeatedLetter, oldestIn, oldestOut]⟩

theorem repeatLetter_present (wired : n.Wired) {c : Char}
    (present : (n.oldest? (.char c) (n.stateAt n.current).incoming).isSome) :
    (n.repeatLetter c).outcome = .ok (n.repeatedLetter c, .ok ()) := by
  obtain ⟨into, out, oldestIn, oldestOut, looped⟩ := wired.exists_looped present
  rw [looped]
  exact repeatLetter_eq wired oldestIn oldestOut

/-- A repetition is refused without any change, or made. -/
theorem repeatLetter_exists (wired : n.Wired) (c : Char) :
    (n.oldest? (.char c) (n.stateAt n.current).incoming = none ∧
      (n.repeatLetter c).outcome = .ok (n, .error (.nothingToRepeat (.char c)))) ∨
    ∃ source target, source < n.stateCount ∧ target < n.stateCount ∧
      (n.repeatLetter c).outcome = .ok (n.looped c source target, .ok ()) := by
  cases oldest : n.oldest? (.char c) (n.stateAt n.current).incoming with
  | none => exact .inl ⟨rfl, repeatLetter_absent wired oldest⟩
  | some into =>
      obtain ⟨out, leaving⟩ := wired.exists_oldest_leaving oldest
      exact .inr ⟨into.source, out.target, (wired.oldest_lt oldest).1, (wired.oldest_lt leaving).2,
        repeatLetter_eq wired oldest leaving⟩

end RegexAutomaton.Nfa
