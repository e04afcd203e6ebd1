import RegexAutomaton.Nfa.Consistent
import RegexAutomaton.Nfa.Path

attribute [ext] RegexAutomaton.State

namespace RegexAutomaton.Nfa

/-- Total: a state that does not exist lists nothing and does not accept. -/
def stateAt (n : Nfa) (q : Nat) : State :=
  n.states[q]?.getD {}

def grown (n : Nfa) : Nfa :=
  { n with states := n.states.push {} }

def changed (n : Nfa) (q : Nat) (change : State → State) : Nfa :=
  { n with states := n.states.modify q change }

def marked (n : Nfa) (q : Nat) (accepting : Bool) : Nfa :=
  n.changed q (·.setAccepting accepting)

def connected (n : Nfa) (source : Nat) (symbol : Symbol) (target : Nat) : Nfa :=
  ({ n with transitions := n.transitions.push { symbol, source, target } }.changed source
    (·.addOutgoing n.transitions.size)).changed target (·.addIncoming n.transitions.size)

variable {n m : Nfa} {q r id source target : Nat} {symbol : Symbol} {t : Transition}

theorem getElem?_states (inRange : q < n.stateCount) : n.states[q]? = some (n.stateAt q) := by
  simp [stateAt, Array.getElem?_eq_getElem (show q < n.states.size from inRange)]

theorem stateAt_of_getElem? {s : State} (found : n.states[q]? = some s) : n.stateAt q = s := by
  simp [stateAt, found]

theorem stateAt_beyond (beyond : n.stateCount ≤ q) : n.stateAt q = {} := by
  simp [stateAt, Array.getElem?_eq_none (show n.states.size ≤ q from beyond)]

/-- Automata with the same states agree if the rest does. -/
theorem eq_of_stateAt (count : n.stateCount = m.stateCount)
    (states : ∀ q, n.stateAt q = m.stateAt q) (transitions : n.transitions = m.transitions)
    (start : n.start = m.start) (current : n.current = m.current) : n = m := by
  have same : n.states = m.states := by
    apply Array.ext count
    intro q first second
    have viewed := states q
    rwa [stateAt, stateAt, Array.getElem?_eq_getElem first, Array.getElem?_eq_getElem second]
      at viewed
  cases n
  cases m
  simp_all

theorem state_eq (inRange : q < n.stateCount) : n.state q = .ok (n.stateAt q) := by
  simp [state, getElem?_states inRange]

theorem transition_eq (found : n.transitions[id]? = some t) : n.transition id = .ok t := by
  simp [transition, found]

theorem modifyState_eq (inRange : q < n.stateCount) (change : State → State) :
    n.modifyState q change = .ok (n.changed q change) := by
  simp [modifyState, inRange, changed]

theorem setAccepting_eq (inRange : q < n.stateCount) (accepting : Bool) :
    n.setAccepting q accepting = .ok (n.marked q accepting) :=
  modifyState_eq inRange _

theorem addState_eq (n : Nfa) : n.addState = (n.grown, n.stateCount) :=
  rfl

@[simp] theorem stateCount_grown : n.grown.stateCount = n.stateCount + 1 := by
  simp [grown, stateCount]

@[simp] theorem stateCount_changed (change : State → State) :
    (n.changed q change).stateCount = n.stateCount := by
  simp [changed, stateCount]

@[simp] theorem stateCount_marked (accepting : Bool) :
    (n.marked q accepting).stateCount = n.stateCount :=
  stateCount_changed _

@[simp] theorem stateCount_connected :
    (n.connected source symbol target).stateCount = n.stateCount := by
  simp [connected, stateCount, changed]

@[simp] theorem stateCount_current (current : Nat) :
    { n with current }.stateCount = n.stateCount := rfl

theorem addTransition_eq (source_lt : source < n.stateCount) (target_lt : target < n.stateCount) :
    n.addTransition source symbol target =
      .ok (n.connected source symbol target, n.transitions.size) := by
  have grew : { n with transitions := n.transitions.push ⟨symbol, source, target⟩ }.stateCount =
      n.stateCount := rfl
  simp only [addTransition, bind, Except.bind]
  rw [modifyState_eq (by rwa [grew])]
  simp only
  rw [modifyState_eq (by simpa only [stateCount_changed, grew])]
  rfl

@[simp] theorem transitions_grown : n.grown.transitions = n.transitions := rfl

@[simp] theorem transitions_marked (accepting : Bool) :
    (n.marked q accepting).transitions = n.transitions := rfl

@[simp] theorem transitions_connected :
    (n.connected source symbol target).transitions =
      n.transitions.push { symbol, source, target } := rfl

@[simp] theorem start_grown : n.grown.start = n.start := rfl

@[simp] theorem start_marked (accepting : Bool) : (n.marked q accepting).start = n.start := rfl

@[simp] theorem start_connected : (n.connected source symbol target).start = n.start := rfl

@[simp] theorem current_grown : n.grown.current = n.current := rfl

@[simp] theorem current_marked (accepting : Bool) :
    (n.marked q accepting).current = n.current := rfl

@[simp] theorem current_connected : (n.connected source symbol target).current = n.current := rfl

@[simp] theorem stateAt_current (current : Nat) :
    { n with current }.stateAt q = n.stateAt q := rfl

@[simp] theorem stateAt_start (start : Option Nat) :
    { n with start }.stateAt q = n.stateAt q := rfl

@[simp] theorem stateAt_grown : n.grown.stateAt q = n.stateAt q := by
  rcases Nat.lt_trichotomy q n.states.size with below | rfl | above
  · simp [stateAt, grown, Array.getElem?_push, Nat.ne_of_lt below]
  · simp [stateAt, grown]
  · simp [stateAt, grown, Array.getElem?_push, Nat.ne_of_gt above]

theorem stateAt_changed (inRange : q < n.stateCount) (change : State → State) :
    (n.changed q change).stateAt r = if r = q then change (n.stateAt q) else n.stateAt r := by
  by_cases same : r = q
  · subst same
    simp [changed, stateAt, Array.getElem?_modify,
      Array.getElem?_eq_getElem (show r < n.states.size from inRange)]
  · simp [changed, stateAt, Array.getElem?_modify, same, Ne.symm same]

theorem stateAt_marked (inRange : q < n.stateCount) (accepting : Bool) :
    (n.marked q accepting).stateAt r =
      if r = q then (n.stateAt q).setAccepting accepting else n.stateAt r :=
  stateAt_changed inRange _

theorem stateAt_connected (source_lt : source < n.stateCount) (target_lt : target < n.stateCount) :
    (n.connected source symbol target).stateAt r = {
      accepting := (n.stateAt r).accepting
      outgoing := (n.stateAt r).outgoing ++ if r = source then [n.transitions.size] else []
      incoming := (n.stateAt r).incoming ++ if r = target then [n.transitions.size] else [] } := by
  let pushed := { n with transitions := n.transitions.push ⟨symbol, source, target⟩ }
  have first : ∀ r, (pushed.changed source (·.addOutgoing n.transitions.size)).stateAt r =
      if r = source then (n.stateAt source).addOutgoing n.transitions.size else n.stateAt r :=
    fun r => stateAt_changed (n := pushed) source_lt _
  unfold connected
  rw [stateAt_changed (by rw [stateCount_changed]; exact target_lt), first, first]
  by_cases into : r = target
  · subst into
    by_cases out : r = source
    · subst out
      simp [State.addOutgoing, State.addIncoming]
    · simp [out, State.addIncoming]
  · by_cases out : r = source
    · subst out
      simp [into, State.addOutgoing]
    · simp [out, into]

theorem marked_accepting (inRange : q < n.stateCount) (accepting : Bool) :
    ((n.marked q accepting).stateAt r).accepting =
      if r = q then accepting else (n.stateAt r).accepting := by
  rw [stateAt_marked inRange]
  split <;> simp [State.setAccepting]

theorem marked_outgoing (inRange : q < n.stateCount) (accepting : Bool) :
    ((n.marked q accepting).stateAt r).outgoing = (n.stateAt r).outgoing := by
  rw [stateAt_marked inRange]
  split <;> simp_all [State.setAccepting]

theorem marked_incoming (inRange : q < n.stateCount) (accepting : Bool) :
    ((n.marked q accepting).stateAt r).incoming = (n.stateAt r).incoming := by
  rw [stateAt_marked inRange]
  split <;> simp_all [State.setAccepting]

theorem linkedOut_iff : n.LinkedOut id t ↔ id ∈ (n.stateAt t.source).outgoing := by
  apply Iff.intro
  · intro linked
    obtain ⟨s, found, listed⟩ := linked
    rwa [stateAt_of_getElem? found]
  · intro listed
    by_cases inRange : t.source < n.stateCount
    · exact ⟨_, getElem?_states inRange, listed⟩
    · simp [stateAt_beyond (Nat.le_of_not_lt inRange)] at listed

theorem linkedIn_iff : n.LinkedIn id t ↔ id ∈ (n.stateAt t.target).incoming := by
  apply Iff.intro
  · intro linked
    obtain ⟨s, found, listed⟩ := linked
    rwa [stateAt_of_getElem? found]
  · intro listed
    by_cases inRange : t.target < n.stateCount
    · exact ⟨_, getElem?_states inRange, listed⟩
    · simp [stateAt_beyond (Nat.le_of_not_lt inRange)] at listed

theorem leaves_iff :
    n.Leaves q id t ↔ id ∈ (n.stateAt q).outgoing ∧ n.transitions[id]? = some t := by
  apply Iff.intro
  · intro leaves
    obtain ⟨s, found, listed, named⟩ := leaves
    rw [stateAt_of_getElem? found]
    exact ⟨listed, named⟩
  · intro leaves
    obtain ⟨listed, named⟩ := leaves
    by_cases inRange : q < n.stateCount
    · exact ⟨_, getElem?_states inRange, listed, named⟩
    · simp [stateAt_beyond (Nat.le_of_not_lt inRange)] at listed

theorem accepting_iff : n.Accepting q ↔ (n.stateAt q).accepting = true := by
  apply Iff.intro
  · intro accepts
    obtain ⟨s, found, accepting⟩ := accepts
    rwa [stateAt_of_getElem? found]
  · intro accepting
    by_cases inRange : q < n.stateCount
    · exact ⟨_, getElem?_states inRange, accepting⟩
    · simp [stateAt_beyond (Nat.le_of_not_lt inRange)] at accepting

theorem lt_of_accepting (accepting : n.Accepting q) : q < n.stateCount := by
  obtain ⟨s, found, _⟩ := accepting
  exact (Array.getElem?_eq_some_iff.mp found).1

end RegexAutomaton.Nfa
