import RegexAutomaton.Proofs.Building

namespace RegexAutomaton.Nfa

variable {n : Nfa} {q r a b exit : Nat} {s : Symbol} {list : List Transition} {edges : List Nat}
  {fragment : Fragment}

def connectedAll (n : Nfa) (list : List Transition) : Nfa :=
  list.foldl (fun n t => n.connected t.source t.symbol t.target) n

/-- Every transition of the list connects two states of `n`. -/
def Connects (n : Nfa) (list : List Transition) : Prop :=
  ∀ t ∈ list, t.source < n.stateCount ∧ t.target < n.stateCount

theorem Connects.of_stateCount {m : Nfa} (connects : n.Connects list)
    (le : n.stateCount ≤ m.stateCount) : m.Connects list := by
  intro t member
  have inRange := connects t member
  omega

@[simp] theorem stateCount_connectedAll : (n.connectedAll list).stateCount = n.stateCount := by
  induction list generalizing n with
  | nil => rfl
  | cons t rest ih => exact ih.trans stateCount_connected

@[simp] theorem start_connectedAll : (n.connectedAll list).start = n.start := by
  induction list generalizing n with
  | nil => rfl
  | cons t rest ih => exact ih.trans start_connected

@[simp] theorem current_connectedAll : (n.connectedAll list).current = n.current := by
  induction list generalizing n with
  | nil => rfl
  | cons t rest ih => exact ih.trans current_connected

theorem transitions_connectedAll :
    (n.connectedAll list).transitions = n.transitions ++ list.toArray := by
  induction list generalizing n with
  | nil => simp [connectedAll]
  | cons t rest ih =>
      refine ih.trans (Array.ext' ?_)
      simp

theorem accepting_connectedAll (connects : n.Connects list) :
    ((n.connectedAll list).stateAt r).accepting = (n.stateAt r).accepting := by
  induction list generalizing n with
  | nil => rfl
  | cons t rest ih =>
      have inRange := connects t (by simp)
      have tail : (n.connected t.source t.symbol t.target).Connects rest := by
        intro u member
        simpa using connects u (by simp [member])
      exact (ih tail).trans (by rw [stateAt_connected inRange.1 inRange.2])

theorem Wired.connectedAll (wired : n.Wired) (connects : n.Connects list) :
    (n.connectedAll list).Wired := by
  induction list generalizing n with
  | nil => exact wired
  | cons t rest ih =>
      have inRange := connects t (by simp)
      refine ih (wired.connected inRange.1 inRange.2) ?_
      intro u member
      simpa using connects u (by simp [member])

theorem step_connectedAll (wired : n.Wired) (connects : n.Connects list) :
    (n.connectedAll list).Step a s b ↔ n.Step a s b ∨ ⟨s, a, b⟩ ∈ list := by
  induction list generalizing n with
  | nil => simp [Nfa.connectedAll]
  | cons t rest ih =>
      have inRange := connects t (by simp)
      have tail : (n.connected t.source t.symbol t.target).Connects rest := by
        intro u member
        simpa using connects u (by simp [member])
      refine (ih (wired.connected inRange.1 inRange.2) tail).trans ?_
      rw [step_connected wired inRange.1 inRange.2, List.mem_cons, or_assoc]
      have first : (a = t.source ∧ s = t.symbol ∧ b = t.target) ↔ (⟨s, a, b⟩ : Transition) = t := by
        rw [Transition.mk.injEq, and_left_comm]
      rw [first]

/-- The transitions named by `edges`, moved to the state `exit`. -/
def copies (n : Nfa) (exit : Nat) (edges : List Nat) : List Transition :=
  edges.filterMap fun id => n.transitions[id]?.map fun t => { t with source := exit }

theorem mem_copies {t : Transition} : t ∈ n.copies exit edges ↔
    ∃ id ∈ edges, ∃ u, n.transitions[id]? = some u ∧ t = { u with source := exit } := by
  simp only [copies, List.mem_filterMap, Option.map_eq_some_iff]
  apply Iff.intro
  · intro copied
    obtain ⟨id, member, u, found, rfl⟩ := copied
    exact ⟨id, member, u, found, rfl⟩
  · intro copied
    obtain ⟨id, member, u, found, rfl⟩ := copied
    exact ⟨id, member, u, found, rfl⟩

theorem Wired.connects_copies (wired : n.Wired) (exit_lt : exit < n.stateCount) :
    n.Connects (n.copies exit edges) := by
  intro t member
  obtain ⟨id, _, u, found, rfl⟩ := mem_copies.mp member
  exact ⟨exit_lt, (wired.endpoints_lt found).2⟩

/-- Growth of the arena does not change what old names stand for. -/
theorem copies_connected {source target : Nat} {symbol : Symbol}
    (valid : ∀ id ∈ edges, id < n.transitions.size) :
    (n.connected source symbol target).copies exit edges = n.copies exit edges := by
  induction edges with
  | nil => rfl
  | cons id rest ih =>
      have tail := ih fun id member => valid id (List.mem_cons_of_mem _ member)
      simp only [copies, transitions_connected] at tail ⊢
      rw [List.filterMap_cons, List.filterMap_cons, tail, Array.getElem?_push,
        if_neg (Nat.ne_of_lt (valid id (by simp)))]

theorem copyEdges_eq (wired : n.Wired) (exit_lt : exit < n.stateCount)
    (valid : ∀ id ∈ edges, id < n.transitions.size) :
    n.copyEdges exit edges = .ok (n.connectedAll (n.copies exit edges)) := by
  induction edges generalizing n with
  | nil => rfl
  | cons id rest ih =>
      obtain ⟨t, found⟩ : ∃ t, n.transitions[id]? = some t :=
        ⟨_, Array.getElem?_eq_getElem (valid id (by simp))⟩
      have target_lt := (wired.endpoints_lt found).2
      have tail := fun id member => valid id (List.mem_cons_of_mem _ member)
      have connected : (n.connected exit t.symbol t.target).Wired :=
        wired.connected exit_lt target_lt
      have next := ih connected
        (by simpa using exit_lt)
        (fun id member => by simpa using Nat.lt_succ_of_lt (tail id member))
      rw [copies_connected tail] at next
      simp only [copyEdges, List.foldlM_cons, transition_eq found, ok_bind,
        addTransition_eq exit_lt target_lt] at next ⊢
      simpa [copies, found, Nfa.connectedAll] using next

/-- The automaton after the fragment has been made repeatable. -/
def repeated (n : Nfa) (fragment : Fragment) : Nfa :=
  (n.marked fragment.entry true).connectedAll (n.copies fragment.exit fragment.edges)

@[simp] theorem stateCount_repeated : (n.repeated fragment).stateCount = n.stateCount := by
  rw [repeated, stateCount_connectedAll, stateCount_marked]

theorem repeatFragment_eq (wired : n.Wired) (valid : n.HasFragment fragment) :
    (n.repeatFragment fragment).outcome = .ok (n.repeated fragment) := by
  obtain ⟨entry_lt, exit_lt, edges_lt⟩ := valid
  simp only [repeatFragment, Traced.outcome_bind, Traced.outcome_lift, setAccepting_eq entry_lt,
    ok_bind]
  rw [copyEdges_eq (wired.marked entry_lt true) (by simpa using exit_lt) edges_lt]
  rfl

theorem Wired.connects_repeated (wired : n.Wired) (valid : n.HasFragment fragment) :
    (n.marked fragment.entry true).Connects (n.copies fragment.exit fragment.edges) :=
  (wired.connects_copies valid.2.1).of_stateCount (by simp)

theorem Wired.repeated (wired : n.Wired) (valid : n.HasFragment fragment) :
    (n.repeated fragment).Wired :=
  (wired.marked valid.1 true).connectedAll (wired.connects_repeated valid)

theorem step_repeated (wired : n.Wired) (valid : n.HasFragment fragment) :
    (n.repeated fragment).Step a s b ↔ n.Step a s b ∨
      a = fragment.exit ∧ ∃ id ∈ fragment.edges, ∃ t, n.transitions[id]? = some t ∧
        t.symbol = s ∧ t.target = b := by
  rw [Nfa.repeated, step_connectedAll (wired.marked valid.1 true) (wired.connects_repeated valid),
    step_marked valid.1, mem_copies]
  refine or_congr Iff.rfl ?_
  apply Iff.intro
  · intro copied
    obtain ⟨id, member, t, found, same⟩ := copied
    cases same
    exact ⟨rfl, id, member, t, found, rfl, rfl⟩
  · intro edge
    obtain ⟨rfl, id, member, t, found, rfl, rfl⟩ := edge
    exact ⟨id, member, t, found, rfl⟩

theorem accepting_repeated (wired : n.Wired) (valid : n.HasFragment fragment) :
    (n.repeated fragment).Accepting r ↔ r = fragment.entry ∨ n.Accepting r := by
  rw [accepting_iff, accepting_iff, Nfa.repeated,
    accepting_connectedAll (wired.connects_repeated valid), marked_accepting valid.1]
  split <;> simp_all

end RegexAutomaton.Nfa
