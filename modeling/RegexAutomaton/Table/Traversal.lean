import RegexAutomaton.Nfa.Lookup

namespace RegexAutomaton

def labelText (label : Nat) : String :=
  "q" ++ toString label

/-- What a table says about one state. -/
structure Row where
  state : Nat
  label : Nat
  start : Bool
  accepting : Bool
  transitions : List (Symbol × Nat)
deriving Repr, Inhabited

/-- A walk in progress: the labeled states in the order of their labels, of which the first
`next` have been described. A state is labeled when it is first met, as the start or as the
target of a transition. -/
structure Traversal where
  found : List Nat
  next : Nat
deriving Repr

namespace Traversal

/-- The label of `q`, and the labeled states after it has been asked for. -/
def label (n : Nfa) (found : List Nat) (q : Nat) :
    Except Failure (Nat × List Nat) :=
  if q < n.stateCount then
    match found.idxOf? q with
    | some label => .ok (label, found)
    | none => .ok (found.length, found ++ [q])
  else
    .error (.fault (.state q))

/-- Labels the targets of a state, from the first to the last. -/
def labelTargets (n : Nfa) (found : List Nat) :
    List (Symbol × Nat) → Except Failure (List (Symbol × Nat) × List Nat)
  | [] => .ok ([], found)
  | (symbol, q) :: rest => do
      let (label, found) ← label n found q
      let (transitions, found) ← labelTargets n found rest
      return ((symbol, label) :: transitions, found)

/-- Describes `q`, the next state in line. -/
def describe (n : Nfa) (t : Traversal) (q : Nat) : Except Failure (Row × Traversal) := do
  let (transitions, found) ← labelTargets n t.found (← n.successors q)
  let row := {
    state := q
    label := t.next
    start := n.start == some q
    accepting := ← n.isAccepting q
    transitions }
  return (row, { found, next := t.next + 1 })

/-- A walk before its first row: the start is labeled, if there is one. -/
def enter (n : Nfa) : Except Failure Traversal :=
  match n.start with
  | none => .ok { found := [], next := 0 }
  | some start => do
      let (_, found) ← label n [] start
      return { found, next := 0 }

/-- How many states of `n` have no label yet. -/
def unlabeled (n : Nfa) (found : List Nat) : Nat :=
  (List.range n.stateCount).countP fun q => !found.contains q

theorem unlabeled_append {n : Nfa} {found : List Nat} {q : Nat}
    (inRange : q < n.stateCount) (fresh : q ∉ found) :
    unlabeled n (found ++ [q]) + 1 = unlabeled n found := by
  have split : ∀ k, ((List.range k).countP fun r => !found.contains r) =
      ((List.range k).countP fun r => !(found ++ [q]).contains r) + if q < k then 1 else 0 := by
    intro k
    induction k with
    | zero => simp
    | succ k ih =>
        rw [List.range_succ, List.countP_append, List.countP_append, ih]
        by_cases equal : k = q
        · subst equal
          simp [fresh]
        · have below : (if q < k + 1 then 1 else 0) = if q < k then 1 else 0 := by
            congr 1
            exact propext (by omega)
          have other : (found ++ [q]).contains k = found.contains k := by
            simp [equal]
          simp only [below, List.countP_cons, List.countP_nil, other]
          omega
  have := split n.stateCount
  simp only [inRange, if_pos] at this
  exact this.symm

theorem label_progress {n : Nfa} {found after : List Nat} {q : Nat} {l : Nat}
    (labeled : label n found q = .ok (l, after)) :
    unlabeled n after + after.length = unlabeled n found + found.length ∧
      found.length ≤ after.length := by
  unfold label at labeled
  split at labeled
  · rename_i inRange
    split at labeled
    · cases labeled
      simp
    · rename_i absent
      cases labeled
      have := unlabeled_append inRange (List.idxOf?_eq_none_iff.mp absent)
      simp
      omega
  · cases labeled

theorem labelTargets_progress {n : Nfa} {found after : List Nat}
    {targets : List (Symbol × Nat)} {transitions : List (Symbol × Nat)}
    (labeled : labelTargets n found targets = .ok (transitions, after)) :
    unlabeled n after + after.length = unlabeled n found + found.length ∧
      found.length ≤ after.length := by
  induction targets generalizing found transitions with
  | nil =>
      cases labeled
      simp
  | cons target rest ih =>
      unfold labelTargets at labeled
      cases first : label n found target.2 with
      | error => simp [first, bind, Except.bind] at labeled
      | ok head =>
          cases second : labelTargets n head.2 rest with
          | error => simp [first, second, bind, Except.bind] at labeled
          | ok tail =>
              simp [first, second, bind, Except.bind, pure, Except.pure] at labeled
              obtain ⟨_, rfl⟩ := labeled
              have step := label_progress first
              have steps := ih second
              omega

/-- The number of rows still to come. -/
def remaining (n : Nfa) (t : Traversal) : Nat :=
  unlabeled n t.found + t.found.length - t.next

theorem describe_progress {n : Nfa} {t after : Traversal} {q : Nat} {row : Row}
    (inLine : t.found[t.next]? = some q) (described : describe n t q = .ok (row, after)) :
    remaining n after < remaining n t := by
  have bound : t.next < t.found.length := (List.getElem?_eq_some_iff.mp inLine).1
  unfold describe at described
  cases targets : n.successors q with
  | error => simp [targets, bind, Except.bind] at described
  | ok targets' =>
      cases labeled : labelTargets n t.found targets' with
      | error => simp [targets, labeled, bind, Except.bind] at described
      | ok result =>
          cases accepting : n.isAccepting q with
          | error => simp [targets, labeled, accepting, bind, Except.bind] at described
          | ok flag =>
              simp [targets, labeled, accepting, bind, Except.bind, pure, Except.pure]
                at described
              have := labelTargets_progress labeled
              rw [← described.2]
              simp only [remaining]
              omega

end Traversal

/-- The rows of a walk, and how it stopped: at its end, or at a reference that
leads nowhere. -/
structure Walk where
  rows : List Row
  stop : Except Failure Unit

namespace Traversal

def walk (n : Nfa) (t : Traversal) : Walk :=
  match _ : t.found[t.next]? with
  | none => { rows := [], stop := .ok () }
  | some q =>
      match _ : describe n t q with
      | .error failure => { rows := [], stop := .error failure }
      | .ok (row, after) =>
          let rest := walk n after
          { rest with rows := row :: rest.rows }
termination_by remaining n t
decreasing_by exact describe_progress ‹_› ‹_›

end Traversal

namespace Nfa

/-- The row of every reachable state, in the order of discovery. -/
def rows (n : Nfa) : Except Failure (List Row) := do
  let walk := Traversal.walk n (← Traversal.enter n)
  walk.stop
  return walk.rows

/-- The first `count` rows. What lies beyond them is not looked at. -/
def firstRows (n : Nfa) (count : Nat) : Except Failure (List Row) := do
  let walk := Traversal.walk n (← Traversal.enter n)
  if walk.rows.length < count then walk.stop
  return walk.rows.take count

end Nfa

end RegexAutomaton
