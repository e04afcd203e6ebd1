import RegexAutomaton.Proofs.Consistency
import RegexAutomaton.Proofs.Inlay

namespace RegexAutomaton.Nfa

variable {n host sub : Nfa} {start : Nat} {place : Nat → Nat}

theorem stateCount_exited : (n.exited sub place).1.stateCount =
    n.stateCount + if 2 ≤ sub.acceptingStates.length then 1 else 0 := by
  unfold exited
  match sub.acceptingStates with
  | [] => rfl
  | [exit] => rfl
  | first :: second :: rest => simp

theorem exited_exit : (n.exited sub place).2 = match sub.acceptingStates with
    | [] => place sub.current
    | [exit] => place exit
    | _ => n.stateCount := by
  unfold exited
  match sub.acceptingStates with
  | [] => rfl
  | [exit] => rfl
  | first :: second :: rest => rfl

theorem exit_cases (n sub : Nfa) (start_lt : start < sub.stateCount) :
    (n.spliced sub start).2.exit = n.current ∨ n.stateCount ≤ (n.spliced sub start).2.exit := by
  show (exited _ _ _).2 = _ ∨ _ ≤ (exited _ _ _).2
  rw [exited_exit]
  match sub.acceptingStates with
  | [] => exact placeIn_cases n start sub.current
  | [exit] => exact placeIn_cases n start exit
  | first :: second :: rest =>
      right
      rw [stateCount_imported start_lt]
      exact Nat.le_add_right _ _

theorem placement_placeIn (current_lt : host.current < host.stateCount)
    (start_lt : start < sub.stateCount) : Placement host sub start (placeIn host start) where
  place_start := placeIn_start
  place_other _ := placeIn_of_ne
  place_lt _ := image_lt current_lt start_lt
  injective _ _ := image_injective current_lt

theorem embedded_spliced (hostWired : host.Wired) (wired : sub.Wired)
    (start_lt : start < sub.stateCount) :
    Embedded host sub start (placeIn host start) (host.stateCount + (sub.stateCount - 1))
      (sub.imports (placeIn host start) ++
        sub.joints (placeIn host start) (host.stateCount + (sub.stateCount - 1)))
      (host.spliced sub start).1 (host.spliced sub start).2 := by
  have appends := Appends.spliced hostWired wired start_lt
  have accepts (q : Nat) := accepting_spliced (r := q) hostWired wired start_lt
  exact {
    placement := placement_placeIn hostWired.current_lt start_lt
    join_eq := rfl
    added_eq := rfl
    stateCount_eq := by
      rw [← stateCount_imported start_lt]
      exact stateCount_exited
    transitions_eq := by
      rw [← Array.toList_inj, appends.transitions_eq, Array.toList_appendList]
    linked := by
      refine ⟨linkedTransitions_eq hostWired, linkedTransitions_eq wired, ?_⟩
      rw [linkedTransitions_eq (hostWired.spliced wired start_lt), appends.linked_eq]
    outgoing := by
      intro q s found
      rw [← stateAt_of_getElem? found, appends.outgoing]
      rfl
    incoming := by
      intro q s found
      rw [← stateAt_of_getElem? found, appends.incoming]
      rfl
    kept := by
      intro q old other
      have apart : q ≠ (host.spliced sub start).2.exit := by
        rcases exit_cases host sub start_lt with exit | exit
        · rwa [exit]
        · omega
      rw [accepts]
      simp [apart, old, other]
    accepting := by
      intro q inside
      rw [accepts]
      refine or_iff_left fun outside => ?_
      rcases inside with here | fresh
      · exact outside.2.1 here
      · exact Nat.not_lt_of_le fresh outside.1
    entry_eq := rfl
    exit_eq := by
      rw [← stateCount_imported start_lt]
      exact exited_exit
    edges_eq := departures_eq_named
    start_eq := start_exited.trans start_imported
    current_eq := rfl }

/-- Splicing never loses or doubles a part of the spliced automaton, and changes
nothing in the host but what the attachment needs. An automaton whose start leads
nowhere is not attached at all, and one without a start is refused. -/
theorem splice_embeds (hostBuilt : Built host) (built : Built sub) :
    (∀ start, sub.start = some start → ∃ s, sub.states[start]? = some s ∧
      (s.outgoing ≠ [] → ∃ place join added after fragment,
        (host.splice sub).outcome = .ok (after, fragment) ∧
        Embedded host sub start place join added after fragment) ∧
      (s.outgoing = [] →
        host.splice sub = ⟨[], .ok (host, ⟨host.current, host.current, []⟩)⟩)) ∧
    (sub.start = none → host.splice sub = ⟨[], .error (.build .detachedStart)⟩) := by
  have hostWired := hostBuilt.wired
  have wired := built.wired
  refine ⟨fun start attached => ?_, fun detached => ?_⟩
  · have start_lt := wired.start_lt attached
    refine ⟨sub.stateAt start, getElem?_states start_lt, fun leads => ?_, fun idle => ?_⟩
    · exact ⟨_, _, _, _, _, splice_eq hostWired wired attached leads,
        embedded_spliced hostWired wired start_lt⟩
    · simp only [splice, attached, state_eq start_lt]
      show (if (sub.stateAt start).outgoing.isEmpty then _ else _) = _
      rw [idle]
      rfl
  · simp only [splice, detached]
    rfl

/-- The start of the spliced automaton has a loop and is entered again, another state
has been unlinked, and two states accept. -/
theorem splice_embeds_entered_start :
    let host : Nfa := {
      states := #[{ accepting := true, outgoing := [0] },
        { accepting := true, outgoing := [1], incoming := [0, 1] }]
      transitions := #[⟨.char 'a', 0, 1⟩, ⟨.char 'a', 1, 1⟩]
      start := some 0
      current := 1 }
    let sub : Nfa := {
      states := #[{ accepting := true, outgoing := [3], incoming := [2, 3] }, {},
        { accepting := true, outgoing := [2] }]
      transitions := #[⟨.char 'b', 0, 1⟩, ⟨.char 'c', 1, 2⟩, ⟨.char 'd', 2, 0⟩, ⟨.char 'e', 0, 0⟩]
      start := some 0
      current := 2 }
    Built host ∧ Built sub ∧
      (∃ place join added after, (host.splice sub).outcome = .ok (after, ⟨1, 4, [3]⟩) ∧
        Embedded host sub 0 place join added after ⟨1, 4, [3]⟩) ∧
      host.splice .new = ⟨[], .ok (host, ⟨1, 1, []⟩)⟩ ∧
      host.splice sub.detachStart.1 = ⟨[], .error (.build .detachedStart)⟩ := by
  intro host sub
  have hostBuilt : Built host := Built.marked (q := 0)
    ((Built.new.extended 'a').connected 1 (.char 'a') 1 (by decide) (by decide)) (by decide) true
  have looped := (((Built.new.extended 'b').extended 'c').connected 2 (.char 'd') 0
    (by decide) (by decide)).connected 0 (.char 'e') 0 (by decide) (by decide)
  have built : Built sub :=
    Built.marked (q := 0) (.deleteState (q := 1) looped (by decide) rfl) (by decide) true
  obtain ⟨s, found, attached, _⟩ := (splice_embeds hostBuilt built).1 0 rfl
  obtain ⟨_, foundNew, _, idle⟩ := (splice_embeds hostBuilt .new).1 0 rfl
  cases found
  cases foundNew
  obtain ⟨place, join, added, after, fragment, made, embedded⟩ := attached (by decide)
  have shown : Prod.snd <$> (host.splice sub).outcome = .ok ⟨1, 4, [3]⟩ := by decide +kernel
  rw [made] at shown
  cases shown
  exact ⟨hostBuilt, built, ⟨place, join, added, after, made, embedded⟩, idle rfl,
    (splice_embeds hostBuilt (.detachStart built)).2 rfl⟩

end RegexAutomaton.Nfa
