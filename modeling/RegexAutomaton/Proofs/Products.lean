import RegexAutomaton.Proofs.Consistency
import RegexAutomaton.Proofs.Groups

namespace RegexAutomaton.Nfa

variable {n host sub : Nfa} {step inner joint : Steps} {base entry start q r a b : Nat} {s : Symbol}
  {word : List Char} {exits : List Nat}

/-- The steps of `inner` lead from `entry` through fresh states. They may come back
to `entry` if no other steps lead on from it. -/
structure Glued (step inner joint : Steps) (base entry : Nat) : Prop where
  step_iff {a : Nat} {s : Symbol} {b : Nat} : joint a s b ↔ step a s b ∨ inner a s b
  old {a : Nat} {s : Symbol} {b : Nat} : step a s b → a < base ∧ b < base
  source {a : Nat} {s : Symbol} {b : Nat} : inner a s b → a = entry ∨ base ≤ a
  target {a : Nat} {s : Symbol} {b : Nat} :
    inner a s b → base ≤ b ∨ b = entry ∧ ∀ s b, ¬ step entry s b

namespace Glued

variable (glued : Glued step inner joint base entry)

include glued

/-- What has left the old states for good follows inner steps only. -/
theorem stays (spells : Spells joint q word r)
    (inside : base ≤ q ∨ q = entry ∧ ∀ s b, ¬ step entry s b) : Spells inner q word r := by
  induction spells with
  | nil q => exact .nil q
  | cons move _ ih =>
      rcases glued.step_iff.mp move with old | new
      · rcases inside with fresh | ⟨rfl, stuck⟩
        · have known := (glued.old old).1
          omega
        · exact absurd old (stuck _ _)
      · exact .cons new (ih (glued.target new))

theorem words_mul (known : q < base) (last : r = entry ∨ base ≤ r) :
    words joint q r = words step q entry * words inner entry r := by
  ext word
  rw [Language.mem_mul]
  apply Iff.intro
  · intro spells
    rw [mem_words] at spells
    induction spells with
    | nil q =>
        rcases last with rfl | fresh
        · exact ⟨[], .nil q, [], .nil q, rfl⟩
        · omega
    | @cons q next _ s word move rest ih =>
        rcases glued.step_iff.mp move with old | new
        · obtain ⟨first, head, second, tail, rfl⟩ := ih (glued.old old).2 last
          exact ⟨_, .cons old head, second, tail, List.append_assoc ..⟩
        · rcases glued.source new with rfl | fresh
          · exact ⟨[], .nil q, _, .cons new (glued.stays rest (glued.target new)), rfl⟩
          · omega
  · intro split
    obtain ⟨first, head, second, tail, rfl⟩ := split
    exact (Spells.mono (fun move => glued.step_iff.mpr (.inl move)) head).append
      (Spells.mono (fun move => glued.step_iff.mpr (.inr move)) tail)

end Glued

/-- Joining all accepting states into a fresh one changes no language. -/
theorem language_joined (wired : n.Wired) (accepting : ∀ {q}, n.Accepting q ↔ q ∈ exits) :
    (n.joined exits).language = n.language := by
  have exits_lt : ∀ q ∈ exits, q < n.stateCount :=
    fun q member => lt_of_accepting (accepting.mpr member)
  have joint {a : Nat} {s : Symbol} {b : Nat} : (n.joined exits).Step a s b ↔
      n.Step a s b ∨ a ∈ exits ∧ s = .epsilon ∧ b = n.stateCount := step_joined wired exits_lt
  have unreached : ∀ a s, ¬ n.Step a s n.stateCount :=
    fun a s step => Nat.lt_irrefl _ (wired.step_lt step).2
  have stuck : ∀ s b, ¬ (n.joined exits).Step n.stateCount s b := by
    intro s b step
    rcases joint.mp step with old | ⟨member, _⟩
    · exact Nat.lt_irrefl _ (wired.step_lt old).1
    · exact Nat.lt_irrefl _ (exits_lt _ member)
  have last {q : Nat} : (n.joined exits).Accepting q ↔ q = n.stateCount := by
    rw [accepting_joined exits_lt, accepting]
    simp
  ext word
  simp only [mem_language_iff, start_joined, last, mem_words]
  apply Iff.intro
  · intro accepted
    obtain ⟨start, q, attached, rfl, spells⟩ := accepted
    have start_lt := wired.start_lt attached
    obtain ⟨r, member, inside⟩ :=
      (spells_joined joint unreached stuck (Nat.ne_of_lt start_lt)).mp spells
    exact ⟨start, r, attached, accepting.mpr member, inside⟩
  · intro accepted
    obtain ⟨start, r, attached, ends, inside⟩ := accepted
    have start_lt := wired.start_lt attached
    exact ⟨start, _, attached, rfl, (spells_joined joint unreached stuck (Nat.ne_of_lt start_lt)).mpr
      ⟨r, accepting.mp ends, inside⟩⟩

/-- With none, one or several exits: only the words that lead to them count. -/
theorem language_exited {place : Nat → Nat} (wired : n.Wired)
    (accepting : ∀ {q}, n.Accepting q ↔ q ∈ sub.acceptingStates.map place) :
    (n.exited sub place).1.language = n.language := by
  rw [exited]
  split
  · rfl
  · rfl
  · exact language_joined wired (by simp [*])

theorem glued_imported (hostWired : host.Wired) (wired : sub.Wired)
    (attached : sub.start = some start)
    (apart : (∀ a s, ¬ sub.Step a s start) ∨ ∀ s b, ¬ host.Step host.current s b) :
    Glued host.Step (placedSteps host sub start) (host.imported sub start).Step
      host.stateCount host.current where
  step_iff := step_imported hostWired wired (wired.start_lt attached)
  old := hostWired.step_lt
  source := by
    intro a s b placed
    obtain ⟨p, q, _, rfl, _⟩ := placed
    exact placeIn_cases host start p
  target := by
    intro a s b placed
    obtain ⟨p, q, step, _, rfl⟩ := placed
    by_cases first : q = start
    · subst first
      rcases apart with unreached | stuck
      · exact absurd step (unreached p s)
      · exact .inr ⟨placeIn_start, stuck⟩
    · exact .inl (placeIn_fresh first)

/-- The current state takes its acceptance over from the adopted start, so only the
adopted part accepts. -/
theorem accepting_imported_of_only (hostWired : host.Wired) (wired : sub.Wired)
    (attached : sub.start = some start) (only : ∀ q, host.Accepting q ↔ q = host.current) :
    (host.imported sub start).Accepting r ↔ r ∈ sub.acceptingStates.map (placeIn host start) := by
  rw [accepting_imported hostWired wired (wired.start_lt attached), List.mem_map]
  apply Iff.intro
  · intro accepts
    rcases accepts with ⟨p, accepting, rfl⟩ | ⟨_, other, accepting⟩
    · exact ⟨p, mem_acceptingStates.mpr accepting, rfl⟩
    · exact absurd ((only r).mp accepting) other
  · intro placed
    obtain ⟨p, member, rfl⟩ := placed
    exact .inl ⟨p, mem_acceptingStates.mp member, rfl⟩

theorem language_imported (hostWired : host.Wired) (wired : sub.Wired)
    (attached : sub.start = some start) (only : ∀ q, host.Accepting q ↔ q = host.current)
    (apart : (∀ a s, ¬ sub.Step a s start) ∨ ∀ s b, ¬ host.Step host.current s b) :
    (host.imported sub start).language = host.language * sub.language := by
  have glued := glued_imported hostWired wired attached apart
  ext word
  rw [Language.mem_mul]
  simp only [mem_language_iff, start_imported, only, attached,
    accepting_imported_of_only hostWired wired attached only, List.mem_map, mem_acceptingStates]
  apply Iff.intro
  · intro accepted
    obtain ⟨first, _, hostAttached, ⟨p, accepting, rfl⟩, spells⟩ := accepted
    rw [glued.words_mul (hostWired.start_lt hostAttached) (placeIn_cases host start p), Language.mem_mul] at spells
    obtain ⟨left, head, right, tail, rfl⟩ := spells
    obtain ⟨r, same, inside⟩ := (spells_placedSteps hostWired).mp tail
    obtain rfl := placeIn_injective hostWired same
    exact ⟨left, ⟨first, _, hostAttached, rfl, head⟩, right, ⟨start, p, rfl, accepting, inside⟩, rfl⟩
  · intro product
    obtain ⟨left, ⟨first, _, hostAttached, rfl, head⟩, right, ⟨_, p, same, accepting, inside⟩, rfl⟩ :=
      product
    cases same
    refine ⟨first, _, hostAttached, ⟨p, accepting, rfl⟩, ?_⟩
    rw [glued.words_mul (hostWired.start_lt hostAttached) (placeIn_cases host start p)]
    exact ⟨left, head, right, (spells_placedSteps hostWired).mpr ⟨p, rfl, inside⟩, rfl⟩

theorem language_withCurrent (current : Nat) : { n with current }.language = n.language := by
  ext word
  rw [mem_language_iff, mem_language_iff]
  rfl

theorem language_spliced (hostWired : host.Wired) (wired : sub.Wired)
    (attached : sub.start = some start) (only : ∀ q, host.Accepting q ↔ q = host.current)
    (apart : (∀ a s, ¬ sub.Step a s start) ∨ ∀ s b, ¬ host.Step host.current s b) :
    (host.spliced sub start).1.language = host.language * sub.language := by
  have accepting : ∀ {q}, (host.imported sub start).Accepting q ↔
      q ∈ sub.acceptingStates.map (placeIn host start) :=
    accepting_imported_of_only hostWired wired attached only
  rw [spliced, language_withCurrent]
  exact (language_exited (hostWired.imported wired (wired.start_lt attached)) accepting).trans
    (language_imported hostWired wired attached only apart)

/-- Splicing succeeds and multiplies languages, if the host accepts in its current
state alone, and either nothing leads back to the adopted start or the host does not
lead on from that state. -/
theorem splice_language_mul (hostBuilt : Built host) (built : Built sub)
    (attached : sub.start = some start) (only : ∀ q, host.Accepting q ↔ q = host.current)
    (leads : ∃ s, sub.states[start]? = some s ∧ s.outgoing ≠ [])
    (apart : (∃ s, sub.states[start]? = some s ∧ s.incoming = []) ∨
      ∃ s, host.states[host.current]? = some s ∧ s.outgoing = []) :
    ∃ after fragment, (host.splice sub).outcome = .ok (after, fragment) ∧
      after.language = host.language * sub.language := by
  have hostWired := hostBuilt.wired
  have wired := built.wired
  obtain ⟨state, found, leads⟩ := leads
  rw [← stateAt_of_getElem? found] at leads
  refine ⟨_, _, splice_eq hostWired wired attached leads,
    language_spliced hostWired wired attached only ?_⟩
  rcases apart with ⟨state, found, unreached⟩ | ⟨state, found, stuck⟩
  · rw [← stateAt_of_getElem? found] at unreached
    exact .inl fun a s step => wired.incoming_ne_nil step unreached
  · rw [← stateAt_of_getElem? found] at stuck
    exact .inr fun s b step => outgoing_ne_nil step stuck

/-- The adopted start accepts, is re-entered and loops on itself, and so does not
stay the exit: it is joined with another accepting state. -/
theorem splice_language_mul_of_loop :
    let host : Nfa := {
      states := #[{ outgoing := [0] }, { accepting := true, incoming := [0] }]
      transitions := #[⟨.char 'a', 0, 1⟩]
      start := some 0
      current := 1 }
    let sub : Nfa := {
      states := #[{ accepting := true, outgoing := [0, 1], incoming := [1, 2] },
        { accepting := true, outgoing := [2], incoming := [0] }]
      transitions := #[⟨.char 'b', 0, 1⟩, ⟨.char 'c', 0, 0⟩, ⟨.epsilon, 1, 0⟩]
      start := some 0
      current := 1 }
    Built host ∧ Built sub ∧ (∀ q, host.Accepting q ↔ q = host.current) ∧
      ∃ after fragment, (host.splice sub).outcome = .ok (after, fragment) ∧
        after.language = host.language * sub.language := by
  intro host sub
  have hostBuilt : Built host := .concatenate (c := 'a') .new rfl
  have letter : Built (Nfa.new.extended 'b') := .concatenate (c := 'b') .new rfl
  have accepting : Built ((Nfa.new.extended 'b').marked 0 true) :=
    .setAccepting letter (by decide) (setAccepting_eq (by decide) true)
  have looped : Built (((Nfa.new.extended 'b').marked 0 true).connected 0 (.char 'c') 0) :=
    .addTransition accepting (by decide) (by decide) (addTransition_eq (by decide) (by decide))
  have linked : (((Nfa.new.extended 'b').marked 0 true).connected 0 (.char 'c') 0).addTransition
      1 .epsilon 0 = .ok (sub, 2) := addTransition_eq (by decide) (by decide)
  have built : Built sub := .addTransition looped (by decide) (by decide) linked
  have only : ∀ q, host.Accepting q ↔ q = host.current := by
    intro q
    rw [← mem_acceptingStates, show host.acceptingStates = [1] by decide, List.mem_singleton]
  exact ⟨hostBuilt, built, only, splice_language_mul hostBuilt built rfl only
    ⟨_, rfl, by decide⟩ (.inr ⟨_, rfl, rfl⟩)⟩

end RegexAutomaton.Nfa
