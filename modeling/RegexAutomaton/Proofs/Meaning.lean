import RegexAutomaton.Proofs.Following

namespace RegexAutomaton.Expression.Progress

open Nfa

variable {p : Progress} {n : Nfa} {pattern : Pattern} {alternatives : Bool}
  {a b q r : Nat} {s : Symbol} {c : Char} {word : List Char}

theorem step_closed (sound : p.Sound) : p.closed.Step a s b ↔ p.nfa.Step a s b := by
  rcases p.closed_cases with ⟨_, same⟩ | ⟨_, same⟩
  · rw [same, step_marked sound.wired.current_lt]
  · rw [same]

theorem accepting_closed (sound : p.Sound) : p.closed.Accepting q ↔
    p.alternative = some p.nfa.current ∧ q = p.nfa.current ∨ p.nfa.Accepting q := by
  rcases p.closed_cases with ⟨opened, same⟩ | ⟨apart, same⟩
  · rw [same, accepting_iff, accepting_iff, marked_accepting sound.wired.current_lt]
    grind
  · rw [same]
    simp [apart]

namespace Follows

variable (follows : Follows alternatives pattern p)
  (bars : alternatives = false → pattern.hasBar = false)

include follows

theorem steps_closed : p.closed.Step = p.nfa.Step := by
  funext a s b
  exact propext (step_closed follows.sound)

include bars

/-- A closed alternative ends in an accepting state, unless the whole pattern is
silent. -/
theorem current_accepting_closed (loud : alternatives = true ∨ pattern.silent = false) :
    p.closed.Accepting q ↔ q = p.nfa.current ∨ p.nfa.Accepting q := by
  rw [accepting_closed follows.sound]
  cases last : pattern.lastSilent with
  | false =>
      have accepting := follows.accepting last
      apply Iff.intro
      · exact Or.imp_left And.right
      · intro accepts
        rcases accepts with rfl | old
        · exact .inr accepting
        · exact .inr old
  | true =>
      have several := Pattern.several_of_lastSilent bars loud last
      obtain ⟨entry, opened⟩ := Option.isSome_iff_exists.mp (follows.several.trans several)
      have at_entry := follows.at_entry.mpr last
      rw [Progress.entry, opened, Option.getD_some] at at_entry
      simp [opened, at_entry]

theorem mem_said_iff (loud : alternatives = true ∨ pattern.silent = false) :
    word ∈ pattern.said.1 + pattern.said.2 ↔
      ∃ q, p.closed.Accepting q ∧ word ∈ words p.closed.Step origin q := by
  rw [Language.mem_add, follows.stopped, ← follows.path, follows.steps_closed]
  apply Iff.intro
  · intro spoken
    rcases spoken with ⟨q, _, accepting, leads⟩ | leads
    · exact ⟨q, (follows.current_accepting_closed bars loud).mpr (.inr accepting), leads⟩
    · exact ⟨_, (follows.current_accepting_closed bars loud).mpr (.inl rfl), leads⟩
  · intro accepted
    obtain ⟨q, accepting, leads⟩ := accepted
    by_cases here : q = p.nfa.current
    · exact .inr (here ▸ leads)
    · rcases (follows.current_accepting_closed bars loud).mp accepting with same | old
      · exact absurd same here
      · exact .inl ⟨q, here, old, leads⟩

end Follows

def branchStep (n : Nfa) : Steps := fun a s b =>
  a = origin ∧ s = .epsilon ∧ b = n.stateCount

theorem attaches_branched (wired : n.Wired) (origin_lt : origin < n.stateCount) :
    Attaches n.Step (branchStep n) (n.branched origin).Step n.stateCount origin where
  step_iff := step_branched wired origin_lt
  old := wired.step_lt
  source inside := .inl inside.1
  target inside := Nat.le_of_eq inside.2.2.symm

theorem words_branchStep (origin_lt : origin < n.stateCount) :
    words (branchStep n) origin n.stateCount = 1 := by
  have apart := Nat.ne_of_lt origin_lt
  ext word
  rw [Language.mem_one, mem_words]
  apply Iff.intro
  · intro spells
    rcases spells.first_step with ⟨same, _⟩ | ⟨s, next, rest, ⟨_, rfl, rfl⟩, later, rfl⟩
    · exact absurd same.symm apart
    · have stuck : ∀ s b, ¬ branchStep n n.stateCount s b := fun s b inside =>
        apart inside.1.symm
      rw [(later.of_stuck stuck).2]
  · intro empty
    subst empty
    exact Spells.of_step (s := .epsilon) ⟨rfl, rfl, rfl⟩

/-- A fresh alternative behind an automaton whose start reads no letters. -/
theorem follows_branched (wired : n.Wired) (attached : n.start = some origin)
    (unreached : ∀ a s, ¬ n.Step a s origin) (letterless : ∀ c r, ¬ n.Step origin (.char c) r)
    (stopped : ∀ word, word ∈ pattern.said.1 ↔
      ∃ q, n.Accepting q ∧ word ∈ words n.Step origin q)
    (path : pattern.said.2 = 1) (last : pattern.lastSilent = true)
    (sound : Sound ⟨n.branched origin, some n.stateCount, none⟩) :
    Follows true pattern ⟨n.branched origin, some n.stateCount, none⟩ := by
  have origin_lt := wired.start_lt attached
  have attaches := attaches_branched wired origin_lt
  have stuck : ∀ s b, ¬ (n.branched origin).Step n.stateCount s b := by
    intro s b step
    rcases attaches.step_iff.mp step with old | inside
    · exact Nat.lt_irrefl _ (wired.step_lt old).1
    · exact absurd inside.1 (Nat.ne_of_gt origin_lt)
  exact {
    sound
    several := rfl
    unreached := by
      intro a s step
      rcases attaches.step_iff.mp step with old | inside
      · exact unreached a s old
      · exact absurd inside.2.2 (Nat.ne_of_lt origin_lt)
    path := by
      show words _ origin n.stateCount = _
      rw [attaches.words_fresh origin_lt (Nat.le_refl _), words_unreached unreached,
        words_branchStep origin_lt, one_mul, path]
    stopped := by
      intro word
      rw [stopped]
      apply Iff.intro
      · intro elsewhere
        obtain ⟨q, accepting, leads⟩ := elsewhere
        have known := lt_of_accepting accepting
        exact ⟨q, Nat.ne_of_lt known, (accepting_branched origin_lt).mpr accepting,
          by rwa [attaches.words_old known]⟩
      · intro elsewhere
        obtain ⟨q, _, accepting, leads⟩ := elsewhere
        have accepting := (accepting_branched origin_lt).mp accepting
        exact ⟨q, accepting, by rwa [attaches.words_old (lt_of_accepting accepting)] at leads⟩
    at_entry := iff_of_true rfl last
    accepting := fun loud => by simp [last] at loud
    starred := nofun
    moved := fun _ => Nat.ne_of_gt origin_lt
    leads := iff_of_true ⟨.epsilon, _, attaches.step_iff.mpr (.inr ⟨rfl, rfl, rfl⟩)⟩ (.inl rfl)
    heads := by
      intro c
      refine iff_of_false (fun ⟨r, step⟩ => ?_) nofun
      rcases attaches.step_iff.mp step with old | inside
      · exact letterless c r old
      · cases inside.2.1
    loops := by
      intro c
      rw [Pattern.loops_of_lastSilent last]
      exact iff_of_false (fun ⟨r, step⟩ => stuck _ r step) Bool.false_ne_true
    looping := fun step => absurd step (stuck _ _) }

theorem Follows.bar (follows : Follows true pattern p) :
    Follows true (.bar pattern) p.barred := by
  refine follows_branched (closed_wired follows.sound)
    ((closed_start p).trans follows.sound.attached) ?_ ?_ ?_ rfl rfl follows.sound.barred
  · rw [follows.steps_closed]
    exact follows.unreached
  · rw [follows.steps_closed]
    intro c r step
    exact Bool.noConfusion ((follows.heads c).mp ⟨r, step⟩).1
  · exact fun word => follows.mem_said_iff nofun (.inl rfl)

theorem follows_opened (alternatives : Bool) : Follows alternatives .empty (opened alternatives) := by
  have nothing : ∀ word : List Char, word ∈ Pattern.empty.said.1 ↔
      ∃ q, Nfa.new.Accepting q ∧ word ∈ words Nfa.new.Step origin q := by
    intro word
    apply Iff.intro
    · exact fun absent => absent.elim
    · intro elsewhere
      obtain ⟨q, accepting, _⟩ := elsewhere
      exact absurd accepting (new_rejects q)
  cases alternatives with
  | true =>
      exact follows_branched .new rfl (fun a s => new_stuck a s _) (fun c r => new_stuck _ _ r)
        nothing rfl rfl (.opened true)
  | false =>
      exact {
        sound := .opened false
        several := rfl
        unreached := fun a s => new_stuck a s _
        path := words_unreached fun a s => new_stuck a s _
        stopped := by
          intro word
          apply Iff.intro
          · exact fun absent => absent.elim
          · intro elsewhere
            obtain ⟨q, _, accepting, _⟩ := elsewhere
            exact absurd accepting (new_rejects q)
        at_entry := iff_of_true rfl rfl
        accepting := nofun
        starred := fun _ _ => iff_of_false (new_rejects _) Bool.false_ne_true
        moved := nofun
        leads := iff_of_false (fun ⟨s, b, step⟩ => new_stuck _ s b step) (by simp [Pattern.silent])
        heads := fun c => iff_of_false (fun ⟨r, step⟩ => new_stuck _ _ r step) nofun
        loops := fun c => iff_of_false (fun ⟨r, step⟩ => new_stuck _ _ r step) nofun
        looping := fun step => absurd step (new_stuck _ _ _) }

namespace Follows

variable (follows : Follows pattern.hasBar pattern p)

include follows

theorem attachable (loud : pattern.silent = false) : Attachable p.closed origin := by
  have accepting := fun q => follows.current_accepting_closed (q := q) id (.inr loud)
  exact {
    wired := closed_wired follows.sound
    attached := (closed_start p).trans follows.sound.attached
    unreached := by
      rw [follows.steps_closed]
      exact follows.unreached
    leads := by
      rw [follows.steps_closed]
      exact follows.leads.mpr (.inr loud)
    ends := by
      refine ⟨p.nfa.current, fun here => ?_, (accepting _).mpr (.inl rfl)⟩
      simp [((follows.at_origin id).mp here).2] at loud
    stuck := by
      -- A last state that can be left again stands behind an accepting one.
      intro q single s b step
      have only : ∀ r, p.closed.Accepting r → r = q := fun r accepted => by
        simpa [single] using mem_acceptingStates.mpr accepted
      obtain rfl := only _ ((accepting _).mpr (.inl rfl))
      rw [follows.steps_closed] at step
      obtain ⟨r, other, accepted⟩ := follows.looping step
      exact other (only r ((accepting r).mpr (.inr accepted))) }

theorem language_loud (loud : pattern.silent = false) :
    p.closed.language = pattern.said.1 + pattern.said.2 := by
  ext word
  rw [follows.mem_said_iff id (.inr loud), mem_language_iff, closed_start, follows.sound.attached]
  simp

/-- The automaton of a silent pattern has no steps out of its start. -/
theorem stuck_of_silent (silent : pattern.silent = true) (s : Symbol) (b : Nat) :
    ¬ p.closed.Step origin s b := by
  intro step
  rw [follows.steps_closed] at step
  have led := follows.leads.mp ⟨s, b, step⟩
  simp [silent, Pattern.hasBar_of_silent silent] at led

theorem idle_of_silent (silent : pattern.silent = true) :
    (p.closed.stateAt origin).outgoing = [] := by
  rw [List.eq_nil_iff_forall_not_mem]
  intro id listed
  obtain ⟨t, found, _⟩ := (closed_wired follows.sound).outgoing_source listed
  exact follows.stuck_of_silent silent t.symbol t.target
    (step_iff.mpr ⟨id, listed, t, found, rfl, rfl⟩)

theorem language_silent (silent : pattern.silent = true) :
    p.closed.language = if pattern.hasOuterStar then 1 else 0 := by
  have single := Pattern.hasBar_of_silent silent
  have here := (follows.at_origin id).mpr ⟨single, silent⟩
  have absent : p.alternative = none := by simpa [single] using follows.several
  have accepting : p.closed.Accepting origin ↔ pattern.hasOuterStar = true := by
    rw [accepting_closed follows.sound, ← follows.starred single silent, here]
    simp [absent]
  ext word
  rw [mem_language_iff, closed_start, follows.sound.attached]
  apply Iff.intro
  · intro member
    obtain ⟨start, q, attached, accepted, leads⟩ := member
    cases attached
    obtain ⟨rfl, rfl⟩ := Spells.of_stuck (follows.stuck_of_silent silent) leads
    simp [accepting.mp accepted]
  · intro member
    split at member
    · rename_i starred
      obtain rfl := (Language.mem_one word).mp member
      exact ⟨_, _, rfl, accepting.mpr starred, .nil _⟩
    · exact member.elim

end Follows

theorem follows_through (fresh : pattern.Fresh)
    (bars : alternatives = false → pattern.hasBar = false) :
    Follows alternatives pattern (through pattern (opened alternatives)) := by
  induction pattern generalizing alternatives with
  | empty => exact follows_opened alternatives
  | letter before c valid stars ih => exact (ih fresh.1 bars).letter bars c valid stars fresh.2
  | bar before ih =>
      cases alternatives with
      | true =>
          have earlier : Follows true before (through before (opened true)) := ih fresh nofun
          exact earlier.bar
      | false => cases bars rfl
  | group before content stars ih inside =>
      have outer := ih fresh.1 bars
      have inner : Follows content.hasBar content (through content (opened content.hasBar)) :=
        inside fresh.2 id
      cases quiet : content.silent with
      | true =>
          exact outer.silentGroup (closed_wired inner.sound)
            ((closed_start _).trans inner.sound.attached) (inner.idle_of_silent quiet) quiet stars
      | false =>
          refine outer.loudGroup bars (inner.attachable quiet) (inner.language_loud quiet) ?_ quiet
            stars
          intro c
          rw [inner.steps_closed, inner.heads]
          exact and_iff_right_of_imp Pattern.hasBar_of_heads

/-- The language of a compiled pattern, where no repeated letter meets an older edge. -/
theorem language_compiled (fresh : pattern.Fresh) :
    (compiled pattern).language = pattern.accepted := by
  have follows : Follows pattern.hasBar pattern (through pattern (opened pattern.hasBar)) :=
    follows_through fresh id
  rw [compiled, Pattern.accepted]
  split
  · exact follows.language_silent ‹_›
  · rename_i loud
    exact follows.language_loud (Bool.eq_false_of_not_eq_true loud)

end RegexAutomaton.Expression.Progress

namespace RegexAutomaton.Expression

/-- The pattern of `a*b`. -/
def starThenLetter : Pattern :=
  .letter (.letter .empty 'a' rfl 1) 'b' rfl 0

/-- The pattern of `(ab)*a*`. -/
def groupThenStar : Pattern :=
  .letter (.group .empty (.letter (.letter .empty 'a' rfl 0) 'b' rfl 0) 1) 'a' rfl 1

theorem language_starThenLetter :
    starThenLetter.language = KStar.kstar {['a']} * {['b']} := by
  simp [starThenLetter, Pattern.language, Pattern.languages, Pattern.starred]

theorem accepted_starThenLetter :
    starThenLetter.accepted = 1 + {['a']} * KStar.kstar {['a']} * {['b']} := by
  simp [starThenLetter, Pattern.accepted, Pattern.silent, Pattern.said, Pattern.skipped,
    Pattern.passed]

end RegexAutomaton.Expression
