import RegexAutomaton.Proofs.Looping
import RegexAutomaton.Proofs.Lines

namespace RegexAutomaton.Nfa

/-! Where repeated stars on a letter return to.

The loops of a compiled automaton are added late: the state of a loop was entered with
the same letter before. So a star behind such a state takes the way in, not the loop,
and from there the oldest way on. If that is a loop again, the star goes back one state;
else it stays.
-/

variable {n m sub : Nfa} {id q r : Nat} {t into : Transition} {s : Symbol} {c : Char}
  {list : List Transition} {steps more : Steps} {bound : Nat} {word : List Char}

def LoopsLate (n : Nfa) : Prop :=
  ∀ (id : Nat) (t : Transition), n.transitions[id]? = some t → t.source = t.target →
    ∃ older < id, ∃ u, n.transitions[older]? = some u ∧
      u.symbol = t.symbol ∧ u.target = t.target ∧ u.source ≠ u.target

namespace LoopsLate

theorem new : Nfa.new.LoopsLate := by
  intro id t found
  cases found

variable (late : n.LoopsLate)

include late

theorem entered (found : n.transitions[id]? = some t) : ∃ older ≤ id, ∃ u,
    n.transitions[older]? = some u ∧ u.symbol = t.symbol ∧ u.target = t.target ∧
      u.source ≠ u.target := by
  by_cases loop : t.source = t.target
  · obtain ⟨older, below, rest⟩ := late id t found loop
    exact ⟨older, Nat.le_of_lt below, rest⟩
  · exact ⟨id, Nat.le_refl id, t, found, rfl, rfl, loop⟩

/-- Loops may be added wherever their letter leads already. -/
theorem appends (appends : Appends n m list) (linked : m.AllLinked)
    (loops : ∀ {q s}, m.Step q s q → ∃ a, n.Step a s q) : m.LoopsLate := by
  have kept : ∀ {k : Nat} {u : Transition}, n.transitions[k]? = some u → m.transitions[k]? = some u := by
    intro k u old
    rw [← Array.getElem?_toList, appends.transitions_eq, List.getElem?_append_left]
    · simpa using old
    · simpa using (Array.getElem?_eq_some_iff.mp old).1
  intro id t found loop
  by_cases old : id < n.transitions.size
  · have same := kept (Array.getElem?_eq_getElem old)
    obtain rfl := Option.some.inj (found.symm.trans same)
    obtain ⟨older, below, u, before, rest⟩ := late id _ (Array.getElem?_eq_getElem old) loop
    exact ⟨older, below, u, kept before, rest⟩
  · have step := linked.step found
    rw [← loop] at step
    obtain ⟨a, entering⟩ := loops step
    obtain ⟨k, _, v, known, reads, leads⟩ := step_iff.mp entering
    obtain ⟨older, below, u, before, letter, target, apart⟩ := late.entered known
    have inside := (Array.getElem?_eq_some_iff.mp known).1
    exact ⟨older, by omega, u, kept before, letter.trans reads, by rw [target, leads, loop], apart⟩

/-- A way in that is not a loop is older. -/
theorem oldest?_source_ne (wired : n.Wired) (linked : n.AllLinked)
    (oldest : n.oldest? s (n.stateAt q).incoming = some into) : into.source ≠ q := by
  obtain ⟨id, first⟩ := wired.oldest_entering oldest
  obtain ⟨reads, leads⟩ := first.holds
  intro loop
  obtain ⟨older, below, u, before, letter, target, _⟩ :=
    late id into first.found (loop.trans leads.symm)
  exact absurd (first.least older u before (linkedOut_iff.mpr (linked older u before))
    ⟨letter.trans reads, target.trans leads⟩) (Nat.not_le_of_lt below)

variable (wired : n.Wired) (linked : n.AllLinked)

include wired linked

theorem extended (c : Char) : (n.extended c).LoopsLate := by
  have current_lt := wired.current_lt
  refine late.appends (.extended current_lt c) (linked.extended wired c) fun loop => ?_
  rcases (step_extended wired).mp loop with old | ⟨here, _, there⟩
  · exact ⟨_, old⟩
  · omega

theorem looped (source_lt : r < n.stateCount) (entered : n.Step id (.char c) q) :
    (n.looped c r q).LoopsLate := by
  have target_lt := (wired.step_lt entered).2
  have widens : Widens n (n.looped c r q) := widens_looped wired source_lt entered
  refine late.appends (.looped source_lt target_lt c) (widens.linked linked) fun loop => ?_
  rcases (step_looped wired source_lt target_lt).mp loop with old | ⟨rfl, rfl, _⟩
  · exact ⟨_, old⟩
  · exact ⟨_, entered⟩

theorem repeated {fragment : Fragment} (valid : n.HasFragment fragment) :
    (n.repeated fragment).LoopsLate := by
  have widens := widens_repeated wired linked valid
  refine late.appends (.repeated wired valid) (widens.linked linked) fun loop => ?_
  rcases (step_repeated wired valid).mp loop with old | ⟨_, _, _, t, found, reads, leads⟩
  · exact ⟨_, old⟩
  · exact ⟨_, reads ▸ leads ▸ linked.step found⟩

theorem spliced (line : Line sub word) (only : ∀ {q}, sub.Accepting q → q = sub.current)
    (spliceable : Spliceable sub Expression.Progress.origin) :
    (n.spliced sub Expression.Progress.origin).1.LoopsLate := by
  refine late.appends (.spliced wired spliceable.wired spliceable.start_lt)
    (linked.spliced wired spliceable) fun loop => ?_
  rcases (spliceable.step_spliced wired).mp loop with old | inside
  · exact ⟨_, old⟩
  · rw [line.groupSteps_eq only] at inside
    obtain ⟨i, _, _, here, _, there⟩ := inside
    have same := along_injective wired (here.symm.trans there)
    omega

end LoopsLate

/-- Apart from loops, each letter leads on from a state in one way. -/
def Forkless (steps : Steps) : Prop :=
  ∀ (a b b' : Nat) (c : Char),
    steps a (.char c) b → steps a (.char c) b' → b ≠ a → b' ≠ a → b = b'

/-- A state that stars on `c` may return to: it has a loop, and only `c` leads on from it.
The same is then true of a state with a loop that leads to it. -/
inductive Band (steps : Steps) (c : Char) : Nat → Prop where
  | intro {a : Nat} : steps a (.char c) a → (∀ (d : Char) (b : Nat), steps a (.char d) b → d = c) →
      (∀ b, b ≠ a → steps b (.char c) a → steps b (.char c) b → Band steps c b) → Band steps c a

namespace Band

theorem loop {a : Nat} (band : Band steps c a) : steps a (.char c) a := by
  cases band with
  | intro loop => exact loop

theorem only {a b : Nat} {d : Char} (band : Band steps c a) (step : steps a (.char d) b) :
    d = c := by
  cases band with
  | intro _ only => exact only d b step

theorem back {a b : Nat} (band : Band steps c a) (leads : steps b (.char c) a)
    (loop : steps b (.char c) b) : Band steps c b := by
  by_cases here : b = a
  · exact here ▸ band
  · cases band with
    | intro _ _ back => exact back b here leads loop

/-- What is added behind the old states changes nothing, if it begins with `c`. -/
theorem extend {a : Nat} (band : Band steps c a)
    (known : ∀ {a s b}, steps a s b → a < bound ∧ b < bound)
    (keeps : ∀ {a s b}, steps a s b → more a s b)
    (added : ∀ {a s b}, more a s b → steps a s b ∨ bound ≤ b ∧ (a < bound → s = .char c)) :
    Band more c a := by
  induction band with
  | @intro a loop only _ ih =>
      have inside := (known loop).1
      refine .intro (keeps loop) (fun d b step => ?_) fun b other leads round => ?_
      · rcases added step with old | ⟨_, first⟩
        · exact only d b old
        · exact Symbol.char.inj (first inside)
      · rcases added leads with leads | ⟨beyond, _⟩
        · rcases added round with round | ⟨beyond, _⟩
          · exact ih b other leads round
          · exact absurd (known leads).1 (Nat.not_lt_of_le beyond)
        · omega

end Band

/-- A loop that is there already adds no step. -/
theorem step_looped_eq (wired : n.Wired) (source_lt : r < n.stateCount)
    (loop : n.Step q (.char c) q) : (n.looped c r q).Step = n.Step := by
  funext a s b
  rw [step_looped wired source_lt (wired.step_lt loop).2, eq_iff_iff]
  refine or_iff_left_of_imp fun again => ?_
  obtain ⟨rfl, rfl, rfl⟩ := again
  exact loop

/-- A star on a letter behind such a state adds no step. It stays or goes back, to a state
that is left with the letter, too. -/
theorem repeatedLetter_returns (wired : n.Wired) (linked : n.AllLinked) (late : n.LoopsLate)
    (forkless : Forkless n.Step) (band : Band n.Step c n.current)
    (leads : ∃ r, r ≠ n.current ∧ n.Step n.current (.char c) r) :
    (n.repeatedLetter c).Step = n.Step ∧ Band n.Step c (n.repeatedLetter c).current ∧
      ∃ r, r ≠ (n.repeatedLetter c).current ∧
        n.Step (n.repeatedLetter c).current (.char c) r := by
  obtain ⟨_, present⟩ := wired.exists_oldest_entering band.loop
  obtain ⟨into, out, oldestIn, oldestOut, looped⟩ :=
    wired.exists_looped (Option.isSome_of_eq_some present)
  have entering := wired.step_entering oldestIn
  have leaving := Wired.step_leaving oldestOut
  have apart := late.oldest?_source_ne wired linked oldestIn
  have target : Band n.Step c out.target ∧ ∃ r, r ≠ out.target ∧ n.Step out.target (.char c) r := by
    by_cases back : out.target = into.source
    · rw [back] at leaving ⊢
      exact ⟨band.back entering leaving, n.current, apart.symm, entering⟩
    · rw [forkless _ _ _ _ leaving entering back apart.symm]
      exact ⟨band, leads⟩
  rw [looped]
  exact ⟨step_looped_eq wired (wired.oldest_lt oldestIn).1 target.1.loop, target⟩

end RegexAutomaton.Nfa

namespace RegexAutomaton.Expression.Progress

open Nfa

variable {p : Progress} {pattern : Pattern}

theorem late_again (sound : p.Sound) (linked : p.nfa.AllLinked) (late : p.nfa.LoopsLate) :
    p.again.nfa.LoopsLate := by
  have wired := sound.wired
  rcases again_cases sound with same | ⟨c, into, out, _, oldestIn, oldestOut, looped⟩ |
    ⟨fragment, _, valid, repeated⟩
  · rwa [same]
  · rw [looped]
    exact late.looped wired linked (wired.oldest_lt oldestIn).1 (Wired.step_leaving oldestOut)
  · rw [repeated]
    exact late.repeated wired linked valid

theorem late_iterate_again (sound : p.Sound) (linked : p.nfa.AllLinked) (late : p.nfa.LoopsLate)
    (stars : Nat) : (again^[stars] p).nfa.LoopsLate :=
  iterate_again_keeps (motive := fun after => after.nfa.LoopsLate) sound linked late late_again stars

theorem late_through (bars : pattern.hasBars = false) (inside : pattern.repeatsInside = false) :
    (through pattern (opened false)).nfa.LoopsLate := by
  induction pattern with
  | empty => exact .new
  | letter before c valid stars ih =>
      have sound := through_sound before _ (.opened false)
      have linked : (through before (opened false)).nfa.AllLinked :=
        linked_through fun _ => Pattern.hasBar_of_hasBars bars
      exact late_iterate_again (sound.lettered c) (linked.extended sound.wired c)
        ((ih bars inside).extended sound.wired linked c) stars
  | group before content stars ih _ =>
      have sound := through_sound before _ (.opened false)
      simp only [Pattern.hasBars, Bool.or_eq_false_iff] at bars
      simp only [Pattern.repeatsInside, Bool.or_eq_false_iff] at inside
      have linked : (through before (opened false)).nfa.AllLinked :=
        linked_through fun _ => Pattern.hasBar_of_hasBars bars.1
      have late := ih bars.1 inside.1.1
      refine late_iterate_again (sound_grouped sound content) (linked_grouped sound linked content)
        ?_ stars
      cases quiet : content.silent with
      | true =>
          rw [grouped_silent quiet]
          exact late
      | false =>
          rw [grouped_loud quiet]
          exact late.spliced sound.wired linked (line_compiled bars.2 inside.1.2 inside.2)
            (only_compiled bars.2 inside.1.2) (spliceable_compiled quiet)
  | bar => cases bars

end RegexAutomaton.Expression.Progress
