import RegexAutomaton.Nfa.Determined
import RegexAutomaton.Proofs.Returning

namespace RegexAutomaton.Expression

open Nfa Progress

/-! Where an automaton without epsilons is deterministic up to loops.

A star copies the first edge of a factor to its exit, where the next factor begins as
well. If the factor has several letters, the copy leads elsewhere, and a next factor
with the same first letter makes a fork. A star on a letter behind a loop with that
letter returns to the loop and leaves its own edge behind, to the same effect. There is
no other way to make a fork, and a fork is never undone.
-/

variable {before more content : Pattern} {n m : Nfa} {p : Progress} {word : List Char} {c : Char}
  {stars : Nat}

namespace Pattern

/-- The letters with a loop on the state behind the pattern. -/
def turns : Pattern → Char → Bool
  | empty, _ | bar _, _ => false
  | letter _ c _ stars, d => stars != 0 && c == d
  | group before content stars, d =>
      match content.word with
      | [] => before.turns d
      | [c] => stars != 0 && c == d
      | _ :: _ :: _ => false

/-- The letters that lead from there to another state. -/
def leaves : Pattern → Char → Bool
  | empty, _ | bar _, _ => false
  | letter before c _ stars, d => stars != 0 && c == d && before.turns d
  | group before content stars, d =>
      match content.word with
      | [] => before.leaves d
      | [_] => false
      | c :: _ :: _ => stars != 0 && c == d

/-- No factor begins with a letter that leads on already. -/
def determined : Pattern → Bool
  | empty => true
  | letter before c _ _ => before.determined && !before.leaves c
  | group before content _ => before.determined && !content.word.head?.any before.leaves
  | bar before => before.determined

end Pattern

/-- No state has a fork, and what leads on from the current one is known. -/
structure Settled (pattern : Pattern) (n : Nfa) : Prop where
  forkless : Forkless n.Step
  turns {c : Char} : n.Step n.current (.char c) n.current → pattern.turns c = true
  leaves {c : Char} : pattern.leaves c = true ↔
    ∃ r, r ≠ n.current ∧ n.Step n.current (.char c) r
  band {c : Char} : pattern.turns c = true → Band n.Step c n.current

/-- A fork stays, whatever is added. -/
theorem not_forkless_mono {steps more : Steps} (fork : ¬ Forkless steps)
    (keeps : ∀ {a s b}, steps a s b → more a s b) : ¬ Forkless more :=
  fun forkless => fork fun a b b' c first second =>
    forkless a b b' c (keeps first) (keeps second)

namespace Settled

variable (settled : Settled before n) (wired : n.Wired)

include settled wired

theorem fork (leads : before.leaves c = true) (keeps : ∀ {a s b}, n.Step a s b → m.Step a s b)
    (first : m.Step n.current (.char c) n.stateCount) : ¬ Forkless m.Step := by
  intro forkless
  obtain ⟨r, apart, step⟩ := settled.leaves.mp leads
  have known := (wired.step_lt step).2
  have current_lt := wired.current_lt
  have same := forkless _ _ _ _ (keeps step) first apart (by omega)
  omega

variable (factor : Factor n m (lineSteps n word) (lineCopies n word) stars)
  (exit : m.current = n.along word.length)
  (free : ∀ c, word.head? = some c → before.leaves c = false)

include factor free

theorem forkless_factor : Forkless m.Step := by
  have current_lt := wired.current_lt
  have fresh := factor.exit_fresh
  have clash : ∀ {a b b' : Nat} {c : Char}, n.Step a (.char c) b → b ≠ a →
      lineSteps n word a (.char c) b' → False := by
    intro a b b' c old apart inside
    have known := (wired.step_lt old).1
    obtain ⟨here | beyond, _⟩ := factor.source inside
    · obtain ⟨i, d, letter, place, reads, _⟩ := inside
      cases reads
      obtain rfl : i = 0 := along_injective wired (place.symm.trans here)
      subst here
      rw [← List.head?_eq_getElem?] at letter
      have led := settled.leaves.mpr ⟨b, apart, old⟩
      simp [free _ letter] at led
    · omega
  intro a b b' c first second apart apart'
  rcases factor.step_iff.mp first with old | inside | ⟨_, here, copy⟩
  · rcases factor.step_iff.mp second with old' | inside' | ⟨_, here', _⟩
    · exact settled.forkless _ _ _ _ old old' apart apart'
    · exact (clash old apart inside').elim
    · have known := (wired.step_lt old).1
      omega
  · rcases factor.step_iff.mp second with old' | inside' | ⟨_, here', _⟩
    · exact (clash old' apart' inside).elim
    · obtain ⟨i, _, _, place, _, rfl⟩ := inside
      obtain ⟨j, _, _, place', _, rfl⟩ := inside'
      rw [along_injective wired (place.symm.trans place')]
    · exact absurd here' (factor.source inside).2
  · rcases factor.step_iff.mp second with old' | inside' | ⟨_, _, copy'⟩
    · have known := (wired.step_lt old').1
      omega
    · exact absurd here (factor.source inside').2
    · obtain ⟨_, _, _, rfl⟩ := copy
      obtain ⟨_, _, _, rfl⟩ := copy'
      rfl

include exit

/-- Behind a factor with several letters, the first one leads back into it. Behind a
single letter it is a loop, and the state before is the only one to return to. -/
theorem add (turns : ∀ d, more.turns d = true ↔ stars ≠ 0 ∧ word = [d])
    (leaves : ∀ d, more.leaves d = true ↔ stars ≠ 0 ∧ word.head? = some d ∧ word.length ≠ 1) :
    Settled more m := by
  have current_lt := wired.current_lt
  have fresh := factor.exit_fresh
  have first_iff : m.current = n.stateCount ↔ word.length = 1 := by
    rw [exit]
    exact ⟨fun same => along_injective wired (j := 1) same, fun single => by rw [single]; rfl⟩
  exact {
    forkless := settled.forkless_factor wired factor free
    turns := by
      intro c step
      obtain ⟨starred, d, first, reads, here⟩ := (factor.step_exit wired).mp step
      cases reads
      obtain ⟨e, single⟩ := List.length_eq_one_iff.mp (first_iff.mp here)
      rw [single, List.head?_cons, Option.some_inj] at first
      exact (turns c).mpr ⟨starred, by rw [single, first]⟩
    leaves := by
      intro c
      rw [leaves]
      simp only [factor.step_exit wired]
      apply Iff.intro
      · intro leads
        obtain ⟨starred, first, several⟩ := leads
        exact ⟨_, fun same => several (first_iff.mp same.symm), starred, c, first, rfl, rfl⟩
      · intro leads
        obtain ⟨r, apart, starred, d, first, reads, rfl⟩ := leads
        cases reads
        exact ⟨starred, first, fun single => apart (first_iff.mpr single).symm⟩
    band := by
      intro c turning
      obtain ⟨starred, rfl⟩ := (turns c).mp turning
      have here := first_iff.mpr rfl
      have at_exit : ∀ {s b}, m.Step m.current s b ↔ stars ≠ 0 ∧ lineCopies n [c] s b :=
        factor.step_exit wired
      refine .intro (at_exit.mpr ⟨starred, c, rfl, rfl, here⟩) (fun d b step => ?_)
        fun b apart leads loop => ?_
      · obtain ⟨_, e, first, reads, _⟩ := at_exit.mp step
        cases reads
        exact (Option.some.inj first).symm
      · obtain rfl : b = n.current := by
          rcases factor.step_iff.mp leads with old | ⟨i, _, _, rfl, _, next⟩ | ⟨_, same, _⟩
          · have known := (wired.step_lt old).2
            omega
          · rw [exit] at next
            obtain rfl : i = 0 := by simpa using (along_injective wired next).symm
            rfl
          · exact absurd same apart
        have old : n.Step n.current (.char c) n.current := by
          rcases factor.step_iff.mp loop with old | inside | ⟨_, same, _⟩
          · exact old
          · have beyond := factor.target inside
            omega
          · exact absurd same apart
        refine (settled.band (settled.turns old)).extend wired.step_lt
          (fun step => factor.step_iff.mpr (.inl step)) fun step => ?_
        rcases factor.step_iff.mp step with old | inside | ⟨_, _, copy⟩
        · exact .inl old
        · refine .inr ⟨factor.target inside, fun _ => ?_⟩
          obtain ⟨i, d, letter, _, rfl, _⟩ := inside
          cases i with
          | zero => rw [Option.some.inj letter]
          | succ i => cases letter
        · obtain ⟨d, first, rfl, rfl⟩ := copy
          exact .inr ⟨Nat.le_refl _, fun _ => by rw [Option.some.inj first]⟩ }

end Settled

theorem letterSteps_eq (n : Nfa) (c : Char) : letterSteps n c = lineSteps n [c] := by
  funext a s b
  rw [eq_iff_iff]
  apply Iff.intro
  · intro inside
    obtain ⟨rfl, rfl, rfl⟩ := inside
    exact ⟨0, c, rfl, rfl, rfl, rfl⟩
  · intro inside
    obtain ⟨i, d, letter, rfl, rfl, rfl⟩ := inside
    cases i with
    | zero =>
        cases letter
        exact ⟨rfl, rfl, rfl⟩
    | succ i => cases letter

theorem letterCopies_eq (n : Nfa) (c : Char) : letterCopies n c = lineCopies n [c] := by
  funext s b
  simp [letterCopies, lineCopies]

theorem Settled.forkless_extended (settled : Settled before n) (wired : n.Wired)
    (free : before.leaves c = false) : Forkless (n.extended c).Step := by
  have factor := Factor.letter wired c
  rw [letterSteps_eq, letterCopies_eq] at factor
  exact settled.forkless_factor wired factor (by simpa using free)

/-- The star on a letter that only loops lead on from finds such a loop. -/
theorem repeatedLetter_of_loop (wired : n.Wired) (loop : n.Step n.current (.char c) n.current)
    (only : ∀ r, n.Step n.current (.char c) r → r = n.current) :
    (n.extended c).repeatedLetter c = (n.extended c).looped c n.current n.current := by
  obtain ⟨older, oldest⟩ := exists_oldest_of_step loop
  rw [repeatedLetter_extended wired, oldest]
  exact congrArg _ (only _ (Wired.step_leaving oldest))

/-- Behind a loop with the letter, the first star returns to that loop, and more stars
return further or stay. -/
theorem iterate_again_returns (settled : Settled before p.nfa) (sound : p.Sound)
    (linked : p.nfa.AllLinked) (late : p.nfa.LoopsLate) (turning : before.turns c = true)
    (free : before.leaves c = false) (stars : Nat) :
    (again^[stars + 1] (p.lettered c)).nfa.Step = (p.nfa.extended c).Step ∧
      Band (p.nfa.extended c).Step c (again^[stars + 1] (p.lettered c)).nfa.current ∧
      ∃ r, r ≠ (again^[stars + 1] (p.lettered c)).nfa.current ∧
        (p.nfa.extended c).Step (again^[stars + 1] (p.lettered c)).nfa.current (.char c) r := by
  have wired := sound.wired
  have band := settled.band turning
  have lettered := sound.lettered c
  have extended : (p.lettered c).nfa.AllLinked := linked.extended wired c
  induction stars with
  | zero =>
      have only : ∀ r, p.nfa.Step p.nfa.current (.char c) r → r = p.nfa.current := by
        intro r step
        by_contra apart
        simp [settled.leaves.mpr ⟨r, apart, step⟩] at free
      have current_lt := wired.current_lt
      have within : p.nfa.current < (p.nfa.extended c).stateCount := by simp; omega
      have result : (again^[0 + 1] (p.lettered c)).nfa =
          (p.nfa.extended c).looped c p.nfa.current p.nfa.current := by
        rw [Function.iterate_succ_apply', Function.iterate_zero_apply, again_letter rfl]
        exact repeatedLetter_of_loop wired band.loop only
      have returned : (again^[0 + 1] (p.lettered c)).nfa.current = p.nfa.current := by
        rw [result, Nfa.looped]
      rw [returned, result]
      have kept : Band (p.nfa.extended c).Step c p.nfa.current := by
        refine band.extend wired.step_lt (fun step => (step_extended wired).mpr (.inl step))
          fun step => ?_
        rcases (step_extended wired).mp step with old | ⟨_, reads, fresh⟩
        · exact .inl old
        · exact .inr ⟨Nat.le_of_eq fresh.symm, fun _ => reads⟩
      have leads : (p.nfa.extended c).Step p.nfa.current (.char c) p.nfa.stateCount :=
        (step_extended wired).mpr (.inr ⟨rfl, rfl, rfl⟩)
      exact ⟨step_looped_eq (wired.extended c) within kept.loop, kept, _, Nat.ne_of_gt current_lt,
        leads⟩
  | succ stars ih =>
      obtain ⟨same, returns⟩ := ih
      have last : (again^[stars + 1] (p.lettered c)).last = some (.letter c) :=
        iterate_again_last _ _
      rw [Function.iterate_succ_apply', again_letter last, ← same]
      rw [← same] at returns
      refine repeatedLetter_returns (lettered.iterate_again _).wired
        ((iterate_again_widens lettered extended _).linked extended)
        (late_iterate_again lettered extended (late.extended wired linked c) _) ?_ returns.1 returns.2
      rw [same]
      exact settled.forkless_extended wired free

theorem Settled.letter (settled : Settled before p.nfa) (sound : p.Sound)
    (linked : p.nfa.AllLinked) (late : p.nfa.LoopsLate) (valid : isLetter c = true)
    (free : before.leaves c = false) (stars : Nat) :
    Settled (.letter before c valid stars) (again^[stars] (p.lettered c)).nfa := by
  have wired := sound.wired
  by_cases returning : stars ≠ 0 ∧ before.turns c = true
  · obtain ⟨starred, turning⟩ := returning
    obtain ⟨stars, rfl⟩ := Nat.exists_eq_succ_of_ne_zero starred
    obtain ⟨same, band, leads⟩ :=
      iterate_again_returns settled sound linked late turning free stars
    rw [← same] at band leads
    exact {
      forkless := by
        rw [same]
        exact settled.forkless_extended wired free
      turns := fun loop => by simp [Pattern.turns, band.only loop]
      leaves := by
        intro d
        simp only [Pattern.leaves, Bool.and_eq_true, bne_iff_ne, beq_iff_eq]
        apply Iff.intro
        · intro facts
          obtain ⟨⟨_, rfl⟩, _⟩ := facts
          exact leads
        · intro other
          obtain ⟨r, apart, step⟩ := other
          obtain rfl := band.only step
          exact ⟨⟨starred, rfl⟩, turning⟩
      band := by
        intro d turns
        obtain rfl : c = d := by simpa [Pattern.turns] using turns
        exact band }
  · have absent : stars ≠ 0 → ∀ r, ¬ p.nfa.Step p.nfa.current (.char c) r := by
      intro starred r step
      by_cases here : r = p.nfa.current
      · exact returning ⟨starred, settled.turns (here ▸ step)⟩
      · simp [settled.leaves.mpr ⟨r, here, step⟩] at free
    obtain ⟨exit, factor⟩ := factor_letter sound c stars absent
    rw [letterSteps_eq, letterCopies_eq] at factor
    refine settled.add wired factor exit (by simpa using free) (fun d => ?_) fun d => ?_
    · simp [Pattern.turns]
    · simp only [Pattern.leaves, Bool.and_eq_true, bne_iff_ne, beq_iff_eq]
      grind

theorem Settled.silentGroup (settled : Settled before p.nfa) (sound : p.Sound)
    (silent : content.silent = true) (stars : Nat) :
    Settled (.group before content stars) (again^[stars] (p.grouped (compiled content))).nfa := by
  obtain ⟨current, step, _⟩ := trace_of_silent sound silent stars
  have same : (again^[stars] (p.grouped (compiled content))).nfa.Step = p.nfa.Step := by
    funext a s b
    exact propext step
  have empty := (Pattern.nothing_of_silent silent).1
  exact {
    forkless := by
      rw [same]
      exact settled.forkless
    turns := fun loop => by
      rw [same, current] at loop
      simpa [Pattern.turns, empty] using settled.turns loop
    leaves := by
      intro c
      rw [same, current, ← settled.leaves]
      simp [Pattern.leaves, empty]
    band := by
      intro c turns
      rw [same, current]
      exact settled.band (by simpa [Pattern.turns, empty] using turns) }

theorem attachable_compiled (loud : content.silent = false) (bars : content.hasBars = false)
    (outside : content.repeatsOutside = false) (inside : content.repeatsInside = false) :
    Attachable (compiled content) origin where
  toSpliceable := spliceable_compiled loud
  stuck := by
    intro q single s b step
    have line := line_compiled bars outside inside
    have accepting : (compiled content).Accepting q := mem_acceptingStates.mp (by simp [single])
    obtain ⟨c, letter, _⟩ := line.step_iff.mp step
    simp [only_compiled bars outside accepting, line.current_eq] at letter

theorem Settled.loudGroup (settled : Settled before p.nfa) (sound : p.Sound)
    (loud : content.silent = false) (bars : content.hasBars = false)
    (outside : content.repeatsOutside = false) (inside : content.repeatsInside = false)
    (free : ∀ c, content.word.head? = some c → before.leaves c = false) (stars : Nat) :
    Settled (.group before content stars) (again^[stars] (p.grouped (compiled content))).nfa := by
  have attachable := attachable_compiled loud bars outside inside
  have line := line_compiled bars outside inside
  have nonempty := Pattern.word_of_loud loud bars
  obtain ⟨exit, _, factor⟩ := factor_group sound attachable stars
  rw [line.groupSteps_eq (only_compiled bars outside), line.groupCopies_eq] at factor
  rw [(line.spliced_facts (only_compiled bars outside) attachable.toSpliceable).1] at exit
  refine settled.add sound.wired factor exit free (fun d => ?_) fun d => ?_
  · match word : content.word with
    | [] => exact absurd word nonempty
    | [c] => simp [Pattern.turns, word]
    | c :: e :: rest => simp [Pattern.turns, word]
  · match word : content.word with
    | [] => exact absurd word nonempty
    | [c] => simp [Pattern.leaves, word]
    | c :: e :: rest => simp [Pattern.leaves, word]

theorem settled_new : Settled .empty Nfa.new where
  forkless a b _ c step := absurd step (new_stuck a (.char c) b)
  turns step := absurd step (new_stuck _ _ _)
  leaves := by
    intro c
    simp [Pattern.leaves, new_stuck]
  band turns := nomatch turns

/-- One factor after the other, either nothing has gone wrong or there is a fork. -/
theorem settled_through {pattern : Pattern} (bars : pattern.hasBars = false)
    (inside : pattern.repeatsInside = false) :
    (pattern.determined = true → Settled pattern (through pattern (opened false)).nfa) ∧
      (pattern.determined = false → ¬ Forkless (through pattern (opened false)).nfa.Step) := by
  induction pattern with
  | empty => exact ⟨fun _ => settled_new, nofun⟩
  | letter before c valid stars ih =>
      obtain ⟨settled, forked⟩ := ih bars inside
      have sound := through_sound before _ (.opened false)
      have linked : (through before (opened false)).nfa.AllLinked :=
        linked_through fun _ => Pattern.hasBar_of_hasBars bars
      have widens := iterate_again_widens (sound.lettered c) (linked.extended sound.wired c) stars
      have keeps : ∀ {a s b}, (through before (opened false)).nfa.Step a s b →
          (through (.letter before c valid stars) (opened false)).nfa.Step a s b :=
        fun step => widens.keeps ((step_extended sound.wired).mpr (.inl step))
      simp only [Pattern.determined, Bool.and_eq_true, Bool.and_eq_false_iff, Bool.not_eq_true',
        Bool.not_eq_false']
      refine ⟨fun fine => ?_, fun wrong => ?_⟩
      · exact (settled fine.1).letter sound linked (late_through bars inside) valid fine.2 stars
      · cases earlier : before.determined with
        | false => exact not_forkless_mono (forked earlier) keeps
        | true =>
            have leads : before.leaves c = true := by simpa [earlier] using wrong
            exact (settled earlier).fork sound.wired leads keeps
              (widens.keeps ((step_extended sound.wired).mpr (.inr ⟨rfl, rfl, rfl⟩)))
  | group before content stars ih _ =>
      simp only [Pattern.hasBars, Bool.or_eq_false_iff] at bars
      simp only [Pattern.repeatsInside, Bool.or_eq_false_iff] at inside
      obtain ⟨settled, forked⟩ := ih bars.1 inside.1.1
      have sound := through_sound before _ (.opened false)
      have linked : (through before (opened false)).nfa.AllLinked :=
        linked_through fun _ => Pattern.hasBar_of_hasBars bars.1
      have widens := grouped_widens sound linked content stars
      simp only [Pattern.determined, Bool.and_eq_true, Bool.and_eq_false_iff, Bool.not_eq_true',
        Bool.not_eq_false']
      cases quiet : content.silent with
      | true =>
          rw [grouped_silent quiet] at widens
          rw [(Pattern.nothing_of_silent quiet).1]
          refine ⟨fun fine => (settled fine.1).silentGroup sound quiet stars, fun wrong => ?_⟩
          exact not_forkless_mono (forked (by simpa using wrong)) widens.keeps
      | false =>
          have spliceable := spliceable_compiled quiet
          have line := line_compiled bars.2 inside.1.2 inside.2
          rw [grouped_loud quiet] at widens
          have keeps : ∀ {a s b}, (through before (opened false)).nfa.Step a s b →
              (through (.group before content stars) (opened false)).nfa.Step a s b :=
            fun step => widens.keeps ((spliceable.step_spliced sound.wired).mpr (.inl step))
          refine ⟨fun fine => ?_, fun wrong => ?_⟩
          · exact (settled fine.1).loudGroup sound quiet bars.2 inside.1.2 inside.2
              (fun c first => by simpa [first] using fine.2) stars
          · cases earlier : before.determined with
            | false => exact not_forkless_mono (forked earlier) keeps
            | true =>
                obtain ⟨c, first, leads⟩ : ∃ c, content.word.head? = some c ∧ before.leaves c = true :=
                  (Option.any_eq_true _ _).mp (by simpa [earlier] using wrong)
                refine (settled earlier).fork sound.wired leads keeps
                  (widens.keeps ((spliceable.step_spliced sound.wired).mpr (.inr ?_)))
                rw [line.groupSteps_eq (only_compiled bars.2 inside.1.2)]
                exact ⟨0, c, by rw [← List.head?_eq_getElem?, first], rfl, rfl, rfl⟩
  | bar => cases bars

theorem determined_compiled {pattern : Pattern} (bars : pattern.hasBars = false)
    (inside : pattern.repeatsInside = false) :
    (compiled pattern).Determined ↔ pattern.determined = true := by
  obtain ⟨settled, forked⟩ := settled_through bars inside
  have wired := compiled_wired pattern
  have rooted := compiled_rooted pattern
  rw [← compiled_of_single (Pattern.hasBar_of_hasBars bars)] at settled forked
  apply Iff.intro
  · intro determined
    by_contra wrong
    refine forked (by simpa using wrong) fun a b b' c first second => ?_
    exact determined a b b' c ⟨origin, compiled_start pattern,
      rooted.reached a (wired.step_lt first).1⟩ first second
  · exact fun fine q r r' c _ => (settled fine).forkless q r r' c

/-- Without epsilons, an automaton is deterministic up to loops exactly if no factor of
the expression begins with a letter that leads on already. -/
theorem compile_determined {e : String} (done : (compile e).outcome = .ok n)
    (free : n.containsEpsilon = .ok false) :
    ∃ p : Pattern, (∀ q : Pattern, q.text = e.toList ↔ q = p) ∧
      (n.Determined ↔ p.determined = true) := by
  obtain ⟨p, unique, rfl⟩ := reading_exists done
  obtain ⟨contains, reported, epsilons⟩ := containsEpsilon_compiled p
  cases reported.symm.trans free
  have neither : p.hasBars = false ∧ p.repeatsInside = false := by simpa using epsilons
  exact ⟨p, unique, determined_compiled neither.1 neither.2⟩

/-- The copied edge of the first expression and the abandoned one of the second make a
fork. In the third the next factors begin with other letters. -/
theorem compile_determined_of_repeated_heads :
    (∃ n, (compile "(ab)*a").outcome = .ok n ∧ n.containsEpsilon = .ok false ∧ ¬ n.Determined) ∧
    (∃ n, (compile "a*a*a").outcome = .ok n ∧ n.containsEpsilon = .ok false ∧ ¬ n.Determined) ∧
    ∃ n, (compile "(ab)*b*()*a").outcome = .ok n ∧ n.containsEpsilon = .ok false ∧
      n.Determined := by
  let copied : Pattern := .letter (.group .empty
    (.letter (.letter .empty 'a' rfl 0) 'b' rfl 0) 1) 'a' rfl 0
  let abandoned : Pattern := .letter (.letter (.letter .empty 'a' rfl 1) 'a' rfl 1) 'a' rfl 0
  let apart : Pattern := .letter (.group (.letter (.group .empty
    (.letter (.letter .empty 'a' rfl 0) 'b' rfl 0) 1) 'b' rfl 1) .empty 1) 'a' rfl 0
  have first : (compile "(ab)*a").outcome = .ok (compiled copied) :=
    compile_of_text (by decide) rfl
  have second : (compile "a*a*a").outcome = .ok (compiled abandoned) :=
    compile_of_text (by decide) rfl
  have third : (compile "(ab)*b*()*a").outcome = .ok (compiled apart) :=
    compile_of_text (by decide) rfl
  have silent : ∀ p ∈ [copied, abandoned, apart], (compiled p).containsEpsilon = .ok false := by
    decide +kernel
  obtain ⟨p, unique, forks⟩ := compile_determined first (silent _ (by simp))
  obtain rfl : copied = p := (unique _).mp rfl
  obtain ⟨p, unique, forks'⟩ := compile_determined second (silent _ (by simp))
  obtain rfl : abandoned = p := (unique _).mp rfl
  obtain ⟨p, unique, determined⟩ := compile_determined third (silent _ (by simp))
  obtain rfl : apart = p := (unique _).mp rfl
  refine ⟨⟨_, first, silent _ (by simp), ?_⟩, ⟨_, second, silent _ (by simp), ?_⟩, _, third,
    silent _ (by simp), determined.mpr rfl⟩
  · exact fun fine => by cases forks.mp fine
  · exact fun fine => by cases forks'.mp fine

end RegexAutomaton.Expression
