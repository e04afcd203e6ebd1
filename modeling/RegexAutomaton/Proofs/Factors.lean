import RegexAutomaton.Proofs.Splicing
import RegexAutomaton.Proofs.Accepted
import RegexAutomaton.Proofs.Words

namespace RegexAutomaton.Nfa

open Expression (Pattern)

variable {n m sub : Nfa} {inner : Steps} {copies : Symbol → Nat → Prop} {stars q r : Nat}
  {a b : Nat} {s : Symbol} {c : Char}

/-- The steps of a factor lead from the current state of `n` through fresh ones to a fresh
exit, where construction goes on. Stars copy the first of these steps to the exit and make the
entry accepting. -/
structure Factor (n m : Nfa) (inner : Steps) (copies : Symbol → Nat → Prop) (stars : Nat) :
    Prop where
  step_iff {a : Nat} {s : Symbol} {b : Nat} : m.Step a s b ↔
    n.Step a s b ∨ inner a s b ∨ stars ≠ 0 ∧ a = m.current ∧ copies s b
  source {a : Nat} {s : Symbol} {b : Nat} :
    inner a s b → (a = n.current ∨ n.stateCount ≤ a) ∧ a ≠ m.current
  target {a : Nat} {s : Symbol} {b : Nat} : inner a s b → n.stateCount ≤ b
  copied {s : Symbol} {b : Nat} : copies s b → inner n.current s b
  covered {s : Symbol} {b : Nat} :
    inner n.current s b → copies s b ∨ s = .epsilon ∧ b = m.current
  exit_fresh : n.stateCount ≤ m.current
  accepting_iff {r : Nat} : m.Accepting r ↔ r = m.current ∨ stars ≠ 0 ∧ r = n.current ∨
    r < n.stateCount ∧ r ≠ n.current ∧ n.Accepting r

namespace Factor

variable (factor : Factor n m inner copies stars) (wired : n.Wired)

include factor wired

theorem attaches : Attaches n.Step
    (fun a s b => inner a s b ∨ stars ≠ 0 ∧ a = m.current ∧ copies s b) m.Step
    n.stateCount n.current where
  step_iff := factor.step_iff
  old := wired.step_lt
  source := by
    intro a s b step
    rcases step with inside | ⟨_, rfl, _⟩
    · exact (factor.source inside).1
    · exact .inr factor.exit_fresh
  target := by
    intro a s b step
    rcases step with inside | ⟨_, _, copy⟩
    · exact factor.target inside
    · exact factor.target (factor.copied copy)

theorem words_old (known : r < n.stateCount) : words m.Step q r = words n.Step q r :=
  (factor.attaches wired).words_old known

theorem words_exit (known : q < n.stateCount) : words m.Step q m.current =
    words n.Step q n.current * Pattern.passed stars (words inner n.current m.current) := by
  rw [(factor.attaches wired).words_fresh known factor.exit_fresh]
  congr 1
  rw [Pattern.passed]
  split
  · rename_i unstarred
    simp [unstarred]
  · rename_i starred
    have repeats : Repeats inner
        (fun a s b => inner a s b ∨ stars ≠ 0 ∧ a = m.current ∧ copies s b) copies
        n.current m.current := {
      step_iff := by simp [starred]
      copied := factor.copied
      covered := factor.covered
      apart := Nat.ne_of_lt (Nat.lt_of_lt_of_le wired.current_lt factor.exit_fresh) }
    exact repeats.words_exit

theorem step_exit : m.Step m.current s b ↔ stars ≠ 0 ∧ copies s b := by
  rw [factor.step_iff]
  apply Iff.intro
  · intro step
    rcases step with old | inside | ⟨starred, _, copy⟩
    · have known := (wired.step_lt old).1
      have fresh := factor.exit_fresh
      omega
    · exact absurd rfl (factor.source inside).2
    · exact ⟨starred, copy⟩
  · intro again
    obtain ⟨starred, copy⟩ := again
    exact .inr (.inr ⟨starred, rfl, copy⟩)

/-- The words accepted before the exit: those accepted before the entry, and with
a star those that lead to the entry. -/
theorem accepted_elsewhere {start : Nat} {word : List Char} :
    (∃ q, q ≠ m.current ∧ m.Accepting q ∧ word ∈ words m.Step start q) ↔
      (∃ q, q ≠ n.current ∧ n.Accepting q ∧ word ∈ words n.Step start q) ∨
        stars ≠ 0 ∧ word ∈ words n.Step start n.current := by
  have fresh := factor.exit_fresh
  have current_lt := wired.current_lt
  apply Iff.intro
  · intro elsewhere
    obtain ⟨q, other, accepting, leads⟩ := elsewhere
    rcases factor.accepting_iff.mp accepting with rfl | ⟨starred, rfl⟩ | ⟨known, apart, accepting⟩
    · exact absurd rfl other
    · rw [factor.words_old wired current_lt] at leads
      exact .inr ⟨starred, leads⟩
    · rw [factor.words_old wired known] at leads
      exact .inl ⟨q, apart, accepting, leads⟩
  · intro earlier
    rcases earlier with ⟨q, other, accepting, leads⟩ | ⟨starred, leads⟩
    · have known := lt_of_accepting accepting
      rw [← factor.words_old wired known] at leads
      exact ⟨q, by omega, factor.accepting_iff.mpr (.inr (.inr ⟨known, other, accepting⟩)), leads⟩
    · rw [← factor.words_old wired current_lt] at leads
      exact ⟨n.current, by omega, factor.accepting_iff.mpr (.inr (.inl ⟨starred, rfl⟩)), leads⟩

end Factor

def letterSteps (n : Nfa) (c : Char) : Steps := fun a s b =>
  a = n.current ∧ s = .char c ∧ b = n.stateCount

def letterCopies (n : Nfa) (c : Char) (s : Symbol) (b : Nat) : Prop :=
  s = .char c ∧ b = n.stateCount

theorem Factor.letter (wired : n.Wired) (c : Char) :
    Factor n (n.extended c) (letterSteps n c) (letterCopies n c) 0 where
  step_iff := by simp [step_extended wired, letterSteps]
  source := by
    intro a s b step
    obtain ⟨rfl, rfl, rfl⟩ := step
    exact ⟨.inl rfl, Nat.ne_of_lt wired.current_lt⟩
  target := by
    intro a s b step
    obtain ⟨rfl, rfl, rfl⟩ := step
    exact Nat.le_refl _
  copied copy := ⟨rfl, copy⟩
  covered inside := .inl inside.2
  exit_fresh := Nat.le_refl _
  accepting_iff := by
    intro r
    rw [accepting_extended wired]
    apply Iff.intro
    · intro accepts
      rcases accepts with rfl | ⟨other, accepting⟩
      · exact .inl rfl
      · exact .inr (.inr ⟨lt_of_accepting accepting, other, accepting⟩)
    · intro accepts
      rcases accepts with rfl | ⟨starred, _⟩ | ⟨_, other, accepting⟩
      · exact .inl rfl
      · exact absurd rfl starred
      · exact .inr ⟨other, accepting⟩

theorem words_letterSteps (wired : n.Wired) :
    words (letterSteps n c) n.current n.stateCount = {[c]} := by
  have apart := Nat.ne_of_lt wired.current_lt
  ext word
  apply Iff.intro
  · intro spells
    rcases Spells.first_step spells with ⟨same, _⟩ | ⟨s, next, rest, ⟨_, rfl, rfl⟩, later, rfl⟩
    · exact absurd same.symm apart
    · have stuck : ∀ s b, ¬ letterSteps n c n.stateCount s b := fun s b inside =>
        apart inside.1.symm
      rw [(later.of_stuck stuck).2]
      rfl
  · intro same
    subst same
    exact Spells.of_step (s := .char c) ⟨rfl, rfl, rfl⟩

/-- Where no older edge reads the letter, the repetition finds the edge of the
factor, or after the first star the loop on its exit. -/
theorem Factor.repeatLetter
    (factor : Factor n m (letterSteps n c) (letterCopies n c) stars) (wired : n.Wired)
    (kept : m.Wired) (exit : m.current = n.stateCount)
    (fresh : ∀ r, ¬ n.Step n.current (.char c) r) :
    (m.repeatedLetter c).current = n.stateCount ∧
      Factor n (m.repeatedLetter c) (letterSteps n c) (letterCopies n c) (stars + 1) := by
  have entering : m.Step n.current (.char c) m.current :=
    factor.step_iff.mpr (.inr (.inl ⟨rfl, rfl, exit⟩))
  obtain ⟨_, present⟩ := kept.exists_oldest_entering entering
  obtain ⟨into, out, oldestIn, oldestOut, result⟩ :=
    kept.exists_looped (Option.isSome_of_eq_some present)
  have source : into.source = n.current ∨ stars ≠ 0 ∧ into.source = m.current := by
    rcases factor.step_iff.mp (kept.step_entering oldestIn) with old | inside | repeated
    · have known := (wired.step_lt old).2
      omega
    · exact .inl inside.1
    · exact .inr ⟨repeated.1, repeated.2.1⟩
  have target : out.target = n.stateCount := by
    rcases factor.step_iff.mp (Wired.step_leaving oldestOut) with old | inside | repeated
    · rcases source with same | ⟨_, same⟩
      · exact absurd (same ▸ old) (fresh _)
      · have known := (wired.step_lt old).1
        omega
    · exact inside.2.2
    · exact repeated.2.2.2
  have source_lt := (kept.oldest_lt oldestIn).1
  have target_lt := (kept.oldest_lt oldestOut).2
  rw [result]
  refine ⟨target, ?_⟩
  exact {
    step_iff := by
      intro a s b
      rw [step_looped kept source_lt target_lt, factor.step_iff]
      simp only [letterCopies, Nfa.looped]
      grind
    source := fun inside => ⟨(factor.source inside).1, by
      have := (factor.source inside).2
      rw [exit] at this
      simpa [Nfa.looped, target] using this⟩
    target := factor.target
    copied := factor.copied
    covered := fun inside => .inl inside.2
    exit_fresh := Nat.le_of_eq target.symm
    accepting_iff := by
      intro r
      rw [accepting_looped source_lt target_lt, factor.accepting_iff]
      simp only [Nfa.looped]
      grind }

end RegexAutomaton.Nfa
