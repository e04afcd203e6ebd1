import RegexAutomaton.Nfa.Language

namespace RegexAutomaton.Nfa

abbrev Steps := Nat → Symbol → Nat → Prop

/-- Some path from `q` spells the word and ends in the last state. -/
inductive Spells (step : Steps) : Nat → List Char → Nat → Prop where
  | nil (q : Nat) : Spells step q [] q
  | cons {q r last : Nat} {s : Symbol} {word : List Char} :
      step q s r → Spells step r word last → Spells step q (s.char?.toList ++ word) last

/-- The words along the paths from one state to the other. -/
def words (step : Steps) (q r : Nat) : Language Char :=
  { word | Spells step q word r }

variable {n : Nfa} {step joint : Steps} {q r last exit entry : Nat} {s : Symbol}
  {word first second : List Char}

theorem mem_words : word ∈ words step q r ↔ Spells step q word r :=
  Iff.rfl

theorem spelled_cons (s : Symbol) (symbols : List Symbol) :
    spelled (s :: symbols) = s.char?.toList ++ spelled symbols := by
  cases s <;> rfl

theorem spells_iff_path :
    Spells n.Step q word r ↔ ∃ symbols, n.Path q symbols r ∧ spelled symbols = word := by
  apply Iff.intro
  · intro spells
    induction spells with
    | nil q => exact ⟨[], .nil q, rfl⟩
    | @cons _ _ _ s _ step _ ih =>
        obtain ⟨symbols, path, rfl⟩ := ih
        exact ⟨s :: symbols, .cons step path, spelled_cons s symbols⟩
  · intro spells
    obtain ⟨symbols, path, rfl⟩ := spells
    induction path with
    | nil q => exact .nil q
    | cons step _ ih =>
        rw [spelled_cons]
        exact .cons step ih

theorem mem_language_iff : word ∈ n.language ↔
    ∃ start q, n.start = some start ∧ n.Accepting q ∧ word ∈ words n.Step start q := by
  simp only [mem_language, Accepts, mem_words, spells_iff_path]
  apply Iff.intro
  · intro accepts
    obtain ⟨start, symbols, q, attached, path, spells, accepting⟩ := accepts
    exact ⟨start, q, attached, accepting, symbols, path, spells⟩
  · intro accepts
    obtain ⟨start, q, attached, accepting, symbols, path, spells⟩ := accepts
    exact ⟨start, symbols, q, attached, path, spells, accepting⟩

namespace Spells

theorem append (head : Spells step q first r) (tail : Spells step r second last) :
    Spells step q (first ++ second) last := by
  induction head with
  | nil => exact tail
  | cons move _ ih =>
      rw [List.append_assoc]
      exact .cons move (ih tail)

theorem mono (weaker : ∀ {a s b}, step a s b → joint a s b) (spells : Spells step q word r) :
    Spells joint q word r := by
  induction spells with
  | nil q => exact .nil q
  | cons move _ ih => exact .cons (weaker move) ih

theorem of_step (move : step q s r) : Spells step q s.char?.toList r := by
  simpa using Spells.cons move (.nil r)

theorem first_step (spells : Spells step q word r) : r = q ∧ word = [] ∨
    ∃ s next rest, step q s next ∧ Spells step next rest r ∧ word = s.char?.toList ++ rest := by
  cases spells with
  | nil => exact .inl ⟨rfl, rfl⟩
  | cons move rest => exact .inr ⟨_, _, _, move, rest, rfl⟩

/-- Nothing leads away from `q`. -/
theorem of_stuck (stuck : ∀ s b, ¬ step q s b) (spells : Spells step q word r) :
    r = q ∧ word = [] := by
  rcases spells.first_step with done | ⟨s, next, _, move, _⟩
  · exact done
  · exact absurd move (stuck s next)

/-- Nothing leads back to `q`. -/
theorem of_unreached (unreached : ∀ a s, ¬ step a s q) (spells : Spells step r word q) :
    r = q ∧ word = [] := by
  induction spells with
  | nil => exact ⟨rfl, rfl⟩
  | cons move _ ih =>
      obtain ⟨rfl, _⟩ := ih unreached
      exact absurd move (unreached _ _)

end Spells

/-- Only the empty word leads to a state without steps into it. -/
theorem words_unreached (unreached : ∀ a s, ¬ step a s q) : words step q q = 1 := by
  ext word
  rw [Language.mem_one, mem_words]
  apply Iff.intro
  · exact fun spells => (spells.of_unreached unreached).2
  · intro empty
    subst empty
    exact .nil q

/-- The steps of `inner` lead from `entry` into fresh states and stay there. -/
structure Attaches (step inner joint : Steps) (base entry : Nat) : Prop where
  step_iff {a : Nat} {s : Symbol} {b : Nat} : joint a s b ↔ step a s b ∨ inner a s b
  old {a : Nat} {s : Symbol} {b : Nat} : step a s b → a < base ∧ b < base
  source {a : Nat} {s : Symbol} {b : Nat} : inner a s b → a = entry ∨ base ≤ a
  target {a : Nat} {s : Symbol} {b : Nat} : inner a s b → base ≤ b

namespace Attaches

variable {inner : Steps} {base : Nat} (attaches : Attaches step inner joint base entry)

include attaches

theorem inner_of_fresh (spells : Spells joint q word r) (fresh : base ≤ q) :
    base ≤ r ∧ Spells inner q word r := by
  induction spells with
  | nil q => exact ⟨fresh, .nil q⟩
  | cons move _ ih =>
      rcases attaches.step_iff.mp move with old | new
      · have inRange := (attaches.old old).1
        omega
      · obtain ⟨bound, rest⟩ := ih (attaches.target new)
        exact ⟨bound, .cons new rest⟩

theorem words_old (known : r < base) : words joint q r = words step q r := by
  ext word
  apply Iff.intro
  · intro spells
    rw [mem_words] at spells ⊢
    induction spells with
    | nil q => exact .nil q
    | cons move rest ih =>
        rcases attaches.step_iff.mp move with old | new
        · exact .cons old (ih known)
        · have bound := (attaches.inner_of_fresh rest (attaches.target new)).1
          omega
  · exact Spells.mono fun move => attaches.step_iff.mpr (.inl move)

theorem words_fresh (known : q < base) (fresh : base ≤ r) :
    words joint q r = words step q entry * words inner entry r := by
  ext word
  rw [Language.mem_mul]
  apply Iff.intro
  · intro spells
    rw [mem_words] at spells
    induction spells with
    | nil => omega
    | @cons q next _ s word move rest ih =>
        rcases attaches.step_iff.mp move with old | new
        · obtain ⟨first, head, second, tail, rfl⟩ := ih (attaches.old old).2 fresh
          exact ⟨_, .cons old head, second, tail, List.append_assoc ..⟩
        · have inside := (attaches.inner_of_fresh rest (attaches.target new)).2
          rcases attaches.source new with rfl | beyond
          · exact ⟨[], .nil q, _, .cons new inside, rfl⟩
          · omega
  · intro split
    obtain ⟨first, head, second, tail, rfl⟩ := split
    exact (Spells.mono (fun move => attaches.step_iff.mpr (.inl move)) head).append
      (Spells.mono (fun move => attaches.step_iff.mpr (.inr move)) tail)

end Attaches

/-- The steps of a copy are those of the original, between the places of its states. -/
theorem spells_placed {place : Nat → Nat} {placed : Steps}
    (placed_iff : ∀ {a s b}, placed a s b ↔ ∃ p q, step p s q ∧ a = place p ∧ b = place q)
    (injective : ∀ {p q}, place p = place q → p = q) :
    Spells placed (place q) word last ↔ ∃ r, last = place r ∧ Spells step q word r := by
  apply Iff.intro
  · intro spells
    generalize at_place : place q = start at spells
    induction spells generalizing q with
    | nil => exact ⟨q, at_place.symm, .nil q⟩
    | cons move _ ih =>
        obtain ⟨a, b, original, source, target⟩ := placed_iff.mp move
        obtain rfl := injective (at_place.trans source)
        obtain ⟨r, rfl, rest⟩ := ih target.symm
        exact ⟨r, rfl, .cons original rest⟩
  · intro original
    obtain ⟨r, rfl, spells⟩ := original
    induction spells with
    | nil q => exact .nil (place q)
    | cons move _ ih => exact .cons (placed_iff.mpr ⟨_, _, move, rfl, rfl⟩) ih

/-- Epsilons from several states into a fresh one, from which nothing leads on. -/
theorem spells_joined {exits : List Nat}
    (joint_iff : ∀ {a s b}, joint a s b ↔ step a s b ∨ a ∈ exits ∧ s = .epsilon ∧ b = exit)
    (unreached : ∀ a s, ¬ step a s exit) (stuck : ∀ s b, ¬ joint exit s b) (other : q ≠ exit) :
    Spells joint q word exit ↔ ∃ r ∈ exits, Spells step q word r := by
  apply Iff.intro
  · intro spells
    induction spells with
    | nil => exact absurd rfl other
    | @cons q next exit s word move rest ih =>
        rcases joint_iff.mp move with old | ⟨member, rfl, rfl⟩
        · by_cases arrived : next = exit
          · exact absurd (arrived ▸ old) (unreached _ _)
          · obtain ⟨r, member, inside⟩ := ih joint_iff unreached stuck arrived
            exact ⟨r, member, .cons old inside⟩
        · obtain ⟨_, rfl⟩ := rest.of_stuck stuck
          exact ⟨q, member, .nil q⟩
  · intro inside
    obtain ⟨r, member, spells⟩ := inside
    have inside : Spells joint q word r := spells.mono fun move => joint_iff.mpr (.inl move)
    have away : joint r .epsilon exit := joint_iff.mpr (.inr ⟨member, rfl, rfl⟩)
    simpa [Symbol.char?] using inside.append (Spells.of_step away)

/-- Copies of the steps out of `entry` start from `exit`. An epsilon from the one
to the other needs no copy. -/
structure Repeats (step joint : Steps) (copies : Symbol → Nat → Prop) (entry exit : Nat) :
    Prop where
  step_iff {a : Nat} {s : Symbol} {b : Nat} : joint a s b ↔ step a s b ∨ a = exit ∧ copies s b
  copied {s : Symbol} {b : Nat} : copies s b → step entry s b
  covered {s : Symbol} {b : Nat} : step entry s b → copies s b ∨ s = .epsilon ∧ b = exit
  apart : entry ≠ exit

namespace Repeats

variable {copies : Symbol → Nat → Prop} (repeats : Repeats step joint copies entry exit)

include repeats

theorem widen (spells : Spells step q word r) : Spells joint q word r :=
  spells.mono fun move => repeats.step_iff.mpr (.inl move)

/-- What leads from the entry to the exit leads from the exit back to it. -/
theorem round (spells : Spells step entry word exit) : Spells joint exit word exit := by
  cases spells with
  | nil => exact absurd rfl repeats.apart
  | cons move rest =>
      rcases repeats.covered move with copy | ⟨rfl, rfl⟩
      · exact .cons (repeats.step_iff.mpr (.inr ⟨rfl, copy⟩)) (repeats.widen rest)
      · exact repeats.widen rest

theorem rounds (spells : word ∈ KStar.kstar (words step entry exit)) :
    Spells joint exit word exit := by
  obtain ⟨parts, rfl, member⟩ := Language.mem_kstar.mp spells
  clear spells
  induction parts with
  | nil => exact .nil exit
  | cons first rest ih =>
      have later := ih fun word inside => member word (List.mem_cons_of_mem first inside)
      exact (repeats.round (member first (by simp))).append later

/-- Every path to the exit reaches it once without copies, and then goes round. -/
theorem split (spells : Spells joint q word exit) :
    word ∈ words step q exit * KStar.kstar (words step entry exit) := by
  rw [Language.mem_mul]
  generalize target : exit = last at spells
  induction spells with
  | nil q => exact ⟨[], target ▸ .nil q, [], Language.nil_mem_kstar _, rfl⟩
  | @cons q next last s word move _ ih =>
      subst target
      obtain ⟨head, once, tail, again, rfl⟩ := ih rfl
      rcases repeats.step_iff.mp move with old | ⟨rfl, copy⟩
      · exact ⟨_, .cons old once, tail, again, List.append_assoc ..⟩
      · have round : s.char?.toList ++ head ∈ words step entry q :=
          .cons (repeats.copied copy) once
        refine ⟨[], .nil q, s.char?.toList ++ (head ++ tail), ?_, rfl⟩
        rw [← List.append_assoc, ← Language.one_add_self_mul_kstar_eq_kstar]
        exact .inr (Language.append_mem_mul round again)

theorem words_exit : words joint entry exit =
    words step entry exit * KStar.kstar (words step entry exit) := by
  ext word
  apply Iff.intro
  · exact repeats.split
  · intro split
    obtain ⟨head, once, tail, again, rfl⟩ := split
    exact (repeats.widen once).append (repeats.rounds again)

end Repeats

end RegexAutomaton.Nfa
