import RegexAutomaton.Proofs.Course
import RegexAutomaton.Proofs.Meaning
import RegexAutomaton.Proofs.Unstarred

namespace RegexAutomaton.Expression

open Nfa Progress

variable {p q : Progress} {pattern before : Pattern} {alternatives : Bool} {c : Char}
  {chars rest more : List Char} {stars : Nat}

theorem Passes.trans {r : Progress} (first : Passes p chars q rest)
    (second : Passes q rest r more) : Passes p chars r more := by
  induction first with
  | here => exact second
  | letter valid lettered _ ih => exact .letter valid lettered (ih second)
  | star starred _ ih => exact .star starred (ih second)
  | bar barred _ ih => exact .bar barred (ih second)
  | group closed entered content ended grouped _ _ ih =>
      exact .group closed entered content ended grouped (ih second)

theorem Retreats.behind (retreats : Retreats q rest) (passes : Passes p chars q rest) :
    Retreats p chars := by
  cases retreats with
  | star later starred moved => exact .star (passes.trans later) starred moved
  | inside later closed entered retreats =>
      exact .inside (passes.trans later) closed entered retreats

theorem not_retreats_nil : ¬ Retreats p [] := by
  intro retreats
  cases retreats with
  | star passes => cases passes
  | inside passes => cases passes

/-- The first turn is taken in one way. -/
theorem passes_letter_iff (sound : p.Sound) (valid : isLetter c = true) :
    Passes p (c :: rest) q more ↔
      q = p ∧ more = c :: rest ∨ Passes (p.lettered c) rest q more := by
  have plain := ne_brackets_of_isLetter valid
  apply Iff.intro
  · intro passes
    cases passes with
    | here => exact .inl ⟨rfl, rfl⟩
    | letter _ lettered later =>
        cases (letter_eq sound c).symm.trans lettered
        exact .inr later
    | _ => simp at plain
  · intro either
    rcases either with ⟨rfl, rfl⟩ | later
    · exact .here _ _
    · exact .letter valid (letter_eq sound c) later

theorem passes_star_iff (sound : p.Sound) (repeats : p.last.isSome) :
    Passes p ('*' :: rest) q more ↔ q = p ∧ more = '*' :: rest ∨ Passes p.again rest q more := by
  apply Iff.intro
  · intro passes
    cases passes with
    | here => exact .inl ⟨rfl, rfl⟩
    | letter valid => cases valid
    | star starred later =>
        cases (star_eq sound repeats).symm.trans starred
        exact .inr later
  · intro either
    rcases either with ⟨rfl, rfl⟩ | later
    · exact .here _ _
    · exact .star (star_eq sound repeats : (p.star 0).outcome = _) later

theorem passes_bar_iff (sound : p.Sound) :
    Passes p ('|' :: rest) q more ↔ q = p ∧ more = '|' :: rest ∨ Passes p.barred rest q more := by
  apply Iff.intro
  · intro passes
    cases passes with
    | here => exact .inl ⟨rfl, rfl⟩
    | letter valid => cases valid
    | bar barred later =>
        cases (bar_eq sound).symm.trans barred
        exact .inr later
  · intro either
    rcases either with ⟨rfl, rfl⟩ | later
    · exact .here _ _
    · exact .bar (bar_eq sound) later

theorem passes_group_iff (sound : p.Sound) (content : Pattern) :
    Passes p ('(' :: (content.text ++ ')' :: rest)) q more ↔
      q = p ∧ more = '(' :: (content.text ++ ')' :: rest) ∨
        Passes (p.grouped (compiled content)) rest q more := by
  obtain ⟨closed, taken, dropped⟩ := group_parts (nested_text content) rest
  have turn := group_eq sound (compiled_wired content) (compiled_start content)
  have done := compileChars_text content
  rw [compileChars, Traced.outcome_bind, opening_eq, ok_bind] at done
  apply Iff.intro
  · intro passes
    cases passes with
    | here => exact .inl ⟨rfl, rfl⟩
    | letter valid => cases valid
    | group found entered inside ended grouped later =>
        cases closed.symm.trans found
        rw [taken] at entered inside
        rw [dropped] at later
        cases (opening_eq _).symm.trans entered
        cases done.symm.trans (compileFrom_eq_ok_iff.mpr ⟨_, inside, ended⟩)
        cases turn.symm.trans grouped
        exact .inr later
  · intro either
    rcases either with ⟨rfl, rfl⟩ | later
    · exact .here _ _
    · obtain ⟨last, inside, ended⟩ := compileFrom_eq_ok_iff.mp done
      have entered := opening_eq content.text
      rw [← taken] at entered inside
      rw [← dropped] at later
      exact .group closed entered inside ended turn later

/-- Without a star and without a group the first turn makes no retreat. -/
theorem retreats_behind_iff
    (turn : ∀ {r more}, Passes p chars r more ↔ r = p ∧ more = chars ∨ Passes q rest r more)
    (plain : chars.head? ≠ some '*' ∧ chars.head? ≠ some '(') :
    Retreats p chars ↔ Retreats q rest := by
  apply Iff.intro
  · intro retreats
    cases retreats with
    | star passes starred moved =>
        rcases turn.mp passes with ⟨_, rfl⟩ | later
        · exact absurd rfl plain.1
        · exact .star later starred moved
    | inside passes closed entered retreats =>
        rcases turn.mp passes with ⟨_, rfl⟩ | later
        · exact absurd rfl plain.2
        · exact .inside later closed entered retreats
  · exact fun retreats => retreats.behind (turn.mpr (.inr (.here _ _)))

theorem retreats_letter (sound : p.Sound) (valid : isLetter c = true) :
    Retreats p (c :: rest) ↔ Retreats (p.lettered c) rest := by
  obtain ⟨opens, _, star, _⟩ := ne_brackets_of_isLetter valid
  exact retreats_behind_iff (passes_letter_iff sound valid) (by simp [opens, star])

theorem retreats_bar (sound : p.Sound) : Retreats p ('|' :: rest) ↔ Retreats p.barred rest :=
  retreats_behind_iff (passes_bar_iff sound) (by simp)

theorem retreats_star (sound : p.Sound) (repeats : p.last.isSome) :
    Retreats p ('*' :: rest) ↔ p.again.nfa.current ≠ p.nfa.current ∨ Retreats p.again rest := by
  apply Iff.intro
  · intro retreats
    cases retreats with
    | star passes starred moved =>
        rcases (passes_star_iff sound repeats).mp passes with ⟨rfl, _⟩ | later
        · cases (star_eq sound repeats).symm.trans starred
          exact .inl moved
        · exact .inr (.star later starred moved)
    | inside passes closed entered retreats =>
        rcases (passes_star_iff sound repeats).mp passes with ⟨_, other⟩ | later
        · cases other
        · exact .inr (.inside later closed entered retreats)
  · intro either
    rcases either with moved | retreats
    · exact .star (.here _ _) (star_eq sound repeats : (p.star 0).outcome = _) moved
    · exact retreats.behind ((passes_star_iff sound repeats).mpr (.inr (.here _ _)))

theorem retreats_stars (sound : p.Sound) (repeats : p.last.isSome) (stars : Nat) :
    Retreats p (List.replicate stars '*' ++ rest) ↔
      (∃ k < stars, (again^[k + 1] p).nfa.current ≠ (again^[k] p).nfa.current) ∨
        Retreats (again^[stars] p) rest := by
  induction stars generalizing p with
  | zero => simp
  | succ stars ih =>
      rw [List.replicate_succ, List.cons_append, retreats_star sound repeats,
        ih sound.again (by simpa using repeats), ← or_assoc]
      refine or_congr ?_ Iff.rfl
      rw [Nat.exists_lt_succ_left]
      rfl

theorem retreats_group (sound : p.Sound) (content : Pattern) :
    Retreats p ('(' :: (content.text ++ ')' :: rest)) ↔
      Retreats (opened content.hasBar) content.text ∨
        Retreats (p.grouped (compiled content)) rest := by
  obtain ⟨closed, taken, _⟩ := group_parts (nested_text content) rest
  have entered := opening_eq content.text
  rw [hasOuterBar_text] at entered
  apply Iff.intro
  · intro retreats
    cases retreats with
    | star passes starred moved =>
        rcases (passes_group_iff sound content).mp passes with ⟨_, other⟩ | later
        · cases other
        · exact .inr (.star later starred moved)
    | inside passes found begun retreats =>
        rcases (passes_group_iff sound content).mp passes with ⟨_, here⟩ | later
        · cases here
          cases closed.symm.trans found
          rw [taken] at begun retreats
          cases entered.symm.trans begun
          exact .inl retreats
        · exact .inr (.inside later found begun retreats)
  · intro either
    rcases either with retreats | retreats
    · rw [← taken] at entered retreats
      exact .inside (.here _ _) closed entered retreats
    · exact retreats.behind ((passes_group_iff sound content).mpr (.inr (.here _ _)))

namespace Progress

/-- Stars on a letter move the end of the path exactly if an older edge with this letter
leaves the state before it. -/
theorem Follows.moves_iff (follows : Follows alternatives before p) (c : Char) (stars : Nat) :
    (∃ k < stars, (again^[k + 1] (p.lettered c)).nfa.current ≠
        (again^[k] (p.lettered c)).nfa.current) ↔ stars ≠ 0 ∧ before.loops c = true := by
  have sound := follows.sound
  apply Iff.intro
  · intro moves
    obtain ⟨k, below, moved⟩ := moves
    refine ⟨Nat.ne_zero_of_lt below, ?_⟩
    by_contra free
    have fresh : ∀ r, ¬ p.nfa.Step p.nfa.current (.char c) r := fun r step =>
      free ((follows.loops c).mp ⟨r, step⟩)
    have stays : ∀ k, (again^[k] (p.lettered c)).nfa.current = p.nfa.stateCount := fun k =>
      (factor_letter sound c k fun _ => fresh).1
    exact moved ((stays (k + 1)).trans (stays k).symm)
  · intro older
    obtain ⟨starred, again⟩ := older
    obtain ⟨r, step⟩ := (follows.loops c).mpr again
    obtain ⟨out, oldest⟩ := exists_oldest_of_step step
    refine ⟨0, Nat.pos_of_ne_zero starred, ?_⟩
    have below := (sound.wired.oldest_lt oldest).2
    show (p.lettered c).again.nfa.current ≠ p.nfa.stateCount
    rw [current_again_lettered sound, oldest]
    exact Nat.ne_of_lt below

end Progress

theorem retreats_text (pattern : Pattern) (bars : alternatives = false → pattern.hasBar = false)
    (rest : List Char) : Retreats (opened alternatives) (pattern.text ++ rest) ↔
      ¬ pattern.Fresh ∨ Retreats (through pattern (opened alternatives)) rest := by
  induction pattern generalizing alternatives rest with
  | empty => simp [Pattern.text, Pattern.Fresh, through]
  | letter before c valid stars ih =>
      have sound := through_sound before _ (.opened alternatives)
      rw [Pattern.text, List.append_assoc, ih bars, List.cons_append, retreats_letter sound valid,
        retreats_stars (sound.lettered c) rfl, ← or_assoc]
      refine or_congr ?_ Iff.rfl
      by_cases fresh : before.Fresh
      · rw [(follows_through fresh bars).moves_iff]
        simp [Pattern.Fresh, fresh]
      · simp [Pattern.Fresh, fresh]
  | group before content stars ih inside =>
      have sound := through_sound before _ (.opened alternatives)
      have within := inside id []
      have repeats := sound.grouped (compiled_wired content) (compiled_start content)
      rw [List.append_nil] at within
      rw [Pattern.text_group, List.append_assoc, ih bars, List.cons_append, List.append_assoc,
        List.cons_append, retreats_group sound, retreats_stars repeats rfl, within]
      simp only [not_retreats_nil, or_false, current_again_group, ne_eq, not_true_eq_false,
        and_false, exists_false, false_or, Pattern.Fresh, not_and_or, or_assoc]
      rfl
  | bar before ih =>
      have sound := through_sound before _ (.opened alternatives)
      cases alternatives with
      | true =>
          have earlier := @ih true (by simp) ('|' :: rest)
          rw [retreats_bar sound] at earlier
          rw [Pattern.text, List.append_assoc]
          exact earlier
      | false => cases (bars rfl : true = false)

/-- A pattern is fresh exactly if the end of the path stays where it is at every star of its
text, and then what the automaton accepts can be read off the pattern. Words in which no
starred factor is skipped are accepted then, unless the automaton is a single state. Where a
star moves the end of the path, at least the words without any stars are still accepted, if
no letter carries two. -/
theorem compile_language_iff {e : String} {n : Nfa} (done : (compile e).outcome = .ok n) :
    ∃ (p : Pattern) (first : Progress), (∀ q : Pattern, q.text = e.toList ↔ q = p) ∧
      (opening e.toList).outcome = .ok first ∧ (p.Fresh ↔ ¬ Retreats first e.toList) ∧
      p.unstarred.text = e.toList.filter (· != '*') ∧
      p.unstarred.language ≤ p.plusLanguage ∧ p.plusLanguage ≤ p.language ∧
      (p.Fresh → n.language = p.accepted ∧ (p.silent = false → p.plusLanguage ≤ n.language)) ∧
      (p.OneStar → p.silent = false → p.unstarred.language ≤ n.language) := by
  obtain ⟨p, unique, rfl⟩ := reading_exists done
  have text : p.text = e.toList := (unique p).mpr rfl
  have retreats : Retreats (opened p.hasBar) (p.text ++ []) ↔ _ := retreats_text p id []
  rw [List.append_nil, or_iff_left not_retreats_nil, text] at retreats
  have entered := opening_eq p.text
  rw [hasOuterBar_text, text] at entered
  refine ⟨p, _, unique, entered, by rw [retreats, not_not], by rw [← text, p.text_unstarred],
    p.language_unstarred_le, p.plusLanguage_le_language, fun fresh => ?_,
    language_unstarred_le_compiled⟩
  rw [language_compiled fresh]
  exact ⟨rfl, Pattern.plusLanguage_le_accepted⟩

/-- The automaton of `a*b` accepts the empty word and rejects `b`, which the language of the
expression has the other way round. It is right about `ab`, where the star is not skipped. -/
theorem compile_starThenLetter : ∃ n first, (compile "a*b").outcome = .ok n ∧
    (opening "a*b".toList).outcome = .ok first ∧ ¬ Retreats first "a*b".toList ∧
    ([] ∈ n.language ∧ [] ∉ starThenLetter.language) ∧
    (['b'] ∉ n.language ∧ ['b'] ∈ starThenLetter.language) ∧
    ['a', 'b'] ∈ n.language ∧ ['a', 'b'] ∈ starThenLetter.language := by
  have done : (compile "a*b").outcome = .ok (compiled starThenLetter) :=
    compile_of_text (by decide) rfl
  obtain ⟨p, first, unique, entered, retreats, _, _, spoken, accepts, _⟩ :=
    compile_language_iff done
  obtain rfl : starThenLetter = p := (unique _).mp rfl
  have fresh : starThenLetter.Fresh := ⟨⟨trivial, fun _ => rfl⟩, fun starred => absurd rfl starred⟩
  obtain ⟨accepted, right⟩ := accepts fresh
  have once : ['a', 'b'] ∈ starThenLetter.plusLanguage :=
    .inr ⟨['a'], ⟨[], rfl, ['a'], ⟨['a'], rfl, [], Language.nil_mem_kstar _, rfl⟩, rfl⟩, ['b'], rfl,
      rfl⟩
  refine ⟨_, first, done, entered, retreats.mp fresh, ⟨?_, ?_⟩, ⟨?_, ?_⟩, right rfl once,
    spoken once⟩
  · rw [accepted, accepted_starThenLetter]
    exact .inl rfl
  · rw [language_starThenLetter, Language.mem_mul]
    intro split
    obtain ⟨first, _, second, rfl, empty⟩ := split
    simp at empty
  · rw [accepted, accepted_starThenLetter]
    intro member
    rcases member with empty | ⟨passed, ⟨first, rfl, more, _, rfl⟩, last, rfl, spelled⟩
    · cases empty
    · simp at spelled
  · rw [language_starThenLetter]
    exact ⟨[], Language.nil_mem_kstar _, ['b'], rfl, rfl⟩

/-- The last star of `(ab)*a*` moves the end of the path back into the group, and puts its loop
there. What is said without the stars is accepted all the same. -/
theorem language_ne_of_retreat : ¬ groupThenStar.Fresh ∧
    ['a', 'b', 'a'] ∈ (compiled groupThenStar).language ∧
    ['a', 'a', 'b'] ∈ (compiled groupThenStar).language ∧
    ['a', 'a', 'b'] ∉ groupThenStar.accepted := by
  refine ⟨fun fresh => Bool.noConfusion (fresh.2 Nat.one_ne_zero), ?_, ?_, ?_⟩
  · have one : groupThenStar.OneStar :=
      ⟨⟨trivial, ⟨trivial, Nat.zero_le 1⟩, Nat.zero_le 1⟩, Nat.le_refl 1⟩
    have inside : ['a', 'b'] ∈ Pattern.language (.letter (.letter .empty 'a' rfl 0) 'b' rfl 0) :=
      .inr ⟨['a'], ⟨[], rfl, ['a'], rfl, rfl⟩, ['b'], rfl, rfl⟩
    have spoken : ['a', 'b', 'a'] ∈ groupThenStar.unstarred.language :=
      .inr ⟨['a', 'b'], ⟨[], rfl, ['a', 'b'], inside, rfl⟩, ['a'], rfl, rfl⟩
    exact language_unstarred_le_compiled one rfl spoken
  · let n : Nfa := {
      states := #[{ accepting := true, outgoing := [0] },
        { outgoing := [1, 4], incoming := [0, 2, 4] },
        { accepting := true, outgoing := [2, 3], incoming := [1] },
        { accepting := true, incoming := [3] }]
      transitions := #[⟨.char 'a', 0, 1⟩, ⟨.char 'b', 1, 2⟩, ⟨.char 'a', 2, 1⟩, ⟨.char 'a', 2, 3⟩,
        ⟨.char 'a', 1, 1⟩]
      start := some 0
      current := 1 }
    have built : compiled groupThenStar = n := by decide +kernel
    have enters : n.Step 0 (.char 'a') 1 := ⟨0, _, ⟨_, rfl, by decide, rfl⟩, rfl, rfl⟩
    have loops : n.Step 1 (.char 'a') 1 := ⟨4, _, ⟨_, rfl, by decide, rfl⟩, rfl, rfl⟩
    have leaves : n.Step 1 (.char 'b') 2 := ⟨1, _, ⟨_, rfl, by decide, rfl⟩, rfl, rfl⟩
    rw [built]
    exact ⟨0, _, 2, rfl, .cons enters (.cons loops (.cons leaves (.nil 2))), rfl, _, rfl, rfl⟩
  · have spoken : groupThenStar.accepted = KStar.kstar ({['a']} * {['b']}) +
        {['a']} * {['b']} * KStar.kstar ({['a']} * {['b']}) * ({['a']} * KStar.kstar {['a']}) := by
      simp [groupThenStar, Pattern.accepted, Pattern.silent, Pattern.said, Pattern.skipped,
        Pattern.passed]
    have once : ∀ word ∈ ({['a']} * {['b']} : Language Char), word = ['a', 'b'] := by
      intro word member
      obtain ⟨first, rfl, second, rfl, rfl⟩ := member
      rfl
    rw [spoken]
    intro member
    rcases member with ⟨rounds, spelled, each⟩ | ⟨_, ⟨first, round, _, _, rfl⟩, _, _, spelled⟩
    · cases rounds with
      | nil => cases spelled
      | cons first rounds =>
          rw [once first (each first List.mem_cons_self)] at spelled
          simp at spelled
    · rw [once first round] at spelled
      simp at spelled

end RegexAutomaton.Expression
