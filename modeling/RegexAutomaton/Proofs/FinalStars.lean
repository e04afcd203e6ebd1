import RegexAutomaton.Proofs.Faults
import RegexAutomaton.Proofs.Meaning

namespace RegexAutomaton.Expression

open Nfa Progress

variable {p : Pattern} {c : Char} {stars : Nat} {rest : List Char}

namespace Pattern

/-- Whether a factor can be added: the last one of the alternative has no star. -/
def ready : Pattern → Bool
  | empty | bar _ => true
  | letter _ _ _ stars | group _ _ stars => stars == 0

/-- Factors stand behind factors without star only, at any depth. -/
def final : Pattern → Bool
  | empty => true
  | letter before _ _ _ => before.final && before.ready
  | group before content _ => before.final && before.ready && content.final
  | bar before => before.final

/-- The pattern with parentheses around each starred factor. -/
def wrapped : Pattern → Pattern
  | empty => empty
  | letter before c valid stars =>
      if stars = 0 then letter before.wrapped c valid 0
      else group before.wrapped (letter empty c valid stars) 0
  | group before content stars =>
      if stars = 0 then group before.wrapped content.wrapped 0
      else group before.wrapped (group empty content.wrapped stars) 0
  | bar before => bar before.wrapped

end Pattern

/-- What may follow a final star. -/
def ends (rest : List Char) : Bool :=
  rest.head?.all fun next => next == '*' || next == '|' || next == ')'

theorem starsAreFinal_cons (other : c ≠ '*') :
    starsAreFinal (c :: rest) = starsAreFinal rest := by
  simp [starsAreFinal, other]

theorem starsAreFinal_stars (stars : Nat) (rest : List Char) :
    starsAreFinal (List.replicate stars '*' ++ rest) =
      ((stars == 0 || ends rest) && starsAreFinal rest) := by
  induction stars with
  | zero => simp
  | succ stars ih =>
      rw [List.replicate_succ, List.cons_append, starsAreFinal, ih]
      cases stars with
      | zero => simp [ends]
      | succ stars => simp [List.replicate_succ]

theorem starsAreFinal_text (p : Pattern) (rest : List Char) :
    starsAreFinal (p.text ++ rest) =
      (p.final && (p.ready || ends rest) && starsAreFinal rest) := by
  induction p generalizing rest with
  | empty => simp [Pattern.text, Pattern.final, Pattern.ready]
  | letter before c valid stars ih =>
      obtain ⟨_, notClose, notStar, notBar⟩ := ne_brackets_of_isLetter valid
      have stays : ends (c :: (List.replicate stars '*' ++ rest)) = false := by
        simp [ends, notClose, notStar, notBar]
      rw [Pattern.text, List.append_assoc, ih, List.cons_append, stays, starsAreFinal_cons notStar,
        starsAreFinal_stars]
      simp [Pattern.final, Pattern.ready, Bool.and_assoc]
  | group before content stars ih inside =>
      rw [Pattern.text_group, List.append_assoc, ih, List.cons_append, List.append_assoc,
        starsAreFinal_cons (by decide), inside, List.cons_append, starsAreFinal_cons (by decide),
        starsAreFinal_stars]
      simp [Pattern.final, Pattern.ready, ends, Bool.and_assoc]
  | bar before ih =>
      rw [Pattern.text, List.append_assoc, ih, List.singleton_append,
        starsAreFinal_cons (by decide)]
      simp [Pattern.final, Pattern.ready, ends]

theorem starsAreFinal_iff (p : Pattern) : starsAreFinal p.text = p.final := by
  have passed := starsAreFinal_text p []
  simpa [ends, starsAreFinal] using passed

/-- A letter or a bar. -/
def Audible (chars : List Char) : Prop :=
  ∃ c ∈ chars, isLetter c = true ∨ c = '|'

instance (chars : List Char) : Decidable (Audible chars) :=
  decidable_of_iff (chars.any fun c => isLetter c || c == '|') (by simp [Audible])

theorem not_audible_stars (stars : Nat) : ¬ Audible (List.replicate stars '*') := by
  intro audible
  obtain ⟨c, member, heard⟩ := audible
  rw [List.eq_of_mem_replicate member] at heard
  exact absurd heard (by decide)

theorem audible_append {first second : List Char} :
    Audible (first ++ second) ↔ Audible first ∨ Audible second := by
  simp only [Audible, List.mem_append, or_and_right, exists_or]

theorem audible_cons : Audible (c :: rest) ↔ (isLetter c = true ∨ c = '|') ∨ Audible rest := by
  simp [Audible, or_and_right, exists_or]

theorem audible_iff (p : Pattern) : Audible p.text ↔ p.silent = false := by
  induction p with
  | empty => simp [Audible, Pattern.text, Pattern.silent]
  | letter before c valid stars => simp [Pattern.text, audible_append, audible_cons, valid,
      Pattern.silent]
  | group before content stars ih inside =>
      rw [Pattern.text_group, audible_append, audible_cons, audible_append, audible_cons, ih, inside]
      have opening : isLetter '(' = false := by decide
      have closing : isLetter ')' = false := by decide
      simp [opening, closing, not_audible_stars, Pattern.silent, imp_iff_not_or]
  | bar before => simp [Pattern.text, audible_append, audible_cons, Pattern.silent]

namespace Pattern

theorem loops_of_ready (final : p.final = true) (ready : p.ready = true) (c : Char) :
    p.loops c = false := by
  induction p with
  | empty | bar => rfl
  | letter before d valid stars =>
      have unstarred : stars = 0 := by simpa [Pattern.ready] using ready
      simp [loops, unstarred]
  | group before content stars ih =>
      have unstarred : stars = 0 := by simpa [Pattern.ready] using ready
      simp only [Pattern.final, Bool.and_eq_true] at final
      simp [loops, unstarred, ih final.1.1 final.1.2]

theorem fresh_of_final (final : p.final = true) : p.Fresh := by
  induction p with
  | empty => trivial
  | letter before c valid stars ih =>
      simp only [Pattern.final, Bool.and_eq_true] at final
      exact ⟨ih final.1, fun _ => loops_of_ready final.1 final.2 c⟩
  | group before content stars ih inside =>
      simp only [Pattern.final, Bool.and_eq_true] at final
      exact ⟨ih final.1.1, inside final.2⟩
  | bar before ih => exact ih final

theorem starred_one (stars : Nat) : starred stars 1 = 1 := by
  rw [starred]
  split
  · rfl
  · exact kstar_one

theorem languages_of_silent (silent : p.silent = true) : p.languages = (0, 1) := by
  induction p with
  | empty => rfl
  | letter | bar => cases silent
  | group before content stars ih inside =>
      simp only [Pattern.silent, Bool.and_eq_true] at silent
      simp [languages, ih silent.1, inside silent.2, starred_one]

/-- To skip a factor or to pass it is to repeat it. -/
theorem skipped_add_passed (stars : Nat) (path factor : Language Char) :
    skipped stars path + path * passed stars factor = path * starred stars factor := by
  rw [skipped, passed, starred]
  split
  · rw [zero_add]
  · calc path + path * (factor * KStar.kstar factor)
        = path * (1 + factor * KStar.kstar factor) := by rw [mul_add, mul_one]
      _ = path * KStar.kstar factor := by rw [Language.one_add_self_mul_kstar_eq_kstar]

theorem said_of_final (final : p.final = true) :
    (p.ready = true → p.said = p.languages) ∧ p.said.1 + p.said.2 = p.language := by
  induction p with
  | empty => exact ⟨fun _ => rfl, rfl⟩
  | letter before c valid stars ih =>
      simp only [Pattern.final, Bool.and_eq_true] at final
      have earlier := (ih final.1).1 final.2
      refine ⟨?_, ?_⟩
      · intro ready
        have unstarred : stars = 0 := by simpa [Pattern.ready] using ready
        simp [said, languages, earlier, unstarred, skipped, passed, starred]
      · rw [language, said, languages, earlier]
        simp only [add_assoc, skipped_add_passed]
  | group before content stars ih inside =>
      simp only [Pattern.final, Bool.and_eq_true] at final
      have earlier := (ih final.1.1).1 final.1.2
      have within := (inside final.2).2
      rw [language] at within
      cases quiet : content.silent with
      | true =>
          have nothing := languages_of_silent quiet
          have same : (group before content stars).said = (group before content stars).languages := by
            simp [said, languages, earlier, quiet, nothing, starred_one]
          exact ⟨fun _ => same, by rw [same, language]⟩
      | false =>
          refine ⟨?_, ?_⟩
          · intro ready
            have unstarred : stars = 0 := by simpa [Pattern.ready] using ready
            simp [said, languages, earlier, quiet, within, unstarred, skipped, passed, starred]
          · simp only [language, said, languages, earlier, quiet, within, Bool.false_eq_true,
              ↓reduceIte, add_assoc, skipped_add_passed]
  | bar before ih =>
      have earlier := (ih final).2
      rw [language] at earlier
      refine ⟨?_, ?_⟩
      · intro _
        simp [said, languages, earlier]
      · simp [language, said, languages, earlier]

theorem accepted_of_final (final : p.final = true) (loud : p.silent = false) :
    p.accepted = p.language := by
  simp [accepted, loud, (said_of_final final).2]

theorem ready_wrapped (p : Pattern) : p.wrapped.ready = true := by
  cases p with
  | empty | bar => rfl
  | letter | group =>
      rw [wrapped]
      split <;> rfl

theorem ready_empty : empty.ready = true := rfl

theorem final_wrapped (p : Pattern) : p.wrapped.final = true := by
  induction p with
  | empty => rfl
  | letter before c valid stars ih =>
      rw [wrapped]
      split <;> simp [Pattern.final, ih, ready_wrapped, ready_empty]
  | group before content stars ih inside =>
      rw [wrapped]
      split <;> simp [Pattern.final, ih, inside, ready_wrapped, ready_empty]
  | bar before ih => exact ih

theorem silent_wrapped (p : Pattern) : p.wrapped.silent = p.silent := by
  induction p with
  | empty | bar => rfl
  | letter before c valid stars ih =>
      rw [wrapped]
      split <;> simp [silent]
  | group before content stars ih inside =>
      rw [wrapped]
      split <;> simp [silent, ih, inside]

theorem languages_wrapped (p : Pattern) : p.wrapped.languages = p.languages := by
  induction p with
  | empty => rfl
  | letter before c valid stars ih =>
      rw [wrapped]
      split
      · simp [languages, *]
      · simp [languages, ih, starred]
  | group before content stars ih inside =>
      rw [wrapped]
      split
      · simp [languages, *]
      · simp [languages, ih, inside, starred]
  | bar before ih => simp [wrapped, languages, ih]

end Pattern

theorem language_of_final (final : p.final = true) (loud : p.silent = false) :
    (compiled p).language = p.language := by
  rw [language_compiled (Pattern.fresh_of_final final), Pattern.accepted_of_final final loud]

/-- With stars in final position only, the automaton accepts the language of the
expression. And every expression has an equivalent one of this form. -/
theorem compile_language_of_final_stars {e : String} {n : Nfa}
    (done : (compile e).outcome = .ok n) (audible : Audible e.toList) :
    ∃ p : Pattern, (∀ q : Pattern, q.text = e.toList ↔ q = p) ∧
      (starsAreFinal e.toList = true → n.language = p.language) ∧
      starsAreFinal p.wrapped.text = true ∧
      ∃ m, (compile (String.ofList p.wrapped.text)).outcome = .ok m ∧
        m.language = p.language := by
  obtain ⟨p, unique, rfl⟩ := reading_exists done
  rw [← (unique p).mpr rfl] at audible ⊢
  have loud := (audible_iff p).mp audible
  have wrapped_loud := (Pattern.silent_wrapped p).trans loud
  refine ⟨p, ?_, ?_, (starsAreFinal_iff _).trans (Pattern.final_wrapped p), compiled p.wrapped,
    ?_, ?_⟩
  · exact fun q => ⟨Pattern.text_injective, congrArg Pattern.text⟩
  · exact fun final => language_of_final ((starsAreFinal_iff p).symm.trans final) loud
  · obtain ⟨c, member, _⟩ := (audible_iff _).mpr wrapped_loud
    refine compile_of_text (fun empty => ?_) (by simp)
    simp [show p.wrapped.text = [] by simpa using empty] at member
  · rw [language_of_final (Pattern.final_wrapped p) wrapped_loud, Pattern.language,
      Pattern.languages_wrapped, Pattern.language]

/-- With parentheses, zero repetitions of the starred letter are accepted. -/
theorem compile_wrapped_starThenLetter : ∃ n, (compile "(a*)b").outcome = .ok n ∧
    n.language = KStar.kstar {['a']} * {['b']} := by
  have done : (compile "(a*)b").outcome = .ok (compiled starThenLetter.wrapped) :=
    compile_of_text (by decide) rfl
  obtain ⟨p, unique, accepts, _⟩ :=
    compile_language_of_final_stars done ⟨'a', by decide, .inl rfl⟩
  obtain rfl : starThenLetter.wrapped = p := (unique _).mp rfl
  refine ⟨_, done, ?_⟩
  rw [accepts rfl, Pattern.language, Pattern.languages_wrapped, ← Pattern.language,
    language_starThenLetter]

end RegexAutomaton.Expression
