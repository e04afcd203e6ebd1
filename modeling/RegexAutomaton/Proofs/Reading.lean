import RegexAutomaton.Expression.Compile
import RegexAutomaton.Proofs.Patterns
import RegexAutomaton.Proofs.Splicing

namespace RegexAutomaton.Expression

open Nfa

variable {p q : Progress} {c : Char} {n sub : Nfa} {pattern : Pattern} {rest : List Char}
  {position : Nat}

/-- The atom can be repeated in `n`. -/
def Atom.Repeatable (n : Nfa) : Atom → Prop
  | letter c => (n.oldest? (.char c) (n.stateAt n.current).incoming).isSome
  | group fragment => n.HasFragment fragment

namespace Progress

/-- Progress on which no step of compilation fails, but a star without operand. -/
structure Sound (p : Progress) : Prop where
  wired : p.nfa.Wired
  attached : p.nfa.start = some origin
  alternative_lt : ∀ entry, p.alternative = some entry → entry < p.nfa.stateCount
  repeatable : ∀ atom, p.last = some atom → atom.Repeatable p.nfa

theorem Sound.origin_lt (sound : p.Sound) : origin < p.nfa.stateCount :=
  sound.wired.start_lt sound.attached

/-- What splicing does to `n`, whether `sub` leads anywhere or not. -/
def attach (n sub : Nfa) : Nfa × Fragment :=
  if (sub.stateAt origin).outgoing = [] then (n, ⟨n.current, n.current, []⟩)
  else n.spliced sub origin

theorem attach_cases (n sub : Nfa) :
    (sub.stateAt origin).outgoing = [] ∧ attach n sub = (n, ⟨n.current, n.current, []⟩) ∨
      (sub.stateAt origin).outgoing ≠ [] ∧ attach n sub = n.spliced sub origin := by
  by_cases idle : (sub.stateAt origin).outgoing = []
  · exact .inl ⟨idle, if_pos idle⟩
  · exact .inr ⟨idle, if_neg idle⟩

theorem splice_eq_attach (wired : n.Wired) (subWired : sub.Wired)
    (attached : sub.start = some origin) : (n.splice sub).outcome = .ok (attach n sub) := by
  rcases attach_cases n sub with ⟨idle, same⟩ | ⟨leads, same⟩
  · rw [same, splice_idle attached (subWired.start_lt attached) idle]
  · rw [same, splice_eq wired subWired attached leads]

theorem attach_wired (wired : n.Wired) (subWired : sub.Wired) (attached : sub.start = some origin) :
    (attach n sub).1.Wired := by
  rcases attach_cases n sub with ⟨_, same⟩ | ⟨_, same⟩
  · rw [same]
    exact wired
  · rw [same]
    exact wired.spliced subWired (subWired.start_lt attached)

theorem attach_start : (attach n sub).1.start = n.start := by
  rcases attach_cases n sub with ⟨_, same⟩ | ⟨_, same⟩
  · rw [same]
  · rw [same]
    exact start_exited.trans start_imported

theorem attach_grows (subWired : sub.Wired) (attached : sub.start = some origin) :
    n.stateCount ≤ (attach n sub).1.stateCount := by
  rcases attach_cases n sub with ⟨_, same⟩ | ⟨_, same⟩
  · rw [same]
  · rw [same]
    refine Nat.le_trans ?_ (stateCount_le_exited (n := n.imported sub origin))
    rw [stateCount_imported (subWired.start_lt attached)]
    omega

theorem attach_hasFragment (wired : n.Wired) (subWired : sub.Wired)
    (attached : sub.start = some origin) : (attach n sub).1.HasFragment (attach n sub).2 := by
  rcases attach_cases n sub with ⟨_, same⟩ | ⟨_, same⟩
  · rw [same]
    exact ⟨wired.current_lt, wired.current_lt, by simp⟩
  · rw [same]
    exact wired.hasFragment_spliced subWired (subWired.start_lt attached)

/-- The automaton after the open alternative has been ended. -/
def closed (p : Progress) : Nfa :=
  match p.alternative with
  | none => p.nfa
  | some entry => if p.nfa.current = entry then p.nfa.marked entry true else p.nfa

/-- Progress before the first character, behind an epsilon if there are several
alternatives. -/
def opened : Bool → Progress
  | true => { nfa := Nfa.new.branched origin, alternative := some Nfa.new.stateCount, last := none }
  | false => { nfa := .new, alternative := none, last := none }

def lettered (p : Progress) (c : Char) : Progress :=
  { p with nfa := p.nfa.extended c, last := some (.letter c) }

def grouped (p : Progress) (sub : Nfa) : Progress :=
  { p with nfa := (attach p.nfa sub).1, last := some (.group (attach p.nfa sub).2) }

def barred (p : Progress) : Progress where
  nfa := p.closed.branched origin
  alternative := some p.closed.stateCount
  last := none

def again (p : Progress) : Progress :=
  match p.last with
  | none => p
  | some (.letter c) => { p with nfa := p.nfa.repeatedLetter c }
  | some (.group fragment) => { p with nfa := p.nfa.repeated fragment }

theorem closed_cases (p : Progress) :
    p.alternative = some p.nfa.current ∧ p.closed = p.nfa.marked p.nfa.current true ∨
      p.alternative ≠ some p.nfa.current ∧ p.closed = p.nfa := by
  rw [closed]
  cases p.alternative with
  | none => simp
  | some entry =>
      by_cases same : p.nfa.current = entry
      · simp [same]
      · simp [same, Ne.symm same]

theorem closed_congr (nfa : p.nfa = q.nfa) (alternative : p.alternative = q.alternative) :
    p.closed = q.closed := by
  rw [closed, closed, nfa, alternative]

theorem lettered_congr (nfa : p.nfa = q.nfa) (alternative : p.alternative = q.alternative)
    (c : Char) : p.lettered c = q.lettered c := by
  rw [lettered, lettered, nfa, alternative]

theorem grouped_congr (nfa : p.nfa = q.nfa) (alternative : p.alternative = q.alternative)
    (sub : Nfa) : p.grouped sub = q.grouped sub := by
  rw [grouped, grouped, nfa, alternative]

theorem close_eq (sound : p.Sound) : p.close = .ok p.closed := by
  rw [close, closed]
  cases opened : p.alternative with
  | none => rfl
  | some entry =>
      simp only [setAccepting_eq (sound.alternative_lt entry opened)]
      split <;> rfl

theorem closed_wired (sound : p.Sound) : p.closed.Wired := by
  rcases p.closed_cases with ⟨_, same⟩ | ⟨_, same⟩
  · rw [same]
    exact sound.wired.marked sound.wired.current_lt true
  · rw [same]
    exact sound.wired

@[simp] theorem closed_start (p : Progress) : p.closed.start = p.nfa.start := by
  rcases p.closed_cases with ⟨_, same⟩ | ⟨_, same⟩ <;> simp [same]

@[simp] theorem closed_stateCount (p : Progress) : p.closed.stateCount = p.nfa.stateCount := by
  rcases p.closed_cases with ⟨_, same⟩ | ⟨_, same⟩ <;> simp [same]

theorem opening_eq (chars : List Char) :
    (opening chars).outcome = .ok (opened (hasOuterBar chars)) := by
  unfold opening
  cases hasOuterBar chars with
  | false => rfl
  | true =>
      have branch := branch_eq (show origin < Nfa.new.stateCount by decide)
      simp only [↓reduceIte, Traced.outcome_bind, branch, ok_bind]
      rfl

theorem letter_eq (sound : p.Sound) (c : Char) : (p.letter c).outcome = .ok (p.lettered c) := by
  simp [letter, concatenate_eq sound.wired.current_lt, lettered]

theorem group_eq (sound : p.Sound) (subWired : sub.Wired) (attached : sub.start = some origin) :
    (p.group sub).outcome = .ok (p.grouped sub) := by
  simp [group, splice_eq_attach sound.wired subWired attached, grouped]

theorem bar_eq (sound : p.Sound) : p.bar.outcome = .ok p.barred := by
  have origin_lt : origin < p.closed.stateCount := by
    rw [closed_stateCount]
    exact sound.origin_lt
  simp [bar, close_eq sound, branch_eq origin_lt, barred]

theorem star_eq (sound : p.Sound) (repeats : p.last.isSome) :
    (p.star position).outcome = .ok p.again := by
  obtain ⟨atom, last⟩ := Option.isSome_iff_exists.mp repeats
  have repeatable := sound.repeatable atom last
  cases atom with
  | letter c =>
      simp [star, again, last, repeatLetter_present sound.wired repeatable]
  | group fragment => simp [star, again, last, repeatFragment_eq sound.wired repeatable]

theorem star_none (none : p.last = none) :
    (p.star position).outcome = .error (.expression (.nothingToRepeat position)) := by
  simp [star, none]

@[simp] theorem lettered_alternative (p : Progress) (c : Char) :
    (p.lettered c).alternative = p.alternative := by
  rw [lettered]

@[simp] theorem again_last (p : Progress) : p.again.last = p.last := by
  unfold again
  split <;> simp [*]

@[simp] theorem again_alternative (p : Progress) : p.again.alternative = p.alternative := by
  unfold again
  split <;> rfl

theorem again_letter {c : Char} (last : p.last = some (.letter c)) :
    p.again.nfa = p.nfa.repeatedLetter c := by
  rw [again, last]

theorem again_group {fragment : Fragment} (last : p.last = some (.group fragment)) :
    p.again.nfa = p.nfa.repeated fragment := by
  rw [again, last]

theorem iterate_again_last (p : Progress) (stars : Nat) : (again^[stars] p).last = p.last := by
  induction stars generalizing p with
  | zero => rfl
  | succ stars ih => exact (ih p.again).trans p.again_last

theorem iterate_again_alternative (p : Progress) (stars : Nat) :
    (again^[stars] p).alternative = p.alternative := by
  induction stars generalizing p with
  | zero => rfl
  | succ stars ih => exact (ih p.again).trans p.again_alternative

namespace Sound

theorem opened (alternatives : Bool) : (Progress.opened alternatives).Sound := by
  cases alternatives with
  | false => exact ⟨.new, rfl, nofun, nofun⟩
  | true =>
      refine ⟨Wired.new.branched (by decide), rfl, ?_, nofun⟩
      intro entry same
      cases same
      decide

/-- The letter just read leads into the current state. -/
theorem repeatable_extended (wired : n.Wired) (c : Char) :
    (Atom.letter c).Repeatable (n.extended c) := by
  have current_lt := wired.current_lt
  refine oldest?_isSome.mpr ⟨n.transitions.size, ?_, ⟨.char c, n.current, n.stateCount⟩,
    Array.getElem?_push_size, rfl⟩
  simp only [Nfa.extended, stateAt_current]
  rw [marked_incoming (by simp; omega), marked_incoming (by simp),
    stateAt_connected (by simp; omega) (by simp)]
  simp

theorem lettered (sound : p.Sound) (c : Char) : (p.lettered c).Sound where
  wired := sound.wired.extended c
  attached := by
    rw [Progress.lettered, start_extended]
    exact sound.attached
  alternative_lt entry opened := by
    rw [lettered_alternative] at opened
    rw [Progress.lettered, stateCount_extended]
    exact Nat.lt_succ_of_lt (sound.alternative_lt entry opened)
  repeatable atom last := by
    cases last
    exact repeatable_extended sound.wired c

theorem grouped (sound : p.Sound) (subWired : sub.Wired) (attached : sub.start = some origin) :
    (p.grouped sub).Sound where
  wired := attach_wired sound.wired subWired attached
  attached := attach_start.trans sound.attached
  alternative_lt entry opened :=
    Nat.lt_of_lt_of_le (sound.alternative_lt entry opened) (attach_grows subWired attached)
  repeatable atom last := by
    cases last
    exact attach_hasFragment sound.wired subWired attached

theorem barred (sound : p.Sound) : p.barred.Sound := by
  have origin_lt : origin < p.closed.stateCount := by
    rw [closed_stateCount]
    exact sound.origin_lt
  refine ⟨(closed_wired sound).branched origin_lt, ?_, ?_, nofun⟩
  · exact (closed_start p).trans sound.attached
  · intro entry same
    cases same
    simp [Progress.barred]

/-- A repeated letter leads into the current state once more. -/
theorem repeatable_looped {source target : Nat} (target_lt : target < n.stateCount) (c : Char) :
    (Atom.letter c).Repeatable (n.looped c source target) := by
  refine oldest?_isSome.mpr ⟨n.transitions.size, ?_, ⟨.char c, target, target⟩,
    Array.getElem?_push_size, rfl⟩
  simp only [Nfa.looped, stateAt_current]
  rw [stateAt_connected (by simpa using target_lt) (by simpa using target_lt)]
  simp

theorem hasFragment_repeated {fragment : Fragment} (valid : n.HasFragment fragment) :
    (n.repeated fragment).HasFragment fragment := by
  obtain ⟨entry_lt, exit_lt, edges_lt⟩ := valid
  refine ⟨by simpa using entry_lt, by simpa using exit_lt, fun id member => ?_⟩
  have old := edges_lt id member
  rw [Nfa.repeated, transitions_connectedAll, transitions_marked, Array.size_append]
  omega

theorem again (sound : p.Sound) : p.again.Sound := by
  cases last : p.last with
  | none => simpa [Progress.again, last] using sound
  | some atom =>
      have repeatable := sound.repeatable atom last
      cases atom with
      | letter c =>
          obtain ⟨into, out, oldestIn, oldestOut, looped⟩ := sound.wired.exists_looped repeatable
          have source_lt := (sound.wired.oldest_lt oldestIn).1
          have target_lt := (sound.wired.oldest_lt oldestOut).2
          simp only [Progress.again, last, looped]
          exact {
            wired := sound.wired.looped source_lt target_lt c
            attached := sound.attached
            alternative_lt := fun entry opened => by
              simpa using sound.alternative_lt entry opened
            repeatable := fun atom same => by
              cases same
              exact repeatable_looped target_lt c }
      | group fragment =>
          simp only [Progress.again, last]
          exact {
            wired := sound.wired.repeated repeatable
            attached := (by simp [Nfa.repeated] : _ = p.nfa.start).trans sound.attached
            alternative_lt := fun entry opened => by
              simpa using sound.alternative_lt entry opened
            repeatable := fun atom same => by
              cases same
              exact hasFragment_repeated repeatable }

theorem iterate_again (sound : p.Sound) (stars : Nat) : (Progress.again^[stars] p).Sound := by
  induction stars generalizing p with
  | zero => exact sound
  | succ stars ih => exact ih sound.again

/-- What each star keeps, all stars keep. -/
theorem iterate_again_induction {motive : Progress → Prop} (sound : p.Sound) (start : motive p)
    (step : ∀ {p : Progress}, p.Sound → motive p → motive p.again) (stars : Nat) :
    motive (Progress.again^[stars] p) := by
  induction stars generalizing p with
  | zero => exact start
  | succ stars ih => exact ih sound.again (step sound start)

end Sound

/-- Progress after the pattern has been read. -/
def through : Pattern → Progress → Progress
  | .empty, p => p
  | .letter before c _ stars, p => again^[stars] ((through before p).lettered c)
  | .group before content stars, p =>
      again^[stars] ((through before p).grouped (through content (opened content.hasBar)).closed)
  | .bar before, p => (through before p).barred

/-- The automaton of the pattern. -/
def compiled (pattern : Pattern) : Nfa :=
  (through pattern (opened pattern.hasBar)).closed

theorem through_sound (pattern : Pattern) (p : Progress) (sound : p.Sound) : (through pattern p).Sound := by
  induction pattern generalizing p with
  | empty => exact sound
  | letter before c valid stars ih => exact ((ih p sound).lettered c).iterate_again stars
  | group before content stars ih inside =>
      have content_sound := inside _ (.opened content.hasBar)
      have attached := (closed_start _).trans content_sound.attached
      exact ((ih p sound).grouped (closed_wired content_sound) attached).iterate_again stars
  | bar before ih => exact (ih p sound).barred

@[simp] theorem opened_last (alternatives : Bool) : (opened alternatives).last = none := by
  cases alternatives <;> rfl

theorem compiled_wired (pattern : Pattern) : (compiled pattern).Wired :=
  closed_wired (through_sound _ _ (.opened _))

theorem compiled_start (pattern : Pattern) : (compiled pattern).start = some origin :=
  (closed_start _).trans (through_sound _ _ (.opened _)).attached

/-- Whatever was read last can be repeated. -/
theorem last_through (pattern : Pattern) (p : Progress) (empty : p.last = none) :
    (through pattern p).last.isSome = !pattern.isOpen := by
  cases pattern with
  | empty => simp [through, empty, Pattern.isOpen]
  | letter before c valid stars => simp [through, iterate_again_last, lettered, Pattern.isOpen]
  | group before content stars => simp [through, iterate_again_last, grouped, Pattern.isOpen]
  | bar before => simp [through, barred, Pattern.isOpen]

end Progress

open Progress

theorem compileFrom_nil : (compileFrom position p []).outcome = p.close := by
  rw [compileFrom]
  rfl

theorem compileFrom_plain (valid : isLetter c = true) :
    (compileFrom position p (c :: rest)).outcome =
      (p.letter c).outcome >>= fun next => (compileFrom (position + 1) next rest).outcome := by
  obtain ⟨notOpen, notClose, notStar, notBar⟩ := ne_brackets_of_isLetter valid
  rw [compileFrom]
  simp only [notOpen, notClose, notStar, notBar, valid, ↓reduceIte, Traced.outcome_bind]

/-- Behind validation there is no such character. -/
theorem compileFrom_invalid (invalid : isValidCharacter c = false) :
    (compileFrom position p (c :: rest)).outcome =
      .error (.expression (.invalidCharacter c position)) := by
  simp only [isValidCharacter, Bool.or_eq_false_iff, beq_eq_false_iff_ne] at invalid
  rw [compileFrom]
  simp [invalid]

theorem compileFrom_barred : (compileFrom position p ('|' :: rest)).outcome =
    p.bar.outcome >>= fun next => (compileFrom (position + 1) next rest).outcome := by
  rw [compileFrom]
  simp only [Char.reduceEq, ↓reduceIte, Traced.outcome_bind]

theorem compileFrom_closed {closing : Nat} (closed : closing? ('(' :: rest) 0 = .ok (some closing)) :
    (compileFrom position p ('(' :: rest)).outcome =
      (opening (rest.take (closing - 1))).outcome >>= fun entered =>
        (compileFrom (position + 1) entered (rest.take (closing - 1))).outcome >>= fun sub =>
          (p.group sub).outcome >>= fun next =>
            (compileFrom (position + closing + 1) next (rest.drop closing)).outcome := by
  rw [compileFrom]
  simp only [↓reduceIte, Traced.outcome_bind, Traced.outcome_lift, closed, ok_bind]

theorem compileFrom_letter (sound : p.Sound) (valid : isLetter c = true) :
    (compileFrom position p (c :: rest)).outcome =
      (compileFrom (position + 1) (p.lettered c) rest).outcome := by
  rw [compileFrom_plain valid, letter_eq sound c, ok_bind]

theorem compileFrom_bar (sound : p.Sound) :
    (compileFrom position p ('|' :: rest)).outcome =
      (compileFrom (position + 1) p.barred rest).outcome := by
  rw [compileFrom_barred, bar_eq sound, ok_bind]

theorem compileFrom_star :
    (compileFrom position p ('*' :: rest)).outcome = (p.star position).outcome >>= fun after =>
      (compileFrom (position + 1) after rest).outcome := by
  rw [compileFrom]
  simp only [Char.reduceEq, ↓reduceIte, Traced.outcome_bind]

theorem compileFrom_close : (compileFrom position p (')' :: rest)).outcome =
    .error (.expression (.unbalancedParentheses position)) := by
  rw [compileFrom]
  simp

theorem compileFrom_unclosed (unclosed : closing? ('(' :: rest) 0 = .ok none) :
    (compileFrom position p ('(' :: rest)).outcome =
      .error (.expression (.unbalancedParentheses position)) := by
  rw [compileFrom]
  simp [unclosed]

/-- The place of the closing parenthesis, what is before it, and what is behind it. -/
theorem group_parts {content : List Char} (nested : Nested content) (rest : List Char) :
    closing? ('(' :: (content ++ ')' :: rest)) 0 = .ok (some (content.length + 1)) ∧
      (content ++ ')' :: rest).take (content.length + 1 - 1) = content ∧
      (content ++ ')' :: rest).drop (content.length + 1) = rest := by
  refine ⟨closing?_nested nested, by simp, ?_⟩
  rw [List.drop_append, List.drop_of_length_le (Nat.le_succ _)]
  simp

theorem compileFrom_group {content : List Char} (nested : Nested content) :
    (compileFrom position p ('(' :: (content ++ ')' :: rest))).outcome =
      (compileFrom (position + 1) (opened (hasOuterBar content)) content).outcome >>= fun sub =>
        (p.group sub).outcome >>= fun after =>
          (compileFrom (position + (content.length + 2)) after rest).outcome := by
  obtain ⟨closed, taken, dropped⟩ := group_parts nested rest
  rw [compileFrom_closed closed, taken, dropped, opening_eq, ok_bind]
  rfl

theorem compileFrom_stars (sound : p.Sound) (repeats : p.last.isSome) (stars : Nat) :
    (compileFrom position p (List.replicate stars '*' ++ rest)).outcome =
      (compileFrom (position + stars) (again^[stars] p) rest).outcome := by
  induction stars generalizing p position with
  | zero => rfl
  | succ stars ih =>
      rw [List.replicate_succ, List.cons_append, compileFrom_star, star_eq sound repeats, ok_bind,
        ih sound.again (by simpa using repeats), Nat.add_assoc, Nat.add_comm 1]
      rfl

/-- At the end of a pattern's text compilation has gone through the pattern. -/
theorem compileFrom_text (pattern : Pattern) (position : Nat) (rest : List Char)
    (sound : p.Sound) :
    (compileFrom position p (pattern.text ++ rest)).outcome =
      (compileFrom (position + pattern.text.length) (through pattern p) rest).outcome := by
  induction pattern generalizing p position rest with
  | empty => rfl
  | letter before c valid stars ih =>
      have head := through_sound before p sound
      rw [Pattern.text, List.append_assoc, ih _ _ sound, List.cons_append,
        compileFrom_letter head valid, compileFrom_stars (head.lettered c) rfl]
      simp only [List.length_append, List.length_cons, List.length_replicate, through]
      congr 2
      omega
  | group before content stars ih inside =>
      have head := through_sound before p sound
      have within := inside (position + before.text.length + 1) [] (.opened content.hasBar)
      have content_sound := through_sound content _ (.opened content.hasBar)
      rw [List.append_nil, compileFrom_nil, close_eq content_sound] at within
      rw [Pattern.text_group, List.append_assoc, ih _ _ sound, List.cons_append, List.append_assoc,
        List.cons_append, compileFrom_group (nested_text content), hasOuterBar_text, within,
        ok_bind]
      rw [group_eq head (closed_wired content_sound)
        ((closed_start _).trans content_sound.attached), ok_bind, compileFrom_stars _ rfl]
      · simp only [List.length_append, List.length_cons, List.length_replicate, through]
        congr 2
        omega
      · exact head.grouped (closed_wired content_sound)
          ((closed_start _).trans content_sound.attached)
  | bar before ih =>
      have head := through_sound before p sound
      rw [Pattern.text, List.append_assoc, ih _ _ sound, List.cons_append, List.nil_append,
        compileFrom_bar head, List.length_append]
      rfl

theorem compileChars_text (pattern : Pattern) :
    (compileChars pattern.text).outcome = .ok (compiled pattern) := by
  have sound : (opened pattern.hasBar).Sound := .opened _
  have reached := compileFrom_text pattern 0 [] sound
  rw [List.append_nil, compileFrom_nil, close_eq (through_sound _ _ sound)] at reached
  simp only [compileChars, Traced.outcome_bind, opening_eq, hasOuterBar_text, ok_bind]
  exact reached

end RegexAutomaton.Expression
