import RegexAutomaton.Proofs.Faults
import RegexAutomaton.Proofs.Walking
import RegexAutomaton.Session

namespace RegexAutomaton

variable {options : Session.Options} {line rest x y : List UInt8} {chars read : List Char}
  {byte : UInt8} {n : Nfa}

namespace Text

theorem trim_newline (chars : List Char) : trim (chars ++ ['\n']) = trim chars := by
  have blank : isBlank '\n' = true := by decide
  simp only [trim, trimLeft, List.dropWhile_append]
  split
  · rename_i empty
    simp [List.isEmpty_iff.mp empty, blank]
  · simp [blank]

/-- A newline can follow wherever a text may end. -/
theorem decodeFrom_newline {index : Nat} {pending : Option Sequence}
    (decoded : decodeFrom index pending read line = .ok chars) :
    decodeFrom index pending read (line ++ [Session.newline]) = .ok (chars ++ ['\n']) := by
  induction line generalizing index pending read with
  | nil =>
      cases pending with
      | none =>
          cases decoded
          exact congrArg Except.ok (List.reverse_cons ..)
      | some s => cases decoded
  | cons byte rest ih =>
      cases pending with
      | none =>
          simp only [List.cons_append, decodeFrom] at decoded ⊢
          split at decoded
          · rename_i single
            rw [if_pos single]
            exact ih decoded
          · rename_i several
            rw [if_neg several]
            cases lead : Sequence.ofLead? index byte.toNat with
            | none => simp [lead] at decoded
            | some s =>
                simp only [lead] at decoded ⊢
                exact ih decoded
      | some s =>
          simp only [List.cons_append, decodeFrom] at decoded ⊢
          split at decoded
          · rename_i within
            rw [if_pos within]
            split at decoded
            · rename_i last
              rw [if_pos last]
              exact ih decoded
            · rename_i more
              rw [if_neg more]
              exact ih decoded
          · cases decoded

theorem decode_newline (decoded : decode line = .ok chars) :
    decode (line ++ [Session.newline]) = .ok (chars ++ ['\n']) :=
  decodeFrom_newline decoded

end Text

namespace Session

/-- Nothing, or whole lines with their newlines. -/
def Terminated (x : List UInt8) : Prop :=
  x = [] ∨ x.getLast? = some newline

theorem linesFrom_newline (line x y : List UInt8) :
    linesFrom line (x ++ newline :: y) = linesFrom line (x ++ [newline]) ++ lines y := by
  induction x generalizing line with
  | nil => rfl
  | cons byte rest ih =>
      simp only [List.cons_append, linesFrom]
      split
      · rw [ih, List.cons_append]
      · exact ih _

theorem lines_append (terminated : Terminated x) (y : List UInt8) :
    lines (x ++ y) = lines x ++ lines y := by
  rcases terminated with rfl | last
  · rfl
  · obtain ⟨init, rfl⟩ := List.getLast?_eq_some_iff.mp last
    rw [List.append_assoc]
    exact linesFrom_newline [] init y

theorem linesFrom_unbroken (unbroken : newline ∉ x) (line : List UInt8) :
    linesFrom line x = linesFrom (x.reverse ++ line) [] := by
  induction x generalizing line with
  | nil => rfl
  | cons byte rest ih =>
      simp only [List.mem_cons, not_or] at unbroken
      have goesOn : linesFrom line (byte :: rest) = linesFrom (byte :: line) rest :=
        if_neg (Ne.symm unbroken.1)
      rw [goesOn, ih unbroken.2]
      simp

/-- What holds no newline is one line, if it holds anything. -/
theorem lines_unbroken (unbroken : newline ∉ x) (nonempty : x ≠ []) : lines x = [x] := by
  rw [lines, linesFrom_unbroken unbroken]
  simp [linesFrom, nonempty]

/-- Lines with a newline stand among the whole ones. -/
theorem mem_lines_whole {whole piece : List UInt8} (terminated : Terminated whole)
    (unbroken : newline ∉ piece) (member : line ∈ lines (whole ++ piece))
    (last : line.getLast? = some newline) : line ∈ lines whole := by
  rw [lines_append terminated] at member
  rcases List.mem_append.mp member with inWhole | inPiece
  · exact inWhole
  · by_cases nothing : piece = []
    · simp [nothing, lines, linesFrom] at inPiece
    · rw [lines_unbroken unbroken nothing, List.mem_singleton] at inPiece
      exact absurd (List.mem_of_getLast? (inPiece ▸ last)) unbroken

theorem lines_unbroken_newline (unbroken : newline ∉ x) :
    lines (x ++ [newline]) = [x ++ [newline]] := by
  have whole : ∀ line, linesFrom line (x ++ [newline]) = [line.reverse ++ (x ++ [newline])] := by
    intro line
    induction x generalizing line with
    | nil => simp [linesFrom]
    | cons byte rest ih =>
        simp only [List.mem_cons, not_or] at unbroken
        rw [List.cons_append, linesFrom, if_neg (Ne.symm unbroken.1), ih unbroken.2]
        simp
  exact whole []

/-- An input consists of whole lines and a piece of one. -/
theorem exists_terminated (x : List UInt8) :
    ∃ whole piece, x = whole ++ piece ∧ Terminated whole ∧ newline ∉ piece := by
  induction x using List.reverseRecOn with
  | nil => exact ⟨[], [], rfl, .inl rfl, List.not_mem_nil⟩
  | append_singleton x byte ih =>
      by_cases ends : byte = newline
      · exact ⟨x ++ [byte], [], by simp, .inr (by simp [ends]), List.not_mem_nil⟩
      · obtain ⟨whole, piece, rfl, terminated, unbroken⟩ := ih
        exact ⟨whole, piece ++ [byte], by simp, terminated, by simp [unbroken, Ne.symm ends]⟩

/-- Whole lines, each a text without newlines and then a newline, and perhaps a piece of one. -/
inductive Cut : List (List UInt8) → Prop where
  | nil : Cut []
  | piece {line : List UInt8} : line ≠ [] → newline ∉ line → Cut [line]
  | whole {text : List UInt8} {rest : List (List UInt8)} :
      newline ∉ text → Cut rest → Cut ((text ++ [newline]) :: rest)

theorem Cut.lines_flatten {pieces : List (List UInt8)} (cut : Cut pieces) :
    lines pieces.flatten = pieces := by
  induction cut with
  | nil => rfl
  | piece nonempty unbroken =>
      rw [List.flatten_singleton]
      exact lines_unbroken unbroken nonempty
  | @whole text rest unbroken _ ih =>
      have terminated : Terminated (text ++ [newline]) := .inr List.getLast?_concat
      rw [List.flatten_cons, lines_append terminated, lines_unbroken_newline unbroken, ih]
      rfl

theorem exists_cut (x : List UInt8) : ∃ pieces, pieces.flatten = x ∧ Cut pieces := by
  induction x with
  | nil => exact ⟨[], rfl, .nil⟩
  | cons byte rest ih =>
      obtain ⟨pieces, rfl, cut⟩ := ih
      by_cases ends : byte = newline
      · exact ⟨[newline] :: pieces, by simp [ends], @Cut.whole [] _ List.not_mem_nil cut⟩
      · cases cut with
        | nil => exact ⟨[[byte]], rfl, .piece (by simp) (by simpa using Ne.symm ends)⟩
        | @piece line nonempty unbroken =>
            exact ⟨[byte :: line], by simp, .piece (by simp) (by simp [Ne.symm ends, unbroken])⟩
        | @whole text rest unbroken cut =>
            have longer : newline ∉ byte :: text := by simp [Ne.symm ends, unbroken]
            exact ⟨_, by simp, .whole longer cut⟩

/-- The lines of an input are its one cut. -/
theorem lines_eq_iff {pieces : List (List UInt8)} :
    lines x = pieces ↔ pieces.flatten = x ∧ Cut pieces := by
  apply Iff.intro
  · intro same
    obtain ⟨others, rfl, cut⟩ := exists_cut x
    rw [← same, cut.lines_flatten]
    exact ⟨rfl, cut⟩
  · intro cuts
    obtain ⟨rfl, cut⟩ := cuts
    exact cut.lines_flatten

/-- The line is valid and has nothing but blanks. -/
def blank (line : List UInt8) : Bool :=
  match Text.decode line with
  | .error _ => false
  | .ok chars => (Text.trim chars).isEmpty

/-- The reply to a line that does not end the session. -/
def said (options : Options) (line : List UInt8) : String :=
  match reply? options line with
  | .ok (some text) => text
  | _ => ""

theorem description_exists (wired : n.Wired) (options : Options) :
    ∃ text, description options n = .ok text := by
  simp only [description, Nfa.table_eq wired.walkable, Nfa.ok_bind, Nfa.reduce_eq wired.walkable]
  split
  · exact ⟨_, rfl⟩
  · exact ⟨_, rfl⟩

theorem answer_exists (options : Options) (expression : String) :
    ∃ text, answer options expression = .ok text := by
  rw [answer]
  rcases Expression.compile_cases expression with ⟨p, _, _, done⟩ | ⟨cause, _, failed⟩
  · rw [done]
    exact description_exists (Expression.Progress.compiled_wired p) options
  · rw [failed]
    exact ⟨_, rfl⟩

theorem reply?_eq (options : Options) (line : List UInt8) :
    reply? options line = .ok (if blank line then none else some (said options line)) := by
  have shape : reply? options line = .ok none ∧ blank line = true ∨
      ∃ text, reply? options line = .ok (some text) ∧ blank line = false := by
    unfold reply? blank
    cases decoded : Text.decode line with
    | error failure => exact .inr ⟨_, rfl, rfl⟩
    | ok chars =>
        cases trimmed : Text.trim chars with
        | nil => exact .inl ⟨by simp only [trimmed], by simp [trimmed]⟩
        | cons c rest =>
            obtain ⟨text, answered⟩ := answer_exists options (String.ofList (c :: rest))
            exact .inr ⟨text, by simp only [trimmed, answered]; rfl, by simp [trimmed]⟩
  rcases shape with ⟨reply, ends⟩ | ⟨text, reply, goesOn⟩
  · simp [reply, ends]
  · simp [said, reply, goesOn]

/-- A line is answered by its text, with or without a newline at its end. -/
theorem reply?_newline (decoded : Text.decode line = .ok chars) :
    reply? options (line ++ [newline]) = reply? options line := by
  simp only [reply?, decoded, Text.decode_newline decoded, Text.trim_newline]

theorem blank_newline (decoded : Text.decode line = .ok chars) :
    blank (line ++ [newline]) = blank line := by
  simp only [blank, decoded, Text.decode_newline decoded, Text.trim_newline]

/-- What is printed after the first prompt. -/
def conversation (options : Options) (lines : List (List UInt8)) : String :=
  String.join ((lines.takeWhile fun line => !blank line).map fun line =>
    said options line ++ nextPrompt)

theorem conversation_cons (line : List UInt8) (rest : List (List UInt8)) :
    conversation options (line :: rest) =
      if blank line then "" else said options line ++ nextPrompt ++ conversation options rest := by
  cases ends : blank line <;> simp [conversation, ends]

theorem replies_eq (options : Options) (lines : List (List UInt8)) :
    ∃ texts, replies options lines = .ok texts ∧ String.join texts = conversation options lines := by
  induction lines with
  | nil => exact ⟨[], rfl, rfl⟩
  | cons line rest ih =>
      obtain ⟨texts, replied, joined⟩ := ih
      simp only [replies, reply?_eq, Nfa.ok_bind, conversation_cons]
      cases blank line with
      | true => exact ⟨[], rfl, rfl⟩
      | false =>
          refine ⟨said options line :: nextPrompt :: texts, by simp only [replied]; rfl, ?_⟩
          simp [joined, String.append_assoc]

theorem transcript_eq (options : Options) (input : List UInt8) :
    transcript options input = .ok (firstPrompt ++ conversation options (lines input)) := by
  obtain ⟨texts, replied, joined⟩ := replies_eq options (lines input)
  simp only [transcript, replied, Nfa.ok_bind, ← joined]
  exact congrArg Except.ok String.join_cons

theorem conversation_append {first second : List (List UInt8)}
    (goesOn : ∀ line ∈ first, blank line = false) :
    conversation options (first ++ second) =
      conversation options first ++ conversation options second := by
  induction first with
  | nil => exact String.empty_append.symm
  | cons line rest ih =>
      have later := ih fun line member => goesOn line (List.mem_cons_of_mem _ member)
      have here : blank line = false := goesOn line (by simp)
      simp [conversation_cons, here, later, String.append_assoc]

/-- Nothing behind a blank line is answered. -/
theorem conversation_ended {first : List (List UInt8)} (member : line ∈ first)
    (ends : blank line = true) (second : List (List UInt8)) :
    conversation options (first ++ second) = conversation options first := by
  induction first with
  | nil => cases member
  | cons head rest ih =>
      rw [List.cons_append, conversation_cons, conversation_cons]
      rcases List.mem_cons.mp member with rfl | later
      · rw [if_pos ends, if_pos ends]
      · rw [ih later]

theorem conversation_newline (before : List (List UInt8)) (decoded : Text.decode line = .ok chars) :
    conversation options (before ++ [line ++ [newline]]) =
      conversation options (before ++ [line]) := by
  induction before with
  | nil => simp [conversation_cons, blank_newline decoded, said, reply?_newline decoded]
  | cons head rest ih => rw [List.cons_append, List.cons_append, conversation_cons,
      conversation_cons, ih]

/-- What is said to a line depends on that line alone, and a blank line ends the
session. So whole lines that do not end it can be answered apart from what follows,
nothing changes behind a line that does, and the end of the input ends a line as a
newline would. -/
theorem transcript_linewise (options : Options) :
    (∃ reply : List UInt8 → String, ∀ input, transcript options input =
      .ok (firstPrompt ++ String.join (((lines input).takeWhile fun line => !blank line).map
        fun line => reply line ++ nextPrompt))) ∧
    (∀ x y, Terminated x → (∀ line ∈ lines x, blank line = false) →
      ∃ first rest, transcript options x = .ok first ∧
        transcript options y = .ok (firstPrompt ++ rest) ∧
        transcript options (x ++ y) = .ok (first ++ rest)) ∧
    (∀ x y, (∃ line ∈ lines x, line.getLast? = some newline ∧ blank line = true) →
      ∃ text, transcript options x = .ok text ∧ transcript options (x ++ y) = .ok text) ∧
    (∀ x, ¬ Terminated x → (∃ line chars, (lines x).getLast? = some line ∧
        Text.decode line = .ok chars) →
      ∃ text, transcript options x = .ok text ∧
        transcript options (x ++ [newline]) = .ok text) := by
  refine ⟨⟨said options, transcript_eq options⟩, ?_, ?_, ?_⟩
  · intro x y terminated goesOn
    refine ⟨_, _, transcript_eq options x, transcript_eq options y, ?_⟩
    rw [transcript_eq, lines_append terminated, conversation_append goesOn, String.append_assoc]
  · intro x y ends
    obtain ⟨line, member, last, ends⟩ := ends
    obtain ⟨whole, piece, rfl, terminated, unbroken⟩ := exists_terminated x
    refine ⟨_, transcript_eq options _, ?_⟩
    have inWhole := mem_lines_whole terminated unbroken member last
    rw [transcript_eq, List.append_assoc, lines_append terminated, lines_append terminated,
      conversation_ended inWhole ends, conversation_ended inWhole ends]
  · intro x cutOff valid
    obtain ⟨line, chars, last, decoded⟩ := valid
    obtain ⟨whole, piece, rfl, terminated, unbroken⟩ := exists_terminated x
    have nonempty : piece ≠ [] := fun nothing => cutOff (by simpa [nothing] using terminated)
    have split := lines_append terminated piece
    rw [lines_unbroken unbroken nonempty] at split
    obtain rfl : piece = line := by simpa [split] using last
    refine ⟨_, transcript_eq options _, ?_⟩
    rw [transcript_eq, List.append_assoc, lines_append terminated, lines_unbroken_newline unbroken,
      conversation_newline _ decoded, split]

/-- The first line is malformed. The piece after it would be a blank line, but for
its last byte, which completes no character. -/
theorem transcript_linewise_of_malformed :
    (∃ first rest, transcript { reduce := true } [0xFF, newline] = .ok first ∧
      transcript { reduce := true } [0x20, 0xC2] = .ok (firstPrompt ++ rest) ∧
      transcript { reduce := true } ([0xFF, newline] ++ [0x20, 0xC2]) = .ok (first ++ rest)) ∧
    (∃ text, transcript { reduce := true } [0xFF, newline, 0x20, newline] = .ok text ∧
      transcript { reduce := true } ([0xFF, newline, 0x20, newline] ++ [0x61]) = .ok text) ∧
    ∃ text, transcript { reduce := true } [0xFF, newline, 0x61] = .ok text ∧
      transcript { reduce := true } ([0xFF, newline, 0x61] ++ [newline]) = .ok text := by
  obtain ⟨_, goesOn, ends, completes⟩ := transcript_linewise { reduce := true }
  refine ⟨goesOn _ _ (.inr (by decide)) (by decide),
    ends _ _ ⟨[0x20, newline], by decide, by decide, by decide⟩, completes _ ?_ ⟨[0x61], ['a'], ?_⟩⟩
  · simp [Terminated, newline]
  · decide

end Session

end RegexAutomaton
