import RegexAutomaton.Table.Legible

namespace RegexAutomaton

/-! Written forms that end by themselves.

If nothing written can be continued to something else that is written, a reader can
tell where it ends, whatever follows. For a list, item after item, it is enough that
the items begin with a mark with which the rest does not begin.
-/

variable {α β γ : Type} {among : α → Prop} {told : α → γ} {write : α → List β}
  {first second : List α} {rest rest' : List β}

/-- From a text that begins with what is written for one of these values, a reader
knows the value, as far as it is told, and the rest of the text. -/
def Delimited (among : α → Prop) (told : α → γ) (write : α → List β) : Prop :=
  ∀ a b, among a → among b → ∀ rest rest', write a ++ rest = write b ++ rest' →
    told a = told b ∧ rest = rest'

theorem Delimited.flatMap (delimited : Delimited among told write) (marked : List β → Prop)
    (marks : ∀ a rest, marked (write a ++ rest)) (valid : ∀ a ∈ first, among a)
    (valid' : ∀ a ∈ second, among a) (ends : ¬ marked rest) (ends' : ¬ marked rest')
    (same : first.flatMap write ++ rest = second.flatMap write ++ rest') :
    first.map told = second.map told ∧ rest = rest' := by
  induction first generalizing second with
  | nil =>
      cases second with
      | nil => exact ⟨rfl, same⟩
      | cons b others =>
          rw [List.flatMap_nil, List.nil_append, List.flatMap_cons, List.append_assoc] at same
          exact absurd (same ▸ marks b _) ends
  | cons a items ih =>
      cases second with
      | nil =>
          rw [List.flatMap_nil, List.nil_append, List.flatMap_cons, List.append_assoc] at same
          exact absurd (same ▸ marks a _) ends'
      | cons b others =>
          rw [List.flatMap_cons, List.append_assoc, List.flatMap_cons, List.append_assoc] at same
          obtain ⟨head, tail⟩ := delimited a b (valid a List.mem_cons_self)
            (valid' b List.mem_cons_self) _ _ same
          obtain ⟨items, last⟩ := ih (fun a member => valid a (List.mem_cons_of_mem _ member))
            (fun b member => valid' b (List.mem_cons_of_mem _ member)) tail
          exact ⟨by rw [List.map_cons, List.map_cons, head, items], last⟩

/-- A number ends where a rest follows that does not begin with a digit. -/
theorem number_append_inj {k l : Nat} {chars chars' : List Char}
    (ends : chars.takeWhile Char.isDigit = []) (ends' : chars'.takeWhile Char.isDigit = [])
    (same : Nat.toDigits 10 k ++ chars = Nat.toDigits 10 l ++ chars') : k = l ∧ chars = chars' := by
  have digits : ∀ {k chars}, chars.takeWhile Char.isDigit = [] →
      (Nat.toDigits 10 k ++ chars).takeWhile Char.isDigit = Nat.toDigits 10 k := by
    intro k chars ends
    rw [List.takeWhile_append_of_pos fun d => Nat.isDigit_of_mem_toDigits (by decide) (by decide),
      ends, List.append_nil]
  have number : Nat.toDigits 10 k = Nat.toDigits 10 l := by
    rw [← digits ends, same, digits ends']
  refine ⟨?_, List.append_cancel_left (number ▸ same)⟩
  calc
    k = Nat.ofDigitChars 10 (Nat.toDigits 10 k) 0 := Nat.ofDigitChars_ten_toDigits.symm
    _ = Nat.ofDigitChars 10 (Nat.toDigits 10 l) 0 := by rw [number]
    _ = l := Nat.ofDigitChars_ten_toDigits

theorem toList_labelText (label : Nat) :
    (labelText label).toList = 'q' :: Nat.toDigits 10 label := by
  simp [labelText]

theorem Symbol.delimited : Delimited Symbol.Lettered id fun s => s.text.toList := by
  have letter : Expression.isLetter 'ε' = false := by decide
  intro a b valid valid' rest rest' same
  cases a with
  | epsilon =>
      cases b with
      | epsilon => simpa [text] using same
      | char d =>
          obtain ⟨rfl, -⟩ : 'ε' = d ∧ rest = rest' := by simpa [text] using same
          exact absurd valid' (by simp [Lettered, letter])
  | char c =>
      cases b with
      | epsilon =>
          obtain ⟨rfl, -⟩ : c = 'ε' ∧ rest = rest' := by simpa [text] using same
          exact absurd valid (by simp [Lettered, letter])
      | char d => simpa [text] using same

end RegexAutomaton
