namespace RegexAutomaton.Text

inductive Utf8Error where
  /-- The bytes from `index` on are no sequence. Their first `length` bytes,
  one at least, are what a sequence could begin with. -/
  | invalid (length index : Nat)
  /-- The bytes end inside a sequence that begins at `index`. -/
  | incomplete (index : Nat)
deriving DecidableEq, Repr

def Utf8Error.message : Utf8Error → String
  | invalid length index =>
      "invalid utf-8 sequence of " ++ toString length ++ " bytes from index " ++ toString index
  | incomplete index =>
      "incomplete utf-8 byte sequence from index " ++ toString index

/-- A sequence of several bytes, some of which have been read. -/
structure Sequence where
  /-- The place of its first byte. -/
  index : Nat
  read : Nat
  missing : Nat
  /-- The least and the greatest byte that can follow. -/
  low : Nat
  high : Nat
  /-- The bits of the character read so far. -/
  bits : Nat
deriving DecidableEq, Repr

namespace Sequence

/-- The sequence that begins with `lead`, if one does. The first byte tells the length, and
bounds the second so that no character has two forms and none is a surrogate or lies beyond the
last code point. -/
def ofLead? (index lead : Nat) : Option Sequence :=
  if 0xC2 ≤ lead ∧ lead ≤ 0xDF then some ⟨index, 1, 1, 0x80, 0xBF, lead - 0xC0⟩
  else if lead = 0xE0 then some ⟨index, 1, 2, 0xA0, 0xBF, 0⟩
  else if lead = 0xED then some ⟨index, 1, 2, 0x80, 0x9F, lead - 0xE0⟩
  else if 0xE1 ≤ lead ∧ lead ≤ 0xEF then some ⟨index, 1, 2, 0x80, 0xBF, lead - 0xE0⟩
  else if lead = 0xF0 then some ⟨index, 1, 3, 0x90, 0xBF, 0⟩
  else if lead = 0xF4 then some ⟨index, 1, 3, 0x80, 0x8F, lead - 0xF0⟩
  else if 0xF1 ≤ lead ∧ lead ≤ 0xF3 then some ⟨index, 1, 3, 0x80, 0xBF, lead - 0xF0⟩
  else none

/-- The sequence after one more byte. -/
def extend (s : Sequence) (byte : Nat) : Sequence where
  index := s.index
  read := s.read + 1
  missing := s.missing - 1
  low := 0x80
  high := 0xBF
  bits := s.bits * 64 + (byte - 0x80)

end Sequence

/-- Reads on at `index`, inside the pending sequence if there is one. The
characters already read are given last first. -/
def decodeFrom (index : Nat) (pending : Option Sequence) (read : List Char) :
    List UInt8 → Except Utf8Error (List Char)
  | [] =>
      match pending with
      | none => .ok read.reverse
      | some s => .error (.incomplete s.index)
  | byte :: rest =>
      match pending with
      | none =>
          if byte.toNat < 0x80 then
            decodeFrom (index + 1) none (Char.ofNat byte.toNat :: read) rest
          else
            match Sequence.ofLead? index byte.toNat with
            | none => .error (.invalid 1 index)
            | some s => decodeFrom (index + 1) (some s) read rest
      | some s =>
          if s.low ≤ byte.toNat ∧ byte.toNat ≤ s.high then
            if s.missing = 1 then
              decodeFrom (index + 1) none (Char.ofNat (s.extend byte.toNat).bits :: read) rest
            else
              decodeFrom (index + 1) (some (s.extend byte.toNat)) read rest
          else
            .error (.invalid s.read s.index)

/-- The characters of a text given in UTF-8. -/
def decode (bytes : List UInt8) : Except Utf8Error (List Char) :=
  decodeFrom 0 none [] bytes

end RegexAutomaton.Text
