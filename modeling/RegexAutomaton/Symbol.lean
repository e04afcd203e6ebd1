namespace RegexAutomaton

/-- What a transition reads: one input character, or nothing. -/
inductive Symbol where
  /-- Taken without consuming input. -/
  | epsilon
  | char (c : Char)
deriving DecidableEq, Repr, Inhabited

namespace Symbol

def isEpsilon : Symbol → Bool
  | epsilon => true
  | char _ => false

/-- The written form in every printed description of an automaton, without escaping. -/
def text : Symbol → String
  | epsilon => "ε"
  | char c => String.singleton c

/-- The place of a symbol in the order of symbols: epsilon first, then the
characters by code point. -/
def rank : Symbol → Nat
  | epsilon => 0
  | char c => c.toNat + 1

def sort (symbols : List Symbol) : List Symbol :=
  symbols.mergeSort fun a b => a.rank ≤ b.rank

theorem rank_injective {a b : Symbol} (same : a.rank = b.rank) : a = b := by
  cases a <;> cases b <;> simp_all [rank, Char.toNat_inj]

end Symbol

end RegexAutomaton
