import RegexAutomaton.Expression.Compile

namespace RegexAutomaton.Expression

open Progress

/-- Compilation gets from `p`, with `chars` to come, to `q`, with `rest` to come. A group takes
a single turn, in which its content takes a course of its own, from a fresh automaton on. -/
inductive Passes : Progress → List Char → Progress → List Char → Prop where
  | here (p : Progress) (chars : List Char) : Passes p chars p chars
  | letter {p next q : Progress} {c : Char} {chars rest : List Char} :
      isLetter c = true → (p.letter c).outcome = .ok next → Passes next chars q rest →
      Passes p (c :: chars) q rest
  | star {p next q : Progress} {position : Nat} {chars rest : List Char} :
      (p.star position).outcome = .ok next → Passes next chars q rest →
      Passes p ('*' :: chars) q rest
  | bar {p next q : Progress} {chars rest : List Char} :
      p.bar.outcome = .ok next → Passes next chars q rest → Passes p ('|' :: chars) q rest
  | group {p entered last next q : Progress} {sub : Nfa} {closing : Nat}
      {chars rest : List Char} :
      closing? ('(' :: chars) 0 = .ok (some closing) →
      (opening (chars.take (closing - 1))).outcome = .ok entered →
      Passes entered (chars.take (closing - 1)) last [] → last.close = .ok sub →
      (p.group sub).outcome = .ok next → Passes next (chars.drop closing) q rest →
      Passes p ('(' :: chars) q rest

/-- Compilation of `chars` comes to the automaton `n`, for the expression as a whole or for
one of its groups. Arenas only grow, so an identifier that is given away on the way is a
place in the arena of such an automaton. -/
inductive Arises : List Char → Nfa → Prop where
  | passed {p q : Progress} {chars rest : List Char} :
      (opening chars).outcome = .ok p → Passes p chars q rest → Arises chars q.nfa
  | ended {p q : Progress} {chars : List Char} {n : Nfa} :
      (opening chars).outcome = .ok p → Passes p chars q [] → q.close = .ok n → Arises chars n
  | inside {p q : Progress} {chars rest : List Char} {closing : Nat} {n : Nfa} :
      (opening chars).outcome = .ok p → Passes p chars q ('(' :: rest) →
      closing? ('(' :: rest) 0 = .ok (some closing) → Arises (rest.take (closing - 1)) n →
      Arises chars n

/-- On the way from `p` through `chars`, or on the way through one of its groups, a star moves
the end of the path, which it otherwise leaves where it is. -/
inductive Retreats : Progress → List Char → Prop where
  | star {p q next : Progress} {position : Nat} {chars rest : List Char} :
      Passes p chars q ('*' :: rest) → (q.star position).outcome = .ok next →
      next.nfa.current ≠ q.nfa.current → Retreats p chars
  | inside {p q entered : Progress} {closing : Nat} {chars rest : List Char} :
      Passes p chars q ('(' :: rest) → closing? ('(' :: rest) 0 = .ok (some closing) →
      (opening (rest.take (closing - 1))).outcome = .ok entered →
      Retreats entered (rest.take (closing - 1)) → Retreats p chars

/-- The identifier is kept in 32 bits. -/
def Exact (id : Nat) : Prop :=
  (UInt32.ofNat id).toNat = id

end RegexAutomaton.Expression
