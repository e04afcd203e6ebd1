import RegexAutomaton.Expression.Alphabet
import RegexAutomaton.Expression.Brackets
import RegexAutomaton.Nfa.Splice

namespace RegexAutomaton.Expression

/-- What a star can repeat. -/
inductive Atom where
  | letter (c : Char)
  | group (fragment : Fragment)
deriving Repr

/-- The automaton as far as it is built. -/
structure Progress where
  nfa : Nfa
  /-- The first state of the open alternative, if there are alternatives. -/
  alternative : Option Nat
  /-- The atom just completed in this alternative. -/
  last : Option Atom
deriving Repr

namespace Progress

/-- The state all alternatives start from. -/
def origin : Nat :=
  Nfa.new.current

/-- Before the first of the given characters. -/
def opening (chars : List Char) : Traced Progress :=
  if hasOuterBar chars then do
    let (nfa, entry) ← Nfa.new.branch origin
    return { nfa, alternative := some entry, last := none }
  else
    return { nfa := .new, alternative := none, last := none }

/-- Ends the open alternative. An empty one accepts the empty word. -/
def close (p : Progress) : Except Failure Nfa :=
  match p.alternative with
  | none => .ok p.nfa
  | some entry => if p.nfa.current = entry then p.nfa.setAccepting entry true else .ok p.nfa

def letter (p : Progress) (c : Char) : Traced Progress := do
  let (nfa, _) ← p.nfa.concatenate c
  return { p with nfa, last := some (.letter c) }

def group (p : Progress) (sub : Nfa) : Traced Progress := do
  let (nfa, fragment) ← p.nfa.splice sub
  return { p with nfa, last := some (.group fragment) }

/-- A star at `position`. The repeated atom may be repeated again. -/
def star (p : Progress) (position : Nat) : Traced Progress :=
  match p.last with
  | none => throw (.expression (.nothingToRepeat position))
  | some (.letter c) => do
      let (nfa, result) ← p.nfa.repeatLetter c
      match result with
      | .ok () => return { p with nfa }
      | .error cause => throw (.build cause)
  | some (.group fragment) => do
      return { p with nfa := ← p.nfa.repeatFragment fragment }

/-- A bar: ends an alternative and begins the next. -/
def bar (p : Progress) : Traced Progress := do
  let (nfa, entry) ← (← p.close).branch origin
  return { nfa, alternative := some entry, last := none }

end Progress

/-- Goes on with the characters from `position` on, and ends the expression. Letters extend the
current path, and a star repeats the atom before it. A group is compiled by itself and spliced
in. -/
def compileFrom (position : Nat) (p : Progress) : List Char → Traced Nfa
  | [] => p.close
  | c :: rest =>
      if c = '(' then do
        match ← closing? (c :: rest) 0 with
        | none => throw (.expression (.unbalancedParentheses position))
        | some closing =>
            let content := rest.take (closing - 1)
            let sub ← compileFrom (position + 1) (← Progress.opening content) content
            compileFrom (position + closing + 1) (← p.group sub) (rest.drop closing)
      else if c = ')' then
        throw (.expression (.unbalancedParentheses position))
      else if c = '*' then do
        compileFrom (position + 1) (← p.star position) rest
      else if c = '|' then do
        compileFrom (position + 1) (← p.bar) rest
      else if isLetter c then do
        compileFrom (position + 1) (← p.letter c) rest
      else
        throw (.expression (.invalidCharacter c position))
termination_by chars => chars.length
decreasing_by all_goals simp; try omega

/-- The automaton of a sequence of valid characters. The empty sequence has
one, too. -/
def compileChars (chars : List Char) : Traced Nfa := do
  compileFrom 0 (← Progress.opening chars) chars

/-- The automaton of an expression. Nothing is built before all characters
have been found valid. -/
def compile (expression : String) : Traced Nfa := do
  validate expression
  Traced.emit (.parsing expression)
  let n ← compileChars expression.toList
  Traced.emit (.compiled expression n.stateCount)
  return n

end RegexAutomaton.Expression
