import RegexAutomaton.Nfa.Basic

namespace RegexAutomaton

/-- The character that a symbol reads, if any. -/
def Symbol.char? : Symbol → Option Char
  | epsilon => none
  | char c => some c

/-- The word that remains when the epsilons are left out. -/
def spelled (symbols : List Symbol) : List Char :=
  symbols.filterMap Symbol.char?

namespace Nfa

/-- The state `q` lists the transition `t`, named `id`, among its outgoing ones. -/
def Leaves (n : Nfa) (q id : Nat) (t : Transition) : Prop :=
  ∃ s, n.states[q]? = some s ∧ id ∈ s.outgoing ∧ n.transitions[id]? = some t

def Step (n : Nfa) (q : Nat) (symbol : Symbol) (r : Nat) : Prop :=
  ∃ id t, n.Leaves q id t ∧ t.symbol = symbol ∧ t.target = r

/-- Follows linked transitions, those that their source lists. -/
inductive Path (n : Nfa) : Nat → List Symbol → Nat → Prop where
  | nil (q : Nat) : Path n q [] q
  | cons {q r last : Nat} {symbol : Symbol} {rest : List Symbol} :
      n.Step q symbol r → Path n r rest last → Path n q (symbol :: rest) last

def Accepting (n : Nfa) (q : Nat) : Prop :=
  ∃ s, n.states[q]? = some s ∧ s.accepting = true

/-- Some path from the start to an accepting state spells the word. -/
def Accepts (n : Nfa) (word : List Char) : Prop :=
  ∃ start symbols q,
    n.start = some start ∧ n.Path start symbols q ∧ spelled symbols = word ∧ n.Accepting q

def Reaches (n : Nfa) (q r : Nat) : Prop :=
  ∃ symbols, n.Path q symbols r

/-- Some path leads from the start to `q`. -/
def Reachable (n : Nfa) (q : Nat) : Prop :=
  ∃ start, n.start = some start ∧ n.Reaches start q

/-- The shortest paths from `q` to `r` have `steps` steps. -/
def Distance (n : Nfa) (q r steps : Nat) : Prop :=
  (∃ symbols, n.Path q symbols r ∧ symbols.length = steps) ∧
    ∀ symbols, n.Path q symbols r → steps ≤ symbols.length

variable {n : Nfa} {q r last : Nat}

theorem Path.append {first second : List Symbol}
    (head : n.Path q first r) (tail : n.Path r second last) :
    n.Path q (first ++ second) last := by
  induction head with
  | nil => exact tail
  | cons step _ ih => exact .cons step (ih tail)

theorem Reaches.refl (n : Nfa) (q : Nat) : n.Reaches q q :=
  ⟨[], .nil q⟩

theorem Reaches.trans (head : n.Reaches q r) (tail : n.Reaches r last) :
    n.Reaches q last := by
  obtain ⟨first, head⟩ := head
  obtain ⟨second, tail⟩ := tail
  exact ⟨first ++ second, head.append tail⟩

theorem Reaches.of_step {symbol : Symbol} (step : n.Step q symbol r) : n.Reaches q r :=
  ⟨[symbol], .cons step (.nil r)⟩

end Nfa

end RegexAutomaton
