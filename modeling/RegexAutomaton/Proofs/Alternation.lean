import RegexAutomaton.Proofs.Alternatives
import RegexAutomaton.Proofs.Branches
import RegexAutomaton.Proofs.Trimness

namespace RegexAutomaton.Expression

open Nfa

variable {host sub n : Nfa} {alone p : Progress} {pattern : Pattern} {b : Nat} {c : Char}
  {word : List Char}

/-- The atom, built behind the host. -/
def Atom.hosted (host : Nfa) : Atom → Atom
  | letter c => letter c
  | group fragment => group (host.hosted fragment)

namespace Progress

/-- The open alternative of `p`, with the host before it, is the same as `alone`. -/
structure Abreast (host : Nfa) (alone p : Progress) : Prop where
  nfa : Beside origin host alone.nfa p.nfa
  last : p.last = alone.last.map (Atom.hosted host)
  alternative : p.alternative = some host.stateCount

theorem abreast_branched (origin_lt : origin < host.stateCount) :
    Abreast host (opened false) ⟨host.branched origin, some host.stateCount, none⟩ where
  nfa := beside_branched origin_lt
  last := rfl
  alternative := rfl

namespace Abreast

variable (abreast : Abreast host alone p) (sound : alone.Sound)

include abreast sound

theorem lettered (c : Char) : Abreast host (alone.lettered c) (p.lettered c) where
  nfa := abreast.nfa.extended sound.wired c
  last := rfl
  alternative := abreast.alternative

theorem attach_eq (subWired : sub.Wired) (attached : sub.start = some origin) :
    Beside origin host (attach alone.nfa sub).1 (attach p.nfa sub).1 ∧
      (attach p.nfa sub).2 = host.hosted (attach alone.nfa sub).2 := by
  have start_lt := subWired.start_lt attached
  unfold attach
  split
  · exact ⟨abreast.nfa, by simp [hosted, abreast.nfa.current_eq]⟩
  · exact ⟨abreast.nfa.spliced sound.wired subWired start_lt,
      abreast.nfa.fragment_eq sound.wired subWired start_lt⟩

theorem grouped (subWired : sub.Wired) (attached : sub.start = some origin) :
    Abreast host (alone.grouped sub) (p.grouped sub) where
  nfa := (abreast.attach_eq sound subWired attached).1
  last := by
    simp [Progress.grouped, (abreast.attach_eq sound subWired attached).2, Atom.hosted]
  alternative := abreast.alternative

theorem again : Abreast host alone.again p.again where
  nfa := by
    have same := abreast.last
    cases last : alone.last with
    | none =>
        rw [last] at same
        simpa [Progress.again, last, show p.last = none from same] using abreast.nfa
    | some atom =>
        have repeatable := sound.repeatable atom last
        rw [last] at same
        cases atom with
        | letter c =>
            rw [again_letter last, again_letter same]
            exact abreast.nfa.repeatedLetter sound.wired c
        | group fragment =>
            rw [again_group last, again_group same]
            exact abreast.nfa.repeated sound.wired repeatable
  last := by
    rw [again_last, again_last]
    exact abreast.last
  alternative := by
    rw [again_alternative]
    exact abreast.alternative

theorem iterate_again (stars : Nat) : Abreast host (Progress.again^[stars] alone)
    (Progress.again^[stars] p) := by
  induction stars generalizing alone p with
  | zero => exact abreast
  | succ stars ih => exact ih (abreast.again sound) sound.again

end Abreast

/-- What an alternative comes to, when it ends: a silent one accepts the empty word. -/
def ended (t : Pattern) : Nfa :=
  if t.silent then .lone true else compiled t

theorem compiled_of_single {t : Pattern} (single : t.hasBar = false) :
    compiled t = (through t (opened false)).nfa := by
  have tidy : Tidy false t (through t (opened false)) := tidy_through t fun _ => single
  have alone : (through t (opened false)).alternative = none := by simpa using tidy.several
  rw [compiled, single, closed, alone]

/-- Construction leaves the start with the first trace. -/
theorem current_eq_origin_iff {t : Pattern} (single : t.hasBar = false) :
    (through t (opened false)).nfa.current = origin ↔ t.silent = true := by
  have tidy : Tidy false t (through t (opened false)) := tidy_through t fun _ => single
  have same : t.silent = t.lastSilent := by simp [Pattern.silent_eq, single]
  rw [same]
  apply Iff.intro
  · intro here
    by_contra loud
    obtain ⟨a, s, step⟩ := tidy.entered (.inr (by simpa using loud))
    exact tidy.rooted.unreached a s (here ▸ step)
  · intro silent
    obtain ⟨_, accepting, lone⟩ := through_silent (same.trans silent)
    rw [lone]
    rfl

/-- Ending an alternative beside the host marks its only state, or nothing. -/
theorem Abreast.closed {t : Pattern} (abreast : Abreast host (through t (opened false)) p)
    (single : t.hasBar = false) : Beside origin host (ended t) p.closed := by
  have current := abreast.nfa.current_eq
  have sound := through_sound t _ (.opened false)
  have here_iff : p.alternative = some p.nfa.current ↔ t.silent = true := by
    rw [← current_eq_origin_iff single, abreast.alternative, Option.some_inj, current]
    exact Nat.left_eq_add
  rcases p.closed_cases with ⟨here, same⟩ | ⟨apart, same⟩
  · have silent := here_iff.mp here
    obtain ⟨_, accepting, lone⟩ := through_silent silent
    have marked := abreast.nfa.marked sound.wired.current_lt true
    rw [← current, lone] at marked
    rw [ended, if_pos silent, same]
    exact marked
  · rw [ended, if_neg (here_iff.not.mp apart), same, compiled_of_single single]
    exact abreast.nfa

theorem ended_facts (t : Pattern) : (ended t).Wired ∧ (ended t).start = some origin ∧
    (ended t).Rooted origin := by
  rw [ended]
  split
  · have zero_lt : origin < Nfa.new.stateCount := by decide
    exact ⟨Wired.new.marked zero_lt true, rfl, (widens_marked zero_lt).rooted rooted_new⟩
  · exact ⟨compiled_wired t, compiled_start t, compiled_rooted t⟩

theorem forked_closed {t : Pattern} {entries : List Nat} {subs : List Nfa}
    (forked : Forked origin host entries subs) (abreast : Abreast host (through t (opened false)) p)
    (single : t.hasBar = false) (sound : p.Sound) :
    Forked origin p.closed (entries ++ [host.stateCount]) (subs ++ [ended t]) := by
  obtain ⟨wired, attached, rooted⟩ := ended_facts t
  exact forked.beside (abreast.closed single) (closed_wired sound) wired rooted
    (wired.start_lt attached)

theorem forked_through (pattern : Pattern) : ∃ host entries,
    Forked origin host entries (pattern.closedAlternatives.map ended) ∧
      Abreast host (through pattern.lastAlternative (opened false))
        (through pattern (opened true)) := by
  induction pattern with
  | empty => exact ⟨.new, [], forked_new, abreast_branched (by decide)⟩
  | letter before c valid stars ih =>
      obtain ⟨host, entries, forked, abreast⟩ := ih
      have sound := through_sound before.lastAlternative _ (.opened false)
      exact ⟨host, entries, forked,
        (abreast.lettered sound c).iterate_again (sound.lettered c) stars⟩
  | group before content stars ih _ =>
      obtain ⟨host, entries, forked, abreast⟩ := ih
      have sound := through_sound before.lastAlternative _ (.opened false)
      have wired := compiled_wired content
      have attached := compiled_start content
      exact ⟨host, entries, forked, (abreast.grouped sound wired attached).iterate_again
        (sound.grouped wired attached) stars⟩
  | bar before ih =>
      obtain ⟨host, entries, forked, abreast⟩ := ih
      have sound := through_sound before _ (.opened true)
      have closed := forked_closed forked abreast before.hasBar_lastAlternative sound
      have appended : Forked origin (through before (opened true)).closed
          (entries ++ [host.stateCount]) ((Pattern.bar before).closedAlternatives.map ended) := by
        simpa [Pattern.closedAlternatives] using closed
      exact ⟨_, _, appended, abreast_branched closed.origin_lt⟩

theorem forked_compiled (several : pattern.hasBar = true) :
    ∃ entries, Forked origin (compiled pattern) entries (pattern.alternatives.map ended) := by
  obtain ⟨host, entries, forked, abreast⟩ := forked_through pattern
  have sound := through_sound pattern _ (.opened true)
  have closed := forked_closed forked abreast pattern.hasBar_lastAlternative sound
  rw [compiled, several]
  exact ⟨_, by simpa [Pattern.alternatives] using closed⟩

end Progress

/-- Behind `b` stands the automaton of `part`. Without letters and bars that is a
state which accepts and leads nowhere. -/
def Carries (n : Nfa) (b : Nat) (part : List Char) : Prop :=
  (Audible part → ∃ m start, (compile (String.ofList part)).outcome = .ok m ∧
    m.start = some start ∧ Isomorphic n b m start) ∧
  (¬ Audible part → n.Accepting b ∧ n.successors b = .ok [])

/-- What `part` accepts as an alternative: without letters and bars, the empty word. -/
def PartAccepts (part word : List Char) : Prop :=
  (Audible part → ∃ m, (compile (String.ofList part)).outcome = .ok m ∧ word ∈ m.language) ∧
  (¬ Audible part → word = [])

/-- The automaton consists of a start and a branch for each part. -/
structure Alternation (n : Nfa) (start : Nat) (entries : List Nat) (parts : List (List Char)) :
    Prop where
  attached : n.start = some start
  successors : n.successors start = .ok (entries.map fun b => (.epsilon, b))
  distinct : entries.Nodup
  /-- Only the epsilon from the start leads to the first state of a branch. -/
  entered : ∀ b ∈ entries, ∃ s id, n.states[b]? = some s ∧ s.incoming = [id] ∧
    n.transitions[id]? = some ⟨.epsilon, start, b⟩
  apart : ∀ q < n.stateCount, q ≠ start → ∃! b, b ∈ entries ∧ n.Reaches b q
  branches : List.Forall₂ (Carries n) entries parts

open Progress

theorem compile_of_loud {t : Pattern} (loud : t.silent = false) :
    (compile (String.ofList t.text)).outcome = .ok (compiled t) := by
  obtain ⟨c, member, _⟩ := (audible_iff t).mpr loud
  refine compile_of_text (fun empty => ?_) (by simp)
  simp [show t.text = [] by simpa using empty] at member

theorem lone_stuck (accepting : Bool) (q : Nat) : ((Nfa.lone accepting).stateAt q).outgoing = [] := by
  cases q <;> rfl

theorem acceptsFrom_lone : (Nfa.lone true).AcceptsFrom origin word ↔ word = [] := by
  apply Iff.intro
  · intro accepts
    obtain ⟨symbols, last, path, rfl, _⟩ := accepts
    cases path with
    | nil => rfl
    | cons step _ =>
        obtain ⟨id, listed, _⟩ := step_iff.mp step
        rw [lone_stuck] at listed
        cases listed
  · intro empty
    subst empty
    exact ⟨[], origin, .nil origin, rfl, accepting_iff.mpr rfl⟩

theorem mem_language_compiled (loud : pattern.silent = false) : word ∈ (compiled pattern).language ↔
    ∃ t ∈ pattern.alternatives, (ended t).AcceptsFrom origin word := by
  cases several : pattern.hasBar with
  | false =>
      rw [Pattern.alternatives_of_single several, mem_language_of_start (compiled_start pattern)]
      simp [ended, loud]
  | true =>
      obtain ⟨entries, forked⟩ := forked_compiled several
      have pairs := List.forall₂_map_right_iff.mp forked.branches
      rw [forked.mem_language]
      refine exists_mem_iff_of_forall₂ (pairs.imp ?_)
      intro b t isomorphic
      obtain ⟨place, iso⟩ := isomorphic
      exact iso.acceptsFrom_iff forked.wired.walkable (ended_facts t).1.walkable

theorem carries_of_isomorphic {t : Pattern} (isomorphic : Isomorphic n b (ended t) origin) :
    Carries n b t.text := by
  rw [Carries, audible_iff, Bool.not_eq_false]
  apply And.intro
  · intro loud
    rw [ended, if_neg (by simp [loud])] at isomorphic
    exact ⟨_, origin, compile_of_loud loud, compiled_start t, isomorphic⟩
  · intro silent
    obtain ⟨place, iso⟩ := isomorphic
    rw [ended, if_pos silent] at iso
    have accepting := iso.accepting b (.refl n b)
    obtain ⟨list, listed, placed⟩ := iso.successors b (.refl n b)
    rw [iso.root] at accepting placed
    have nothing : list = [] := by simpa using (Except.ok.inj placed).symm
    exact ⟨accepting.mpr (accepting_iff.mpr rfl), by rw [listed, nothing]⟩

theorem partAccepts_iff {t : Pattern} : PartAccepts t.text word ↔ (ended t).AcceptsFrom origin word := by
  rw [PartAccepts, audible_iff, Bool.not_eq_false, ended]
  cases quiet : t.silent with
  | true => simp [acceptsFrom_lone]
  | false => simp [compile_of_loud quiet, mem_language_of_start (compiled_start t)]

/-- Alternation is compositional: behind the start stand the automata of the
alternatives, in their order, and what they accept is accepted. -/
theorem compile_alternation {e : String} {n : Nfa} (done : (compile e).outcome = .ok n)
    (several : 2 ≤ (outerParts e.toList).length) :
    ∃ start entries, Alternation n start entries (outerParts e.toList) ∧
      ∀ word, word ∈ n.language ↔ ∃ part ∈ outerParts e.toList, PartAccepts part word := by
  obtain ⟨p, unique, rfl⟩ := reading_exists done
  rw [← (unique p).mpr rfl, outerParts_text] at several ⊢
  have bars : p.hasBar = true := (hasBar_iff p).mpr (by simpa using several)
  have loud : p.silent = false := by
    rw [Pattern.silent_eq, bars]
    simp
  obtain ⟨entries, forked⟩ := forked_compiled bars
  have walkable := forked.wired.walkable
  have pairs := List.forall₂_map_right_iff.mp forked.branches
  refine ⟨origin, entries, ?_, ?_⟩
  · exact {
      attached := forked.attached
      successors := by rw [successors_eq walkable forked.origin_lt, forked.successors]
      distinct := forked.distinct
      entered := by
        intro b member
        obtain ⟨id, only, found⟩ := forked.entered b member
        exact ⟨_, id, getElem?_states (forked.entry_lt member).1, only, found⟩
      apart := forked.apart
      branches := List.forall₂_map_right_iff.mpr
        (pairs.imp fun _ _ isomorphic => carries_of_isomorphic isomorphic) }
  · intro word
    rw [mem_language_compiled loud]
    simp [partAccepts_iff]

/-- A star that meets an older edge, and an alternative that is built from nothing. -/
theorem compile_alternation_of_repeated_head : ∃ n start entries,
    (compile "(ab)*a*|()*").outcome = .ok n ∧
      Alternation n start entries ["(ab)*a*".toList, "()*".toList] ∧ [] ∈ n.language := by
  let p : Pattern := .group (.bar (.letter (.group .empty
    (.letter (.letter .empty 'a' rfl 0) 'b' rfl 0) 1) 'a' rfl 1)) .empty 1
  have done : (compile "(ab)*a*|()*").outcome = .ok (compiled p) :=
    compile_of_text (by decide) rfl
  have parts : outerParts "(ab)*a*|()*".toList = ["(ab)*a*".toList, "()*".toList] := by decide
  obtain ⟨start, entries, alternation, union⟩ := compile_alternation done (by rw [parts]; decide)
  rw [parts] at alternation union
  have silent : ¬ Audible "()*".toList := by decide
  have accepts : PartAccepts "()*".toList [] := ⟨fun audible => absurd audible silent, fun _ => rfl⟩
  exact ⟨_, start, entries, done, alternation, (union []).mpr ⟨_, by simp, accepts⟩⟩

end RegexAutomaton.Expression
