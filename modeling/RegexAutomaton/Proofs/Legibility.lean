import RegexAutomaton.Proofs.Isomorphisms
import RegexAutomaton.Proofs.Texts
import RegexAutomaton.Proofs.Trimness

namespace RegexAutomaton

open Nfa

variable {n m : Nfa} {q r : Nat} {s : Symbol} {list : List Transition}

theorem Nfa.Lettered.of_step (lettered : n.Lettered) (step : n.Step q s r) : s.Lettered := by
  obtain ⟨_, _, t, found, rfl, _⟩ := step_iff.mp step
  exact lettered t (Array.mem_of_getElem? found)

theorem walked_detached (detached : n.start = none) : n.walked.rows = [] := by
  rw [walked, detached, Traversal.walk_done rfl]

theorem legible_walked (walkable : n.Walkable) (lettered : n.Lettered) : Legible n.walked.rows := by
  cases attached : n.start with
  | none =>
      rw [walked_detached attached]
      exact ⟨nofun, nofun, nofun⟩
  | some start =>
      have enumerates := walked_breadthFirst walkable attached
      exact {
        label := enumerates.label
        start_iff := enumerates.start_iff
        lettered := by
          intro row member e shown
          obtain ⟨_, step, _⟩ := (enumerates.mem_transitions walkable member).mp shown
          exact lettered.of_step step }

theorem content_walked_iff_alike (walkable : n.Walkable) (walkable' : m.Walkable) :
    n.walked.rows.map Row.content = m.walked.rows.map Row.content ↔ n.Alike m := by
  have nonempty : ∀ {k : Nfa} {start : Nat}, k.Walkable → k.start = some start →
      k.walked.rows ≠ [] := by
    intro k start walkable attached empty
    obtain ⟨row, first, _⟩ := (walked_breadthFirst walkable attached).first
    rw [empty] at first
    cases first
  rw [Alike]
  cases attached : n.start with
  | none =>
      cases attached' : m.start with
      | none => simp [walked_detached attached, walked_detached attached']
      | some r =>
          rw [walked_detached attached, eq_comm]
          simpa using nonempty walkable' attached'
  | some q =>
      cases attached' : m.start with
      | none => simpa [walked_detached attached'] using nonempty walkable attached
      | some r =>
          apply Iff.intro
          · exact fun same => ⟨_, (walked_breadthFirst walkable attached).isomorphism
              (walked_breadthFirst walkable' attached') same⟩
          · intro isomorphic
            obtain ⟨place, iso⟩ := isomorphic
            exact iso.content_walked walkable walkable' attached attached'

theorem Nfa.Lettered.appends (lettered : n.Lettered) (appends : Appends n m list)
    (added : ∀ t ∈ list, t.symbol.Lettered) : m.Lettered := by
  intro t member
  rw [← Array.mem_toList_iff, appends.transitions_eq, List.mem_append] at member
  rcases member with old | new
  · exact lettered t (Array.mem_toList_iff.mp old)
  · exact added t new

namespace Expression.Progress

variable {p : Progress} {sub : Nfa}

theorem lettered_closed (sound : p.Sound) (lettered : p.nfa.Lettered) : p.closed.Lettered :=
  lettered.appends (closed_appends sound) (by simp)

theorem lettered_branched {entry : Nat} (entry_lt : entry < n.stateCount)
    (lettered : n.Lettered) : (n.branched entry).Lettered :=
  lettered.appends (.branched entry_lt) (by simp [Symbol.Lettered])

theorem lettered_opened (alternatives : Bool) : (opened alternatives).nfa.Lettered := by
  have new : Nfa.new.Lettered := by simp [Lettered, Nfa.new]
  cases alternatives with
  | false => exact new
  | true => exact lettered_branched (by decide) new

theorem lettered_again (sound : p.Sound) (lettered : p.nfa.Lettered) : p.again.nfa.Lettered := by
  obtain ⟨_, appends, reads⟩ := again_appends sound
  refine lettered.appends appends fun t added => ?_
  obtain ⟨u, member, same⟩ := reads t added
  exact same ▸ lettered u member

theorem lettered_iterate_again (sound : p.Sound) (lettered : p.nfa.Lettered) (stars : Nat) :
    (again^[stars] p).nfa.Lettered :=
  sound.iterate_again_induction (motive := fun p => p.nfa.Lettered) lettered lettered_again stars

theorem lettered_grouped (sound : p.Sound) (subWired : sub.Wired)
    (attached : sub.start = some origin) (lettered : p.nfa.Lettered) (inner : sub.Lettered) :
    (p.grouped sub).nfa.Lettered := by
  obtain ⟨_, appends, reads⟩ := grouped_appends sound subWired attached
  refine lettered.appends appends fun t added => ?_
  rcases reads t added with silent | ⟨u, member, same⟩
  · exact silent ▸ trivial
  · exact same ▸ inner u member

/-- Only the letters of the pattern are read. -/
theorem lettered_through (pattern : Pattern) (alternatives : Bool) :
    (through pattern (opened alternatives)).nfa.Lettered := by
  induction pattern generalizing alternatives with
  | empty => exact lettered_opened alternatives
  | letter before c valid stars ih =>
      have sound := through_sound before _ (.opened alternatives)
      have lettered := (ih alternatives).appends (.extended sound.wired.current_lt c)
        (by simpa [Symbol.Lettered] using valid)
      exact lettered_iterate_again (sound.lettered c) lettered stars
  | group before content stars ih inside =>
      have sound := through_sound before _ (.opened alternatives)
      have ended := through_sound content _ (.opened content.hasBar)
      have wired := closed_wired ended
      have attached := (closed_start _).trans ended.attached
      have lettered := lettered_grouped sound wired attached (ih alternatives)
        (lettered_closed ended (inside content.hasBar))
      exact lettered_iterate_again (sound.grouped wired attached) lettered stars
  | bar before ih =>
      have sound := through_sound before _ (.opened alternatives)
      refine lettered_branched ?_ (lettered_closed sound (ih alternatives))
      rw [closed_stateCount]
      exact sound.origin_lt

theorem lettered_compiled (pattern : Pattern) : (compiled pattern).Lettered :=
  lettered_closed (through_sound pattern _ (.opened pattern.hasBar))
    (lettered_through pattern pattern.hasBar)

end Expression.Progress

/-- Each printed form is as good as the table: texts are equal if and only if the tables
are, and so are directed graphs. What they show is the reachable part. All this can be
said of compiled automata. -/
theorem printed_eq_iff :
    (∀ n m : Nfa, n.Walkable → m.Walkable → n.Lettered → m.Lettered →
      ∃ first second, n.table = .ok first ∧ m.table = .ok second ∧
        (first.text = second.text ↔ (first == second) = true) ∧
        (first.digraph = second.digraph ↔ (first == second) = true) ∧
        (first.text = second.text ↔ first.digraph = second.digraph) ∧
        ((first == second) = true ↔ n.Alike m)) ∧
    ∀ (e : String) (n : Nfa), (Expression.compile e).outcome = .ok n →
      n.Walkable ∧ n.Lettered := by
  apply And.intro
  · intro n m walkable walkable' lettered lettered'
    have legible := legible_walked walkable lettered
    have legible' := legible_walked walkable' lettered'
    have texts := text_eq_iff legible.lettered legible'.lettered
    have digraphs := digraph_eq_iff legible legible'
    have tables := Table.beq_iff ⟨n.walked.rows⟩ ⟨m.walked.rows⟩
    exact ⟨_, _, table_eq walkable, table_eq walkable', texts.trans tables.symm,
      digraphs.trans tables.symm, texts.trans digraphs.symm,
      tables.trans (content_walked_iff_alike walkable walkable')⟩
  · intro e n done
    obtain ⟨pattern, _, rfl⟩ := Expression.reading_exists done
    exact ⟨(Expression.Progress.compiled_wired pattern).walkable,
      Expression.Progress.lettered_compiled pattern⟩

/-- The same cycle twice, the second time with other places and more that is not reached, and
once more with two transitions in the other order. -/
theorem printed_eq_iff_of_cycles :
    let n : Nfa := {
      states := #[{ outgoing := [0] }, { accepting := true, outgoing := [1, 2] }]
      transitions := #[⟨.char 'a', 0, 1⟩, ⟨.epsilon, 1, 0⟩, ⟨.char 'b', 1, 1⟩]
      start := some 0
      current := 1 }
    let m : Nfa := {
      states := #[{ accepting := true, outgoing := [1, 3] }, { outgoing := [2] },
        { outgoing := [4] }]
      transitions := #[⟨.char 'c', 2, 1⟩, ⟨.epsilon, 0, 2⟩, ⟨.char 'd', 1, 2⟩, ⟨.char 'b', 0, 0⟩,
        ⟨.char 'a', 2, 0⟩]
      start := some 2
      current := 1 }
    let k : Nfa := { n with
      states := #[{ outgoing := [0] }, { accepting := true, outgoing := [2, 1] }] }
    (n.Walkable ∧ n.Lettered) ∧ (m.Walkable ∧ m.Lettered) ∧ (k.Walkable ∧ k.Lettered) ∧
      ∃ first second third, n.table = .ok first ∧ m.table = .ok second ∧ k.table = .ok third ∧
        first.text = second.text ∧ first.digraph = second.digraph ∧ n.Alike m ∧
        first.text ≠ third.text ∧ first.digraph ≠ third.digraph ∧ ¬ n.Alike k := by
  intro n m k
  have valid : n.Walkable ∧ n.Lettered := ⟨⟨by decide, by decide, by decide⟩, by decide⟩
  have valid' : m.Walkable ∧ m.Lettered := ⟨⟨by decide, by decide, by decide⟩, by decide⟩
  have valid'' : k.Walkable ∧ k.Lettered := ⟨⟨by decide, by decide, by decide⟩, by decide⟩
  obtain ⟨first, second, made, made', text, digraph, _, alike⟩ :=
    printed_eq_iff.1 n m valid.1 valid'.1 valid.2 valid'.2
  obtain ⟨_, third, again, made'', text', digraph', _, alike'⟩ :=
    printed_eq_iff.1 n k valid.1 valid''.1 valid.2 valid''.2
  obtain rfl := Except.ok.inj (made.symm.trans again)
  have same : (n.table >>= fun first => m.table.map (first == ·)) = .ok true := by
    decide +kernel
  have other : (n.table >>= fun first => k.table.map (first == ·)) = .ok false := by
    decide +kernel
  rw [made, made'] at same
  rw [made, made''] at other
  have same := Except.ok.inj same
  have other := Except.ok.inj other
  have apart : ¬ (first == third) = true := by simp [other]
  exact ⟨valid, valid', valid'', first, second, third, made, made', made'', text.mpr same,
    digraph.mpr same, alike.mp same, mt text'.mp apart, mt digraph'.mp apart, mt alike'.mpr apart⟩

end RegexAutomaton
