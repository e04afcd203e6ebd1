import Mathlib.Tactic.Linarith
import Mathlib.Tactic.Ring
import RegexAutomaton.Proofs.Course
import RegexAutomaton.Proofs.Embedding
import RegexAutomaton.Proofs.Extension

namespace RegexAutomaton

/-! Compiled automata stay small.

Groups are copied level by level and stars copy edges, so what counts is how many states
accept, for these are joined, and how many transitions leave the first state, for these
are repeated. Neither grows by more than one with a character, and then the arena of
transitions grows no faster than the square of the length.
-/

namespace Nfa

variable {n m sub : Nfa} {list more : List Transition} {q r start : Nat} {place : Nat → Nat}

/-- The number of transitions out of `q`, linked or not. -/
def leaving (n : Nfa) (q : Nat) : Nat :=
  n.transitions.toList.countP (·.source == q)

theorem Appends.leaving (appends : Appends n m list) (q : Nat) :
    m.leaving q = n.leaving q + list.countP (·.source == q) := by
  rw [Nfa.leaving, appends.transitions_eq, List.countP_append]
  rfl

theorem acceptingStates_nodup (n : Nfa) : n.acceptingStates.Nodup :=
  n.acceptingStates_increasing.imp Nat.ne_of_lt

/-- If only one more state accepts, one more is counted. -/
theorem length_acceptingStates_le (accepts : ∀ r, m.Accepting r → r = q ∨ n.Accepting r) :
    m.acceptingStates.length ≤ n.acceptingStates.length + 1 := by
  have among : m.acceptingStates ⊆ q :: n.acceptingStates := by
    intro r member
    simpa only [List.mem_cons, mem_acceptingStates] using accepts r (mem_acceptingStates.mp member)
  exact (m.acceptingStates_nodup.subperm among).length_le

theorem linked_sublist (n : Nfa) : (n.linked.map Prod.snd).Sublist n.transitions.toList := by
  have picked : (n.linked.map Prod.swap).Sublist n.transitions.toList.zipIdx := by
    rw [linked, List.map_map, Prod.swap_swap_eq, List.map_id]
    exact List.filter_sublist
  simpa only [List.map_map, Function.comp_def, Prod.fst_swap, List.zipIdx_map_fst] using
    picked.map Prod.fst

theorem length_departures (start base : Nat) (list : List (Nat × Transition)) :
    (departures start base list).length = (list.map Prod.snd).countP (·.source == start) := by
  induction list generalizing base with
  | nil => rfl
  | cons e rest ih =>
      rw [departures, List.map_cons, List.countP_cons]
      by_cases leaves : e.2.source = start
      · simp [leaves, ih]
      · simp [leaves, ih]

theorem length_imports_le (sub : Nfa) (place : Nat → Nat) : (sub.imports place).length ≤ sub.transitions.size := by
  have length := sub.linked_sublist.length_le
  simpa [imports] using length

theorem length_joints_le (sub : Nfa) (place : Nat → Nat) (r : Nat) :
    (sub.joints place r).length ≤ sub.acceptingStates.length := by
  unfold joints
  split <;> simp

/-- An epsilon of a join leaves each accepting state once. -/
theorem leaving_joints_le (sub : Nfa) (r : Nat) (injective : ∀ p q, place p = place q → p = q)
    (q : Nat) : (sub.joints place r).countP (·.source == q) ≤ 1 := by
  unfold joints
  split
  · have distinct : (sub.acceptingStates.map place).Nodup :=
      sub.acceptingStates_nodup.map fun p q => injective p q
    rw [List.countP_map]
    have single := List.nodup_iff_count_le_one.mp distinct q
    rw [List.count, List.countP_map] at single
    exact single
  · simp

/-- A state that was there before is left by imported transitions only if it is the
current one. -/
theorem leaving_imports_le (sub : Nfa) (start : Nat) (q_lt : q < n.stateCount) :
    (sub.imports (placeIn n start)).countP (·.source == q) ≤ sub.leaving start := by
  have within : (sub.imports (placeIn n start)).countP (·.source == q) ≤
      (sub.linked.map Prod.snd).countP (·.source == start) := by
    rw [imports, List.countP_map, List.countP_map]
    refine List.countP_mono_left fun e _ leaves => ?_
    by_contra other
    have fresh : n.stateCount ≤ placeIn n start e.2.source :=
      placeIn_fresh fun same => other (by simpa using same)
    have here : placeIn n start e.2.source = q := by simpa [relocated] using leaves
    omega
  exact Nat.le_trans within (sub.linked_sublist.countP_le)

end Nfa

namespace Expression.Progress

open Nfa

variable {p after : Progress} {pattern content : Pattern} {n : Nfa} {c : Char}
  {k m r : Nat} {list : List Transition} {chars rest : List Char} {alternatives : Bool}

/-- Few transitions have been made, few of them out of the first state, and few states
accept, after `k` characters. -/
structure Small (k : Nat) (p : Progress) : Prop where
  size_le : p.nfa.transitions.size ≤ (k + 1) ^ 2
  leaving_le : p.nfa.leaving origin ≤ k + 1
  accepting_le : p.nfa.acceptingStates.length ≤ k
  /-- A star makes no more than `k` transitions, and none out of the first state. -/
  edges_le : ∀ fragment, p.last = some (.group fragment) →
    fragment.edges.length ≤ k ∧ (fragment.edges = [] ∨ fragment.exit ≠ origin)

namespace Small

theorem opened (alternatives : Bool) : Small 0 (Progress.opened alternatives) := by
  cases alternatives with
  | false => exact ⟨by decide, by decide, by decide, nofun⟩
  | true => exact ⟨by decide, by decide, by decide, nofun⟩

/-- One more character, which is not a parenthesis. -/
theorem step (small : Small k p) (appends : Appends p.nfa after.nfa list)
    (few : list.length ≤ k + 1) (leaves : list.countP (·.source == origin) ≤ 1)
    (accepts : ∀ q, after.nfa.Accepting q → q = r ∨ p.nfa.Accepting q)
    (last : after.last = p.last ∨ ∀ fragment, after.last ≠ some (.group fragment)) :
    Small (k + 1) after where
  size_le := by
    have size := small.size_le
    rw [appends.size]
    linarith only [size, few, show (k + 1 + 1) ^ 2 = (k + 1) ^ 2 + 2 * k + 3 by ring]
  leaving_le := by
    have before := small.leaving_le
    rw [appends.leaving]
    omega
  accepting_le := by
    have before := small.accepting_le
    have more := length_acceptingStates_le accepts
    omega
  edges_le fragment same := by
    rcases last with kept | other
    · obtain ⟨few, out⟩ := small.edges_le fragment (kept ▸ same)
      exact ⟨Nat.le_succ_of_le few, out⟩
    · exact absurd same (other fragment)

theorem letter (small : Small k p) (sound : p.Sound) (c : Char) : Small (k + 1) (p.lettered c) := by
  have wired := sound.wired
  have current_lt := wired.current_lt
  exact small.step (.extended current_lt c) (by simp) List.countP_le_length
    (fun q accepts => ((accepting_extended wired).mp accepts).imp_right And.right) (.inr nofun)

theorem accepting_of_closed (sound : p.Sound) {q : Nat} (accepts : p.closed.Accepting q) :
    q = p.nfa.current ∨ p.nfa.Accepting q :=
  ((accepting_closed sound).mp accepts).imp_left And.right

theorem bar (small : Small k p) (sound : p.Sound) : Small (k + 1) p.barred := by
  have origin_lt : origin < p.closed.stateCount := by
    rw [closed_stateCount]
    exact sound.origin_lt
  have appends : Appends p.nfa p.barred.nfa _ := (closed_appends sound).trans (.branched origin_lt)
  exact small.step appends (by simp) (by simp) (fun q accepts =>
    accepting_of_closed sound ((accepting_branched origin_lt).mp accepts)) (.inr nofun)

theorem mono (small : Small k p) (le : k ≤ m) : Small m p where
  size_le := Nat.le_trans small.size_le (Nat.pow_le_pow_left (Nat.succ_le_succ le) 2)
  leaving_le := Nat.le_trans small.leaving_le (Nat.succ_le_succ le)
  accepting_le := Nat.le_trans small.accepting_le le
  edges_le fragment last :=
    (small.edges_le fragment last).imp_left fun few => Nat.le_trans few le

theorem again (small : Small k p) (sound : p.Sound) : Small (k + 1) p.again := by
  have wired := sound.wired
  rcases again_cases sound with same | ⟨c, into, out, _, oldestIn, oldestOut, looped⟩ |
    ⟨fragment, last, valid, repeated⟩
  · rw [same]
    exact small.mono (Nat.le_succ k)
  · have source_lt := (wired.oldest_lt oldestIn).1
    have target_lt := (wired.oldest_lt oldestOut).2
    have appends : Appends p.nfa p.again.nfa [⟨.char c, out.target, out.target⟩] := by
      rw [looped]
      exact .looped source_lt target_lt c
    refine small.step (r := into.source) appends (by simp) List.countP_le_length
      (fun q accepts => ?_) (.inl p.again_last)
    rw [looped] at accepts
    exact (accepting_looped source_lt target_lt).mp accepts
  · obtain ⟨few, out⟩ := small.edges_le fragment last
    have appends : Appends p.nfa p.again.nfa (p.nfa.copies fragment.exit fragment.edges) := by
      rw [repeated]
      exact .repeated wired valid
    have copied : (p.nfa.copies fragment.exit fragment.edges).length ≤ k :=
      Nat.le_trans (List.length_filterMap_le ..) few
    have leaves : (p.nfa.copies fragment.exit fragment.edges).countP (·.source == origin) = 0 := by
      refine List.countP_eq_zero.mpr fun t copy => ?_
      obtain ⟨id, member, u, _, rfl⟩ := mem_copies.mp copy
      rcases out with none | elsewhere
      · rw [none] at member
        cases member
      · simpa using elsewhere
    refine small.step (r := fragment.entry) appends (Nat.le_succ_of_le copied)
      (leaves ▸ Nat.zero_le 1) (fun q accepts => ?_) (.inl p.again_last)
    rw [repeated] at accepts
    exact (accepting_repeated wired valid).mp accepts

theorem iterate_again (small : Small k p) (sound : p.Sound) (stars : Nat) :
    Small (k + stars) (Progress.again^[stars] p) := by
  induction stars generalizing k p with
  | zero => exact small
  | succ stars ih =>
      rw [Nat.add_comm stars 1, ← Nat.add_assoc, Nat.add_comm 1 stars]
      exact ih (small.again sound) sound.again

/-- A group of `m` characters between its parentheses. -/
theorem group (small : Small k p) (sound : p.Sound) (inner : Small m after) (ended : after.Sound)
    (exits : (after.closed.stateAt origin).outgoing ≠ [] →
      (p.nfa.spliced after.closed origin).2.exit ≠ origin) :
    Small (k + m + 2) (p.grouped after.closed) := by
  have subWired := closed_wired ended
  have start_lt : origin < after.closed.stateCount :=
    subWired.start_lt ((closed_start _).trans ended.attached)
  rcases attach_cases p.nfa after.closed with ⟨_, same⟩ | ⟨leads, same⟩
  · have idle : (p.grouped after.closed).nfa = p.nfa := congrArg Prod.fst same
    have wider : Small (k + m + 2) p := small.mono (by omega)
    exact {
      size_le := idle ▸ wider.size_le
      leaving_le := idle ▸ wider.leaving_le
      accepting_le := idle ▸ wider.accepting_le
      edges_le := fun fragment last => by
        rw [grouped, same] at last
        cases last
        exact ⟨Nat.zero_le _, .inl rfl⟩ }
  have nfa : (p.grouped after.closed).nfa = (p.nfa.spliced after.closed origin).1 :=
    congrArg Prod.fst same
  have appends := Appends.spliced sound.wired subWired start_lt
  rw [← nfa] at appends
  have size_le : after.closed.transitions.size ≤ (m + 1) ^ 2 := by
    rw [(closed_appends ended).size]
    exact inner.size_le
  have leaving_le : after.closed.leaving origin ≤ m + 1 := by
    rw [(closed_appends ended).leaving]
    exact inner.leaving_le
  have accepting_le : after.closed.acceptingStates.length ≤ m + 1 :=
    Nat.le_trans (length_acceptingStates_le fun q => accepting_of_closed ended)
      (Nat.succ_le_succ inner.accepting_le)
  exact {
    size_le := by
      have before := small.size_le
      have imports := length_imports_le after.closed (placeIn p.nfa origin)
      have joints := length_joints_le after.closed (placeIn p.nfa origin)
        (p.nfa.stateCount + (after.closed.stateCount - 1))
      have square : (k + m + 2 + 1) ^ 2 =
          (k + 1) ^ 2 + (m + 1) ^ 2 + (m + 1) + (2 * k * m + 4 * k + 3 * m + 6) := by ring
      rw [appends.size, List.length_append, square]
      omega
    leaving_le := by
      have before := small.leaving_le
      have injective : ∀ p' q', placeIn p.nfa origin p' = placeIn p.nfa origin q' → p' = q' :=
        fun _ _ => placeIn_injective sound.wired
      have imports := leaving_imports_le after.closed origin sound.origin_lt
      have joints := leaving_joints_le after.closed
        (p.nfa.stateCount + (after.closed.stateCount - 1)) injective origin
      rw [appends.leaving, List.countP_append]
      omega
    accepting_le := by
      have before := small.accepting_le
      have more : (p.grouped after.closed).nfa.acceptingStates.length ≤
          p.nfa.acceptingStates.length + 1 := by
        refine length_acceptingStates_le (q := (p.nfa.spliced after.closed origin).2.exit)
          fun q accepts => ?_
        rw [nfa, accepting_spliced sound.wired subWired start_lt] at accepts
        exact accepts.imp And.left fun old => old.2.2
      omega
    edges_le := fun fragment last => by
      rw [grouped, same] at last
      cases last
      refine ⟨?_, .inr (exits leads)⟩
      have linked := after.closed.linked_sublist.countP_le (p := (·.source == origin))
      rw [← length_departures origin p.nfa.transitions.size] at linked
      exact Nat.le_trans linked (by rw [← Nfa.leaving]; omega) }

end Small

theorem small_through (pattern : Pattern) (alternatives : Bool) :
    Small pattern.text.length (through pattern (opened alternatives)) := by
  induction pattern generalizing alternatives with
  | empty => exact .opened alternatives
  | letter before c valid stars ih =>
      have sound := through_sound before _ (.opened alternatives)
      have small := ((ih alternatives).letter sound c).iterate_again (sound.lettered c) stars
      exact small.mono (by simp [Pattern.text]; omega)
  | group before content stars ih inside =>
      have sound := through_sound before _ (.opened alternatives)
      have ended := through_sound content _ (.opened content.hasBar)
      have attached := (closed_start _).trans ended.attached
      have exits : ((compiled content).stateAt origin).outgoing ≠ [] →
          ((through before (opened alternatives)).nfa.spliced (compiled content) origin).2.exit ≠
            origin := by
        intro leads
        cases quiet : content.silent with
        | true =>
            obtain ⟨accepting, lone⟩ := compiled_silent quiet
            exact absurd (lone ▸ lone_stuck accepting origin) leads
        | false =>
            have fresh := (spliceable_compiled quiet).exit_fresh
              (n := (through before (opened alternatives)).nfa)
            exact Nat.ne_of_gt (Nat.lt_of_lt_of_le sound.origin_lt fresh)
      have small := ((ih alternatives).group sound (inside content.hasBar) ended exits).iterate_again
        (sound.grouped (closed_wired ended) attached) stars
      exact small.mono (by simp [Pattern.text_group]; omega)
  | bar before ih =>
      have sound := through_sound before _ (.opened alternatives)
      exact ((ih alternatives).bar sound).mono (by simp [Pattern.text])

/-- How many states the given characters may make, apart from the first one. -/
def allowance (chars : List Char) : Nat :=
  chars.countP isLetter + 2 * chars.count '|' + chars.count '('

theorem allowance_append (chars rest : List Char) :
    allowance (chars ++ rest) = allowance chars + allowance rest := by
  simp only [allowance, List.countP_append, List.count_append]
  omega

theorem allowance_stars (stars : Nat) : allowance (List.replicate stars '*') = 0 := by
  have silent : isLetter '*' = false := by decide
  simp [allowance, List.countP_replicate, List.count_replicate, silent]

theorem allowance_le (chars : List Char) : allowance chars ≤ 2 * chars.length := by
  induction chars with
  | nil => exact Nat.le_refl 0
  | cons c rest ih =>
      have one : allowance [c] ≤ 2 := by
        by_cases bar : c = '|'
        · subst bar
          decide
        · by_cases opens : c = '('
          · subst opens
            decide
          · have single := List.countP_le_length (p := isLetter) (l := [c])
            have absent : [c].count '|' = 0 := List.count_eq_zero.mpr (by simpa using Ne.symm bar)
            have absent' : [c].count '(' = 0 := List.count_eq_zero.mpr (by simpa using Ne.symm opens)
            rw [allowance, absent, absent']
            exact Nat.le_succ_of_le single
      have split := allowance_append [c] rest
      rw [List.singleton_append] at split
      rw [split, List.length_cons]
      omega

theorem again_stateCount (sound : p.Sound) : p.again.nfa.stateCount = p.nfa.stateCount := by
  rcases again_cases sound with same | ⟨_, _, _, _, _, _, looped⟩ | ⟨_, _, _, repeated⟩
  · rw [same]
  · rw [looped, stateCount_looped]
  · rw [repeated, stateCount_repeated]

theorem iterate_again_stateCount (sound : p.Sound) (stars : Nat) :
    (again^[stars] p).nfa.stateCount = p.nfa.stateCount :=
  sound.iterate_again_induction (motive := fun after => after.nfa.stateCount = p.nfa.stateCount) rfl
    (fun sound same => (again_stateCount sound).trans same) stars

/-- A group adds the states of its content but the first one, and perhaps a join. -/
theorem grouped_stateCount_le (p : Progress) {sub : Nfa} (subWired : sub.Wired)
    (attached : sub.start = some origin) :
    (p.grouped sub).nfa.stateCount ≤ p.nfa.stateCount + sub.stateCount := by
  have start_lt := subWired.start_lt attached
  show (attach p.nfa sub).1.stateCount ≤ _
  rcases attach_cases p.nfa sub with ⟨_, same⟩ | ⟨_, same⟩
  · rw [same]
    exact Nat.le_add_right ..
  · rw [same]
    show ((p.nfa.imported sub origin).exited sub _).1.stateCount ≤ _
    rw [stateCount_exited, stateCount_imported start_lt]
    split <;> omega

/-- A bar may make two states, so that it pays for the first alternative as well. -/
theorem stateCount_through (pattern : Pattern) (alternatives : Bool) :
    (through pattern (opened alternatives)).nfa.stateCount + pattern.hasBar.toNat ≤
      1 + alternatives.toNat + allowance pattern.text := by
  induction pattern generalizing alternatives with
  | empty => cases alternatives <;> decide
  | letter before c valid stars ih =>
      have sound := through_sound before _ (.opened alternatives)
      have one : 1 ≤ allowance [c] := by
        simp only [allowance, List.countP_singleton, valid, ↓reduceIte]
        omega
      have text : (Pattern.letter before c valid stars).text =
          before.text ++ ([c] ++ List.replicate stars '*') := rfl
      have count : (through (.letter before c valid stars) (opened alternatives)).nfa.stateCount =
          (through before (opened alternatives)).nfa.stateCount + 1 :=
        (iterate_again_stateCount (sound.lettered c) stars).trans stateCount_extended
      have before := ih alternatives
      rw [count, text, allowance_append, allowance_append, allowance_stars, Pattern.hasBar]
      omega
  | group before content stars ih inside =>
      have sound := through_sound before _ (.opened alternatives)
      have wired := compiled_wired content
      have attached := compiled_start content
      have text : (Pattern.group before content stars).text =
          before.text ++ (['('] ++ (content.text ++ ([')'] ++ List.replicate stars '*'))) :=
        Pattern.text_group before content stars
      have count : (through (.group before content stars) (opened alternatives)).nfa.stateCount =
          ((through before (opened alternatives)).grouped (compiled content)).nfa.stateCount :=
        iterate_again_stateCount (sound.grouped wired attached) stars
      have grouped := grouped_stateCount_le (through before (opened alternatives)) wired attached
      have within : (compiled content).stateCount + content.hasBar.toNat ≤
          1 + content.hasBar.toNat + allowance content.text := by
        rw [compiled, closed_stateCount]
        exact inside content.hasBar
      have parentheses : allowance ['('] = 1 ∧ allowance [')'] = 0 := by decide
      have before := ih alternatives
      rw [count, text, allowance_append, allowance_append, allowance_append, allowance_append,
        allowance_stars, parentheses.1, parentheses.2, Pattern.hasBar]
      omega
  | bar before ih =>
      have count : (through (.bar before) (opened alternatives)).nfa.stateCount =
          (through before (opened alternatives)).nfa.stateCount + 1 := by
        show (closed _ |>.branched origin).stateCount = _
        rw [stateCount_branched, closed_stateCount]
      have two : allowance ['|'] = 2 := by decide
      have before := ih alternatives
      rw [count, Pattern.text, allowance_append, two, Pattern.hasBar]
      simp only [Bool.toNat_true]
      omega

theorem compiled_size_le (pattern : Pattern) :
    (compiled pattern).transitions.size ≤ (pattern.text.length + 1) ^ 2 := by
  have sound := through_sound pattern _ (.opened pattern.hasBar)
  rw [compiled, (closed_appends sound).size]
  exact (small_through pattern pattern.hasBar).size_le

theorem compiled_stateCount_le (pattern : Pattern) :
    (compiled pattern).stateCount ≤ 1 + allowance pattern.text := by
  have through := stateCount_through pattern pattern.hasBar
  rw [compiled, closed_stateCount]
  omega

end Expression.Progress

namespace Expression

open Nfa Progress

variable {chars rest : List Char} {p q : Progress} {n m : Nfa} {e : String}

theorem Passes.exists_pattern (passes : Passes p chars q rest)
    (opened : (opening chars).outcome = .ok p) :
    ∃ (pattern : Pattern) (alternatives : Bool), chars = pattern.text ++ rest ∧
      q = through pattern (Progress.opened alternatives) := by
  cases (opening_eq chars).symm.trans opened
  obtain ⟨pattern, passed, split, text, reached⟩ :=
    passes.exists_through (.opened _) (opened_last _) (rfl : _ = through .empty _)
  exact ⟨pattern, _, by rw [text]; exact split, reached⟩

/-- Every automaton on the way is as small as the one at the end. -/
theorem Arises.bounds (arises : Arises chars n) :
    n.stateCount ≤ 2 + 2 * chars.length ∧ n.transitions.size ≤ (chars.length + 1) ^ 2 := by
  have reached : ∀ {chars rest : List Char} {p q : Progress},
      (opening chars).outcome = .ok p → Passes p chars q rest → q.Sound ∧
        q.nfa.stateCount ≤ 2 + 2 * chars.length ∧
        q.nfa.transitions.size ≤ (chars.length + 1) ^ 2 := by
    intro chars rest p q opened passes
    obtain ⟨pattern, alternatives, rfl, rfl⟩ := passes.exists_pattern opened
    have states := stateCount_through pattern alternatives
    have allowed := allowance_le pattern.text
    have one := alternatives.toNat_le
    have small := (small_through pattern alternatives).mono
      (show pattern.text.length ≤ (pattern.text ++ rest).length by simp)
    refine ⟨through_sound pattern _ (.opened alternatives), ?_, small.size_le⟩
    rw [List.length_append]
    omega
  induction arises with
  | passed opened passes => exact (reached opened passes).2
  | ended opened passes ends =>
      obtain ⟨sound, states, size⟩ := reached opened passes
      cases (close_eq sound).symm.trans ends
      rw [closed_stateCount, (closed_appends sound).size]
      exact ⟨states, size⟩
  | @inside _ _ chars rest closing _ opened passes _ _ ih =>
      obtain ⟨_, _, split, _⟩ := passes.exists_pattern opened
      have shorter : (rest.take (closing - 1)).length ≤ chars.length := by
        rw [split, List.length_append, List.length_cons, List.length_take]
        omega
      obtain ⟨states, size⟩ := ih
      exact ⟨by omega, Nat.le_trans size (Nat.pow_le_pow_left (Nat.succ_le_succ shorter) 2)⟩

theorem arises_of_compileChars (done : (compileChars chars).outcome = .ok n) :
    Arises chars n := by
  have opened := opening_eq chars
  rw [compileChars, Traced.outcome_bind, opened, ok_bind] at done
  obtain ⟨q, passes, ended⟩ := compileFrom_eq_ok_iff.mp done
  exact .ended opened passes ended

end Expression

namespace Expression

open Nfa Progress

theorem exact_of_lt {id : Nat} (small : id < 2 ^ 32) : Exact id := by
  rw [Exact, UInt32.toNat_ofNat', Nat.mod_eq_of_lt small]

/-- The automaton of an expression is bounded by its characters. If these are not too many,
32 bits are enough for all identifiers on the way, and for all labels of the table. -/
theorem compile_size {e : String} {n : Nfa} (done : (compile e).outcome = .ok n) :
    n.stateCount ≤ 1 + e.toList.countP isLetter + 2 * e.toList.count '|' + e.toList.count '(' ∧
    n.transitions.size ≤ (e.length + 2) ^ 2 ∧ Arises e.toList n ∧
    (e.length ≤ 65533 →
      (∀ m, Arises e.toList m → ∀ id, id < m.stateCount ∨ id < m.transitions.size → Exact id) ∧
      ∃ table, n.table = .ok table ∧ ∀ row ∈ table.rows, Exact row.label ∧
        ∀ t ∈ row.transitions, Exact t.2) := by
  obtain ⟨pattern, unique, rfl⟩ := reading_exists done
  have text : pattern.text = e.toList := (unique pattern).mpr rfl
  have states := compiled_stateCount_le pattern
  have transitions := compiled_size_le pattern
  have arises := arises_of_compileChars (compileChars_text pattern)
  rw [text] at states transitions arises
  rw [String.length_toList] at transitions
  refine ⟨?_, ?_, arises, fun short => ?_⟩
  · rw [allowance] at states
    omega
  · exact Nat.le_trans transitions (Nat.pow_le_pow_left (Nat.le_succ _) 2)
  · have bounded : ∀ m, Arises e.toList m → m.stateCount < 2 ^ 32 ∧ m.transitions.size < 2 ^ 32 := by
      intro m arises
      obtain ⟨states, transitions⟩ := arises.bounds
      rw [String.length_toList] at states transitions
      have square : (e.length + 1) ^ 2 ≤ 65534 ^ 2 := Nat.pow_le_pow_left (by omega) 2
      omega
    refine ⟨fun m arises id inRange => exact_of_lt ?_, ?_⟩
    · have bounds := bounded m arises
      omega
    · have walkable := (compiled_wired pattern).walkable
      have attached := compiled_start pattern
      have enumerates := walked_breadthFirst walkable attached
      have rows_lt := Nat.lt_of_le_of_lt
        (enumerates.length_le walkable (walkable.start_lt _ attached)) (bounded _ arises).1
      refine ⟨_, table_eq walkable, fun row member => ?_⟩
      obtain ⟨label_lt, targets_lt⟩ := enumerates.labels_lt walkable member
      exact ⟨exact_of_lt (Nat.lt_trans label_lt rows_lt), fun t shown =>
        exact_of_lt (Nat.lt_trans (targets_lt t shown) rows_lt)⟩

/-- Nested groups with joins, and stars that copy edges several times. -/
theorem compile_size_of_nested_stars : ∃ n table,
    (compile "((a*|(b)*)**c)**").outcome = .ok n ∧ n.stateCount ≤ 1 + 3 + 2 + 3 ∧
      n.stateCount = 8 ∧ n.transitions.size ≤ (16 + 2) ^ 2 ∧ n.transitions.size = 21 ∧
      (∀ id < 21, Exact id) ∧ n.table = .ok table ∧ ∀ row ∈ table.rows, Exact row.label := by
  let p : Pattern := .group .empty (.letter (.group .empty (.group (.bar
    (.letter .empty 'a' rfl 1)) (.letter .empty 'b' rfl 0) 1) 2) 'c' rfl 0) 2
  have done : (compile "((a*|(b)*)**c)**").outcome = .ok (compiled p) :=
    compile_of_text (by decide) rfl
  obtain ⟨states, transitions, arises, exact⟩ := compile_size done
  obtain ⟨identifiers, table, made, labels⟩ := exact (by decide)
  have count : (compiled p).stateCount = 8 := by decide +kernel
  have size : (compiled p).transitions.size = 21 := by decide +kernel
  exact ⟨compiled p, table, done, states, count, transitions, size,
    fun id id_lt => identifiers _ arises id (.inr (size ▸ id_lt)), made,
    fun row member => (labels row member).1⟩

end Expression

end RegexAutomaton
