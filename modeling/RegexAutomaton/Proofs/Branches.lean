import RegexAutomaton.Proofs.Beside
import RegexAutomaton.Proofs.Growth
import RegexAutomaton.Proofs.Isomorphisms

namespace RegexAutomaton.Nfa

variable {origin a b q r id : Nat} {t : Transition} {host sub n m : Nfa} {s : Symbol} {place : Nat → Nat}
  {entries : List Nat} {subs : List Nfa} {word : List Char}

/-- Behind the start stand branches that do not meet, each isomorphic to an automaton of its
own. -/
structure Forked (origin : Nat) (n : Nfa) (entries : List Nat) (subs : List Nfa) : Prop where
  wired : n.Wired
  attached : n.start = some origin
  rejects : ¬ n.Accepting origin
  unreached (a : Nat) (s : Symbol) : ¬ n.Step a s origin
  successors : n.successorsAt origin = entries.map fun b => (.epsilon, b)
  distinct : entries.Nodup
  /-- Only the epsilon from the start leads to the first state of a branch. -/
  entered : ∀ b ∈ entries, ∃ id, (n.stateAt b).incoming = [id] ∧
    n.transitions[id]? = some ⟨.epsilon, origin, b⟩
  apart : ∀ q < n.stateCount, q ≠ origin → ∃! b, b ∈ entries ∧ n.Reaches b q
  branches : List.Forall₂ (fun b sub => Isomorphic n b sub 0) entries subs

theorem successorsAt_connected (wired : n.Wired) {source target : Nat}
    (source_lt : source < n.stateCount) (target_lt : target < n.stateCount) :
    (n.connected source s target).successorsAt q =
      n.successorsAt q ++ if q = source then [(s, target)] else [] := by
  have old : ∀ id ∈ (n.stateAt q).outgoing,
      (n.connected source s target).transitions[id]? = n.transitions[id]? := by
    intro id listed
    rw [transitions_connected, Array.getElem?_push, if_neg (Nat.ne_of_lt (wired.outgoing_lt listed))]
  rw [successorsAt, stateAt_connected source_lt target_lt, List.filterMap_append, successorsAt]
  congr 1
  · refine List.filterMap_congr fun id listed => ?_
    rw [old id listed]
  · split <;> simp

theorem successorsAt_branched (wired : n.Wired) (origin_lt : origin < n.stateCount) :
    (n.branched origin).successorsAt q =
      n.successorsAt q ++ if q = origin then [(.epsilon, n.stateCount)] else [] := by
  have grew : origin < n.grown.stateCount := by
    rw [stateCount_grown]
    omega
  refine (successorsAt_connected wired.grown grew (by simp)).trans ?_
  rw [successorsAt, stateAt_grown]
  rfl

namespace Beside

variable (beside : Beside origin host sub n)

include beside

theorem successorsAt_place : n.successorsAt (host.stateCount + q) =
    (sub.successorsAt q).map fun e => (e.1, host.stateCount + e.2) := by
  rw [successorsAt, successorsAt, beside.outgoing_eq, List.filterMap_map, List.map_filterMap]
  refine List.filterMap_congr fun id _ => ?_
  rw [Function.comp_apply, beside.transition, Option.map_map, Option.map_map]
  rfl

theorem step_place : n.Step (host.stateCount + q) s r ↔
    ∃ p, sub.Step q s p ∧ host.stateCount + p = r := by
  rw [← mem_successorsAt, beside.successorsAt_place, List.mem_map]
  simp [mem_successorsAt]

theorem reaches_place : n.Reaches (host.stateCount + q) r ↔
    ∃ p, sub.Reaches q p ∧ host.stateCount + p = r := by
  apply Iff.intro
  · intro reaches
    obtain ⟨symbols, path⟩ := reaches
    generalize here : host.stateCount + q = start at path
    induction path generalizing q with
    | nil => exact ⟨q, .refl sub q, here⟩
    | cons step _ ih =>
        subst here
        obtain ⟨p, inside, same⟩ := beside.step_place.mp step
        obtain ⟨last, reaches, rfl⟩ := ih same
        exact ⟨last, (Reaches.of_step inside).trans reaches, rfl⟩
  · intro inside
    obtain ⟨p, reaches, rfl⟩ := inside
    exact reaches.placed fun step => beside.step_place.mpr ⟨_, step, rfl⟩

theorem reaches_branch : n.Reaches host.stateCount r ↔
    ∃ p, sub.Reaches 0 p ∧ host.stateCount + p = r :=
  beside.reaches_place (q := 0)

/-- Nothing of the branch leads to the host. -/
theorem le_of_step (beyond : host.stateCount ≤ a) (step : n.Step a s b) : host.stateCount ≤ b := by
  obtain ⟨q, rfl⟩ := Nat.exists_eq_add_of_le beyond
  obtain ⟨p, _, rfl⟩ := beside.step_place.mp step
  exact Nat.le_add_right _ _

theorem incoming_old (origin_lt : origin < host.stateCount) (known : q < host.stateCount) :
    (n.stateAt q).incoming = (host.stateAt q).incoming := by
  rw [beside.old_state q known, branched, stateAt_current,
    stateAt_connected (by rw [stateCount_grown]; omega) (by simp), stateAt_grown,
    if_neg (Nat.ne_of_lt known)]
  simp

theorem transition_old (found : host.transitions[id]? = some t) :
    n.transitions[id]? = some t := by
  have id_lt : id < host.transitions.size := (Array.getElem?_eq_some_iff.mp found).1
  rw [beside.old_transition id (Nat.lt_succ_of_lt id_lt), branched, transitions_connected,
    transitions_grown, Array.getElem?_push, if_neg (Nat.ne_of_lt id_lt)]
  exact found

theorem accepting_old (origin_lt : origin < host.stateCount) (known : q < host.stateCount) :
    n.Accepting q ↔ host.Accepting q := by
  rw [Nfa.accepting_iff, beside.old_state q known, ← Nfa.accepting_iff,
    accepting_branched origin_lt]

variable (hostWired : host.Wired) (origin_lt : origin < host.stateCount)

include hostWired origin_lt

theorem successorsAt_old (known : q < host.stateCount) : n.successorsAt q =
    host.successorsAt q ++ if q = origin then [(.epsilon, host.stateCount)] else [] := by
  rw [← successorsAt_branched hostWired origin_lt, successorsAt, successorsAt,
    beside.old_state q known]
  refine List.filterMap_congr fun id listed => ?_
  have id_lt := (hostWired.branched origin_lt).outgoing_lt listed
  rw [beside.old_transition id (by simpa [branched, width] using id_lt)]

theorem step_old (known : q < host.stateCount) (other : q ≠ origin) :
    n.Step q s r ↔ host.Step q s r := by
  rw [← mem_successorsAt, beside.successorsAt_old hostWired origin_lt known, if_neg other,
    List.append_nil, mem_successorsAt]

/-- Branches do not meet: the host's states lead to the host's states only. -/
theorem reaches_old (unreached : ∀ a s, ¬ host.Step a s origin) (known : q < host.stateCount)
    (other : q ≠ origin) : n.Reaches q r ↔ host.Reaches q r := by
  apply Iff.intro
  · intro reaches
    obtain ⟨symbols, path⟩ := reaches
    induction path with
    | nil => exact .refl host _
    | cons step _ ih =>
        have old := (beside.step_old hostWired origin_lt known other).mp step
        exact (Reaches.of_step old).trans
          (ih (hostWired.step_lt old).2 fun same => unreached _ _ (same ▸ old))
  · intro reaches
    obtain ⟨symbols, path⟩ := reaches
    induction path with
    | nil => exact .refl n _
    | cons step _ ih =>
        have kept := (beside.step_old hostWired origin_lt known other).mpr step
        exact (Reaches.of_step kept).trans
          (ih (hostWired.step_lt step).2 fun same => unreached _ _ (same ▸ step))

end Beside

/-- An isomorphism stays one where nothing changes that its root reaches. -/
theorem Isomorphism.of_same {other : Nfa} (iso : Isomorphism n q m r place)
    (reaches : ∀ {a}, other.Reaches q a ↔ n.Reaches q a)
    (accepting : ∀ {a}, n.Reaches q a → (other.Accepting a ↔ n.Accepting a))
    (successors : ∀ {a}, n.Reaches q a → other.successors a = n.successors a) :
    Isomorphism other q m r place where
  root := iso.root
  injective a b first second := iso.injective a b (reaches.mp first) (reaches.mp second)
  surjective b reached := by
    obtain ⟨a, first, same⟩ := iso.surjective b reached
    exact ⟨a, reaches.mpr first, same⟩
  accepting a reached := (accepting (reaches.mp reached)).trans (iso.accepting a (reaches.mp reached))
  successors a reached := by
    rw [successors (reaches.mp reached)]
    exact iso.successors a (reaches.mp reached)

/-- A branch is isomorphic to the automaton built in it. -/
theorem Beside.isomorphism (beside : Beside origin host sub n) (wired : n.Wired)
    (subWired : sub.Wired) (first_lt : 0 < sub.stateCount) :
    Isomorphism n host.stateCount sub 0 (· - host.stateCount) := by
  have inside : ∀ {a}, n.Reaches host.stateCount a →
      ∃ p, sub.Reaches 0 p ∧ host.stateCount + p = a := beside.reaches_branch.mp
  exact {
    root := Nat.sub_self _
    injective := by
      intro a b first second same
      obtain ⟨p, _, rfl⟩ := inside first
      obtain ⟨q, _, rfl⟩ := inside second
      simpa using same
    surjective := fun b reached =>
      ⟨host.stateCount + b, beside.reaches_branch.mpr ⟨b, reached, rfl⟩,
        Nat.add_sub_cancel_left _ _⟩
    accepting := by
      intro a reached
      obtain ⟨p, _, rfl⟩ := inside reached
      rw [Nat.add_sub_cancel_left, beside.accepting_iff]
    successors := by
      intro a reached
      obtain ⟨p, original, rfl⟩ := inside reached
      have p_lt := subWired.walkable.reaches_lt first_lt original
      have place_lt : host.stateCount + p < n.stateCount := by
        rw [beside.stateCount_eq]
        omega
      have back : sub.successorsAt p = (n.successorsAt (host.stateCount + p)).map
          fun e => (e.1, e.2 - host.stateCount) := by
        rw [beside.successorsAt_place, List.map_map]
        simp [Function.comp_def]
      rw [Nat.add_sub_cancel_left, successors_eq subWired.walkable p_lt, back]
      exact ⟨_, successors_eq wired.walkable place_lt, rfl⟩ }

theorem forked_new : Forked 0 .new [] [] where
  wired := .new
  attached := rfl
  rejects := new_rejects 0
  unreached a s := new_stuck a s 0
  successors := rfl
  distinct := .nil
  entered _ member := by cases member
  apart q q_lt other := absurd (Nat.lt_one_iff.mp q_lt) other
  branches := .nil

namespace Forked

variable (forked : Forked origin n entries subs)

include forked

theorem origin_lt : origin < n.stateCount :=
  forked.wired.start_lt forked.attached

theorem step_origin : n.Step origin s b ↔ s = .epsilon ∧ b ∈ entries := by
  rw [← mem_successorsAt, forked.successors, List.mem_map]
  simp [and_comm, eq_comm]

theorem entry_lt (member : b ∈ entries) : b < n.stateCount ∧ b ≠ origin := by
  have step := forked.step_origin.mpr ⟨rfl, member⟩
  exact ⟨(forked.wired.step_lt step).2, fun same => forked.unreached _ _ (same ▸ step)⟩

/-- The branches keep away from the start. -/
theorem lt_of_reaches (member : b ∈ entries) (reaches : n.Reaches b q) :
    q < n.stateCount ∧ q ≠ origin := by
  obtain ⟨b_lt, away⟩ := forked.entry_lt member
  exact ⟨forked.wired.walkable.reaches_lt b_lt reaches,
    reaches.ne_of_unreached forked.unreached away⟩

/-- A fresh state is none of the first states so far. -/
theorem distinct_concat : (entries ++ [n.stateCount]).Nodup := by
  rw [List.nodup_append]
  refine ⟨forked.distinct, List.nodup_singleton _, ?_⟩
  intro a member b last
  rw [List.mem_singleton.mp last]
  exact Nat.ne_of_lt (forked.entry_lt member).1

end Forked

namespace Forked

variable (forked : Forked origin host entries subs) (beside : Beside origin host sub n)

include forked beside

theorem reaches_beside (member : b ∈ entries) : n.Reaches b q ↔ host.Reaches b q :=
  beside.reaches_old forked.wired forked.origin_lt forked.unreached (forked.entry_lt member).1
    (forked.entry_lt member).2

theorem unreached_beside (a : Nat) (s : Symbol) : ¬ n.Step a s origin := by
  intro step
  have origin_lt := forked.origin_lt
  by_cases known : a < host.stateCount
  · rw [← mem_successorsAt, beside.successorsAt_old forked.wired origin_lt known,
      List.mem_append, mem_successorsAt] at step
    rcases step with old | opening
    · exact forked.unreached a s old
    · split at opening
      · cases List.mem_singleton.mp opening
        exact Nat.lt_irrefl _ origin_lt
      · cases opening
  · have beyond := beside.le_of_step (Nat.le_of_not_lt known) step
    omega

variable (subWired : sub.Wired) (rooted : sub.Rooted 0)

include rooted

theorem apart_beside : ∀ q < n.stateCount, q ≠ origin →
    ∃! b, b ∈ entries ++ [host.stateCount] ∧ n.Reaches b q := by
  intro q q_lt other
  -- The old branches stay below the size of the host, and the new one above it.
  by_cases known : q < host.stateCount
  · obtain ⟨b, ⟨member, reaches⟩, only⟩ := forked.apart q known other
    have old := (forked.reaches_beside beside member).mpr reaches
    have unique : ∀ c, c ∈ entries ++ [host.stateCount] ∧ n.Reaches c q → c = b := by
      intro c ⟨among, leads⟩
      rcases List.mem_append.mp among with earlier | last
      · exact only c ⟨earlier, (forked.reaches_beside beside earlier).mp leads⟩
      · rw [List.mem_singleton.mp last] at leads
        obtain ⟨p, _, rfl⟩ := beside.reaches_branch.mp leads
        omega
    exact ⟨b, ⟨List.mem_append_left _ member, old⟩, unique⟩
  · obtain ⟨p, rfl⟩ := Nat.exists_eq_add_of_le (Nat.le_of_not_lt known)
    have p_lt : p < sub.stateCount := by
      rw [beside.stateCount_eq] at q_lt
      omega
    have fresh := beside.reaches_branch.mpr ⟨p, rooted.reached p p_lt, rfl⟩
    have unique : ∀ c, c ∈ entries ++ [host.stateCount] ∧ n.Reaches c (host.stateCount + p) →
        c = host.stateCount := by
      intro c ⟨among, leads⟩
      rcases List.mem_append.mp among with earlier | last
      · have leads := (forked.reaches_beside beside earlier).mp leads
        have bound := (forked.lt_of_reaches earlier leads).1
        omega
      · exact List.mem_singleton.mp last
    exact ⟨host.stateCount, ⟨by simp, fresh⟩, unique⟩

include subWired

theorem entered_beside : ∀ b ∈ entries ++ [host.stateCount],
    ∃ id, (n.stateAt b).incoming = [id] ∧ n.transitions[id]? = some ⟨.epsilon, origin, b⟩ := by
  intro b member
  rcases List.mem_append.mp member with earlier | last
  · obtain ⟨id, only, found⟩ := forked.entered b earlier
    have kept := beside.incoming_old forked.origin_lt (forked.entry_lt earlier).1
    exact ⟨id, kept.trans only, beside.transition_old found⟩
  · obtain rfl := List.mem_singleton.mp last
    have first := beside.state 0
    rw [Nat.add_zero, settled, rooted.incoming_start subWired] at first
    exact ⟨host.transitions.size, by rw [first]; rfl, beside.opening⟩

omit rooted

theorem branches_beside (wired : n.Wired) (first_lt : 0 < sub.stateCount) :
    List.Forall₂ (fun b sub => Isomorphic n b sub 0) (entries ++ [host.stateCount])
      (subs ++ [sub]) := by
  refine List.rel_append ?_ (.cons ⟨_, beside.isomorphism wired subWired first_lt⟩ .nil)
  have members := (List.forall₂_and_left _ _).mpr ⟨fun _ => id, forked.branches⟩
  refine members.imp fun b m ⟨member, place, iso⟩ =>
    ⟨place, iso.of_same (forked.reaches_beside beside member) ?_ ?_⟩
  · exact fun reaches =>
      beside.accepting_old forked.origin_lt (forked.lt_of_reaches member reaches).1
  · intro a reaches
    obtain ⟨a_lt, away⟩ := forked.lt_of_reaches member reaches
    have a_in : a < n.stateCount := by
      rw [beside.stateCount_eq]
      omega
    rw [successors_eq wired.walkable a_in, successors_eq forked.wired.walkable a_lt,
      beside.successorsAt_old forked.wired forked.origin_lt a_lt, if_neg away, List.append_nil]

end Forked

/-- What is built beside a fork is one more branch of it. -/
theorem Forked.beside (forked : Forked origin host entries subs)
    (beside : Beside origin host sub n) (wired : n.Wired) (subWired : sub.Wired)
    (rooted : sub.Rooted 0) (first_lt : 0 < sub.stateCount) :
    Forked origin n (entries ++ [host.stateCount]) (subs ++ [sub]) where
  wired
  attached := beside.start_eq.trans forked.attached
  rejects accepts :=
    forked.rejects ((beside.accepting_old forked.origin_lt forked.origin_lt).mp accepts)
  unreached := forked.unreached_beside beside
  successors := by
    rw [beside.successorsAt_old forked.wired forked.origin_lt forked.origin_lt, forked.successors,
      if_pos rfl, List.map_append]
    rfl
  distinct := forked.distinct_concat
  entered := forked.entered_beside beside subWired rooted
  apart := forked.apart_beside beside rooted
  branches := forked.branches_beside beside subWired wired first_lt

/-- The start accepts nothing by itself, but leads to each of the branches. -/
theorem Forked.mem_language (forked : Forked origin n entries subs) :
    word ∈ n.language ↔ ∃ b ∈ entries, n.AcceptsFrom b word := by
  rw [mem_language_of_start forked.attached]
  apply Iff.intro
  · intro accepts
    obtain ⟨symbols, last, path, spells, accepting⟩ := accepts
    cases path with
    | nil => exact absurd accepting forked.rejects
    | cons step rest =>
        obtain ⟨rfl, member⟩ := forked.step_origin.mp step
        exact ⟨_, member, _, last, rest, spells, accepting⟩
  · intro accepts
    obtain ⟨b, member, symbols, last, path, spells, accepting⟩ := accepts
    have opening := forked.step_origin.mpr ⟨rfl, member⟩
    exact ⟨.epsilon :: symbols, last, .cons opening path, spells, accepting⟩

end RegexAutomaton.Nfa
