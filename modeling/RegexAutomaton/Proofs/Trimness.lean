import RegexAutomaton.Proofs.Discovery
import RegexAutomaton.Proofs.FinalStars
import RegexAutomaton.Proofs.Growth

namespace RegexAutomaton.Expression.Progress

open Nfa

variable {p after : Progress} {pattern more content : Pattern} {alternatives accepting : Bool}
  {n : Nfa} {q stars : Nat}

/-- Nothing superfluous has been built, but a state from which only the open
alternative leads on. -/
structure Tidy (alternatives : Bool) (pattern : Pattern) (p : Progress) : Prop where
  sound : p.Sound
  several : p.alternative.isSome = alternatives
  rooted : p.nfa.Rooted origin
  ends : ∀ q < p.nfa.stateCount,
    p.nfa.Ends q ∨ pattern.lastSilent = true ∧ p.nfa.Reaches q p.nfa.current
  at_entry : pattern.lastSilent = true → p.nfa.current = p.entry
  entered : alternatives = true ∨ pattern.lastSilent = false →
    ∃ a s, p.nfa.Step a s p.nfa.current

/-- All that a star does to the automaton. -/
theorem again_cases (sound : p.Sound) :
    p.again = p ∨
    (∃ c into out, p.last = some (.letter c) ∧
      p.nfa.oldest? (.char c) (p.nfa.stateAt p.nfa.current).incoming = some into ∧
      p.nfa.oldest? (.char c) (p.nfa.stateAt into.source).outgoing = some out ∧
      p.again.nfa = p.nfa.looped c into.source out.target) ∨
    ∃ fragment, p.last = some (.group fragment) ∧ p.nfa.HasFragment fragment ∧
      p.again.nfa = p.nfa.repeated fragment := by
  cases last : p.last with
  | none => exact .inl (by rw [Progress.again, last])
  | some atom =>
      have repeatable := sound.repeatable atom last
      cases atom with
      | letter c =>
          obtain ⟨into, out, oldestIn, oldestOut, same⟩ := sound.wired.exists_looped repeatable
          exact .inr (.inl ⟨c, into, out, rfl, oldestIn, oldestOut, (again_letter last).trans same⟩)
      | group fragment => exact .inr (.inr ⟨fragment, rfl, repeatable, again_group last⟩)

/-- Ending an alternative adds no transition. -/
theorem closed_appends (sound : p.Sound) : Appends p.nfa p.closed [] := by
  rcases p.closed_cases with ⟨_, same⟩ | ⟨_, same⟩
  · rw [same]
    exact .marked sound.wired.current_lt true
  · rw [same]
    exact .refl p.nfa

/-- A star appends transitions that read what has been read already. -/
theorem again_appends (sound : p.Sound) : ∃ list, Appends p.nfa p.again.nfa list ∧
    ∀ t ∈ list, ∃ u ∈ p.nfa.transitions, u.symbol = t.symbol := by
  have wired := sound.wired
  rcases again_cases sound with same | ⟨c, into, out, _, oldestIn, oldestOut, looped⟩ |
    ⟨fragment, _, valid, repeated⟩
  · rw [same]
    exact ⟨[], .refl p.nfa, by simp⟩
  · have source_lt := (wired.oldest_lt oldestIn).1
    have target_lt := (wired.oldest_lt oldestOut).2
    obtain ⟨_, _, u, found, reads, _⟩ := step_iff.mp (Wired.step_leaving oldestOut)
    rw [looped]
    exact ⟨_, .looped source_lt target_lt c, by simpa using ⟨u, Array.mem_of_getElem? found, reads⟩⟩
  · rw [repeated]
    refine ⟨_, .repeated wired valid, fun t copy => ?_⟩
    obtain ⟨_, _, u, found, rfl⟩ := mem_copies.mp copy
    exact ⟨u, Array.mem_of_getElem? found, rfl⟩

/-- A group appends the transitions of its content, and epsilons. -/
theorem grouped_appends {sub : Nfa} (sound : p.Sound) (subWired : sub.Wired)
    (attached : sub.start = some origin) : ∃ list, Appends p.nfa (p.grouped sub).nfa list ∧
      ∀ t ∈ list, t.symbol = .epsilon ∨ ∃ u ∈ sub.transitions, u.symbol = t.symbol := by
  rcases attach_cases p.nfa sub with ⟨_, same⟩ | ⟨_, same⟩
  · rw [grouped, same]
    exact ⟨[], .refl p.nfa, by simp⟩
  · rw [grouped, same]
    refine ⟨_, .spliced sound.wired subWired (subWired.start_lt attached), fun t added => ?_⟩
    rcases List.mem_append.mp added with imported | joined
    · obtain ⟨⟨id, u⟩, linked, rfl⟩ := List.mem_map.mp imported
      exact .inr ⟨u, Array.mem_of_getElem? (mem_linked.mp linked).1, rfl⟩
    · unfold joints at joined
      split at joined
      · obtain ⟨q, _, rfl⟩ := List.mem_map.mp joined
        exact .inl rfl
      · cases joined

/-- A star only adds transitions into states that were entered before. -/
theorem again_widens (sound : p.Sound) (linked : p.nfa.AllLinked) : Widens p.nfa p.again.nfa := by
  have wired := sound.wired
  rcases again_cases sound with same | ⟨c, into, out, _, oldestIn, oldestOut, looped⟩ |
    ⟨fragment, _, valid, repeated⟩
  · rw [same]
    exact Widens.refl p.nfa
  · rw [looped]
    exact widens_looped wired (wired.oldest_lt oldestIn).1 (Wired.step_leaving oldestOut)
  · rw [repeated]
    exact widens_repeated wired linked valid

/-- The same where all transitions are linked, for this is kept too. -/
theorem iterate_again_keeps {motive : Progress → Prop} (sound : p.Sound) (linked : p.nfa.AllLinked)
    (start : motive p)
    (step : ∀ {p : Progress}, p.Sound → p.nfa.AllLinked → motive p → motive p.again) (stars : Nat) :
    motive (Progress.again^[stars] p) := by
  have kept : ∀ {p : Progress}, p.Sound → p.nfa.AllLinked ∧ motive p →
      p.again.nfa.AllLinked ∧ motive p.again := fun sound before =>
    ⟨(again_widens sound before.1).linked before.1, step sound before.1 before.2⟩
  exact (sound.iterate_again_induction ⟨linked, start⟩ kept stars).2

theorem iterate_again_widens (sound : p.Sound) (linked : p.nfa.AllLinked) (stars : Nat) :
    Widens p.nfa (Progress.again^[stars] p).nfa :=
  iterate_again_keeps (motive := fun after => Widens p.nfa after.nfa) sound linked (.refl p.nfa)
    (fun sound linked widens => widens.trans (again_widens sound linked)) stars

namespace Tidy

variable (tidy : Tidy alternatives pattern p)

include tidy

theorem prolong (prolongs : Prolongs p.nfa after.nfa) (sound : after.Sound)
    (alternative : after.alternative = p.alternative) (loud : more.lastSilent = false) :
    Tidy alternatives more after where
  sound
  several := by rw [alternative, tidy.several]
  rooted := prolongs.rooted tidy.sound.wired tidy.sound.origin_lt tidy.rooted
  ends q q_lt := by
    have ended : after.nfa.Ends q := by
      by_cases known : q < p.nfa.stateCount
      · exact prolongs.ends_old tidy.sound.wired ((tidy.ends q known).imp_right And.right)
      · exact prolongs.ends q q_lt (.inr (Nat.le_of_not_lt known))
    exact .inl ended
  at_entry silent := by simp [loud] at silent
  entered _ := prolongs.current_entered

theorem widen (widens : Widens p.nfa after.nfa) (sound : after.Sound)
    (alternative : after.alternative = p.alternative) (same : more.lastSilent = pattern.lastSilent)
    (current : after.nfa.current = p.nfa.current ∨
      pattern.lastSilent = false ∧ ∃ a s, after.nfa.Step a s after.nfa.current) :
    Tidy alternatives more after where
  sound
  several := by rw [alternative, tidy.several]
  rooted := widens.rooted tidy.rooted
  ends q q_lt := by
    rw [widens.stateCount_eq] at q_lt
    rcases tidy.ends q q_lt with ended | ⟨silent, reaches⟩
    · exact .inl (widens.ends ended)
    · rcases current with here | ⟨loud, _⟩
      · exact .inr ⟨same.trans silent, here ▸ widens.reaches reaches⟩
      · simp [loud] at silent
  at_entry silent := by
    rw [same] at silent
    rcases current with here | ⟨loud, _⟩
    · rw [here, tidy.at_entry silent, entry, entry, alternative]
    · simp [loud] at silent
  entered begun := by
    rw [same] at begun
    rcases current with here | ⟨_, entered⟩
    · obtain ⟨a, s, step⟩ := tidy.entered begun
      exact ⟨a, s, here ▸ widens.keeps step⟩
    · exact entered

theorem letter (c : Char) (valid : isLetter c = true) :
    Tidy alternatives (.letter pattern c valid stars) (p.lettered c) :=
  tidy.prolong (prolongs_extended tidy.sound.wired c) (tidy.sound.lettered c)
    (p.lettered_alternative c) rfl

/-- A star moves on only behind a letter. -/
theorem again (loud : ∀ c, p.last = some (.letter c) → pattern.lastSilent = false) :
    Tidy alternatives pattern p.again := by
  have wired := tidy.sound.wired
  have widens := again_widens tidy.sound tidy.rooted.linked
  rcases again_cases tidy.sound with same | ⟨c, into, out, last, oldestIn, oldestOut, looped⟩ |
    ⟨_, _, _, repeated⟩
  · rwa [same]
  · have source_lt := (wired.oldest_lt oldestIn).1
    have target_lt := (wired.oldest_lt oldestOut).2
    have entered : p.again.nfa.Step out.target (.char c) p.again.nfa.current := by
      rw [looped]
      exact (step_looped wired source_lt target_lt).mpr (.inr ⟨rfl, rfl, rfl⟩)
    exact tidy.widen widens tidy.sound.again p.again_alternative rfl
      (.inr ⟨loud c last, _, _, entered⟩)
  · have stays : p.again.nfa.current = p.nfa.current := by
      rw [repeated, Nfa.repeated]
      simp
    exact tidy.widen widens tidy.sound.again p.again_alternative rfl (.inl stays)

theorem iterate_again (loud : ∀ c, p.last = some (.letter c) → pattern.lastSilent = false) :
    Tidy alternatives pattern (Progress.again^[stars] p) := by
  induction stars generalizing p with
  | zero => exact tidy
  | succ stars ih => exact ih (tidy.again loud) (by simpa using loud)

theorem loudGroup {sub : Nfa} (spliceable : Spliceable sub origin) (rooted : sub.Rooted origin)
    (ends : ∀ q < sub.stateCount, sub.Ends q) (loud : content.silent = false) :
    Tidy alternatives (.group pattern content stars) (p.grouped sub) := by
  have prolongs : Prolongs p.nfa (p.grouped sub).nfa := by
    rw [grouped, attach_spliced spliceable]
    exact spliceable.prolongs tidy.sound.wired rooted ends
  exact tidy.prolong prolongs (tidy.sound.grouped spliceable.wired spliceable.attached) rfl
    (by simp [Pattern.lastSilent, loud])

theorem silentGroup {sub : Nfa} (subWired : sub.Wired) (attached : sub.start = some origin)
    (idle : (sub.stateAt origin).outgoing = []) (silent : content.silent = true) :
    Tidy alternatives (.group pattern content stars) (p.grouped sub) := by
  have same : (p.grouped sub).nfa = p.nfa := by rw [grouped, attach, if_pos idle]
  have widens : Widens p.nfa (p.grouped sub).nfa := by
    rw [same]
    exact .refl p.nfa
  exact tidy.widen widens (tidy.sound.grouped subWired attached) rfl
    (by simp [Pattern.lastSilent, silent]) (.inl (by rw [same]))

theorem closed_widens : Widens p.nfa p.closed := by
  rcases p.closed_cases with ⟨_, same⟩ | ⟨_, same⟩
  · rw [same]
    exact widens_marked tidy.sound.wired.current_lt
  · rw [same]
    exact .refl p.nfa

theorem closed_rooted : p.closed.Rooted origin :=
  tidy.closed_widens.rooted tidy.rooted

variable (bars : alternatives = false → pattern.hasBar = false)
  (loud : alternatives = true ∨ pattern.silent = false)

include bars loud

theorem closed_ends : ∀ q < p.closed.stateCount, p.closed.Ends q := by
  intro q q_lt
  rw [closed_stateCount] at q_lt
  rcases tidy.ends q q_lt with ended | ⟨silent, reaches⟩
  · exact tidy.closed_widens.ends ended
  · have several := Pattern.several_of_lastSilent bars loud silent
    obtain ⟨first, opened⟩ := Option.isSome_iff_exists.mp (tidy.several.trans several)
    have here := tidy.at_entry silent
    rw [entry, opened, Option.getD_some] at here
    have accepting : p.closed.Accepting p.nfa.current :=
      (accepting_closed tidy.sound).mpr (.inl ⟨by rw [opened, here], rfl⟩)
    exact (Ends.of_accepting accepting).before (tidy.closed_widens.reaches reaches)

theorem trim : p.closed.Trim origin :=
  tidy.closed_rooted.trim (closed_wired tidy.sound) ((closed_start p).trans tidy.sound.attached)
    (tidy.closed_ends bars loud)

/-- Some state is entered, so the start is left towards it and on to an accepting
state. -/
theorem spliceable : Spliceable p.closed origin := by
  have rooted := tidy.closed_rooted
  have begun : alternatives = true ∨ pattern.lastSilent = false := by
    cases last : pattern.lastSilent with
    | false => exact .inr rfl
    | true => exact .inl (Pattern.several_of_lastSilent bars loud last)
  obtain ⟨a, s, step⟩ := tidy.entered begun
  have step := tidy.closed_widens.keeps step
  have current_lt := ((closed_wired tidy.sound).step_lt step).2
  have away : p.nfa.current ≠ origin := fun same => rooted.unreached a s (same ▸ step)
  obtain ⟨q, reaches, accepting⟩ := tidy.closed_ends bars loud _ current_lt
  exact {
    wired := closed_wired tidy.sound
    attached := (closed_start p).trans tidy.sound.attached
    unreached := rooted.unreached
    leads := (rooted.reached _ current_lt).first_step away
    ends := ⟨q, reaches.ne_of_unreached rooted.unreached away, accepting⟩ }

end Tidy

/-- Only the fresh state may still be a dead end, or the start before it. -/
theorem tidy_branched (wired : n.Wired) (attached : n.start = some origin)
    (rooted : n.Rooted origin) (ends : ∀ q < n.stateCount, n.Ends q ∨ q = origin)
    (last : pattern.lastSilent = true) (sound : Sound ⟨n.branched origin, some n.stateCount, none⟩) :
    Tidy true pattern ⟨n.branched origin, some n.stateCount, none⟩ := by
  have origin_lt := wired.start_lt attached
  have added : (n.branched origin).Step origin .epsilon n.stateCount :=
    (step_branched wired origin_lt).mpr (.inr ⟨rfl, rfl, rfl⟩)
  have keeps : ∀ {a s b}, n.Step a s b → (n.branched origin).Step a s b :=
    fun step => (step_branched wired origin_lt).mpr (.inl step)
  have fresh : ∀ q < (n.branched origin).stateCount, q < n.stateCount ∨ q = n.stateCount := by
    intro q q_lt
    rw [stateCount_branched] at q_lt
    omega
  exact {
    sound
    several := rfl
    rooted := {
      linked := rooted.linked.branched origin_lt
      unreached := by
        intro a s step
        rcases (step_branched wired origin_lt).mp step with old | ⟨_, _, same⟩
        · exact rooted.unreached a s old
        · omega
      reached := by
        intro q q_lt
        rcases fresh q q_lt with known | rfl
        · exact (rooted.reached q known).mono keeps
        · exact .of_step added }
    ends := by
      intro q q_lt
      rcases fresh q q_lt with known | rfl
      · rcases ends q known with ⟨r, reaches, accepting⟩ | rfl
        · exact .inl ⟨r, reaches.mono keeps, (accepting_branched origin_lt).mpr accepting⟩
        · exact .inr ⟨last, .of_step added⟩
      · exact .inr ⟨last, .refl _ _⟩
    at_entry := fun _ => rfl
    entered := fun _ => ⟨_, _, added⟩ }

theorem Tidy.bar (tidy : Tidy true pattern p) : Tidy true (.bar pattern) p.barred :=
  tidy_branched (closed_wired tidy.sound) ((closed_start p).trans tidy.sound.attached)
    tidy.closed_rooted (fun q q_lt => .inl (tidy.closed_ends nofun (.inl rfl) q q_lt)) rfl
    tidy.sound.barred

theorem rooted_new : Nfa.new.Rooted origin where
  linked := .new
  unreached a s := new_stuck a s origin
  reached q q_lt := by
    obtain rfl : q = origin := Nat.lt_one_iff.mp q_lt
    exact .refl _ _

theorem tidy_opened (alternatives : Bool) : Tidy alternatives .empty (opened alternatives) := by
  cases alternatives with
  | true =>
      exact tidy_branched .new rfl rooted_new (fun q q_lt => .inr (Nat.lt_one_iff.mp q_lt)) rfl
        (.opened true)
  | false =>
      exact {
        sound := .opened false
        several := rfl
        rooted := rooted_new
        ends := by
          intro q q_lt
          obtain rfl : q = origin := Nat.lt_one_iff.mp q_lt
          exact .inr ⟨rfl, .refl _ _⟩
        at_entry := fun _ => rfl
        entered := fun begun => by simp [Pattern.lastSilent] at begun }

/-- Repeating nothing in a single state makes it accepting at most. -/
theorem iterate_again_lone (lone : p.nfa = Nfa.lone accepting) (nothing :
    p.last = some (.group ⟨origin, origin, []⟩)) (stars : Nat) :
    ∃ accepting, (again^[stars] p).nfa = Nfa.lone accepting := by
  induction stars generalizing p accepting with
  | zero => exact ⟨accepting, lone⟩
  | succ stars ih =>
      have repeated : p.again.nfa = Nfa.lone true := by
        rw [again_group nothing, lone]
        rfl
      exact ih repeated (by simpa using nothing)

/-- Without letters and bars nothing is ever added. -/
theorem through_silent (silent : pattern.silent = true) :
    (through pattern (opened false)).alternative = none ∧
      ∃ accepting, (through pattern (opened false)).nfa = Nfa.lone accepting := by
  induction pattern with
  | empty => exact ⟨rfl, false, rfl⟩
  | letter | bar => cases silent
  | group before content stars ih inside =>
      simp only [Pattern.silent, Bool.and_eq_true] at silent
      obtain ⟨single, accepting, lone⟩ := ih silent.1
      obtain ⟨alone, mark, content_lone⟩ := inside silent.2
      have content_closed : (through content (opened content.hasBar)).closed = Nfa.lone mark := by
        rw [Pattern.hasBar_of_silent silent.2, closed, alone, content_lone]
      have passed : attach (Nfa.lone accepting) (Nfa.lone mark) =
          (Nfa.lone accepting, ⟨origin, origin, []⟩) := if_pos rfl
      have same : (through before (opened false)).grouped
          (through content (opened content.hasBar)).closed =
            ⟨Nfa.lone accepting, (through before (opened false)).alternative,
              some (.group ⟨origin, origin, []⟩)⟩ := by
        rw [grouped, lone, content_closed, passed]
      rw [through, same]
      exact ⟨(iterate_again_alternative _ stars).trans single, iterate_again_lone rfl rfl stars⟩

theorem compiled_silent (silent : pattern.silent = true) :
    ∃ accepting, compiled pattern = Nfa.lone accepting := by
  obtain ⟨alone, accepting, lone⟩ := through_silent silent
  have same : compiled pattern = Nfa.lone accepting := by
    rw [compiled, Pattern.hasBar_of_silent silent, closed, alone, lone]
  exact ⟨accepting, same⟩

theorem tidy_through (pattern : Pattern) (bars : alternatives = false → pattern.hasBar = false) :
    Tidy alternatives pattern (through pattern (opened alternatives)) := by
  induction pattern generalizing alternatives with
  | empty => exact tidy_opened alternatives
  | letter before c valid stars ih =>
      exact ((ih bars).letter c valid).iterate_again fun _ _ => rfl
  | bar before ih =>
      cases alternatives with
      | true =>
          have earlier : Tidy true before (through before (opened true)) := ih nofun
          exact earlier.bar
      | false => cases bars rfl
  | group before content stars ih inside =>
      have outer := ih bars
      have inner : Tidy content.hasBar content (through content (opened content.hasBar)) :=
        inside id
      have wired := closed_wired inner.sound
      have attached := (closed_start _).trans inner.sound.attached
      have unlettered : ∀ sub c, ((through before (opened alternatives)).grouped sub).last ≠
          some (.letter c) := nofun
      cases quiet : content.silent with
      | true =>
          obtain ⟨accepting, lone⟩ := compiled_silent quiet
          have idle : ((compiled content).stateAt origin).outgoing = [] := by
            rw [lone]
            rfl
          exact (outer.silentGroup wired attached idle quiet).iterate_again
            fun c letter => absurd letter (unlettered _ c)
      | false =>
          exact (outer.loudGroup (inner.spliceable id (.inr quiet)) inner.closed_rooted
            (inner.closed_ends id (.inr quiet)) quiet).iterate_again
              fun c letter => absurd letter (unlettered _ c)

theorem compiled_rooted (pattern : Pattern) : (compiled pattern).Rooted origin := by
  have tidy : Tidy pattern.hasBar pattern (through pattern (opened pattern.hasBar)) :=
    tidy_through pattern id
  exact tidy.closed_rooted

theorem spliceable_compiled (loud : pattern.silent = false) :
    Spliceable (compiled pattern) origin :=
  (tidy_through pattern id).spliceable id (.inr loud)

end RegexAutomaton.Expression.Progress

namespace RegexAutomaton.Expression

open Nfa Progress

/-- The automaton of an expression with a letter or a bar is trim, and its table
has a row for each of its states. Without letters and bars it is a single state. -/
theorem compile_trim {e : String} {n : Nfa} (done : (compile e).outcome = .ok n) :
    (Audible e.toList → ∃ start, n.Trim start ∧
      ∃ table, n.table = .ok table ∧ table.length = n.stateCount) ∧
    (¬ Audible e.toList → ∃ accepting, n = Nfa.lone accepting) := by
  obtain ⟨p, unique, rfl⟩ := reading_exists done
  rw [← (unique p).mpr rfl, audible_iff]
  apply And.intro
  · intro loud
    have tidy : Tidy p.hasBar p (through p (opened p.hasBar)) := tidy_through p id
    have trim : (compiled p).Trim origin := tidy.trim id (.inr loud)
    have walkable := (compiled_wired p).walkable
    have enumerates := walked_breadthFirst walkable trim.attached
    exact ⟨origin, trim, _, table_eq walkable,
      enumerates.length_eq walkable trim.start_lt trim.reached⟩
  · exact fun silent => compiled_silent (by simpa using silent)

/-- The second star moves the end of the path back to an older state, and the last
alternative adds none. -/
theorem compile_trim_of_repeated_head : ∃ n start table,
    (compile "(ab)*a*|()*").outcome = .ok n ∧ n.Trim start ∧
      n.table = .ok table ∧ table.length = 6 := by
  let p : Pattern := .group (.bar (.letter (.group .empty
    (.letter (.letter .empty 'a' rfl 0) 'b' rfl 0) 1) 'a' rfl 1)) .empty 1
  have done : (compile "(ab)*a*|()*").outcome = .ok (compiled p) :=
    compile_of_text (by decide) rfl
  obtain ⟨start, trim, table, made, rows⟩ := (compile_trim done).1 ⟨'a', by decide, .inl rfl⟩
  have size : (compiled p).stateCount = 6 := by decide +kernel
  exact ⟨compiled p, start, table, done, trim, made, rows.trans size⟩

end RegexAutomaton.Expression
