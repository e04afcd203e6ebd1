import RegexAutomaton.Expression.Alternatives
import RegexAutomaton.Proofs.Extension
import RegexAutomaton.Proofs.Inlay

namespace RegexAutomaton.Expression

open Nfa

variable {t u before content : Pattern} {alternatives : Bool} {p q : Progress} {n : Nfa}
  {depth : Nat} {front inner back rest chars : List Char}

theorem outsideFrom_nested (nested : Nested chars) :
    outsideFrom (depth + 1) (chars ++ rest) = outsideFrom (depth + 1) rest := by
  induction nested generalizing depth rest with
  | nil => rfl
  | plain notOpen notClose _ ih => simp [outsideFrom, notOpen, notClose, ih]
  | group _ _ innerIH ih => simp [outsideFrom, innerIH, ih]

theorem outside_append (nested : Nested chars) :
    outside (chars ++ rest) = outside chars ++ outside rest := by
  unfold outside
  induction nested with
  | nil => rfl
  | plain notOpen notClose _ ih => simp [outsideFrom, notOpen, notClose, ih]
  | group inside _ _ ih => simp [outsideFrom, outsideFrom_nested inside, ih]

theorem outside_group (nested : Nested inner) :
    outside ('(' :: (inner ++ ')' :: rest)) = outside rest := by
  simp [outside, outsideFrom, outsideFrom_nested nested]

/-- The scan for a bar looks at the outer characters. -/
theorem hasOuterBar_iff : hasOuterBar chars = true ↔ '|' ∈ outside chars := by
  have scan : ∀ depth, hasOuterBarFrom depth chars = true ↔ '|' ∈ outsideFrom depth chars := by
    intro depth
    induction chars generalizing depth with
    | nil => simp [hasOuterBarFrom, outsideFrom]
    | cons c rest ih =>
        simp only [hasOuterBarFrom, outsideFrom]
        split
        · exact ih _
        · split
          · exact ih _
          · by_cases bar : c = '|'
            · by_cases outer : depth = 0 <;> simp [bar, outer, ih]
            · by_cases outer : depth = 0 <;> simp [bar, Ne.symm bar, outer, ih]
  exact scan 0

theorem outside_plain {c : Char} (notOpen : c ≠ '(') (notClose : c ≠ ')') :
    outside (c :: rest) = c :: outside rest := by
  simp [outside, outsideFrom, notOpen, notClose]

namespace Pattern

/-- Neither bars nor stars, but in groups. -/
inductive Bare : Pattern → Prop where
  | empty : Bare empty
  | letter {before : Pattern} {c : Char} {valid : isLetter c = true} :
      Bare before → Bare (letter before c valid 0)
  | group {before content : Pattern} : Bare before → Bare (group before content 0)

/-- The factors and bars of the one, and then those of the other. -/
def append (before : Pattern) : Pattern → Pattern
  | empty => before
  | letter more c valid stars => letter (before.append more) c valid stars
  | group more content stars => group (before.append more) content stars
  | bar more => bar (before.append more)

theorem text_append (before more : Pattern) :
    (before.append more).text = before.text ++ more.text := by
  induction more with
  | empty => simp [append, text]
  | letter _ _ _ _ ih | group _ _ _ ih | bar _ ih => simp [append, text, ih]

theorem Bare.hasBar_eq (bare : Bare t) : t.hasBar = false := by
  induction bare with
  | empty => rfl
  | letter _ ih | group _ ih => exact ih

theorem hasBar_append (before more : Pattern) :
    (before.append more).hasBar = (more.hasBar || before.hasBar) := by
  induction more with
  | empty => rfl
  | letter _ _ _ _ ih | group _ _ _ ih => exact ih
  | bar => rfl

theorem bare_of_outside (single : t.hasBar = false) (stars : '*' ∉ outside t.text) :
    Bare t := by
  have starless : ∀ {count}, '*' ∉ outside (List.replicate count '*') → count = 0 := by
    intro count absent
    cases count with
    | zero => rfl
    | succ count =>
        rw [List.replicate_succ, outside_plain (by decide) (by decide)] at absent
        simp at absent
  induction t with
  | empty => exact .empty
  | letter before c valid count ih =>
      have plain := ne_brackets_of_isLetter valid
      rw [text, outside_append (nested_text before), outside_plain plain.1 plain.2.1,
        List.mem_append, List.mem_cons, not_or, not_or] at stars
      obtain rfl := starless stars.2.2
      exact .letter (ih single stars.1)
  | group before content count ih _ =>
      rw [text_group, outside_append (nested_text before), outside_group (nested_text content),
        List.mem_append, not_or] at stars
      obtain rfl := starless stars.2
      exact .group (ih single stars.1)
  | bar => cases single

/-- The second pattern lacks one pair of parentheses of the first, which has no star
and bare factors inside. -/
inductive Ungroups : Pattern → Pattern → Prop where
  | here {before content : Pattern} :
      Bare content → Ungroups (group before content 0) (before.append content)
  | letter {t u : Pattern} {c : Char} {valid : isLetter c = true} {stars : Nat} :
      Ungroups t u → Ungroups (letter t c valid stars) (letter u c valid stars)
  | before {t u content : Pattern} {stars : Nat} :
      Ungroups t u → Ungroups (group t content stars) (group u content stars)
  | content {before t u : Pattern} {stars : Nat} :
      Ungroups t u → Ungroups (group before t stars) (group before u stars)
  | bar {t u : Pattern} : Ungroups t u → Ungroups (bar t) (bar u)

theorem Ungroups.hasBar_eq (ungroups : Ungroups t u) : t.hasBar = u.hasBar := by
  induction ungroups with
  | here bare => simp [hasBar_append, bare.hasBar_eq, hasBar]
  | letter _ ih | before _ ih => exact ih
  | content | bar => rfl

/-- If the whole does not begin with a star, its beginning does not. -/
theorem head?_ne_of_append (unstarred : (front ++ rest).head? ≠ some '*') :
    front.head? ≠ some '*' := by
  cases front with
  | nil => simp
  | cons c front => exact unstarred

/-- Wherever such a pair stands in a text, there is a pattern without it. -/
theorem ungroups_exists (inside : Nested inner) (bars : '|' ∉ outside inner)
    (stars : '*' ∉ outside inner) (text : t.text = front ++ '(' :: (inner ++ ')' :: back))
    (unstarred : back.head? ≠ some '*') :
    ∃ u, Ungroups t u ∧ u.text = front ++ (inner ++ back) := by
  -- The group ends before the last factor or bar of the pattern, or else it is that
  -- factor or stands within it: no parenthesis opens behind.
  have absent : ∀ {tail between back : List Char}, '(' ∉ tail →
      tail ≠ between ++ '(' :: (inner ++ ')' :: back) := by
    intro tail between back absent same
    simp [same] at absent
  induction t generalizing front back with
  | empty => simp [Pattern.text] at text
  | letter before c valid count ih =>
      rcases group_within_or_behind (nested_text before) inside text with
        ⟨between, within, rfl⟩ | ⟨between, _, tail⟩
      · obtain ⟨u, ungroups, spelled⟩ := ih within (head?_ne_of_append unstarred)
        exact ⟨letter u c valid count, .letter ungroups, by simp [Pattern.text, spelled]⟩
      · refine absurd tail (absent ?_)
        simp [(ne_brackets_of_isLetter valid).1.symm]
  | group before content count ih innerIH =>
      rw [text_group] at text
      rcases group_within_or_behind (nested_text before) inside text with
        ⟨between, within, rfl⟩ | ⟨between, rfl, tail⟩
      · obtain ⟨u, ungroups, spelled⟩ := ih within (head?_ne_of_append unstarred)
        exact ⟨group u content count, .before ungroups, by simp [text_group, spelled]⟩
      · cases between with
        | nil =>
            obtain ⟨rfl, rfl⟩ := close_unique (nested_text content) inside (List.cons.inj tail).2
            obtain rfl : count = 0 := by
              cases count with
              | zero => rfl
              | succ count => exact absurd rfl unstarred
            have single : content.hasBar = false := by
              rw [← hasOuterBar_text, ← Bool.not_eq_true, hasOuterBar_iff]
              exact bars
            exact ⟨before.append content, .here (bare_of_outside single stars),
              by simp [text_append]⟩
        | cons _ between =>
            obtain ⟨rfl, later⟩ := List.cons.inj tail
            rcases group_within_or_behind (nested_text content) inside later with
              ⟨behind, within, rfl⟩ | ⟨_, _, after⟩
            · obtain ⟨u, ungroups, spelled⟩ := innerIH within (head?_ne_of_append unstarred)
              exact ⟨group before u count, .content ungroups, by simp [text_group, spelled]⟩
            · exact absurd after (absent (by simp))
  | bar before ih =>
      rcases group_within_or_behind (nested_text before) inside text with
        ⟨between, within, rfl⟩ | ⟨between, _, tail⟩
      · obtain ⟨u, ungroups, spelled⟩ := ih within (head?_ne_of_append unstarred)
        exact ⟨bar u, .bar ungroups, by simp [Pattern.text, spelled]⟩
      · exact absurd tail (absent (by decide))

end Pattern

namespace Progress

theorem through_append (before more : Pattern) (p : Progress) :
    through (before.append more) p = through more (through before p) := by
  induction more with
  | empty => rfl
  | letter _ _ _ _ ih | group _ _ _ ih | bar _ ih => simp only [Pattern.append, through, ih]

theorem through_alternative (single : t.hasBar = false) (p : Progress) :
    (through t p).alternative = p.alternative := by
  induction t with
  | empty => rfl
  | letter before c _ count ih =>
      rw [through, iterate_again_alternative, lettered_alternative]
      exact ih single
  | group before content count ih =>
      rw [through, iterate_again_alternative]
      exact ih single
  | bar => cases single

/-- With bare factors, only the end of the path accepts. -/
theorem accepting_bare (bare : t.Bare) {r : Nat} :
    (through t (opened false)).nfa.Accepting r ↔
      t.silent = false ∧ r = (through t (opened false)).nfa.current := by
  induction bare generalizing r with
  | empty => exact iff_of_false (new_rejects r) (by simp [Pattern.silent])
  | @letter before c _ _ ih =>
      have sound := through_sound before _ (.opened false)
      show ((through before (opened false)).nfa.extended c).Accepting r ↔
        _ ∧ r = ((through before (opened false)).nfa.extended c).current
      rw [accepting_extended sound.wired, ih, current_extended]
      simp only [Pattern.silent, true_and]
      exact or_iff_left fun apart => apart.1 apart.2.2
  | @group before content _ ih =>
      have sound := through_sound before _ (.opened false)
      show (attach (through before (opened false)).nfa (compiled content)).1.Accepting r ↔
        _ ∧ r = (attach (through before (opened false)).nfa (compiled content)).1.current
      cases quiet : content.silent with
      | true => simp [attach_silent quiet, ih, Pattern.silent, quiet]
      | false =>
          have spliceable := spliceable_compiled quiet
          rw [attach_spliced spliceable, spliceable.accepting_spliced sound.wired, ih]
          simp only [Pattern.silent, quiet, Bool.and_false, true_and]
          exact or_iff_left fun apart => apart.2.1 apart.2.2.2

/-- What is built on the spot is inlaid there, from the first trace on. -/
theorem inlaid_through (bare : t.Bare) (sound : p.Sound) :
    ∃ m : Nfa, m.Wired ∧ Inlaid p.nfa origin (through t (opened false)).nfa m ∧
      (t.silent = false ∧ m = (through t p).nfa ∨
        t.silent = true ∧ (through t p).nfa = p.nfa ∧ m = p.nfa.marked p.nfa.current false) := by
  induction bare with
  | empty =>
      exact ⟨_, sound.wired.marked sound.wired.current_lt false, inlaid_new sound.wired,
        .inr ⟨rfl, rfl, rfl⟩⟩
  | @letter before c _ _ ih =>
      obtain ⟨m, wired, inlaid, place⟩ := ih
      have alone := through_sound before _ (.opened false)
      refine ⟨m.extended c, wired.extended c,
        inlaid.extended sound.wired alone.wired alone.attached wired c, .inl ⟨rfl, ?_⟩⟩
      show m.extended c = (through before p).nfa.extended c
      rcases place with ⟨_, rfl⟩ | ⟨_, unmoved, rfl⟩
      · rfl
      · rw [unmoved, extended_marked sound.wired.current_lt]
  | @group before content _ ih =>
      obtain ⟨m, wired, inlaid, place⟩ := ih
      have alone := through_sound before _ (.opened false)
      show ∃ m : Nfa, m.Wired ∧
        Inlaid p.nfa origin (attach (through before (opened false)).nfa (compiled content)).1 m ∧
          ((Pattern.group before content 0).silent = false ∧
            m = (attach (through before p).nfa (compiled content)).1 ∨ _ ∧
              (attach (through before p).nfa (compiled content)).1 = p.nfa ∧ _)
      cases quiet : content.silent with
      | true => simpa [attach_silent quiet, Pattern.silent, quiet] using ⟨m, wired, inlaid, place⟩
      | false =>
          have spliceable := spliceable_compiled quiet
          simp only [attach_spliced spliceable]
          refine ⟨(m.spliced (compiled content) origin).1,
            wired.spliced spliceable.wired spliceable.start_lt,
            inlaid.spliced sound.wired alone.wired alone.attached wired spliceable.wired
              spliceable.start_lt, .inl ⟨by simp [Pattern.silent, quiet], ?_⟩⟩
          rcases place with ⟨_, rfl⟩ | ⟨_, unmoved, rfl⟩
          · rfl
          · rw [unmoved, spliced_marked sound.wired.current_lt spliceable.start_lt]

/-- Bare factors leave the same automaton behind whether they are grouped or not. -/
theorem through_here (bare : content.Bare)
    (bars : alternatives = false → before.hasBar = false) :
    (through (.group before content 0) (opened alternatives)).nfa =
      (through (before.append content) (opened alternatives)).nfa := by
  have sound := through_sound before _ (.opened alternatives)
  have single := bare.hasBar_eq
  have grouped : Tidy alternatives (.group before content 0)
      (through (.group before content 0) (opened alternatives)) := tidy_through _ bars
  have appended : Tidy alternatives (before.append content)
      (through (before.append content) (opened alternatives)) :=
    tidy_through _ (by simpa [Pattern.hasBar_append, single] using bars)
  -- Both are the same automaton in the same host, and all their transitions are linked.
  obtain ⟨m, _, inlaid, ⟨loud, rfl⟩ | ⟨silent, unmoved, _⟩⟩ := inlaid_through bare sound
  · have spliceable := spliceable_compiled loud
    rw [← compiled_of_single single] at inlaid
    have only : ∀ q, (compiled content).Accepting q ↔ q = (compiled content).current := by
      intro q
      rw [compiled_of_single single, accepting_bare bare]
      simp [loud]
    have spliced := inlaid_spliced sound.wired spliceable.wired spliceable.attached
      (compiled_rooted content).linked only
    rw [← attach_spliced spliceable] at spliced
    rw [← through_append] at inlaid
    exact spliced.eq inlaid grouped.sound.wired appended.sound.wired grouped.rooted.linked
      appended.rooted.linked
  · rw [through_append, unmoved]
    exact attach_silent silent _

/-- The last atom is all that may differ, and only a star would repeat it. -/
theorem through_ungroups (ungroups : t.Ungroups u)
    (bars : alternatives = false → t.hasBar = false) :
    (through t (opened alternatives)).nfa = (through u (opened alternatives)).nfa ∧
      (through t (opened alternatives)).alternative =
        (through u (opened alternatives)).alternative := by
  induction ungroups generalizing alternatives with
  | @here before content bare =>
      refine ⟨through_here bare bars, ?_⟩
      rw [through_append, through_alternative bare.hasBar_eq]
      rfl
  | letter _ ih =>
      obtain ⟨nfa, alternative⟩ := ih bars
      simp only [through, lettered_congr nfa alternative, and_self]
  | before _ ih =>
      obtain ⟨nfa, alternative⟩ := ih bars
      simp only [through, grouped_congr nfa alternative, and_self]
  | content ungroups ih =>
      obtain ⟨nfa, alternative⟩ := ih id
      rw [through, through, ← ungroups.hasBar_eq, closed_congr nfa alternative]
      exact ⟨rfl, rfl⟩
  | @bar t u _ ih =>
      cases alternatives with
      | false => cases bars rfl
      | true =>
          have same : (through t (opened true)).nfa = (through u (opened true)).nfa ∧ _ :=
            ih (by simp)
          simp only [through, barred, closed_congr same.1 same.2, and_self]

theorem compiled_ungroups (ungroups : t.Ungroups u) : compiled t = compiled u := by
  obtain ⟨nfa, alternative⟩ := through_ungroups ungroups id
  rw [compiled, compiled, ← ungroups.hasBar_eq]
  exact closed_congr nfa alternative

end Progress

/-- A group of factors without stars and bars outside further groups, itself without
a star, can lose its parentheses: the automaton stays the same, to the last list. -/
theorem compile_ungrouped {before inside behind : String}
    (done : (compile (before ++ "(" ++ inside ++ ")" ++ behind)).outcome = .ok n)
    (balanced : Balanced inside.toList) (bars : '|' ∉ outside inside.toList)
    (stars : '*' ∉ outside inside.toList) (unstarred : behind.toList.head? ≠ some '*')
    (nonempty : before ++ inside ++ behind ≠ "") :
    (compile (before ++ inside ++ behind)).outcome = .ok n := by
  obtain ⟨t, unique, rfl⟩ := reading_exists done
  have text : t.text = before.toList ++ '(' :: (inside.toList ++ ')' :: behind.toList) := by
    simp [(unique t).mpr rfl]
  obtain ⟨u, ungroups, spelled⟩ :=
    Pattern.ungroups_exists (balanced_iff_nested.mp balanced) bars stars text unstarred
  rw [Progress.compiled_ungroups ungroups]
  exact compile_of_text nonempty (by simp [spelled])

/-- The group stands in an alternative of a repeated group, and holds a group with
alternatives itself. -/
theorem compile_ungrouped_of_repeated_context : ∃ n,
    (compile "(a|b(c(d|e*)f))*g|").outcome = .ok n ∧
      (compile "(a|bc(d|e*)f)*g|").outcome = .ok n ∧ n.stateCount = 16 ∧
      n.acceptingStates = [1, 14, 15] ∧ n.current = 15 ∧ n.transitions.size = 21 := by
  let inside : Pattern := .letter (.group (.letter .empty 'c' rfl 0)
    (.letter (.bar (.letter .empty 'd' rfl 0)) 'e' rfl 1) 0) 'f' rfl 0
  let t : Pattern := .bar (.letter (.group .empty
    (.group (.letter (.bar (.letter .empty 'a' rfl 0)) 'b' rfl 0) inside 0) 1) 'g' rfl 0)
  have done : (compile ("(a|b" ++ "(" ++ "c(d|e*)f" ++ ")" ++ ")*g|")).outcome =
      .ok (Progress.compiled t) := compile_of_text (by decide) rfl
  have ungrouped := compile_ungrouped done (by decide) (by decide) (by decide) (by decide)
    (by decide)
  have whole : "(a|b" ++ "(" ++ "c(d|e*)f" ++ ")" ++ ")*g|" = "(a|b(c(d|e*)f))*g|" := by decide
  have flat : "(a|b" ++ "c(d|e*)f" ++ ")*g|" = "(a|bc(d|e*)f)*g|" := by decide
  rw [whole] at done
  rw [flat] at ungrouped
  have states : (Progress.compiled t).stateCount = 16 := by decide +kernel
  have accepting : (Progress.compiled t).acceptingStates = [1, 14, 15] := by decide +kernel
  have size : (Progress.compiled t).transitions.size = 21 := by decide +kernel
  have current : (Progress.compiled t).current = 15 := by decide +kernel
  exact ⟨Progress.compiled t, done, ungrouped, states, accepting, current, size⟩

end RegexAutomaton.Expression
