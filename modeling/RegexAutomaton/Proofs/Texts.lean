import RegexAutomaton.Proofs.Delimiting

namespace RegexAutomaton

variable {rows others : List Row}

namespace Row

/-- What follows the label in a heading. -/
def remarks (row : Row) : List Char :=
  (if row.accepting then " (Accepting)" else "").toList
    ++ (if row.start then " (Start)" else "").toList ++ ['\n']

theorem toList_heading (row : Row) : row.heading.toList =
    "State: ".toList ++ 'q' :: (Nat.toDigits 10 row.label ++ row.remarks) := by
  -- Stated by itself, here and below: to unfold the definition evaluates its literals.
  have line : row.heading = "State: " ++ labelText row.label
      ++ (if row.accepting then " (Accepting)" else "")
      ++ (if row.start then " (Start)" else "") ++ "\n" := rfl
  simp only [line, remarks, String.toList_append, toList_labelText, List.append_assoc,
    List.cons_append]
  rfl

theorem toList_transitionLine (e : Symbol × Nat) : (transitionLine e).toList =
    "  Transition: ".toList ++ (e.1.text.toList ++ (" -> ".toList ++
      'q' :: (Nat.toDigits 10 e.2 ++ ['\n']))) := by
  have line : transitionLine e =
      "  Transition: " ++ e.1.text ++ " -> " ++ labelText e.2 ++ "\n" := rfl
  simp only [line, String.toList_append, toList_labelText, List.append_assoc, List.cons_append]
  rfl

theorem toList_node (row : Row) : row.node.toList =
    '\t' :: 'q' :: (Nat.toDigits 10 row.label ++ (" [label = \"".toList ++
      'q' :: (Nat.toDigits 10 row.label ++ ("\", shape = ".toList ++
        ((if row.accepting then "doublecircle" else "circle").toList ++ "]\n".toList))))) := by
  have line : row.node = "\t" ++ labelText row.label ++ " [label = \"" ++ labelText row.label
      ++ "\", shape = " ++ (if row.accepting then "doublecircle" else "circle") ++ "]\n" := rfl
  simp only [line, String.toList_append, toList_labelText, List.append_assoc, List.cons_append]
  rfl

theorem toList_edge (source : Nat) (e : Symbol × Nat) : (edge source e).toList =
    '\t' :: 'q' :: (Nat.toDigits 10 source ++ (" -> ".toList ++
      'q' :: (Nat.toDigits 10 e.2 ++ (" [label = \"".toList ++
        (e.1.text.toList ++ "\"]\n".toList))))) := by
  have line : edge source e = "\t" ++ labelText source ++ " -> " ++ labelText e.2
      ++ " [label = \"" ++ e.1.text ++ "\"]\n" := rfl
  simp only [line, String.toList_append, toList_labelText, List.append_assoc, List.cons_append]
  rfl

theorem toList_startMark (row : Row) : row.startMark.toList =
    "\tstart [shape = point]\n\tstart -> ".toList ++
      'q' :: (Nat.toDigits 10 row.label ++ ['\n']) := by
  have line : row.startMark =
      "\tstart [shape = point]\n\tstart -> " ++ labelText row.label ++ "\n" := rfl
  simp only [line, String.toList_append, toList_labelText, List.append_assoc, List.cons_append]
  rfl

theorem remarks_no_digit (row : Row) (rest : List Char) :
    (row.remarks ++ rest).takeWhile Char.isDigit = [] := by
  rw [remarks]
  cases row.accepting <;> cases row.start <;> rfl

theorem remarks_delimited : Delimited (fun _ : Row => True) (fun row => (row.start, row.accepting))
    remarks := by
  intro a b _ _ rest rest' same
  rw [remarks, remarks] at same
  cases first : a.accepting <;> cases second : a.start <;> cases third : b.accepting <;>
    cases fourth : b.start <;> simp_all

theorem heading_delimited : Delimited (fun _ : Row => True)
    (fun row => (row.label, row.start, row.accepting)) fun row => row.heading.toList := by
  intro a b _ _ rest rest' same
  simp only [toList_heading, List.append_assoc, List.cons_append, List.append_cancel_left_eq,
    List.cons.injEq, true_and] at same
  obtain ⟨label, same⟩ := number_append_inj (a.remarks_no_digit _) (b.remarks_no_digit _) same
  obtain ⟨flags, same⟩ := remarks_delimited a b trivial trivial _ _ same
  exact ⟨Prod.ext label flags, same⟩

theorem transitionLine_delimited :
    Delimited (fun e : Symbol × Nat => e.1.Lettered) id fun e => (transitionLine e).toList := by
  intro e d valid valid' rest rest' same
  simp only [toList_transitionLine, List.append_assoc, List.cons_append, List.nil_append,
    List.append_cancel_left_eq] at same
  obtain ⟨symbol, same⟩ := Symbol.delimited e.1 d.1 valid valid' _ _ same
  simp only [List.append_cancel_left_eq, List.cons.injEq, true_and] at same
  obtain ⟨target, same⟩ := number_append_inj rfl rfl same
  exact ⟨Prod.ext symbol target, (List.cons.inj same).2⟩

theorem node_delimited : Delimited (fun _ : Row => True) (fun row => (row.label, row.accepting))
    fun row => row.node.toList := by
  intro a b _ _ rest rest' same
  simp only [toList_node, List.append_assoc, List.cons_append, List.cons.injEq, true_and] at same
  obtain ⟨label, same⟩ := number_append_inj rfl rfl same
  simp only [label, List.append_cancel_left_eq, List.cons.injEq, true_and] at same
  cases first : a.accepting <;> cases second : b.accepting <;> simp_all

theorem edge_delimited : Delimited (fun e : Nat × Symbol × Nat => e.2.1.Lettered) id
    fun e => (edge e.1 e.2).toList := by
  intro e d valid valid' rest rest' same
  simp only [toList_edge, List.append_assoc, List.cons_append, List.cons.injEq, true_and] at same
  obtain ⟨source, same⟩ := number_append_inj rfl rfl same
  simp only [List.append_cancel_left_eq, List.cons.injEq, true_and] at same
  obtain ⟨target, same⟩ := number_append_inj rfl rfl same
  rw [List.append_cancel_left_eq] at same
  obtain ⟨symbol, same⟩ := Symbol.delimited e.2.1 d.2.1 valid valid' _ _ same
  exact ⟨Prod.ext source (Prod.ext symbol target), List.append_cancel_left same⟩

/-- The symbols of the row are told apart in print. -/
def Lettered (row : Row) : Prop :=
  ∀ e ∈ row.transitions, e.1.Lettered

theorem transitionLine_marked (e : Symbol × Nat) (rest : List Char) :
    [' '] <+: (transitionLine e).toList ++ rest := by
  have begins : [' '] <+: "  Transition: ".toList := by decide
  rw [toList_transitionLine, List.append_assoc]
  exact begins.trans (List.prefix_append _ _)

theorem text_marked (row : Row) (rest : List Char) :
    ['S'] <+: row.text.toList ++ ['\n'] ++ rest := by
  have begins : ['S'] <+: "State: ".toList := by decide
  rw [text, String.toList_append, toList_heading]
  simp only [List.append_assoc]
  exact begins.trans (List.prefix_append _ _)

theorem text_delimited : Delimited Lettered content fun row => row.text.toList ++ ['\n'] := by
  intro a b valid valid' rest rest' same
  simp only [text, String.toList_append, String.toList_join, List.flatMap_map,
    List.append_assoc] at same
  obtain ⟨heading, same⟩ := heading_delimited a b trivial trivial _ _ same
  obtain ⟨transitions, same⟩ := transitionLine_delimited.flatMap ([' '] <+: ·)
    transitionLine_marked valid valid' (by simp) (by simp) same
  simp_all [content]

end Row

namespace Table

open Row

/-- A line end behind the text puts an end to each of the rows alike. -/
theorem exists_toList_text (rows : List Row) : ∃ rest : List Char, ¬ ['S'] <+: rest ∧
    (Table.mk rows).text.toList ++ ['\n'] =
      rows.flatMap (fun row => row.text.toList ++ ['\n']) ++ rest := by
  cases rows with
  | nil => exact ⟨['\n'], by decide, rfl⟩
  | cons row rows =>
      refine ⟨[], by decide, ?_⟩
      rw [List.append_nil]
      induction rows generalizing row with
      | nil => simp [Table.text]
      | cons next rows ih =>
          have later := ih next
          simp only [Table.text, List.map_cons] at later ⊢
          rw [String.intercalate_cons_cons, List.flatMap_cons, ← later]
          simp

theorem content_of_text (valid : ∀ row ∈ rows, row.Lettered) (valid' : ∀ row ∈ others, row.Lettered)
    (same : (Table.mk rows).text = (Table.mk others).text) :
    rows.map content = others.map content := by
  obtain ⟨rest, ends, written⟩ := exists_toList_text rows
  obtain ⟨rest', ends', written'⟩ := exists_toList_text others
  rw [same, written'] at written
  exact (text_delimited.flatMap (['S'] <+: ·) text_marked valid valid' ends ends' written.symm).1

end Table

/-- The rows are labeled by their places, and the first one is the start. -/
structure Legible (rows : List Row) : Prop where
  label : ∀ (i : Nat) (row : Row), rows[i]? = some row → row.label = i
  start_iff : ∀ (i : Nat) (row : Row), rows[i]? = some row → (row.start = true ↔ i = 0)
  lettered : ∀ row ∈ rows, row.Lettered

namespace Row

/-- What the edges of a row tell. -/
def links (row : Row) : List (Nat × Symbol × Nat) :=
  row.transitions.map fun e => (row.label, e)

theorem link_delimited (label : Nat) : Delimited (fun _ : Symbol × Nat => True) id
    fun e => [(label, e)] := by
  intro e d _ _ rest rest' same
  simpa using same

theorem node_marked (row : Row) (rest : List Char) : ['\t', 'q'] <+: row.node.toList ++ rest := by
  rw [toList_node]
  simp only [List.cons_append]
  exact List.prefix_append ['\t', 'q'] _

theorem edge_marked (e : Nat × Symbol × Nat) (rest : List Char) :
    ['\t'] <+: (edge e.1 e.2).toList ++ rest := by
  rw [toList_edge]
  simp only [List.cons_append]
  exact List.prefix_append ['\t'] _

theorem startMark_unmarked (row : Row) (rest : List Char) :
    ¬ ['\t', 'q'] <+: row.startMark.toList ++ rest := by
  have begins : ['\t', 's'] <+: "\tstart [shape = point]\n\tstart -> ".toList := by decide
  rw [toList_startMark, List.append_assoc]
  intro marked
  have same := List.prefix_of_prefix_length_le marked
    (begins.trans (List.prefix_append _ _)) (Nat.le_refl 2)
  exact absurd same (by decide)

theorem startMark_congr (first : rows.head?.map (·.label) = others.head?.map (·.label)) :
    rows.head?.map startMark = others.head?.map startMark := by
  have mark : startMark = (fun label => (startMark { (default : Row) with label })) ∘ label := rfl
  rw [mark, ← Option.map_map, first, Option.map_map]

theorem unmarked_behind_nodes (rows : List Row) : ¬ ['\t', 'q'] <+:
    ((rows.head?.map startMark).getD "").toList ++
      ((rows.flatMap links).flatMap (fun e => (edge e.1 e.2).toList) ++ ['\x7d']) := by
  cases rows with
  | nil => decide
  | cons row rows => exact startMark_unmarked row _

/-- The edges of a row are those from its label. -/
theorem transitions_of_links (labels : rows.map (·.label) = others.map (·.label))
    (distinct : (rows.map (·.label)).Nodup) (same : rows.flatMap links = others.flatMap links) :
    rows.map (·.transitions) = others.map (·.transitions) := by
  have unmarked : ∀ {rows : List Row} {label : Nat}, label ∉ rows.map (·.label) →
      ¬ (rows.flatMap links).head?.map Prod.fst = some label := by
    intro rows label fresh first
    obtain ⟨e, last, rfl⟩ := Option.map_eq_some_iff.mp first
    obtain ⟨row, listed, link⟩ := List.mem_flatMap.mp (List.mem_of_head? last)
    obtain ⟨d, _, rfl⟩ := List.mem_map.mp link
    exact fresh (List.mem_map_of_mem listed)
  -- The links of the first row end where another label begins, since its own does not return.
  induction rows generalizing others with
  | nil =>
      cases others with
      | nil => rfl
      | cons other others => cases labels
  | cons row rows ih =>
      cases others with
      | nil => cases labels
      | cons other others =>
          rw [List.map_cons, List.map_cons, List.cons.injEq] at labels
          rw [List.map_cons, List.nodup_cons] at distinct
          obtain ⟨label, labels⟩ := labels
          obtain ⟨fresh, distinct⟩ := distinct
          rw [List.flatMap_cons, List.flatMap_cons, links, links, label, List.map_eq_flatMap,
            List.map_eq_flatMap] at same
          obtain ⟨transitions, same⟩ := (link_delimited other.label).flatMap
            (fun rest => rest.head?.map Prod.fst = some other.label) (fun _ _ => rfl)
            (by simp) (by simp) (unmarked (label ▸ fresh)) (unmarked (labels ▸ label ▸ fresh)) same
          rw [List.map_id, List.map_id] at transitions
          rw [List.map_cons, List.map_cons, transitions, ih labels distinct same]

end Row

namespace Legible

open Row

variable (legible : Legible rows) (legible' : Legible others)

include legible

theorem links_lettered : ∀ e ∈ rows.flatMap links, e.2.1.Lettered := by
  intro e member
  obtain ⟨row, listed, link⟩ := List.mem_flatMap.mp member
  obtain ⟨d, shown, rfl⟩ := List.mem_map.mp link
  exact legible.lettered row listed d shown

theorem find?_start : rows.find? (·.start) = rows.head? := by
  cases rows with
  | nil => rfl
  | cons row rows => simp [(legible.start_iff 0 row rfl).mpr rfl]

theorem labels : rows.map (·.label) = List.range rows.length := by
  refine List.ext_getElem (by simp) fun i inside inside' => ?_
  rw [List.getElem_map, List.getElem_range]
  exact legible.label i _ (List.getElem?_eq_getElem _)

theorem toList_digraph : (Table.mk rows).digraph.toList = "digraph \x7b\n".toList ++
    (rows.flatMap (fun row => row.node.toList) ++
      (((rows.head?.map startMark).getD "").toList ++
        ((rows.flatMap links).flatMap (fun e => (edge e.1 e.2).toList) ++ ['\x7d']))) := by
  simp only [Table.digraph, legible.find?_start, String.toList_append, String.toList_join,
    List.flatMap_map, List.append_assoc, links, edges, List.flatMap_assoc]
  rfl

theorem content_eq : rows.map content = List.zipWith
    (fun node transitions => (node.1, node.1 == 0, node.2, transitions))
    (rows.map fun row => (row.label, row.accepting)) (rows.map (·.transitions)) := by
  rw [List.zipWith_map, List.zipWith_self]
  refine List.map_congr_left fun row member => ?_
  obtain ⟨i, place⟩ := List.mem_iff_getElem?.mp member
  have start : row.start = (row.label == 0) := by
    rw [Bool.eq_iff_iff, legible.start_iff i row place, legible.label i row place, beq_iff_eq]
  rw [content, start]

include legible'

theorem content_of_digraph (same : (Table.mk rows).digraph = (Table.mk others).digraph) :
    rows.map content = others.map content := by
  have written := congrArg String.toList same
  rw [legible.toList_digraph, legible'.toList_digraph, List.append_cancel_left_eq] at written
  obtain ⟨nodes, written⟩ := node_delimited.flatMap (['\t', 'q'] <+: ·) node_marked
    (by simp) (by simp) (unmarked_behind_nodes rows) (unmarked_behind_nodes others) written
  have labels : rows.map (·.label) = others.map (·.label) := by
    simpa [Function.comp_def] using congrArg (List.map Prod.fst) nodes
  have mark : rows.head?.map startMark = others.head?.map startMark := by
    have first := congrArg List.head? labels
    rw [List.head?_map, List.head?_map] at first
    exact startMark_congr first
  rw [mark, List.append_cancel_left_eq] at written
  obtain ⟨links, _⟩ := edge_delimited.flatMap (['\t'] <+: ·) edge_marked
    legible.links_lettered legible'.links_lettered (by simp) (by simp) written
  rw [List.map_id, List.map_id] at links
  have distinct : (rows.map (·.label)).Nodup := by
    rw [legible.labels]
    exact List.nodup_range
  rw [legible.content_eq, legible'.content_eq, nodes, transitions_of_links labels distinct links]

end Legible

/-- The row without the place of its state. -/
def Row.unplaced (row : Row) : Row :=
  { row with state := 0 }

theorem map_unplaced (same : rows.map Row.content = others.map Row.content) :
    rows.map Row.unplaced = others.map Row.unplaced := by
  have unplaced : Row.unplaced = (fun (label, start, accepting, transitions) =>
      { state := 0, label, start, accepting, transitions }) ∘ Row.content := rfl
  rw [unplaced, ← List.map_map, same, List.map_map]

theorem Table.text_unplaced (rows : List Row) :
    (Table.mk (rows.map Row.unplaced)).text = (Table.mk rows).text := by
  rw [text, text, List.map_map]
  rfl

theorem Table.digraph_unplaced (rows : List Row) :
    (Table.mk (rows.map Row.unplaced)).digraph = (Table.mk rows).digraph := by
  rw [digraph, digraph, List.find?_map, Option.map_map, List.map_map, List.map_map]
  rfl

theorem text_eq_iff (valid : ∀ row ∈ rows, row.Lettered) (valid' : ∀ row ∈ others, row.Lettered) :
    (Table.mk rows).text = (Table.mk others).text ↔
      rows.map Row.content = others.map Row.content := by
  refine ⟨Table.content_of_text valid valid', fun same => ?_⟩
  rw [← Table.text_unplaced, map_unplaced same, Table.text_unplaced]

theorem digraph_eq_iff (legible : Legible rows) (legible' : Legible others) :
    (Table.mk rows).digraph = (Table.mk others).digraph ↔
      rows.map Row.content = others.map Row.content := by
  refine ⟨legible.content_of_digraph legible', fun same => ?_⟩
  rw [← Table.digraph_unplaced, map_unplaced same, Table.digraph_unplaced]

end RegexAutomaton
