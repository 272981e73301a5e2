import ErDiagram.Proofs.Naming
import ErDiagram.Proofs.Quoting
import ErDiagram.Report

/-!
The columns of the text report. Each column starts at one character position in all lines, behind the
widest cells of the columns before it with two blanks each, and nothing but blanks stands between the
cells of a line or behind them.
-/

namespace ErDiagram.Report

/-! ### Widths -/

/-- The number of characters of the widest cell of a column. -/
def widest (rows : List (List String)) (column : Nat) : Nat :=
  (rows.map fun cells => (cells.getD column "").length).foldr max 0

/-- The character position that a column starts at: the widest cells of the columns before it, with two
blanks each. -/
def columnStart (rows : List (List String)) (column : Nat) : Nat :=
  ((List.range column).map fun earlier => widest rows earlier + 2).sum

theorem widest_cons (cells : List String) (rows : List (List String)) (column : Nat) :
    widest (cells :: rows) column = max (cells.getD column "").length (widest rows column) :=
  rfl

theorem length_le_widest {cells : List String} {rows : List (List String)} (h : cells ∈ rows)
    (column : Nat) : (cells.getD column "").length ≤ widest rows column := by
  induction rows with
  | nil => cases h
  | cons first rows ih =>
      rw [widest_cons]
      rcases List.mem_cons.1 h with rfl | hrest
      · exact Nat.le_max_left _ _
      · exact Nat.le_trans (ih hrest) (Nat.le_max_right _ _)

/-- Going through the rows, each width becomes that of the widest cell so far. -/
theorem foldl_widths {count : Nat} {rows : List (List String)}
    (hrows : ∀ cells ∈ rows, cells.length = count) {start : List Nat} (hstart : start.length = count) :
    rows.foldl (fun widths cells => List.zipWith max widths (cells.map String.length)) start =
      (List.range count).map fun column => max (start.getD column 0) (widest rows column) := by
  induction rows generalizing start with
  | nil =>
      rw [List.foldl_nil]
      refine List.ext_getElem (by simp [hstart]) fun column hcolumn hrange => ?_
      simp [widest, List.getElem?_eq_getElem hcolumn]
  | cons cells rows ih =>
      obtain ⟨hcells, hrows⟩ := List.forall_mem_cons.1 hrows
      have hlength : (List.zipWith max start (cells.map String.length)).length = count := by
        simp [hstart, hcells]
      rw [List.foldl_cons, ih hrows hlength]
      refine List.map_congr_left fun column hcolumn => ?_
      have hlt := List.mem_range.1 hcolumn
      have hfirst : (List.zipWith max start (cells.map String.length)).getD column 0 =
          max (start.getD column 0) (cells.getD column "").length := by
        simp [List.getD_eq_getElem?_getD, hstart, hcells, hlt]
      rw [hfirst, widest_cons, Nat.max_assoc]

theorem length_of_mem_table {graph : Graph} {cells : List String} (h : cells ∈ table graph) :
    cells.length = header.length := by
  rcases List.mem_cons.1 h with rfl | hrow
  · rfl
  · obtain ⟨node, -, rfl⟩ := List.mem_map.1 hrow
    exact length_row node

/-- The widths of a table are those of the widest cells. -/
theorem widths_table (graph : Graph) :
    widths (table graph) = (List.range header.length).map (widest (table graph)) := by
  rw [widths, foldl_widths (fun cells => length_of_mem_table) (List.length_map _)]
  refine List.map_congr_left fun column hcolumn => ?_
  simp [List.getD_eq_getElem?_getD, List.mem_range.1 hcolumn]

/-! ### Lines -/

section

variable {width : Nat} {widths : List Nat} {cell next : String} {cells : List String}

theorem toList_line_cons : (line (width :: widths) (cell :: next :: cells)).toList =
    cell.toList ++ (List.replicate (width - cell.length + 2) ' ' ++
      (line widths (next :: cells)).toList) := by
  have htwo : ("  " : String).toList = List.replicate 2 ' ' := rfl
  rw [line, pad, String.toList_append, String.toList_append, String.toList_append,
    String.toList_ofList, htwo, List.replicate_add]
  simp only [List.append_assoc]

theorem toList_line_last (widths : List Nat) (cell : String) :
    (line widths [cell]).toList = cell.toList := by
  cases widths <;> simp [line]

/-- The cells of a row fit the widths of the columns. -/
abbrev Fits (widths : List Nat) (cells : List String) : Prop :=
  List.Forall₂ (fun width cell => cell.length ≤ width) widths cells

/-- From the start of a column on, a line is the line of the columns from there on. -/
theorem drop_line (hfits : Fits widths cells) {column : Nat} (hcolumn : column < cells.length) :
    (line widths cells).toList.drop ((widths.take column).map (· + 2)).sum =
      (line (widths.drop column) (cells.drop column)).toList := by
  induction hfits generalizing column with
  | nil => cases hcolumn
  | @cons width cell widths cells hfirst hrest ih =>
      cases column with
      | zero => rfl
      | succ column =>
          have hlt := Nat.lt_of_succ_lt_succ hcolumn
          obtain ⟨next, cells, rfl⟩ : ∃ next more, cells = next :: more :=
            List.exists_cons_of_length_pos (Nat.lt_of_le_of_lt (Nat.zero_le _) hlt)
          have hlength : (cell.toList ++ List.replicate (width - cell.length + 2) ' ').length =
              width + 2 := by
            rw [List.length_append, List.length_replicate, String.length_toList]
            omega
          rw [List.take_succ_cons, List.map_cons, List.sum_cons, toList_line_cons, ← List.append_assoc,
            ← List.drop_drop, List.drop_left' hlength, ih hlt]
          rfl

end

/-! ### Cells -/

def EndsVisibly (text : String) : Prop :=
  ∃ c ∈ text.toList.getLast?, isWhiteSpace c = false

theorem EndsVisibly.toList_ne_nil {text : String} (h : EndsVisibly text) : text.toList ≠ [] := by
  intro hnil
  obtain ⟨c, hc, -⟩ := h
  rw [hnil] at hc
  cases hc

theorem EndsVisibly.append (front : String) {back : String} (h : EndsVisibly back) :
    EndsVisibly (front ++ back) := by
  obtain ⟨c, hc, hspace⟩ := id h
  refine ⟨c, ?_, hspace⟩
  rwa [String.toList_append, List.getLast?_append_of_ne_nil _ h.toList_ne_nil]

/-- Where no white space stands at the end, there is nothing to trim. -/
theorem EndsVisibly.trimEnd_eq {text : String} (h : EndsVisibly text) : trimEnd text = text := by
  obtain ⟨c, hc, hspace⟩ := h
  obtain ⟨front, hfront⟩ := List.getLast?_eq_some_iff.1 (Option.mem_def.1 hc)
  have hkept : text.toList.reverse.dropWhile isWhiteSpace = text.toList.reverse := by
    rw [hfront, List.reverse_append, List.reverse_singleton, List.singleton_append,
      List.dropWhile_cons_of_neg (by simp [hspace])]
  rw [trimEnd, hkept, List.reverse_reverse, String.ofList_toList]

/-- The text of a line shows a row of a table: every cell starts where its column does, only blanks stand
between two cells, and the line ends with the last cell and not in white space. -/
structure Shows (rows : List (List String)) (cells : List String) (text : List Char) : Prop where
  column : ∀ column cell, cells[column]? = some cell →
    ∃ behind, text.drop (columnStart rows column) = cell.toList ++ behind
  blank : ∀ column cell position, cells[column]? = some cell → column + 1 < cells.length →
    columnStart rows column + cell.length ≤ position → position < columnStart rows (column + 1) →
      text[position]? = some ' '
  last : ∀ column cell, cells[column]? = some cell → column + 1 = cells.length →
    text.length = columnStart rows column + cell.length
  trimmed : ∀ c ∈ text.getLast?, isWhiteSpace c = false

theorem columnStart_succ (rows : List (List String)) (column : Nat) :
    columnStart rows (column + 1) = columnStart rows column + (widest rows column + 2) := by
  rw [columnStart, List.range_succ, List.map_append, List.sum_append]
  simp [columnStart]

/-- A last cell that does not end in white space, and so is not empty. -/
def IsTrimmed (cells : List String) : Prop :=
  ∃ cell ∈ cells.getLast?, EndsVisibly cell

/-- A line ends as its last cell does, so it is not trimmed. -/
theorem endsVisibly_line (widths : List Nat) {cells : List String} (h : IsTrimmed cells) :
    EndsVisibly (line widths cells) := by
  fun_induction line widths cells with
  | case1 width widths cell next cells ih =>
      refine EndsVisibly.append _ (ih ?_)
      rwa [IsTrimmed, List.getLast?_cons_cons] at h
  | case2 widths cells =>
      obtain ⟨last, hlast, hends⟩ := h
      obtain ⟨front, rfl⟩ := List.getLast?_eq_some_iff.1 (Option.mem_def.1 hlast)
      have hjoin : String.join (front ++ [last]) = String.join front ++ last := by
        rw [← String.toList_inj]
        simp [String.toList_join]
      rw [hjoin]
      exact hends.append _

/-- The line of a row of a table: its columns are as wide as the widest cells of the table. -/
def rowLine (rows : List (List String)) (cells : List String) : List Char :=
  (line ((List.range cells.length).map (widest rows)) cells).toList

section

variable {rows : List (List String)} {cells : List String}

/-- From the start of a column on, the line of a row is the line of its cells from there on, with the
widths of their columns. -/
theorem drop_line_columnStart (hmem : cells ∈ rows) {column : Nat} (hcolumn : column < cells.length) :
    (rowLine rows cells).drop (columnStart rows column) =
      (line (((List.range cells.length).map (widest rows)).drop column) (cells.drop column)).toList := by
  have hfits : Fits ((List.range cells.length).map (widest rows)) cells := by
    refine List.forall₂_iff_get.2 ⟨by simp, fun k hk hk' => ?_⟩
    have hle := length_le_widest hmem k
    simpa [List.getD_eq_getElem?_getD, List.getElem?_eq_getElem hk'] using hle
  have hstart : (((List.range cells.length).map (widest rows)).take column).map (· + 2) =
      (List.range column).map fun earlier => widest rows earlier + 2 := by
    rw [← List.map_take, List.take_range, Nat.min_eq_left (Nat.le_of_lt hcolumn), List.map_map]
    rfl
  rw [rowLine, ← drop_line hfits hcolumn, hstart, columnStart]

variable {column : Nat} {cell : String}

theorem drop_line_next (hmem : cells ∈ rows) (hcell : cells[column]? = some cell)
    (hnext : column + 1 < cells.length) :
    ∃ behind, (rowLine rows cells).drop (columnStart rows column) =
      cell.toList ++ (List.replicate (widest rows column - cell.length + 2) ' ' ++ behind) := by
  obtain ⟨hcolumn, hget⟩ := List.getElem?_eq_some_iff.1 hcell
  rw [drop_line_columnStart hmem hcolumn, List.drop_eq_getElem_cons hcolumn, hget,
    List.drop_eq_getElem_cons hnext, List.drop_eq_getElem_cons (by simpa using hcolumn),
    toList_line_cons, List.getElem_map, List.getElem_range]
  exact ⟨_, rfl⟩

theorem drop_line_last (hmem : cells ∈ rows) (hcell : cells[column]? = some cell)
    (hlast : column + 1 = cells.length) :
    (rowLine rows cells).drop (columnStart rows column) = cell.toList := by
  obtain ⟨hcolumn, hget⟩ := List.getElem?_eq_some_iff.1 hcell
  rw [drop_line_columnStart hmem hcolumn, List.drop_eq_getElem_cons hcolumn, hget,
    List.drop_of_length_le (Nat.le_of_eq hlast.symm), toList_line_last]

theorem shows_line (hmem : cells ∈ rows) (htrimmed : IsTrimmed cells) :
    Shows rows cells (rowLine rows cells) := by
  obtain ⟨final, hfinal, hends⟩ := id htrimmed
  have hlast : ∀ column, column + 1 = cells.length → cells[column]? = some final := by
    intro column hlast
    rw [← hfinal, List.getLast?_eq_getElem?, ← hlast, Nat.add_sub_cancel]
  constructor
  case column =>
    intro column cell hcell
    obtain ⟨hcolumn, -⟩ := List.getElem?_eq_some_iff.1 hcell
    by_cases hnext : column + 1 < cells.length
    · obtain ⟨behind, hdrop⟩ := drop_line_next hmem hcell hnext
      exact ⟨_, hdrop⟩
    · exact ⟨[], by rw [drop_line_last hmem hcell (by omega), List.append_nil]⟩
  case blank =>
    intro column cell position hcell hnext hge hlt
    obtain ⟨behind, hdrop⟩ := drop_line_next hmem hcell hnext
    obtain ⟨offset, rfl⟩ := Nat.exists_eq_add_of_le hge
    have hwidest := length_le_widest hmem column
    rw [List.getD_eq_getElem?_getD, hcell, Option.getD_some] at hwidest
    rw [columnStart_succ] at hlt
    have hoffset : offset < widest rows column - cell.length + 2 := by omega
    rw [Nat.add_assoc, ← List.getElem?_drop, hdrop, ← String.length_toList,
      List.getElem?_append_right (Nat.le_add_right _ _), Nat.add_sub_cancel_left,
      String.length_toList, List.getElem?_append_left (by rwa [List.length_replicate]),
      List.getElem?_replicate, if_pos hoffset]
  case last =>
    intro column cell hcell hcolumn
    have hdrop := congrArg List.length (drop_line_last hmem hcell hcolumn)
    obtain rfl := Option.some.inj (hcell.symm.trans (hlast column hcolumn))
    have hpos := List.length_pos_iff.2 hends.toList_ne_nil
    have hlength : cell.toList.length = cell.length := String.length_toList
    rw [List.length_drop] at hdrop
    omega
  case trimmed =>
    intro d hd
    obtain ⟨c, hc, hspace⟩ := endsVisibly_line ((List.range cells.length).map (widest rows)) htrimmed
    obtain rfl := Option.some.inj (hd.symm.trans hc)
    exact hspace

end

/-! ### Texts of cells -/

theorem endsVisibly_repr (n : Nat) : EndsVisibly n.repr := by
  have hne : n.repr.toList ≠ [] := by
    rw [Nat.toList_repr]
    exact Nat.toDigits_ne_nil
  exact ⟨_, List.getLast?_eq_some_getLast hne,
    isWhiteSpace_of_isDigit (isDigit_of_mem_repr (List.getLast_mem hne))⟩

theorem endsVisibly_bound (bound : Bound) : EndsVisibly bound.text := by
  cases bound with
  | count n => exact endsVisibly_repr _
  | many => exact ⟨'N', rfl, by decide⟩

theorem endsVisibly_hierarchyType (type : HierarchyType) : EndsVisibly type.text := by
  obtain ⟨subset, total, exclusive⟩ := type
  cases subset with
  | true => exact show EndsVisibly "subset" from ⟨'t', rfl, by decide⟩
  | false =>
      refine EndsVisibly.append _ ?_
      cases exclusive with
      | true => exact show EndsVisibly "exclusive" from ⟨'e', rfl, by decide⟩
      | false => exact show EndsVisibly "overlapped" from ⟨'d', rfl, by decide⟩

theorem endsVisibly_detailsCell (node : Node) : EndsVisibly (detailsCell node) := by
  rw [detailsCell]
  split
  · exact .append _ (.append _ (endsVisibly_bound _))
  · exact .append _ (endsVisibly_hierarchyType _)
  · exact ⟨'e', rfl, by decide⟩

theorem isTrimmed_of_mem_table {graph : Graph} {cells : List String} (h : cells ∈ table graph) :
    IsTrimmed cells := by
  rcases List.mem_cons.1 h with rfl | hrow
  · exact ⟨"Additional information", rfl, 'n', rfl, by decide⟩
  · obtain ⟨node, -, rfl⟩ := List.mem_map.1 hrow
    exact ⟨detailsCell node, rfl, endsVisibly_detailsCell node⟩

/-! No cell has a line feed in it. -/

/-- The numbers of a list of links, and what stands between them. -/
theorem mem_intercalate_repr {links : List Nat} {c : Char}
    (h : c ∈ (", ".intercalate (links.map Nat.repr)).toList) : c.isDigit ∨ c = ',' ∨ c = ' ' := by
  rw [String.toList_intercalate] at h
  induction links with
  | nil => cases h
  | cons first links ih =>
      cases links with
      | nil =>
          rw [List.map_singleton, List.map_singleton, List.intercalate_singleton] at h
          exact Or.inl (isDigit_of_mem_repr h)
      | cons second links =>
          simp only [List.map_cons, List.intercalate_cons_cons, List.append_assoc,
            List.mem_append] at h
          rcases h with hdigit | hbetween | hrest
          · exact Or.inl (isDigit_of_mem_repr hdigit)
          · exact Or.inr (by simpa using hbetween)
          · exact ih hrest

theorem isLine_linksCell (links : List Nat) : IsLine (linksCell links) := by
  rw [linksCell]
  split
  · decide
  · have hline : IsLine (", ".intercalate (links.map Nat.repr)) := fun hmem => by
      rcases mem_intercalate_repr hmem with h | h | h <;> cases h
    exact ((show IsLine "[" by decide).append hline).append (by decide)

theorem isLine_bound (bound : Bound) : IsLine bound.text := by
  cases bound with
  | count n => exact isLine_repr _
  | many => decide

theorem isLine_hierarchyType (type : HierarchyType) : IsLine type.text := by
  obtain ⟨subset, total, exclusive⟩ := type
  cases subset <;> cases total <;> cases exclusive <;> decide

theorem isLine_detailsCell (node : Node) : IsLine (detailsCell node) := by
  rw [detailsCell]
  split
  · have hcolon : IsLine ":" := by decide
    exact (show IsLine "Cardinality values: " by decide).append
      (((isLine_bound _).append hcolon).append (isLine_bound _))
  · exact (show IsLine "Gerarchy type: " by decide).append (isLine_hierarchyType _)
  · decide

theorem isLine_of_mem_row {node : Node} (hname : IsLine node.name) :
    ∀ cell ∈ row node, IsLine cell := by
  intro cell hcell
  simp only [row, List.mem_cons, List.not_mem_nil, or_false] at hcell
  rcases hcell with rfl | rfl | rfl | rfl | rfl
  · exact isLine_repr _
  · exact hname
  · exact node.kind.isLine_text
  · exact isLine_linksCell _
  · exact isLine_detailsCell _

theorem isLine_of_mem_table {graph : Graph} (hnames : ∀ node ∈ graph.nodes, IsLine node.name)
    {cells : List String} (h : cells ∈ table graph) : ∀ cell ∈ cells, IsLine cell := by
  rcases List.mem_cons.1 h with rfl | hrow
  · decide
  · obtain ⟨node, hnode, rfl⟩ := List.mem_map.1 hrow
    exact isLine_of_mem_row (hnames node hnode)

theorem isLine_line {widths : List Nat} {cells : List String} (h : ∀ cell ∈ cells, IsLine cell) :
    IsLine (line widths cells) := by
  fun_induction line widths cells with
  | case1 width widths cell next cells ih =>
      obtain ⟨hcell, hcells⟩ := List.forall_mem_cons.1 h
      have hpad : IsLine (pad width cell) := by
        refine hcell.append fun hmem => ?_
        rw [String.toList_ofList] at hmem
        cases List.eq_of_mem_replicate hmem
      exact (hpad.append (by decide)).append (ih hcells)
  | case2 widths cells =>
      intro hmem
      rw [String.toList_join, List.mem_flatMap] at hmem
      obtain ⟨cell, hcell, hmem⟩ := hmem
      exact h cell hcell hmem

/-! ### Reports -/

/-- A text is a table of a graph: lines that are ended each by a line feed, first one for the header
and then one for each node by ascending id, which show their cells in columns. -/
structure Aligned (graph : Graph) (lines : List (List Char)) (text : String) : Prop where
  text : text.toList = lines.flatMap (· ++ ['\n'])
  line : ∀ line ∈ lines, '\n' ∉ line
  length : lines.length = graph.size + 1
  ascending : graph.ids.Pairwise (· < ·)
  shown : List.Forall₂ (Shows (table graph)) (header :: graph.nodes.map row) lines

def linesOf (graph : Graph) : List (List Char) :=
  (table graph).map fun cells => (line (widths (table graph)) cells).toList

theorem toList_render (graph : Graph) :
    (render graph).toList = (linesOf graph).flatMap (· ++ ['\n']) := by
  have htrimmed : (table graph).map (fun cells => trimEnd (line (widths (table graph)) cells) ++ "\n") =
      (table graph).map fun cells => line (widths (table graph)) cells ++ "\n" :=
    List.map_congr_left fun cells hcells => by
      rw [(endsVisibly_line _ (isTrimmed_of_mem_table hcells)).trimEnd_eq]
  show (String.join ((table graph).map _)).toList = _
  rw [htrimmed, String.toList_join, linesOf, List.flatMap_map, List.flatMap_map]
  exact List.flatMap_congr fun cells _ => String.toList_append

/-- The report of a graph is aligned if no name has a line feed in it. -/
theorem aligned_render {graph : Graph} (hnames : ∀ node ∈ graph.nodes, IsLine node.name) :
    Aligned graph (linesOf graph) (render graph) where
  text := toList_render graph
  line line hline := by
    obtain ⟨cells, hcells, rfl⟩ := List.mem_map.1 hline
    exact isLine_line (isLine_of_mem_table hnames hcells)
  length := by simp [linesOf, table, Graph.size]
  ascending := List.pairwise_map.2 graph.ascending
  shown := by
    rw [linesOf, widths_table]
    refine List.forall₂_map_right_iff.2 (List.forall₂_same.2 fun cells hcells => ?_)
    have hshows := shows_line hcells (isTrimmed_of_mem_table hcells)
    rwa [rowLine, length_of_mem_table hcells] at hshows

end ErDiagram.Report
