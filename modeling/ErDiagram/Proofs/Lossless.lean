import ErDiagram.Proofs.Columns
import ErDiagram.Proofs.Outcomes
import ErDiagram.Proofs.Restoring

/-!
The text report of a graph tells all that there is to know of it. Although the widths of the columns
depend on all rows at once, each cell but the last shows where it ends: numbers, names and kinds have
no blanks in them, and a list of links ends with its bracket. So the cells of a line can be told from
the line alone, and the node from its cells.
-/

namespace ErDiagram.Report

/-! ### Cells told from a line -/

section

variable {front front' text text' : List Char}

/-- Behind blanks, a text begins at the first character that is none. -/
theorem eq_of_blanks {count count' : Nat} (hstart : text.head? ≠ some ' ')
    (hstart' : text'.head? ≠ some ' ')
    (h : List.replicate count ' ' ++ text = List.replicate count' ' ' ++ text') : text = text' := by
  have hdrop {count : Nat} {text : List Char} (hstart : text.head? ≠ some ' ') :
      (List.replicate count ' ' ++ text).dropWhile (· == ' ') = text := by
    rw [List.dropWhile_append_of_pos (by simp)]
    cases text with
    | nil => rfl
    | cons c text =>
        have hne : c ≠ ' ' := fun heq => hstart (congrArg some heq)
        rw [List.dropWhile_cons_of_neg (by simpa using hne)]
  rw [← hdrop hstart, h, hdrop hstart']

/-- A cell without blanks ends at the first blank. -/
theorem eq_of_blank {count count' : Nat} (hfront : ' ' ∉ front) (hfront' : ' ' ∉ front')
    (hstart : text.head? ≠ some ' ') (hstart' : text'.head? ≠ some ' ')
    (h : front ++ (List.replicate (count + 1) ' ' ++ text) =
      front' ++ (List.replicate (count' + 1) ' ' ++ text')) : front = front' ∧ text = text' := by
  rw [List.replicate_succ, List.replicate_succ, List.cons_append, List.cons_append] at h
  obtain ⟨hcell, hrest⟩ := append_stop_inj hfront hfront' h
  exact ⟨hcell, eq_of_blanks hstart hstart' hrest⟩

end

/-! ### Links -/

/-- A list of links ends with its first closing bracket. -/
theorem toList_linksCell (links : List Nat) :
    ∃ inner, (linksCell links).toList = inner ++ [']'] ∧ ']' ∉ inner := by
  rw [linksCell]
  split
  · exact ⟨"[None".toList, rfl, by decide⟩
  · refine ⟨'[' :: (", ".intercalate (links.map Nat.repr)).toList, by simp, ?_⟩
    intro hmem
    rcases List.mem_cons.1 hmem with hbracket | hmem
    · exact absurd hbracket (by decide)
    · rcases mem_intercalate_repr hmem with h | h | h <;> exact absurd h (by decide)

/-- A list of links without its brackets is read back. -/
theorem readBracketed_links {links : List Nat} (hne : links ≠ []) {budget : Nat}
    (hbudget : links.length ≤ budget) : Json.readBracketed ']' Json.readNumber budget
      (' ' :: ((", ".intercalate (links.map Nat.repr)).toList ++ [']'])) = some (links, []) := by
  obtain ⟨first, rest, rfl⟩ := List.exists_cons_of_ne_nil hne
  have hnumber : ∀ n ∈ first :: rest, Json.ReadsAs Json.readNumber n.repr.toList n := fun n _ =>
    ⟨Json.startsValue_repr n, fun _ => Json.readNumber_repr n⟩
  have hblank : ∀ c ∈ [' '], Json.isSpace c := List.all_eq_true.1 (by decide)
  have hnone : ∀ c ∈ ([] : List Char), Json.isSpace c := nofun
  have hread : Json.readBracketed ']' Json.readNumber budget
      ([' '] ++ ((',' :: [' ']).intercalate ((first :: rest).map fun n => n.repr.toList) ++
        ([] ++ [']']))) = some (first :: rest, []) :=
    Json.readBracketed_intercalate (.inl rfl) hblank hnone _ hnumber hbudget []
  rw [String.toList_intercalate, List.map_map]
  exact hread

theorem linksCell_of_ne {links : List Nat} (h : links ≠ []) :
    (linksCell links).toList = '[' :: ((", ".intercalate (links.map Nat.repr)).toList ++ [']']) := by
  rw [linksCell, if_neg h]
  simp

/-- No list of links is shown like the empty one. -/
theorem linksCell_ne_none {links : List Nat} (h : links ≠ []) : linksCell links ≠ "[None]" := by
  intro heq
  have htext := (linksCell_of_ne h).symm.trans (congrArg String.toList heq)
  have hmem : 'N' ∈ (", ".intercalate (links.map Nat.repr)).toList ++ [']'] := by
    rw [(List.cons.inj htext).2]
    decide
  rcases List.mem_append.1 hmem with hmem | hmem
  · rcases mem_intercalate_repr hmem with h | h | h <;> exact absurd h (by decide)
  · cases List.mem_singleton.1 hmem

/-- Links are told from the cell that lists them. -/
theorem linksCell_injective {links links' : List Nat} (h : linksCell links = linksCell links') :
    links = links' := by
  by_cases hnil : links = []
  · by_contra hne
    subst hnil
    exact linksCell_ne_none (Ne.symm hne) h.symm
  by_cases hnil' : links' = []
  · subst hnil'
    exact absurd h (linksCell_ne_none hnil)
  have htext := congrArg String.toList h
  rw [linksCell_of_ne hnil, linksCell_of_ne hnil'] at htext
  have hread := readBracketed_links hnil (Nat.le_max_left links.length links'.length)
  rw [(List.cons.inj htext).2, readBracketed_links hnil' (Nat.le_max_right _ _)] at hread
  exact (Prod.mk.inj (Option.some.inj hread)).1.symm

/-! ### Details -/

theorem text_cardinality_injective {cardinality cardinality' : Cardinality}
    (h : cardinality.text = cardinality'.text) : cardinality = cardinality' := by
  have hread := cardinality.ofString_text
  rw [h, cardinality'.ofString_text] at hread
  exact (Except.ok.inj hread).symm

theorem text_hierarchyType_injective {type type' : HierarchyType} (hcanonical : type.IsCanonical)
    (hcanonical' : type'.IsCanonical) (h : type.text = type'.text) : type = type' := by
  have hread := HierarchyType.ofString_text_iff.2 hcanonical
  rw [h, HierarchyType.ofString_text_iff.2 hcanonical'] at hread
  exact (Except.ok.inj hread).symm

/-- A node with all that its kind calls for has a cardinality, a classification, or neither. -/
inductive DetailsOf (node : Node) : Prop where
  | cardinality {cardinality : Cardinality} (hcardinality : node.cardinality = some cardinality)
    (htype : node.hierarchyType = none)
    (hcell : detailsCell node = "Cardinality values: " ++ cardinality.text) : DetailsOf node
  | type {type : HierarchyType} (hcardinality : node.cardinality = none)
    (htype : node.hierarchyType = some type) (hcanonical : type.IsCanonical)
    (hcell : detailsCell node = "Gerarchy type: " ++ type.text) : DetailsOf node
  | none (hcardinality : node.cardinality = none) (htype : node.hierarchyType = none)
    (hcell : detailsCell node = "None") : DetailsOf node

theorem detailsOf_of_detailed {node : Node} (h : node.Detailed) : DetailsOf node := by
  cases hcardinality : node.cardinality with
  | some cardinality =>
      have hnone : node.hierarchyType = none := by
        by_contra hsome
        have hkind := (h.hierarchyType (Option.isSome_iff_ne_none.2 hsome)).1
        rcases h.cardinality (by rw [hcardinality, Option.isSome_some]) with hcard | hattr
        · rw [hkind] at hcard
          cases hcard
        · rw [hkind] at hattr
          cases hattr
      exact .cardinality hcardinality hnone (by rw [detailsCell, hcardinality])
  | none =>
      cases htype : node.hierarchyType with
      | some type =>
          exact .type hcardinality htype (h.isCanonical htype)
            (by rw [detailsCell, hcardinality, htype])
      | none => exact .none hcardinality htype (by rw [detailsCell, hcardinality, htype])

/-- Details are told from the cell that shows them. -/
theorem detailsCell_injective {node node' : Node} (hdetails : DetailsOf node)
    (hdetails' : DetailsOf node') (h : detailsCell node = detailsCell node') :
    node.cardinality = node'.cardinality ∧ node.hierarchyType = node'.hierarchyType := by
  cases hdetails with
  | cardinality hcardinality htype hcell =>
      cases hdetails' with
      | cardinality hcardinality' htype' hcell' =>
          rw [hcell, hcell', String.append_right_inj] at h
          rw [hcardinality, hcardinality', htype, htype', text_cardinality_injective h]
          exact ⟨rfl, rfl⟩
      | type _ _ _ hcell' | none _ _ hcell' =>
          rw [hcell, hcell'] at h
          exact absurd (congrArg (fun cell => cell.toList.head?) h) (by simp)
  | type hcardinality htype hcanonical hcell =>
      cases hdetails' with
      | type hcardinality' htype' hcanonical' hcell' =>
          rw [hcell, hcell', String.append_right_inj] at h
          rw [hcardinality, hcardinality', htype, htype',
            text_hierarchyType_injective hcanonical hcanonical' h]
          exact ⟨rfl, rfl⟩
      | cardinality _ _ hcell' | none _ _ hcell' =>
          rw [hcell, hcell'] at h
          exact absurd (congrArg (fun cell => cell.toList.head?) h) (by simp)
  | none hcardinality htype hcell =>
      cases hdetails' with
      | none hcardinality' htype' hcell' =>
          rw [hcardinality, hcardinality', htype, htype']
          exact ⟨rfl, rfl⟩
      | cardinality _ _ hcell' | type _ _ _ hcell' =>
          rw [hcell, hcell'] at h
          exact absurd (congrArg (fun cell => cell.toList.head?) h) (by simp)

/-! ### Rows -/

def StartsVisibly (text : List Char) : Prop :=
  ∃ c ∈ text.head?, c ≠ ' '

theorem StartsVisibly.append {text : List Char} (h : StartsVisibly text) (rest : List Char) :
    (text ++ rest).head? ≠ some ' ' := by
  obtain ⟨c, hc, hne⟩ := h
  rw [List.head?_append, hc]
  exact fun heq => hne (Option.some.inj heq)

theorem StartsVisibly.head?_ne {text : List Char} (h : StartsVisibly text) :
    text.head? ≠ some ' ' := by
  have happend := h.append []
  rwa [List.append_nil] at happend

theorem not_mem_repr {n : Nat} {c : Char} (h : c.isDigit = false) : c ∉ n.repr.toList := by
  intro hmem
  rw [isDigit_of_mem_repr hmem] at h
  cases h

theorem startsVisibly_of_isWord {text : String} (h : IsWord text) : StartsVisibly text.toList := by
  obtain ⟨c, rest, htext⟩ := List.exists_cons_of_ne_nil h.1
  rw [htext]
  exact ⟨c, rfl, fun heq => h.not_mem (c := ' ') rfl (by simp [htext, heq])⟩

theorem startsVisibly_linksCell (links : List Nat) : StartsVisibly (linksCell links).toList := by
  by_cases hnil : links = []
  · rw [linksCell, if_pos hnil]
    exact ⟨'[', rfl, by decide⟩
  · rw [linksCell_of_ne hnil]
    exact ⟨'[', rfl, by decide⟩

theorem startsVisibly_detailsCell (node : Node) : StartsVisibly (detailsCell node).toList := by
  rw [detailsCell]
  split
  · exact ⟨'C', by simp, by decide⟩
  · exact ⟨'G', by simp, by decide⟩
  · exact ⟨'N', rfl, by decide⟩

theorem isWord_kind (kind : Node.Kind) : IsWord kind.text := by
  cases kind <;> decide

theorem repr_injective {m n : Nat} (h : m.repr = n.repr) : m = n := by
  have hread (k : Nat) : Json.readNumber (k.repr.toList ++ []) = some (k, []) :=
    Json.readNumber_repr k (by simp)
  have hm := hread m
  rw [h, hread n] at hm
  exact (Prod.mk.inj (Option.some.inj hm)).1.symm

theorem text_kind_injective {kind kind' : Node.Kind} (h : kind.text = kind'.text) : kind = kind' := by
  have hread := kind.ofText?_text
  rw [h, kind'.ofText?_text] at hread
  exact (Option.some.inj hread).symm

/-- The line of a row, in columns of any widths: its cells with blanks between them. -/
theorem toList_line_row (width : Nat → Nat) (node : Node) : ∃ first second third fourth : Nat,
    (line ((List.range header.length).map width) (row node)).toList =
      node.id.repr.toList ++ (List.replicate (first + 1) ' ' ++
        (node.name.toList ++ (List.replicate (second + 1) ' ' ++
          (node.kind.text.toList ++ (List.replicate (third + 1) ' ' ++
            ((linksCell node.links).toList ++ (List.replicate (fourth + 1) ' ' ++
              (detailsCell node).toList))))))) := by
  have hwidths : (List.range header.length).map width =
      [width 0, width 1, width 2, width 3, width 4] := rfl
  rw [hwidths, row, toList_line_cons, toList_line_cons, toList_line_cons, toList_line_cons,
    toList_line_last]
  exact ⟨_, _, _, _, rfl⟩

/-- A node is told from its line, whatever the widths of the columns are. -/
theorem eq_of_line {node node' : Node} (hdetailed : node.Detailed) (hdetailed' : node'.Detailed)
    (hname : IsWord node.name) (hname' : IsWord node'.name) {width width' : Nat → Nat}
    (h : line ((List.range header.length).map width) (row node) =
      line ((List.range header.length).map width') (row node')) : node = node' := by
  obtain ⟨first, second, third, fourth, hline⟩ := toList_line_row width node
  obtain ⟨first', second', third', fourth', hline'⟩ := toList_line_row width' node'
  have htext := (hline.symm.trans (congrArg String.toList h)).trans hline'
  have hkind := isWord_kind node.kind
  have hkind' := isWord_kind node'.kind
  obtain ⟨hid, htext⟩ := eq_of_blank (not_mem_repr rfl) (not_mem_repr rfl)
    ((startsVisibly_of_isWord hname).append _) ((startsVisibly_of_isWord hname').append _) htext
  obtain ⟨hname, htext⟩ := eq_of_blank (hname.not_mem rfl) (hname'.not_mem rfl)
    ((startsVisibly_of_isWord hkind).append _) ((startsVisibly_of_isWord hkind').append _) htext
  obtain ⟨hkind, htext⟩ := eq_of_blank (hkind.not_mem rfl) (hkind'.not_mem rfl)
    ((startsVisibly_linksCell _).append _) ((startsVisibly_linksCell _).append _) htext
  -- a list of links has blanks in it, but it ends with its bracket
  obtain ⟨inner, hinner, hbracket⟩ := toList_linksCell node.links
  obtain ⟨inner', hinner', hbracket'⟩ := toList_linksCell node'.links
  rw [hinner, hinner', List.append_assoc, List.append_assoc] at htext
  obtain ⟨hlinks, htext⟩ := append_stop_inj hbracket hbracket' htext
  have hdetails := eq_of_blanks (startsVisibly_detailsCell node).head?_ne
    (startsVisibly_detailsCell node').head?_ne htext
  rw [hlinks, ← hinner'] at hinner
  obtain ⟨hcardinality, htype⟩ := detailsCell_injective (detailsOf_of_detailed hdetailed)
    (detailsOf_of_detailed hdetailed') (String.toList_inj.1 hdetails)
  have hnode : node.kind = node'.kind ∧ node.id = node'.id ∧ node.name = node'.name ∧
      node.links = node'.links ∧ node.cardinality = node'.cardinality ∧
        node.hierarchyType = node'.hierarchyType :=
    ⟨text_kind_injective (String.toList_inj.1 hkind), repr_injective (String.toList_inj.1 hid),
      String.toList_inj.1 hname, linksCell_injective (String.toList_inj.1 hinner), hcardinality, htype⟩
  cases node
  cases node'
  rwa [Node.mk.injEq]

/-! ### Reports -/

theorem eq_of_map_eq {α β : Type} {f g : α → β} {things things' : List α}
    (h : ∀ a ∈ things, ∀ b ∈ things', f a = g b → a = b) (hmap : things.map f = things'.map g) :
    things = things' := by
  induction things generalizing things' with
  | nil => exact (List.map_eq_nil_iff.1 hmap.symm).symm
  | cons first things ih =>
      cases things' with
      | nil => cases hmap
      | cons first' things' =>
          obtain ⟨hfirst, hrest⟩ := List.cons.inj hmap
          rw [h first List.mem_cons_self first' List.mem_cons_self hfirst, ih (fun a ha b hb =>
            h a (List.mem_cons_of_mem _ ha) b (List.mem_cons_of_mem _ hb)) hrest]

/-- The lines of a report are told from its text. -/
theorem linesOf_eq_of_render {graph other : Graph} (hnames : ∀ node ∈ graph.nodes, IsLine node.name)
    (hnames' : ∀ node ∈ other.nodes, IsLine node.name) (h : render graph = render other) :
    linesOf graph = linesOf other := by
  have hsplit := splitOn_flatMap_line (aligned_render hnames).line
  rw [← toList_render, h, toList_render, splitOn_flatMap_line (aligned_render hnames').line] at hsplit
  exact (List.append_cancel_right hsplit).symm

/-- Graphs with the same report are the same, if their names are words and their nodes have the details
that their kinds call for. -/
theorem eq_of_render {graph other : Graph} (hwords : ∀ node ∈ graph.nodes, IsWord node.name)
    (hwords' : ∀ node ∈ other.nodes, IsWord node.name)
    (hdetailed : ∀ node ∈ graph.nodes, node.Detailed)
    (hdetailed' : ∀ node ∈ other.nodes, node.Detailed) (h : render graph = render other) :
    graph = other := by
  have hlines := linesOf_eq_of_render (fun node hnode => (hwords node hnode).not_mem rfl)
    (fun node hnode => (hwords' node hnode).not_mem rfl) h
  rw [linesOf, linesOf, widths_table, widths_table, table, table, List.map_cons, List.map_cons,
    List.map_map, List.map_map] at hlines
  refine Graph.eq_of_nodes (eq_of_map_eq (fun node hnode node' hnode' hline => ?_)
    (List.cons.inj hlines).2)
  exact eq_of_line (hdetailed node hnode) (hdetailed' node' hnode') (hwords node hnode)
    (hwords' node' hnode') (String.toList_inj.1 hline)

/-- The text report of a graph is aligned, and no other graph of a source text has the same report. -/
structure Faithful (graph : Graph) : Prop where
  aligned : ∃ lines, Aligned graph lines (render graph)
  lossless : ∀ source other, compile source = .ok other → render graph = render other → graph = other

theorem faithful_of_compile {source : String} {graph : Graph} (h : compile source = .ok graph) :
    Faithful graph := by
  have hwords := isWord_name_of_compile h
  constructor
  · exact ⟨_, aligned_render fun node hnode => (hwords node hnode).not_mem rfl⟩
  · exact fun source' other h' heq =>
      eq_of_render hwords (isWord_name_of_compile h') (detailed_of_compile h)
        (detailed_of_compile h') heq

theorem faithful_of_compile_classified :
    ∃ graph, compile "(entity a (attr long card 0:n)) (gerarchy g total exclusive (parent a))" =
        .ok graph ∧ render graph =
      "ID  Name   Type      Links   Additional information\n" ++
      "0   start  Start     [1, 3]  None\n" ++
      "1   a      Entity    [2]     None\n" ++
      "2   long   Attr      [None]  Cardinality values: 0:N\n" ++
      "3   g      Gerarchy  [1]     Gerarchy type: total exclusive\n" ∧ Faithful graph := by
  have h : compile "(entity a (attr long card 0:n)) (gerarchy g total exclusive (parent a))" = .ok
      ⟨[⟨.start, 0, "start", [1, 3], none, none⟩, ⟨.entity, 1, "a", [2], none, none⟩,
        ⟨.attribute, 2, "long", [], some ⟨.count 0, .many⟩, none⟩,
        ⟨.hierarchy, 3, "g", [1], none, some (.ofFacets true true)⟩], by decide⟩ := by
    decide +kernel
  exact ⟨_, h, by decide +kernel, faithful_of_compile h⟩

end ErDiagram.Report
