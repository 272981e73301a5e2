import ErDiagram.Cli.Outcome
import ErDiagram.Decoding
import ErDiagram.Proofs.Rereading
import ErDiagram.Proofs.WellFormed

/-!
A graph is read back from its JSON report. The details of a node come back from their written forms:
each cardinality does, and a classification does if it carries no flag that means nothing, as is the
case in every graph that a source text compiles to.
-/

namespace ErDiagram

/-! ### Details -/

theorem Bound.writtenAs_text (bound : Bound) : bound.WrittenAs bound.text.toList := by
  cases bound with
  | many => exact Or.inr rfl
  | count n =>
      rw [Bound.text, Nat.toList_repr]
      exact ⟨Nat.toDigits_ne_nil, fun c hc => isDigit_of_mem_repr (Nat.toList_repr ▸ hc),
        Nat.ofDigitChars_ten_toDigits⟩

/-- Every cardinality is read back. -/
theorem Cardinality.ofString_text (cardinality : Cardinality) :
    Cardinality.ofString cardinality.text = .ok cardinality := by
  refine Cardinality.ofString_iff.2 ⟨_, _, ?_, cardinality.min.writtenAs_text,
    cardinality.max.writtenAs_text⟩
  simp [Cardinality.text]

namespace HierarchyType

/-- Whether the flags of a classification all mean something: a subset carries no other flag. -/
def IsCanonical (type : HierarchyType) : Prop :=
  type = plainSubset ∨ ∃ total exclusive, type = ofFacets total exclusive

/-- The words of a written form are those that it is made of. -/
theorem ofString_text_eq (type : HierarchyType) : ofString type.text = .ok
    (if type.subset then plainSubset else ofFacets type.total type.exclusive) := by
  obtain ⟨subset, total, exclusive⟩ := type
  cases subset <;> cases total <;> cases exclusive <;> decide +kernel

/-- A classification is read back if it carries no flag that means nothing, and only then. -/
theorem ofString_text_iff {type : HierarchyType} :
    ofString type.text = .ok type ↔ type.IsCanonical := by
  rw [ofString_text_eq, Except.ok.injEq]
  constructor
  · intro h
    split_ifs at h
    · exact Or.inl h.symm
    · exact Or.inr ⟨_, _, h.symm⟩
  · rintro (rfl | ⟨total, exclusive, rfl⟩)
    · rfl
    · rfl

end HierarchyType

theorem Node.Detailed.isCanonical {node : Node} (h : node.Detailed) {type : HierarchyType}
    (htype : type ∈ node.hierarchyType) : type.IsCanonical := by
  have hsome := Option.mem_def.1 htype
  rcases (h.hierarchyType (by rw [hsome, Option.isSome_some])).2 with hplain | ⟨total, exclusive, hfacets⟩
  · exact Or.inl (Option.some.inj (hsome.symm.trans hplain))
  · exact Or.inr ⟨total, exclusive, Option.some.inj (hsome.symm.trans hfacets)⟩

theorem Node.Kind.ofText?_text (kind : Node.Kind) : Node.Kind.ofText? kind.text = some kind := by
  cases kind <;> decide

/-! ### Nodes -/

theorem mapM_map_of_forall {α β : Type} {write : α → β} {read : β → Option α} {things : List α}
    (h : ∀ thing ∈ things, read (write thing) = some thing) :
    (things.map write).mapM read = some things := by
  induction things with
  | nil => rfl
  | cons thing things ih =>
      obtain ⟨hthing, hthings⟩ := List.forall_mem_cons.1 h
      rw [List.map_cons, List.mapM_cons, hthing, ih hthings]
      rfl

namespace Node

variable (node : Node)

theorem member?_kind : node.toJson.member? "kind" = some (.string node.kind.text) := by
  rfl

theorem member?_id : node.toJson.member? "id" = some (.number node.id) := by
  rfl

theorem member?_name : node.toJson.member? "name" = some (.string node.name) := by
  rfl

theorem member?_links : node.toJson.member? "links" = some (.array (node.links.map .number)) := by
  rfl

theorem member?_cardinality : node.toJson.member? "cardinality" =
    node.cardinality.map fun cardinality => .string cardinality.text := by
  obtain ⟨kind, id, name, links, cardinality, hierarchyType⟩ := node
  cases cardinality <;> cases hierarchyType <;> rfl

theorem member?_hierarchyType : node.toJson.member? "gerarchy_type" =
    node.hierarchyType.map fun type => .string type.text := by
  obtain ⟨kind, id, name, links, cardinality, hierarchyType⟩ := node
  cases cardinality <;> cases hierarchyType <;> rfl

end Node

/-- A detail that is written in an object if it is there is read back if its text is. -/
theorem Json.detail?_of_text {ε α : Type} (read : String → Except ε α) {write : α → String}
    {key : String} {value : Json} {detail : Option α}
    (hmember : value.member? key = detail.map fun detail => .string (write detail))
    (hread : ∀ found ∈ detail, read (write found) = .ok found) :
    value.detail? read key = some detail := by
  rw [Json.detail?, hmember]
  cases detail with
  | none => rfl
  | some found =>
      simp only [Option.map_some, Json.text?, Option.bind_eq_bind, Option.bind_some, hread found rfl]
      rfl

/-- A node is read back if its classification is, so if all flags of that mean something. -/
theorem Node.ofJson?_toJson {node : Node}
    (h : ∀ type ∈ node.hierarchyType, type.IsCanonical) : Node.ofJson? node.toJson = some node := by
  have hlinks : (node.links.map Json.number).mapM Json.number? = some node.links :=
    mapM_map_of_forall fun _ _ => rfl
  have hcardinality := Json.detail?_of_text Cardinality.ofString node.member?_cardinality
    fun found _ => found.ofString_text
  have htype := Json.detail?_of_text HierarchyType.ofString node.member?_hierarchyType
    fun found hfound => HierarchyType.ofString_text_iff.2 (h found hfound)
  rw [Node.ofJson?, hcardinality, htype, member?_kind, member?_id, member?_name, member?_links]
  simp only [Option.bind_eq_bind, Option.bind_some, Json.text?, Json.number?, Json.items?,
    Node.Kind.ofText?_text, hlinks]

/-! ### Graphs -/

/-- A text is a report that a graph is read back from: the nodes are listed in it by ascending id, and
so they make the graph again. -/
structure Graph.ReadBack (graph : Graph) (text : String) : Prop where
  ascending : graph.ids.Pairwise (· < ·)
  nodes : Graph.nodesOfText? text = some graph.nodes
  graph : Graph.ofText? text = some graph

theorem Graph.nodesOfText?_pretty {graph : Graph}
    (h : ∀ node ∈ graph.nodes, ∀ type ∈ node.hierarchyType, type.IsCanonical) :
    Graph.nodesOfText? (graph.toJson.pretty ++ "\n") = some graph.nodes := by
  have hspace : ∀ c ∈ "\n".toList, Json.isSpace c := List.all_eq_true.1 (by decide)
  rw [Graph.nodesOfText?, Json.read?_pretty graph.toJson hspace]
  exact mapM_map_of_forall fun node hnode => Node.ofJson?_toJson (h node hnode)

theorem detailed_of_compile {source : String} {graph : Graph} (h : compile source = .ok graph) :
    ∀ node ∈ graph.nodes, node.Detailed := by
  obtain ⟨-, diagram, -, -, hvalid, rfl⟩ := compile_ok_iff.1 h
  exact hvalid.wellFormed.detailed

/-- The JSON report on a source text that compiles gives the nodes of its graph back, and hence the
graph. -/
theorem readBack_of_compile {source : String} {graph : Graph} (h : compile source = .ok graph) :
    graph.ReadBack (Cli.Outcome.ofGraph .json graph).stdout := by
  have hnodes : Graph.nodesOfText? (Cli.Outcome.ofGraph .json graph).stdout = some graph.nodes :=
    Graph.nodesOfText?_pretty fun node hnode _ htype =>
      (detailed_of_compile h node hnode).isCanonical htype
  refine ⟨List.pairwise_map.2 graph.ascending, hnodes, ?_⟩
  rw [Graph.ofText?, hnodes]
  exact dif_pos graph.ascending

theorem readBack_of_compile_details :
    ∃ graph, compile "(entity a (attr x card 01:n)) (gerarchy g partial overlapped (parent a))" =
        .ok graph ∧ graph.nodes.map (·.cardinality) = [none, none, some ⟨.count 1, .many⟩, none] ∧
      graph.nodes.map (·.hierarchyType) = [none, none, none, some (.ofFacets false false)] ∧
        graph.ReadBack (Cli.Outcome.ofGraph .json graph).stdout := by
  have h : compile "(entity a (attr x card 01:n)) (gerarchy g partial overlapped (parent a))" = .ok
      ⟨[⟨.start, 0, "start", [1, 3], none, none⟩, ⟨.entity, 1, "a", [2], none, none⟩,
        ⟨.attribute, 2, "x", [], some ⟨.count 1, .many⟩, none⟩,
        ⟨.hierarchy, 3, "g", [1], none, some (.ofFacets false false)⟩], by decide⟩ := by
    decide +kernel
  exact ⟨_, h, rfl, rfl, readBack_of_compile h⟩

end ErDiagram
