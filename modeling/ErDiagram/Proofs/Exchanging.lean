import ErDiagram.Proofs.Relocating
import ErDiagram.Proofs.WellFormed
import Mathlib.Data.List.Perm.Basic

/-!
Two neighbouring declarations in exchanged order. If the second mentions nothing of the first, then
it fits in front of it, and all else fits as before, since every name still leads to the same
declaration. In the graph, the rows of ids of the two declarations are exchanged.
-/

namespace ErDiagram

/-! ### Blocks of ids -/

/-- Exchanges two neighbouring rows of ids, the first from `low` to `middle`, the second from there
to `high`. The order inside each row is kept. -/
def exchange (low middle high id : Nat) : Nat :=
  if low ≤ id ∧ id < middle then id + (high - middle)
  else if middle ≤ id ∧ id < high then id - (middle - low)
  else id

/-- Exchanges the entry with an index and the one behind it. -/
def exchangeAt {α : Type} : Nat → List α → List α
  | 0, first :: second :: rest => second :: first :: rest
  | index + 1, first :: rest => first :: exchangeAt index rest
  | _, rest => rest

theorem exchangeAt_append {α : Type} (front : List α) (first second : α) (back : List α) :
    exchangeAt front.length (front ++ first :: second :: back) =
      front ++ second :: first :: back := by
  induction front with
  | nil => rfl
  | cons thing front ih => exact congrArg (thing :: ·) ih

namespace Graph

def declared (graph : Graph) : List Nat :=
  (graph.root?.map (·.links)).getD []

/-- The id of the declaration with an index, or the first id behind all declarations. -/
def blockStart (graph : Graph) (index : Nat) : Nat :=
  graph.declared.getD index graph.size

/-- The id is that of the declaration with an index or of a construct inside it. -/
def InBlock (graph : Graph) (index id : Nat) : Prop :=
  graph.blockStart index ≤ id ∧ id < graph.blockStart (index + 1)

instance (graph : Graph) (index id : Nat) : Decidable (graph.InBlock index id) :=
  inferInstanceAs (Decidable (_ ∧ _))

/-- The ids with the blocks of the declaration with an index and of the one behind it exchanged. -/
def exchangeBlocks (graph : Graph) (index : Nat) : Nat → Nat :=
  exchange (graph.blockStart index) (graph.blockStart (index + 1)) (graph.blockStart (index + 2))

/-- A node of the graph when the declaration with an index and the one behind it are exchanged. The
start node links to the declarations in their order. -/
def exchangeNode (graph : Graph) (index : Nat) (node : Node) : Node :=
  let moved := node.renumber (graph.exchangeBlocks index)
  if node.id = Node.startId then { moved with links := exchangeAt index moved.links } else moved

def exchanged (graph : Graph) (index : Nat) : Graph :=
  empty.insertAll (graph.nodes.map (graph.exchangeNode index))

/-- The nodes of a graph make up the graph in any order. -/
theorem insertAll_perm {nodes : List Node} {graph : Graph} (h : nodes.Perm graph.nodes) :
    empty.insertAll nodes = graph := by
  have hcomm : ∀ node ∈ nodes, ∀ other ∈ nodes, ∀ before : Graph,
      (before.insert node).insert other = (before.insert other).insert node := by
    intro node hnode other hother before
    by_cases hid : node.id = other.id
    · have hsame : some node = some other := by
        rw [← get?_eq_some (h.subset hnode), ← get?_eq_some (h.subset hother), hid]
      rw [Option.some.inj hsame]
    · exact insert_comm (Ne.symm hid) before
  rw [insertAll, h.foldl_eq' hcomm]
  exact eq_of_nodes (nodes_insertAll_empty graph.ascending)

end Graph

namespace Diagram

theorem declared_graph (diagram : Diagram) :
    diagram.graph.declared = Tree.roots (Node.startId + 1) diagram.trees := by
  rw [Graph.declared, root_graph]
  exact List.append_nil _

theorem length_trees (diagram : Diagram) : diagram.trees.length = diagram.length := by
  induction diagram using List.reverseRecOn with
  | nil => rfl
  | append_singleton front declaration ih =>
      rw [trees_concat, List.length_append, List.length_append, ih]
      rfl

theorem length_roots (id : Nat) (trees : List Tree) : (Tree.roots id trees).length = trees.length := by
  induction trees generalizing id with
  | nil => rfl
  | cons tree rest ih => rw [Tree.roots, List.length_cons, List.length_cons, ih]

theorem nextId_eq_sizes (diagram : Diagram) :
    diagram.nextId = Node.startId + 1 + Tree.sizes diagram.trees := by
  rw [sizes_trees]
  rfl

/-- The block of a declaration starts behind the blocks of the declarations before it. -/
theorem blockStart_graph (front back : Diagram) :
    (graph (front ++ back)).blockStart front.length = front.nextId := by
  obtain ⟨more, hmore⟩ := exists_trees_append front back
  have hlength : front.length = (Tree.roots (Node.startId + 1) front.trees).length := by
    rw [length_roots, length_trees]
  rw [Graph.blockStart, declared_graph, hmore, Tree.roots_append, hlength,
    List.getD_eq_getElem?_getD, List.getElem?_append_right (Nat.le_refl _), Nat.sub_self,
    nextId_eq_sizes]
  cases more with
  | nil =>
      rw [List.append_nil] at hmore
      rw [size_graph, tree, hmore, Tree.size]
      exact Nat.add_comm _ _
  | cons tree more => rfl

/-- Where the blocks of two declarations start and end. -/
theorem blockStarts (front : Diagram) (first second : Declaration) (back : Diagram) :
    (graph (front ++ first :: second :: back)).blockStart front.length = front.nextId ∧
      (graph (front ++ first :: second :: back)).blockStart (front.length + 1) =
        nextId (front ++ [first]) ∧
      (graph (front ++ first :: second :: back)).blockStart (front.length + 2) =
        nextId (front ++ [first, second]) := by
  have hmiddle := blockStart_graph (front ++ [first]) (second :: back)
  have hend := blockStart_graph (front ++ [first, second]) back
  rw [List.append_assoc, List.length_append] at hmiddle hend
  exact ⟨blockStart_graph front _, hmiddle, hend⟩

end Diagram

/-! ### Names behind exchanged declarations -/

theorem find?_exchange {α : Type} {p : α → Bool} {first second : α} (h : ¬(p first ∧ p second))
    (front back : List α) :
    (front ++ first :: second :: back).find? p = (front ++ second :: first :: back).find? p := by
  rw [List.find?_append, List.find?_append]
  congr 1
  by_cases hfirst : p first
  · have hsecond : ¬p second := fun hsecond => h ⟨hfirst, hsecond⟩
    rw [List.find?_cons_of_pos hfirst, List.find?_cons_of_neg hsecond,
      List.find?_cons_of_pos hfirst]
  · rw [List.find?_cons_of_neg hfirst, List.find?_cons, List.find?_cons,
      List.find?_cons_of_neg hfirst]

namespace Diagram

variable {front back : Diagram} {first second : Declaration}

/-- The ids that the two declarations exchange. -/
def swap (front : Diagram) (first second : Declaration) : Nat → Nat :=
  exchange front.nextId (nextId (front ++ [first])) (nextId (front ++ [first, second]))

theorem nextId_first (front : Diagram) (first : Declaration) :
    nextId (front ++ [first]) = front.nextId + first.size := by
  rw [nextId_append]
  rfl

theorem nextId_second (front : Diagram) (first second : Declaration) :
    nextId (front ++ [first, second]) = front.nextId + first.size + second.size := by
  rw [nextId_append]
  exact congrArg _ (Nat.add_zero _)

/-- Both declarations end at the same id in either order. -/
theorem nextId_pair (front : Diagram) (first second : Declaration) :
    nextId (front ++ [first]) + second.size = nextId (front ++ [first, second]) ∧
      nextId (front ++ [second]) + first.size = nextId (front ++ [first, second]) := by
  rw [nextId_first, nextId_first, nextId_second]
  omega

theorem swap_before (front : Diagram) (first second : Declaration) {start count : Nat}
    (h : start + count ≤ front.nextId) : Shifts (swap front first second) start start count := by
  have hmiddle := nextId_first front first
  intro index hindex
  rw [swap, exchange, if_neg (by omega), if_neg (by omega)]

theorem swap_first (front : Diagram) (first second : Declaration) :
    Shifts (swap front first second) front.nextId (nextId (front ++ [second])) first.size := by
  have hmiddle := nextId_first front first
  have hend := nextId_second front first second
  have hsecond := nextId_first front second
  intro index hindex
  rw [swap, exchange, if_pos (by omega)]
  omega

theorem swap_second (front : Diagram) (first second : Declaration) :
    Shifts (swap front first second) (nextId (front ++ [first])) front.nextId second.size := by
  have hmiddle := nextId_first front first
  have hend := nextId_second front first second
  intro index hindex
  rw [swap, exchange, if_neg (by omega), if_pos (by omega)]
  omega

theorem swap_behind (front : Diagram) (first second : Declaration) {start : Nat}
    (h : nextId (front ++ [first, second]) ≤ start) (count : Nat) :
    Shifts (swap front first second) start start count := by
  have hmiddle := nextId_first front first
  have hend := nextId_second front first second
  intro index hindex
  rw [swap, exchange, if_neg (by omega), if_neg (by omega)]

/-- Each declaration ends before the next id. -/
theorem end_of_mem_places {diagram : Diagram} {place : Nat × Declaration}
    (h : place ∈ diagram.places) : place.1 + place.2.size ≤ diagram.nextId := by
  obtain ⟨before, declaration, after, rfl, hplace⟩ := mem_inOrder.1 h
  rw [List.nil_append, List.mem_singleton] at hplace
  subst hplace
  rw [nextId_append]
  exact Nat.le_add_right _ _

theorem swap_block_before {diagram : Diagram} (hle : diagram.nextId ≤ front.nextId)
    {place : Nat × Declaration} (h : place ∈ diagram.places) :
    relocate (swap front first second) place = place ∧
      Shifts (swap front first second) place.1 (swap front first second place.1) place.2.size := by
  have hend := end_of_mem_places h
  have hshift : Shifts (swap front first second) place.1 place.1 place.2.size :=
    swap_before _ _ _ (by omega)
  have hfixed : swap front first second place.1 = place.1 := hshift.first (Nat.succ_pos _)
  exact ⟨Prod.ext hfixed rfl, by rwa [hfixed]⟩

theorem map_relocate_before {diagram : Diagram} (hle : diagram.nextId ≤ front.nextId)
    (kind : Node.Kind) (name : String) :
    (diagram.place? kind name).map (relocate (swap front first second)) =
      diagram.place? kind name := by
  cases h : diagram.place? kind name with
  | none => rfl
  | some place =>
      exact congrArg some (swap_block_before hle (List.mem_of_find?_eq_some h)).1

/-- What stands before both declarations stays. -/
theorem moves_before {earlier later : Diagram} {declaration : Declaration}
    (hsplit : front = earlier ++ declaration :: later) :
    declaration.Moves (swap front first second) earlier earlier where
  row := by
    have hnext := nextId_append earlier declaration later
    exact swap_before _ _ _ (by rw [hsplit, hnext]; omega)
  clauses clause hclause := by
    have hle : earlier.nextId ≤ front.nextId := by
      rw [hsplit, nextId_append]
      omega
    exact ⟨fun kind name _ => (map_relocate_before hle kind name).symm,
      fun place hplace => (swap_block_before hle hplace).2⟩

theorem place?_concat (declaration : Declaration) (kind : Node.Kind) (name : String) :
    place? (front ++ [declaration]) kind name = (front.place? kind name).or
      (if declaration.kind = kind ∧ declaration.name = name then some (front.nextId, declaration)
        else none) := by
  rw [place?, places_concat, List.find?_append]
  congr 1
  by_cases h : declaration.kind = kind ∧ declaration.name = name
  · rw [if_pos h, List.find?_cons_of_pos (by simp [h])]
  · rw [if_neg h, List.find?_cons_of_neg (by simpa using h), List.find?_nil]

/-- The second declaration comes to the front. -/
theorem moves_second (hfree : ∀ clause ∈ second.clauses,
      clause.mentioned? ≠ some (first.kind, first.name)) :
    second.Moves (swap front first second) (front ++ [first]) front where
  row := swap_second front first second
  clauses clause hclause := by
    refine ⟨fun kind name hmentioned => ?_, fun place hplace => ?_⟩
    · have hother : ¬(first.kind = kind ∧ first.name = name) := by
        rintro ⟨rfl, rfl⟩
        exact hfree clause hclause hmentioned
      rw [place?_concat, if_neg hother, Option.or_none, map_relocate_before (Nat.le_refl _)]
    · rw [places_concat] at hplace
      rcases List.mem_append.1 hplace with hplace | hplace
      · exact (swap_block_before (Nat.le_refl _) hplace).2
      · rw [List.mem_singleton.1 hplace]
        have hfirst := swap_first front first second
        rwa [← hfirst.first (Nat.succ_pos _)] at hfirst

/-- The first declaration comes behind the second. -/
theorem moves_first (hfits : first.Fits front) :
    first.Moves (swap front first second) front (front ++ [second]) where
  row := swap_first front first second
  clauses clause hclause := by
    refine ⟨fun kind name hmentioned => ?_,
      fun place hplace => (swap_block_before (Nat.le_refl _) hplace).2⟩
    obtain ⟨before, after, hsplit⟩ := List.append_of_mem hclause
    obtain ⟨place, hplace⟩ :=
      place?_isSome.2 ((hfits.2 before clause after hsplit).declares hmentioned)
    rw [place?_concat, map_relocate_before (Nat.le_refl _), hplace, Option.some_or]

theorem nextId_add (front back : Diagram) :
    nextId (front ++ back) = front.nextId + Diagram.size back := by
  simp only [nextId, size, List.map_append, List.sum_append]
  omega

theorem nextId_exchanged (front : Diagram) (first second : Declaration) (back : Diagram) :
    nextId (front ++ second :: first :: back) = nextId (front ++ first :: second :: back) ∧
      nextId (front ++ [first, second]) ≤ nextId (front ++ first :: second :: back) := by
  simp only [nextId_add, size, List.map_cons, List.sum_cons, List.map_nil, List.sum_nil]
  omega

theorem places_cons_cons (front : Diagram) (first second : Declaration) (back : Diagram) :
    places (front ++ first :: second :: back) =
      front.places ++ (front.nextId, first) :: (nextId (front ++ [first]), second) ::
        inOrder (fun earlier declaration => [(nextId earlier, declaration)])
          (front ++ [first] ++ [second]) back := by
  rw [places, inOrder_append, inOrder, inOrder]
  rfl

/-- Behind both declarations, names lead to the same declarations under replaced ids. -/
theorem place?_exchanged (hnames : ¬(first.kind = second.kind ∧ first.name = second.name))
    (back : Diagram) (kind : Node.Kind) (name : String) :
    place? (front ++ second :: first :: back) kind name =
      (place? (front ++ first :: second :: back) kind name).map
        (relocate (swap front first second)) := by
  have hfront : front.places.map (relocate (swap front first second)) = front.places := by
    refine (List.map_congr_left fun place hplace => ?_).trans front.places.map_id
    exact (swap_block_before (Nat.le_refl _) hplace).1
  have hback : inOrder (fun earlier declaration => [(nextId earlier, declaration)])
        (front ++ [second] ++ [first]) back =
      (inOrder (fun earlier declaration => [(nextId earlier, declaration)])
        (front ++ [first] ++ [second]) back).map (relocate (swap front first second)) := by
    refine inOrder_map fun earlier declaration later _ => ?_
    have hnext := nextId_exchanged front first second earlier
    have hfixed := (swap_behind front first second hnext.2 1).first Nat.one_pos
    simp only [List.append_assoc, List.cons_append, List.nil_append, List.map_cons, List.map_nil,
      relocate]
    rw [hfixed, hnext.1]
  have hfirst := (swap_first front first second).first (Nat.succ_pos _)
  have hsecond := (swap_second front first second).first (Nat.succ_pos _)
  have hmap : (places (front ++ first :: second :: back)).map
      (relocate (swap front first second)) =
        front.places ++ (nextId (front ++ [second]), first) :: (front.nextId, second) ::
          inOrder (fun earlier declaration => [(nextId earlier, declaration)])
            (front ++ [second] ++ [first]) back := by
    rw [places_cons_cons, List.map_append, List.map_cons, List.map_cons, hfront, ← hback, relocate,
      relocate, hfirst, hsecond]
  have hfind : ((places (front ++ first :: second :: back)).map
      (relocate (swap front first second))).find?
        (fun place => place.2.kind = kind && place.2.name = name) =
      (place? (front ++ first :: second :: back) kind name).map
        (relocate (swap front first second)) := by
    rw [List.find?_map]
    rfl
  rw [← hfind, hmap, place?, places_cons_cons]
  refine find?_exchange ?_ _ _
  simp only [Bool.and_eq_true, decide_eq_true_eq]
  rintro ⟨⟨hkind, hname⟩, hkind', hname'⟩
  exact hnames ⟨hkind'.trans hkind.symm, hname'.trans hname.symm⟩

/-- What stands behind both declarations stays. -/
theorem moves_behind (hnames : ¬(first.kind = second.kind ∧ first.name = second.name))
    (earlier : Diagram) (declaration : Declaration) :
    declaration.Moves (swap front first second) (front ++ first :: second :: earlier)
      (front ++ second :: first :: earlier) where
  row := by
    have hnext := nextId_exchanged front first second earlier
    rw [hnext.1]
    exact swap_behind _ _ _ hnext.2 _
  clauses clause hclause := by
    refine ⟨fun kind name _ => place?_exchanged hnames earlier kind name, fun place hplace => ?_⟩
    rw [places_cons_cons] at hplace
    rcases List.mem_append.1 hplace with hplace | hplace
    · exact (swap_block_before (Nat.le_refl _) hplace).2
    rcases List.mem_cons.1 hplace with rfl | hplace
    · have hfirst := swap_first front first second
      rwa [← hfirst.first (Nat.succ_pos _)] at hfirst
    rcases List.mem_cons.1 hplace with rfl | hplace
    · have hsecond := swap_second front first second
      rwa [← hsecond.first (Nat.succ_pos _)] at hsecond
    obtain ⟨before, other, after, -, hmem⟩ := mem_inOrder.1 hplace
    rw [List.mem_singleton] at hmem
    have hnext := (nextId_exchanged front first second before).2
    have hfixed : Shifts (swap front first second) place.1 place.1 place.2.size := by
      refine swap_behind _ _ _ ?_ _
      rw [hmem]
      simpa using hnext
    rwa [hfixed.first (Nat.succ_pos _)]

/-! ### Declarations in exchanged order -/

theorem declares_exchanged {kind : Node.Kind} {name : String} :
    Declares (front ++ second :: first :: back) kind name ↔
      Declares (front ++ first :: second :: back) kind name := by
  have hmem : ∀ declaration, declaration ∈ front ++ second :: first :: back ↔
      declaration ∈ front ++ first :: second :: back :=
    fun _ => ((List.Perm.swap first second back).append_left front).mem_iff
  simp only [Declares, hmem]

theorem declares_concat {kind : Node.Kind} {name : String} :
    Declares (front ++ [first]) kind name ↔
      Declares front kind name ∨ (first.kind = kind ∧ first.name = name) := by
  simp only [Declares, List.mem_append, List.mem_singleton, or_and_right, exists_or,
    exists_eq_left]

section

variable (hfit : AllFit (front ++ first :: second :: back))
include hfit

theorem fits_of_pair : front.AllFit ∧ first.Fits front ∧ second.Fits (front ++ [first]) ∧
    ¬(first.kind = second.kind ∧ first.name = second.name) ∧
      ∀ earlier declaration later, back = earlier ++ declaration :: later →
        declaration.Fits (front ++ first :: second :: earlier) := by
  have hsplit : front ++ first :: second :: back = front ++ [first] ++ [second] ++ back := by simp
  rw [hsplit, allFit_append, allFit_concat, allFit_concat] at hfit
  obtain ⟨⟨⟨hfront, hfirst⟩, hsecond⟩, hback⟩ := hfit
  refine ⟨hfront, hfirst, hsecond, fun hsame => hsecond.1 (declares_concat.2 (Or.inr hsame)), ?_⟩
  intro earlier declaration later h
  have hfits := hback earlier declaration later h
  simpa using hfits

variable (hfree : ∀ clause ∈ second.clauses, clause.mentioned? ≠ some (first.kind, first.name))
include hfree

/-- In exchanged order the declarations fit as well. -/
theorem allFit_exchanged : AllFit (front ++ second :: first :: back) := by
  obtain ⟨hfront, hfirst, hsecond, hnames, hback⟩ := fits_of_pair hfit
  have hsplit : front ++ second :: first :: back = front ++ [second] ++ [first] ++ back := by simp
  rw [hsplit, allFit_append, allFit_concat, allFit_concat]
  refine ⟨⟨⟨hfront, (moves_second hfree).fits hsecond ?_⟩, (moves_first hfirst).fits hfirst ?_⟩, ?_⟩
  · exact fun hdeclares => hsecond.1 (declares_concat.2 (Or.inl hdeclares))
  · rw [declares_concat, not_or]
    exact ⟨hfirst.1, fun hsame => hnames ⟨hsame.1.symm, hsame.2.symm⟩⟩
  · intro earlier declaration later h
    have hfits := hback earlier declaration later h
    have hmoved := (moves_behind hnames earlier declaration).fits hfits
      (fun hdeclares => hfits.1 (declares_exchanged.1 hdeclares))
    simpa using hmoved

/-- In exchanged order the constructs are the same, with what they mention replaced. -/
theorem trees_exchanged :
    ∃ rest, trees (front ++ first :: second :: back) =
        front.trees ++ first.tree front :: second.tree (front ++ [first]) :: rest ∧
      trees (front ++ second :: first :: back) =
        Tree.relinkAll (swap front first second) front.trees ++
          (second.tree (front ++ [first])).relink (swap front first second) ::
            (first.tree front).relink (swap front first second) ::
              Tree.relinkAll (swap front first second) rest := by
  obtain ⟨-, hfirst, -, hnames, -⟩ := fits_of_pair hfit
  have hfront : front.trees = front.trees.map (Tree.relink (swap front first second)) := by
    refine inOrder_map fun earlier declaration later hsplit => ?_
    rw [List.nil_append, List.map_cons, List.map_nil, ← (moves_before hsplit).tree]
  have hback : inOrder (fun earlier declaration => [declaration.tree earlier])
        (front ++ [second] ++ [first]) back =
      (inOrder (fun earlier declaration => [declaration.tree earlier])
        (front ++ [first] ++ [second]) back).map (Tree.relink (swap front first second)) := by
    refine inOrder_map fun earlier declaration later _ => ?_
    have hmoved := (@moves_behind front first second hnames earlier declaration).tree
    simpa using hmoved
  refine ⟨inOrder (fun earlier declaration => [declaration.tree earlier])
    (front ++ [first] ++ [second]) back, ?_, ?_⟩
  · rw [trees, inOrder_append, inOrder, inOrder]
    rfl
  · rw [Tree.relinkAll_eq_map, Tree.relinkAll_eq_map, ← hfront, ← hback, ← (moves_second hfree).tree,
      ← (moves_first hfirst).tree, trees, inOrder_append, inOrder, inOrder]
    rfl

/-- In exchanged order the nodes are the same, with their ids replaced. -/
theorem nodes_exchanged :
    (Tree.allNodes (Node.startId + 1) (trees (front ++ second :: first :: back))).Perm
      ((Tree.allNodes (Node.startId + 1) (trees (front ++ first :: second :: back))).map
        (Node.renumber (swap front first second))) := by
  obtain ⟨rest, htrees, htrees'⟩ := trees_exchanged hfit hfree
  have hproper := proper_trees (front ++ first :: second :: back)
  rw [htrees, List.forall_mem_append, List.forall_mem_cons, List.forall_mem_cons] at hproper
  obtain ⟨hfrontProper, hfirstProper, hsecondProper, hrestProper⟩ := hproper
  have hlow := nextId_eq_sizes front
  have hfront := Tree.nodes_relinkAll _ hfrontProper
    (swap_before front first second (Nat.le_of_eq hlow.symm))
  have hfirst := Tree.nodes_relink _ hfirstProper
    ((first.size_tree front).symm ▸ swap_first front first second)
  have hsecond := Tree.nodes_relink _ hsecondProper
    ((second.size_tree (front ++ [first])).symm ▸ swap_second front first second)
  have hrest := Tree.nodes_relinkAll _ hrestProper
    (swap_behind front first second (Nat.le_refl _) _)
  rw [htrees, htrees', Tree.allNodes_append, Tree.allNodes_append, Tree.sizes_relinkAll, ← hlow]
  simp only [Tree.allNodes, Tree.size_relink, Declaration.size_tree, List.map_append]
  rw [← nextId_first front first, ← nextId_first front second, (nextId_pair front first second).1,
    (nextId_pair front first second).2, hfront, hfirst, hsecond, hrest]
  exact (List.perm_append_comm_assoc _ _ _).append_left _

/-- The start node links to the declarations in exchanged order. -/
theorem roots_exchanged :
    Tree.roots (Node.startId + 1) (trees (front ++ second :: first :: back)) =
      exchangeAt front.length ((Tree.roots (Node.startId + 1)
        (trees (front ++ first :: second :: back))).map (swap front first second)) := by
  obtain ⟨rest, htrees, htrees'⟩ := trees_exchanged hfit hfree
  have hlow := nextId_eq_sizes front
  have hfront := Tree.roots_relinkAll
    (swap_before front first second (Nat.le_of_eq hlow.symm))
  have hfirst := (swap_first front first second).first (Nat.succ_pos _)
  have hsecond := (swap_second front first second).first (Nat.succ_pos _)
  have hrest := Tree.roots_relinkAll
    (swap_behind front first second (Nat.le_refl _) (Tree.sizes rest))
  have hlength : front.length = ((Tree.roots (Node.startId + 1) front.trees).map
      (swap front first second)).length := by
    rw [List.length_map, length_roots, length_trees]
  rw [htrees, htrees', Tree.roots_append, Tree.roots_append, Tree.sizes_relinkAll, ← hlow]
  simp only [Tree.roots, Tree.size_relink, Declaration.size_tree, List.map_append, List.map_cons]
  rw [← nextId_first front first, ← nextId_first front second, (nextId_pair front first second).1,
    (nextId_pair front first second).2, hfront, hfirst, hsecond, hrest, hlength, exchangeAt_append]

/-- The nodes of declarations in exchanged order are their nodes with the blocks exchanged. -/
theorem nodes_graph_exchanged :
    (graph (front ++ second :: first :: back)).nodes.Perm
      ((graph (front ++ first :: second :: back)).nodes.map
        ((graph (front ++ first :: second :: back)).exchangeNode front.length)) := by
  have hblocks : (graph (front ++ first :: second :: back)).exchangeBlocks front.length =
      swap front first second := by
    obtain ⟨hstart, hmiddle, hend⟩ := blockStarts front first second back
    rw [Graph.exchangeBlocks, hstart, hmiddle, hend, swap]
  have hothers : ∀ node ∈ Tree.allNodes (Node.startId + 1)
      (trees (front ++ first :: second :: back)),
        (graph (front ++ first :: second :: back)).exchangeNode front.length node =
          node.renumber (swap front first second) := by
    intro node hnode
    have hid := (Tree.id_mem_allNodes hnode).1
    rw [Graph.exchangeNode, hblocks, if_neg (by omega)]
  have hroot : (graph (front ++ first :: second :: back)).exchangeNode front.length
      ((tree (front ++ first :: second :: back)).rootNode Node.startId) =
        (tree (front ++ second :: first :: back)).rootNode Node.startId := by
    have hstart : swap front first second Node.startId = Node.startId := by
      refine (swap_before _ _ _ ?_).first Nat.one_pos
      rw [nextId_eq_sizes]
      exact Nat.le_add_right _ _
    rw [Graph.exchangeNode, hblocks, if_pos (Tree.id_rootNode _ _)]
    simp only [tree, Tree.rootNode, Node.renumber, List.append_nil, roots_exchanged hfit hfree, hstart]
    rfl
  change ((tree _).rootNode Node.startId :: Tree.allNodes (Node.startId + 1) _).Perm
    (((tree _).rootNode Node.startId :: Tree.allNodes (Node.startId + 1) _).map _)
  rw [List.map_cons, hroot, List.map_congr_left hothers]
  exact (nodes_exchanged hfit hfree).cons _

/-- The graph of declarations in exchanged order is their graph with the blocks exchanged. -/
theorem graph_exchanged :
    (graph (front ++ first :: second :: back)).exchanged front.length =
      graph (front ++ second :: first :: back) :=
  Graph.insertAll_perm (nodes_graph_exchanged hfit hfree).symm

end

/-! ### What a declaration mentions, its nodes link to -/

/-- A clause that mentions a declaration links to it or to an attribute of it, or else declares a
branch that does. -/
theorem mentions_or_branch {earlier : Diagram} {owner : Node.Kind} {before : List (Clause owner)}
    {clause : Clause owner} (hfits : clause.Fits earlier before) {kind : Node.Kind} {name : String}
    (hmentioned : clause.mentioned? = some (kind, name)) {place : Nat × Declaration}
    (hplace : earlier.place? kind name = some place) :
    (∃ link ∈ clause.mentions earlier, place.1 ≤ link ∧ link < place.1 + place.2.size) ∨
      ∃ cardinality, place.1 ∈ (Clause.branchLabel earlier name cardinality).mentions ∧
        ∀ id, clause.tree? earlier id before =
          some ⟨Clause.branchLabel earlier name cardinality, []⟩ := by
  have hpos : 0 < place.2.size := Nat.succ_pos _
  have hids : place.1 ∈ earlier.ids kind name := by
    rw [ids, hplace]
    exact List.mem_singleton_self _
  cases clause with
  | attr | key => cases hmentioned
  | branch entity cardinality =>
      cases hmentioned
      exact Or.inr ⟨cardinality, hids, fun _ => rfl⟩
  | parent | child | between | across =>
      cases hmentioned
      exact Or.inl ⟨place.1, hids, by omega⟩
  | attributeOf word entity =>
      cases hmentioned
      obtain ⟨owner, howner, hattr⟩ := hfits
      obtain rfl : owner = place := Option.some.inj (howner.symm.trans hplace)
      obtain ⟨found, hfound⟩ : ∃ found,
          (Clause.attributeIds owner.1 owner.2.clauses).lookup word = some found :=
        Clause.lookup_attributeIds_isSome.2 hattr
      obtain ⟨first, clause, after, owned, hclauses, howned, -, rfl⟩ := Clause.split_of_lookup hfound
      refine Or.inl ⟨owner.1 + 1 + Clause.sizes first, ?_, ?_⟩
      · rw [Clause.mentions, hplace]
        exact Option.mem_toList.2 hfound
      · have hpos := (Clause.tree?_of_attribute? earlier owner.1 first howned).2
        have hsize : owner.2.size = Clause.sizes (first ++ clause :: after) + 1 :=
          congrArg (Clause.sizes · + 1) hclauses
        rw [hsize]
        simp only [Clause.sizes, List.map_append, List.map_cons, List.sum_append, List.sum_cons]
        omega

/-- A declaration that mentions another has a node that links into the block of the other. -/
theorem exists_link_of_mentioned {earlier : Diagram} {declaration : Declaration}
    (hfits : declaration.Fits earlier) {clause : Clause declaration.kind}
    (hclause : clause ∈ declaration.clauses) {kind : Node.Kind} {name : String}
    (hmentioned : clause.mentioned? = some (kind, name)) {place : Nat × Declaration}
    (hplace : earlier.place? kind name = some place) :
    ∃ node ∈ (declaration.tree earlier).nodes earlier.nextId, ∃ link ∈ node.links,
      place.1 ≤ link ∧ link < place.1 + place.2.size := by
  obtain ⟨before, after, hclauses⟩ := List.append_of_mem hclause
  rcases mentions_or_branch (hfits.2 before clause after hclauses) hmentioned hplace with
    ⟨link, hlink, hwithin⟩ | ⟨cardinality, hlink, htree⟩
  · refine ⟨_, Tree.Part.self.rootNode_mem, link, ?_, hwithin⟩
    exact List.mem_append_right _ (List.mem_flatMap.2 ⟨clause, hclause, hlink⟩)
  · have hpart := part_of_clause earlier declaration hclauses (htree earlier.nextId)
    have hpos : 0 < place.2.size := Nat.succ_pos _
    exact ⟨_, hpart.rootNode_mem, place.1, List.mem_append_right _ hlink, by omega⟩

/-- If no node of the second declaration links into the block of the first, then the second mentions
nothing of the first. -/
theorem not_mentioned_of_links {front back : Diagram} {first second : Declaration}
    (hfit : AllFit (front ++ first :: second :: back))
    (hlinks : ∀ node ∈ (graph (front ++ first :: second :: back)).nodes,
      (graph (front ++ first :: second :: back)).InBlock (front.length + 1) node.id →
        ∀ link ∈ node.links,
          ¬(graph (front ++ first :: second :: back)).InBlock front.length link) :
    ∀ clause ∈ second.clauses, clause.mentioned? ≠ some (first.kind, first.name) := by
  intro clause hclause hmentioned
  obtain ⟨-, hfirst, hsecond, -, -⟩ := fits_of_pair hfit
  have hnone : front.place? first.kind first.name = none := by
    rw [Option.eq_none_iff_forall_ne_some]
    exact fun place hplace => hfirst.1 (place?_isSome.1 ⟨place, hplace⟩)
  have hplace : place? (front ++ [first]) first.kind first.name = some (front.nextId, first) := by
    rw [place?_concat, hnone, if_pos ⟨rfl, rfl⟩]
    rfl
  obtain ⟨node, hnode, link, hlink, hlow, hmiddle⟩ :=
    exists_link_of_mentioned hsecond hclause hmentioned hplace
  have hmem : node ∈ (graph (front ++ first :: second :: back)).nodes := by
    have hmem := @mem_allNodes_of_split (front ++ [first]) second back node hnode
    rw [List.append_assoc] at hmem
    exact List.mem_cons_of_mem _ hmem
  have hid : node.id ∈ ((second.tree (front ++ [first])).nodes (nextId (front ++ [first]))).map
      (·.id) := List.mem_map_of_mem hnode
  rw [Tree.ids_nodes, List.mem_range'_1, Declaration.size_tree] at hid
  obtain ⟨hstart, hmiddleStart, hend⟩ := blockStarts front first second back
  refine hlinks node hmem ⟨?_, ?_⟩ link hlink ⟨?_, ?_⟩
  · rw [hmiddleStart]
    exact hid.1
  · rw [hend, ← (nextId_pair front first second).1]
    exact hid.2
  · rw [hstart]
    exact hlow
  · rw [hmiddleStart, nextId_first]
    exact hmiddle

end Diagram
end ErDiagram
