import ErDiagram.Proofs.Lookup
import Mathlib.Data.List.Nodup

/-!
A diagram is valid exactly if each of its parts fits behind those before it. So whoever goes through
a diagram once, from front to back, can tell whether it has a graph.
-/

namespace ErDiagram

variable {kind : Node.Kind} {earlier : Diagram}

namespace Clause

theorem mem_attributes {clauses : List (Clause kind)} {owned : Attribute} :
    owned ∈ attributes clauses ↔ ∃ clause ∈ clauses, clause.attribute? = some owned :=
  List.mem_filterMap

/-- Clauses that fit have distinct names. -/
theorem AllFit.names_nodup {clauses : List (Clause kind)} (h : AllFit earlier clauses) :
    ((attributes clauses).map Attribute.name).Nodup := by
  induction clauses using List.reverseRecOn with
  | nil => exact List.nodup_nil
  | append_singleton front clause ih =>
      obtain ⟨hfront, hclause⟩ := allFit_concat.1 h
      rw [attributes_concat, List.map_append]
      cases clause with
      | attr holds owned =>
          refine List.nodup_append.2 ⟨ih hfront, by simp [attribute?], ?_⟩
          intro word hword other hother heq
          obtain ⟨attr, hattr, rfl⟩ := List.mem_map.1 hword
          obtain rfl : other = owned.name := by simpa [attribute?] using hother
          exact hclause.1 attr hattr heq
      | key | branch | parent | child | attributeOf | between | across =>
          exact (List.append_nil _).symm ▸ ih hfront

theorem AllFit.distinct {clauses : List (Clause kind)} (h : AllFit earlier clauses) :
    ∀ owned ∈ attributes clauses, owned.Distinct := by
  intro owned howned
  obtain ⟨clause, hclause, hattribute⟩ := mem_attributes.1 howned
  obtain ⟨front, back, rfl⟩ := List.append_of_mem hclause
  have hfits := h front clause back rfl
  cases clause with
  | attr holds other =>
      cases hattribute
      exact hfits.2
  | key | branch | parent | child | attributeOf | between | across => cases hattribute

/-- Clauses that fit have one primary key at most. -/
theorem AllFit.single_key {clauses : List (Clause kind)} (h : AllFit earlier clauses) :
    (clauses.filterMap key?).length ≤ 1 := by
  induction clauses using List.reverseRecOn with
  | nil => exact Nat.zero_le 1
  | append_singleton front clause ih =>
      obtain ⟨hfront, hclause⟩ := allFit_concat.1 h
      rw [List.filterMap_append, List.length_append]
      cases clause with
      | key names =>
          have hnone : front.filterMap key? = [] := List.filterMap_eq_nil_iff.2 hclause.1
          rw [hnone]
          exact Nat.le_refl 1
      | attr | branch | parent | child | attributeOf | between | across => exact ih hfront

theorem Fits.owned {before : List (Clause kind)} {clause : Clause kind}
    (h : clause.Fits earlier before) {names : List String} (hkey : clause.key? = some names) :
    ∀ name ∈ names, ∃ attr ∈ attributes before, attr.name = name := by
  cases clause with
  | key =>
      cases hkey
      exact h.2
  | attr | branch | parent | child | attributeOf | between | across => cases hkey

theorem Fits.declares {before : List (Clause kind)} {clause : Clause kind}
    (h : clause.Fits earlier before) {other : Node.Kind} {name : String}
    (hmentioned : clause.mentioned? = some (other, name)) : earlier.Declares other name := by
  cases clause with
  | attr | key => cases hmentioned
  | attributeOf =>
      cases hmentioned
      obtain ⟨place, hplace, -⟩ := h
      exact Diagram.place?_isSome.1 ⟨place, hplace⟩
  | branch | parent | child | between | across =>
      cases hmentioned
      exact h

theorem Fits.attributeOf {before : List (Clause kind)} {clause : Clause kind}
    (h : clause.Fits earlier before) {name entity : String}
    (hattribute : clause.attributeOf? = some (name, entity)) :
    ∃ owner ∈ earlier, owner.kind = .entity ∧ owner.name = entity ∧
      ∃ attr ∈ owner.attributes, attr.name = name := by
  cases clause with
  | attributeOf =>
      cases hattribute
      obtain ⟨place, hplace, hattr⟩ := h
      obtain ⟨hkind, hname, front, back, rfl, -⟩ := Diagram.split_of_place? hplace
      exact ⟨place.2, by simp, hkind, hname, hattr⟩
  | attr | key | branch | parent | child | between | across => cases hattribute

/-- What it takes for a clause to fit behind others. -/
theorem fits_of {front back : List (Clause kind)} {clause : Clause kind}
    (hnodup : ((attributes (front ++ clause :: back)).map Attribute.name).Nodup)
    (hdistinct : ∀ owned ∈ attributes (front ++ clause :: back), owned.Distinct)
    (hsingle : ((front ++ clause :: back).filterMap key?).length ≤ 1)
    (howned : ∀ names, clause.key? = some names →
      ∀ name ∈ names, ∃ attr ∈ attributes front, attr.name = name)
    (hdeclares : ∀ other name, clause.mentioned? = some (other, name) → earlier.Declares other name)
    (hattribute : ∀ name entity, clause.attributeOf? = some (name, entity) →
      ∀ place, earlier.place? .entity entity = some place →
        ∃ attr ∈ place.2.attributes, attr.name = name) :
    clause.Fits earlier front := by
  rw [attributes, List.filterMap_append] at hnodup hdistinct
  rw [List.filterMap_append, List.length_append] at hsingle
  cases clause with
  | attr holds owned =>
      refine ⟨fun attr hattr => ?_, hdistinct owned (by simp [attribute?])⟩
      rw [List.map_append] at hnodup
      refine (List.nodup_append.1 hnodup).2.2 _ (List.mem_map_of_mem hattr) _ ?_
      exact List.mem_map_of_mem List.mem_cons_self
  | key names =>
      refine ⟨?_, howned names rfl⟩
      have hkey : ((key names :: back).filterMap key?).length =
          (back.filterMap key?).length + 1 := rfl
      have hnone : front.filterMap key? = [] := List.eq_nil_of_length_eq_zero (by omega)
      exact List.filterMap_eq_nil_iff.1 hnone
  | attributeOf name entity =>
      obtain ⟨place, hplace⟩ := Diagram.place?_isSome.2 (hdeclares .entity entity rfl)
      exact ⟨place, hplace, hattribute name entity rfl place hplace⟩
  | branch | parent | child | between | across => exact hdeclares _ _ rfl

end Clause

namespace Diagram

/-- Declarations that fit have distinct names. -/
theorem AllFit.names_nodup {diagram : Diagram} (h : diagram.AllFit) :
    (diagram.map fun declaration => (declaration.kind, declaration.name)).Nodup := by
  induction diagram using List.reverseRecOn with
  | nil => exact List.nodup_nil
  | append_singleton front declaration ih =>
      obtain ⟨hfront, hnew, -⟩ := allFit_concat.1 h
      rw [List.map_append]
      refine List.nodup_append.2 ⟨ih hfront, by simp, ?_⟩
      intro pair hpair other hother heq
      obtain ⟨first, hfirst, rfl⟩ := List.mem_map.1 hpair
      obtain rfl : other = (declaration.kind, declaration.name) := by simpa using hother
      exact hnew ⟨first, hfirst, congrArg Prod.fst heq, congrArg Prod.snd heq⟩

theorem AllFit.valid {diagram : Diagram} (h : diagram.AllFit) : diagram.Valid := by
  -- Every declaration stands somewhere, and its clauses fit there.
  have hclauses : ∀ declaration ∈ diagram, ∃ front back,
      diagram = front ++ declaration :: back ∧ Clause.AllFit front declaration.clauses := by
    intro declaration hdeclaration
    obtain ⟨front, back, hsplit⟩ := List.append_of_mem hdeclaration
    exact ⟨front, back, hsplit, (h front declaration back hsplit).2⟩
  refine ⟨⟨h.names_nodup, fun declaration hdeclaration => ?_⟩,
    ⟨fun declaration hdeclaration => ?_, fun declaration hdeclaration => ?_⟩, ?_, ?_⟩
  · obtain ⟨front, back, -, hfit⟩ := hclauses declaration hdeclaration
    exact ⟨hfit.names_nodup, hfit.distinct⟩
  · obtain ⟨front, back, -, hfit⟩ := hclauses declaration hdeclaration
    exact hfit.single_key
  · intro before clause after names hsplit hkey
    obtain ⟨front, back, -, hfit⟩ := hclauses declaration hdeclaration
    exact (hfit before clause after hsplit).owned hkey
  · intro front declaration back hsplit clause hclause kind name hmentioned
    obtain ⟨before, after, hsplit'⟩ := List.append_of_mem hclause
    exact ((h front declaration back hsplit).2 before clause after hsplit').declares hmentioned
  · intro declaration hdeclaration clause hclause name entity hattribute
    obtain ⟨front, back, rfl, hfit⟩ := hclauses declaration hdeclaration
    obtain ⟨before, after, hsplit⟩ := List.append_of_mem hclause
    obtain ⟨owner, howner, hfound⟩ := (hfit before clause after hsplit).attributeOf hattribute
    exact ⟨owner, List.mem_append_left _ howner, hfound⟩

theorem Valid.fits {diagram : Diagram} (h : diagram.Valid) {declaration : Declaration}
    {later : Diagram} (hsplit : diagram = earlier ++ declaration :: later) :
    declaration.Fits earlier := by
  have hmem : declaration ∈ diagram := by simp [hsplit]
  refine ⟨?_, fun front clause back hclauses => ?_⟩
  · rintro ⟨other, hother, hkind, hname⟩
    have hnodup := h.names.declarations
    rw [hsplit, List.map_append, List.map_cons] at hnodup
    have hdisjoint := (List.nodup_append.1 hnodup).2.2
    exact hdisjoint _ (List.mem_map_of_mem hother) _ List.mem_cons_self
      (congrArg₂ Prod.mk hkind hname)
  · have hclause : clause ∈ declaration.clauses := by simp [hclauses]
    have hdeclares : ∀ kind name, clause.mentioned? = some (kind, name) →
        Declares earlier kind name :=
      fun kind name => h.mentions earlier declaration later hsplit clause hclause kind name
    obtain ⟨hnodup, hdistinct⟩ := h.names.attributes declaration hmem
    have hsingle := h.keys.single declaration hmem
    rw [Declaration.attributes, hclauses] at hnodup hdistinct
    rw [hclauses] at hsingle
    refine Clause.fits_of hnodup hdistinct hsingle
      (fun names => h.keys.owned declaration hmem front clause back names hclauses) hdeclares ?_
    intro name entity hattribute place hplace
    obtain ⟨hkind, hname, before, after, hearlier, -⟩ := split_of_place? hplace
    obtain ⟨owner, howner, hkind', hname', hattr⟩ :=
      h.attributes declaration hmem clause hclause name entity hattribute
    -- Names are distinct, so the entity that is found is the one that has the attribute.
    have hplace' : place.2 ∈ diagram := by simp [hsplit, hearlier]
    have hsame : owner = place.2 := List.inj_on_of_nodup_map h.names.declarations howner hplace'
      (by rw [hkind, hname, hkind', hname'])
    exact hsame ▸ hattr

/-- A diagram is valid exactly if its parts fit, each behind those before it. -/
theorem allFit_iff {diagram : Diagram} : diagram.AllFit ↔ diagram.Valid :=
  ⟨AllFit.valid, fun h _ _ _ hsplit => h.fits hsplit⟩

instance : DecidablePred Valid :=
  fun _ => decidable_of_iff _ allFit_iff

end Diagram
end ErDiagram
