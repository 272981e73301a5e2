import ErDiagram.WhiteSpace

/-!
The classification of a generalization hierarchy: a plain subset, or else total or partial and
exclusive or overlapped. It is kept as three flags, also in a three-bit pattern. A subset may carry
the other two flags, but then they mean nothing.
-/

namespace ErDiagram

/-- The flags of a classification as they are stored. -/
structure HierarchyType where
  subset : Bool
  total : Bool
  exclusive : Bool
  deriving DecidableEq

/-- A text that is no classification. -/
structure InvalidHierarchyType where
  text : String
  deriving DecidableEq

def InvalidHierarchyType.message (error : InvalidHierarchyType) : String :=
  "invalid gerarchy type '" ++ error.text ++ "'"

namespace HierarchyType

def plainSubset : HierarchyType :=
  ⟨true, false, false⟩

/-- The classification that is no subset, with the given coverage and disjointness. -/
def ofFacets (total exclusive : Bool) : HierarchyType :=
  ⟨false, total, exclusive⟩

/-- The bit pattern: four for a subset, two for total, one for exclusive. -/
def bits (type : HierarchyType) : Nat :=
  4 * type.subset.toNat + 2 * type.total.toNat + type.exclusive.toNat

/-- The classification with this bit pattern, if no other bit is set. -/
def ofBits? (bits : Nat) : Option HierarchyType :=
  if bits < 8 then some ⟨bits.testBit 2, bits.testBit 1, bits.testBit 0⟩ else none

def isSubset (type : HierarchyType) : Bool :=
  type.subset

/-- Whether every instance of the parent is one of a child. -/
def isTotal (type : HierarchyType) : Bool :=
  !type.subset && type.total

/-- Whether the parent may have instances of its own. -/
def isPartial (type : HierarchyType) : Bool :=
  !type.subset && !type.total

/-- Whether no instance is one of two children. -/
def isExclusive (type : HierarchyType) : Bool :=
  !type.subset && type.exclusive

/-- Whether an instance may be one of several children. -/
def isOverlapped (type : HierarchyType) : Bool :=
  !type.subset && !type.exclusive

def coverageWord (total : Bool) : String :=
  if total then "total" else "partial"

def disjointnessWord (exclusive : Bool) : String :=
  if exclusive then "exclusive" else "overlapped"

/-- The coverage that a word stands for: whether it is total. -/
def coverage? (word : String) : Option Bool :=
  if word = "total" then some true else if word = "partial" then some false else none

/-- The disjointness that a word stands for: whether it is exclusive. -/
def disjointness? (word : String) : Option Bool :=
  if word = "exclusive" then some true else if word = "overlapped" then some false else none

/-- The written form: `subset`, or the coverage and the disjointness. -/
def text (type : HierarchyType) : String :=
  if type.subset then "subset"
  else coverageWord type.total ++ " " ++ disjointnessWord type.exclusive

/-- The classification that some words write. -/
def ofWords? : List String → Option HierarchyType
  | [word] => if word = "subset" then some plainSubset else none
  | [first, second] => do
    let total ← coverage? first
    let exclusive ← disjointness? second
    some (ofFacets total exclusive)
  | _ => none

/-- Reads a classification from the words of a text, however they are spaced. -/
def ofString (text : String) : Except InvalidHierarchyType HierarchyType :=
  match ofWords? (words text) with
  | some type => .ok type
  | none => .error ⟨text⟩

theorem coverage?_coverageWord (total : Bool) : coverage? (coverageWord total) = some total := by
  cases total <;> rfl

theorem disjointness?_disjointnessWord (exclusive : Bool) :
    disjointness? (disjointnessWord exclusive) = some exclusive := by
  cases exclusive <;> rfl

theorem ofBits?_bits (type : HierarchyType) : ofBits? type.bits = some type := by
  obtain ⟨subset, total, exclusive⟩ := type
  cases subset <;> cases total <;> cases exclusive <;> rfl

end HierarchyType
end ErDiagram
