import GeneralParsing.Span

/-!
# Trees

A **tree** is a label with or without a list of children. Labels carry a tag, a value and a span,
each optional. A *packed* tree stands for several derivations of one span and has them as its
children; a *group* is an inner tree with neither tag nor value, standing for several siblings.

Trees share their parts, and it can be asked how many distinct parts there are. So a list of
children is a **family** with a mark of some type `ι`: two lists with the same mark are one and
the same list, used in two places. A tree is known by its place in a family. `Tree Unit` is a
tree with no regard to sharing, and `Tree.plain` forgets the marks.
-/

namespace GeneralParsing

/-- What a tree says **apart from its children**. -/
structure Label where
  /-- The name of the node. -/
  tag : Option String := none
  /-- The text of the node. -/
  value : Option String := none
  /-- The stretch of input that the node covers. -/
  span : Option Span := none
  /-- Whether the children are alternatives. -/
  packed : Bool := false
  deriving Repr, DecidableEq

/-- A **tree** whose families of children carry marks of type `ι`. -/
inductive Tree (ι : Type) where
  /-- A tree without a list of children. -/
  | leaf (label : Label)
  /-- A tree with a family of children, which may be empty. -/
  | branch (label : Label) (family : ι) (children : List (Tree ι))
  deriving Repr

namespace Tree

variable {ι : Type}

instance : Inhabited (Tree ι) := ⟨leaf {}⟩

/-- The label of the root. -/
def label : Tree ι → Label
  | leaf label => label
  | branch label _ _ => label

/-- The children, none for a tree without a list. -/
def children : Tree ι → List (Tree ι)
  | leaf _ => []
  | branch _ _ children => children

/-- Whether there is a list of children, be it empty. -/
def isBranch : Tree ι → Bool
  | leaf _ => false
  | branch _ _ _ => true

/-- The same tree under another label. -/
def withLabel (label : Label) : Tree ι → Tree ι
  | leaf _ => leaf label
  | branch _ family children => branch label family children

/-- The tree **with a span**. -/
def withSpan (span : Span) (t : Tree ι) : Tree ι :=
  t.withLabel { t.label with span := some span }

/-- Whether the children are **alternatives**. -/
def isPacked (t : Tree ι) : Bool := t.label.packed

/-- Whether the tree stands for **several siblings**. -/
def isGroup (t : Tree ι) : Bool :=
  !t.label.packed && t.label.tag.isNone && t.label.value.isNone && t.isBranch

/-- Whether the tree is an **untagged value**. -/
def isValueLeaf (t : Tree ι) : Bool :=
  !t.label.packed && t.label.tag.isNone && t.label.value.isSome

/-! ### Size -/

mutual

/-- The **size** of a tree, without regard to sharing. -/
def size : Tree ι → Nat
  | leaf _ => 1
  | branch _ _ children => 2 + sizeList children

/-- The total size of a list of trees. -/
def sizeList : List (Tree ι) → Nat
  | [] => 0
  | t :: ts => t.size + sizeList ts

end

theorem size_pos (t : Tree ι) : 0 < t.size := by
  cases t <;> simp only [size] <;> omega

theorem sizeList_append (ts us : List (Tree ι)) :
    sizeList (ts ++ us) = sizeList ts + sizeList us := by
  induction ts with
  | nil => simp [sizeList]
  | cons t ts ih => simp [sizeList, ih]; omega

/-! ### Forgetting the marks -/

mutual

/-- The tree with **no regard to sharing**. -/
def plain : Tree ι → Tree Unit
  | leaf label => leaf label
  | branch label _ children => branch label () (plainList children)

/-- The trees with no regard to sharing. -/
def plainList : List (Tree ι) → List (Tree Unit)
  | [] => []
  | t :: ts => t.plain :: plainList ts

end

theorem plainList_eq_map (ts : List (Tree ι)) : plainList ts = ts.map plain := by
  induction ts with
  | nil => rfl
  | cons t ts ih => simp [plainList, ih]

@[simp] theorem label_plain (t : Tree ι) : t.plain.label = t.label := by cases t <;> rfl

theorem children_plain (t : Tree ι) : t.plain.children = t.children.map plain := by
  cases t <;> simp [plain, children, plainList_eq_map]

end Tree

end GeneralParsing
