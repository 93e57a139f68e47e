import GeneralParsing.Tree.Basic

/-!
# Building trees

Trees are built with numbers for marks. Every list of children that is put together is a new
family and gets the next number, whereas a tree that is used again keeps the family of its
children. So equal numbers always mean equal lists.
-/

namespace GeneralParsing

/-- A computation that **numbers new families**. -/
abbrev Numbering := StateM Nat

/-- The number of a new family. -/
def newFamily : Numbering Nat := modifyGet fun n => (n, n + 1)

/-- A tree whose families are numbered. -/
abbrev NumberedTree := Tree Nat

namespace NumberedTree

/-- A tree with a **new family** of children. -/
def inner (label : Label) (children : List NumberedTree) : Numbering NumberedTree := do
  return .branch label (← newFamily) children

/-- An **untagged value**. -/
def value (text : String) : NumberedTree := .leaf { value := some text }

/-- A **tagged value**. -/
def taggedValue (tag text : String) : NumberedTree :=
  .leaf { tag := some tag, value := some text }

/-- A **tagged node**. -/
def node (tag : String) (children : List NumberedTree) : Numbering NumberedTree :=
  inner { tag := some tag } children

/-- A **group** of siblings. -/
def group (children : List NumberedTree) : Numbering NumberedTree := inner {} children

/-- A **packed** tree with these alternatives. -/
def packed (alternatives : List NumberedTree) : Numbering NumberedTree :=
  inner { packed := true } alternatives

end NumberedTree

end GeneralParsing
