import GeneralParsing.Error
import GeneralParsing.Extraction.Shape
import GeneralParsing.Forest.Basic
import Std.Data.HashMap

/-!
# Extracting a tree from a forest

The **output** of a node is the list of trees it contributes to the children of the node above, or
nothing at all when every derivation of it leads back to itself. A sequence strings the outputs of
its children together. A choice takes what the policy says from the outputs of its alternatives;
an alternative without trees only shows that there is a derivation, and never counts as
ambiguity.

The walk goes down from the roots and keeps the path it has come by. A node on the path is a
derivation of itself inside itself, and is **cut**. Outputs are remembered, except those that a
cut had a part in, because these hold for one path only.
-/

namespace GeneralParsing

/-- What the **walk remembers**. -/
structure Walk where
  /-- The outputs of nodes that hold on every path. -/
  known : Std.HashMap NodeId (Option (List NumberedTree)) := ∅
  /-- How often a derivation has been cut. -/
  cuts : Nat := 0
  /-- The number of the next new family. -/
  next : Nat := 0

/-- A part of the **walk**, which may fail. -/
abbrev Extract := StateT Walk (Except Error)

namespace Extract

/-- The **output** of a node: trees, or nothing when there is no derivation but through itself. -/
abbrev Output := Option (List NumberedTree)

/-- Shapes trees, numbering new families on from the last. -/
def shape {α : Type} (x : Numbering α) : Extract α :=
  modifyGet fun w => let (a, next) := x.run w.next; (a, { w with next })

/-- Strings outputs together, **stopping at the first** node that has none. -/
def inOrder (visit : NodeId → Extract Output) (trees : Array NumberedTree) :
    List NodeId → Extract Output
  | [] => return some trees.toList
  | id :: rest => do
    match ← visit id with
    | none => return none
    | some more => inOrder visit (trees ++ more) rest

/-- Gathers what the **alternatives** give, the latest first, together with whether any of them
has an output. -/
def alternatives (policy : Ambiguity) (visit : NodeId → Extract Output) (viable : Bool)
    (found : List (List NumberedTree)) : List NodeId → Extract (Bool × List (List NumberedTree))
  | [] => return (viable, found)
  | id :: rest => do
    match ← visit id with
    | none => alternatives policy visit viable found rest
    | some [] => alternatives policy visit true found rest
    | some (t :: ts) =>
      match policy with
      | .first => return (true, (t :: ts) :: found)
      | .error =>
        if found.isEmpty then alternatives policy visit true [t :: ts] rest
        else throw .ambiguous
      | .packed => alternatives policy visit true ((t :: ts) :: found) rest

/-- The output of a **choice** among nodes. -/
def choose (o : ParseOptions) (visit : NodeId → Extract Output) (span : Span)
    (ids : List NodeId) : Extract Output := do
  match ← alternatives o.ambiguity visit false [] ids with
  | (false, _) => return none
  | (true, []) => return some []
  | (true, [only]) => return some only
  | (true, found) => return some [← shape (o.pack span found.reverse)]

/-- Remembers the output of a node, **unless** there were cuts since it was entered. -/
def remember (id : NodeId) (cutsBefore : Nat) (output : Output) : Extract Output :=
  modifyGet fun w =>
    (output, if w.cuts = cutsBefore then { w with known := w.known.insert id output } else w)

/-- The output of an inner node: its trees, tagged, and remembered where that is right. -/
def settle (o : ParseOptions) (id : NodeId) (span : Span) (tag : Option String)
    (trees : Extract Output) : Extract Output := do
  let cutsBefore := (← get).cuts
  match ← trees with
  | none => remember id cutsBefore none
  | some trees => remember id cutsBefore (some (← shape (o.labelled span tag trees)))

/-- The output of a node that is **reached by a path**, which comes nearest first. Nodes on a path
are distinct, so its length is bounded by the size of the forest. -/
def visit (f : Forest) (o : ParseOptions) : Nat → List NodeId → NodeId → Extract Output
  | 0, _, _ => throw (.broken .outOfSteps)
  | depth + 1, path, id => do
    match (← get).known[id]? with
    | some output => return output
    | none =>
      if path.contains id then
        modify fun w => { w with cuts := w.cuts + 1 }
        return none
      else
        match f.node? id with
        | none => throw (.broken (.noNode id))
        | some ⟨kind, span⟩ =>
          match kind with
          | .symbol text => return some [o.spanned span (NumberedTree.value text)]
          | .omitted => return some []
          | .lexical child => return some [o.spanned span (NumberedTree.value (f.text child))]
          | .sequence none [] => return some []
          | .sequence (some tag) [] =>
            return some [o.spanned span (NumberedTree.taggedValue tag "")]
          | .sequence tag children =>
            settle o id span tag (inOrder (visit f o depth (id :: path)) #[] children)
          | .choice tag alternatives =>
            settle o id span tag (choose o (visit f o depth (id :: path)) span alternatives)

end Extract

namespace Forest

/-- The trees of the roots **as one tree**, in a group unless there is just one. -/
def rootTree (f : Forest) (o : ParseOptions) : List NumberedTree → Extract NumberedTree
  | [only] => return only
  | trees => return o.spanned f.wholeSpan (← Extract.shape (NumberedTree.group trees))

/-- The walk over a **whole forest**: the choice among its roots, as one tree. -/
def extractTree (f : Forest) (o : ParseOptions) : Extract NumberedTree := do
  let output ← Extract.choose o (Extract.visit f o (f.size + 1) []) f.wholeSpan f.roots
  f.rootTree o (output.getD [])

/-- **Extracts** a tree, and the number of the next new family. -/
def extract (f : Forest) (o : ParseOptions) : Except Error (NumberedTree × Nat) :=
  ((f.extractTree o).run {}).map fun (t, w) => (t, w.next)

end Forest

end GeneralParsing
