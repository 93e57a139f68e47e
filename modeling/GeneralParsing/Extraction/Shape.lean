import GeneralParsing.Extraction.Options
import GeneralParsing.Tree.Build

/-!
# The shapes of extracted trees

What a result looks like in a tree: the output of several derivations is packed into one tree, and
a tagged result wraps its output in a node.

Packed trees are kept flat and out of the way. An alternative that is itself packed gives up its
alternatives to the outer one. A tag around a packed tree moves into the alternatives when that
alone lets them keep the form they would have had by themselves: when all are groups, whose
members then become children of the tagged node, or when one is a value that the tag can join.
-/

namespace GeneralParsing

namespace ParseOptions

/-- The tree with the span, **if spans are recorded**. -/
def spanned (o : ParseOptions) (span : Span) (t : NumberedTree) : NumberedTree :=
  if o.spans then t.withSpan span else t

/-- The alternatives that **one derivation** contributes: its only tree, or the alternatives of
that tree if it is packed, or else its trees as a group. -/
def alternatives (o : ParseOptions) (span : Span) :
    List NumberedTree → Numbering (List NumberedTree)
  | [t] => return if t.isPacked then t.children else [t]
  | ts => do return [o.spanned span (← NumberedTree.group ts)]

/-- The outputs of **several derivations** as one tree. -/
def pack (o : ParseOptions) (span : Span) (found : List (List NumberedTree)) :
    Numbering NumberedTree := do
  let parts ← found.mapM (o.alternatives span)
  return o.spanned span (← NumberedTree.packed parts.flatten)

/-- A **tagged node**, or a tagged value where collapsing is on and a lone untagged value is all
there is. -/
def wrap (o : ParseOptions) (span : Span) (tag : String) (children : List NumberedTree) :
    Numbering NumberedTree := do
  let plain := o.spanned span <$> NumberedTree.node tag children
  match children with
  | [only] =>
    match only.label.value with
    | some text =>
      if o.collapse && only.isValueLeaf then
        return o.spanned span (NumberedTree.taggedValue tag text)
      else plain
    | none => plain
  | _ => plain

/-- Whether a tag **moves into the alternatives** of a packed tree. -/
def distributes (o : ParseOptions) (t : NumberedTree) : Bool :=
  t.isPacked
    && (t.children.all Tree.isGroup || (o.collapse && t.children.any Tree.isValueLeaf))

/-- The output of a **tagged result**. -/
def tagged (o : ParseOptions) (span : Span) (tag : String) (children : List NumberedTree) :
    Numbering NumberedTree :=
  match children with
  | [only] =>
    if o.distributes only then do
      let parts ← only.children.mapM fun part =>
        o.wrap span tag (if part.isGroup then part.children else [part])
      return o.spanned span (← NumberedTree.packed parts)
    else o.wrap span tag children
  | _ => o.wrap span tag children

/-- The output of a result, **tagged if it has a tag**. -/
def labelled (o : ParseOptions) (span : Span) (tag : Option String)
    (output : List NumberedTree) : Numbering (List NumberedTree) :=
  match tag with
  | some tag => do return [← o.tagged span tag output]
  | none => return output

end ParseOptions

end GeneralParsing
