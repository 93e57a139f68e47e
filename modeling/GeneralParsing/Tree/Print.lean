import GeneralParsing.Text.Quoted
import GeneralParsing.Tree.Basic

/-!
# Printing a tree

A tree is printed one node a line, children below their parent and indented. Lines in front show
which nodes are siblings: a branch to each child, and a rail past the children that are not the
last.
-/

namespace GeneralParsing

/-- The label **as text**: what the node is, and its span after an at sign. -/
def Label.render (label : Label) : String :=
  let name :=
    if label.packed then "<packed>"
    else match label.tag, label.value with
      | some tag, some value => tag ++ " " ++ Text.quote value
      | none, some value => Text.quote value
      | some tag, none => tag
      | none, none => "<group>"
  match label.span with
  | some span => name ++ s!" @{span.start}..{span.stop}"
  | none => name

namespace Tree

variable {ι : Type}

mutual

/-- Adds the **lines of a tree**, the first of which begins with `head` and the others with
`indent`. -/
def addLines (lines : Array String) (head indent : String) : Tree ι → Array String
  | leaf label => lines.push (head ++ label.render)
  | branch label _ children =>
    addLinesList (lines.push (head ++ label.render)) indent children

/-- Adds the lines of **siblings**. -/
def addLinesList (lines : Array String) (indent : String) : List (Tree ι) → Array String
  | [] => lines
  | t :: ts =>
    if ts.isEmpty then addLines lines (indent ++ "\x60-- ") (indent ++ "    ") t
    else addLinesList (addLines lines (indent ++ "|-- ") (indent ++ "|   ") t) indent ts

end

/-- The tree **as indented text**. -/
def print (t : Tree ι) : String := String.intercalate "\n" (addLines #[] "" "" t).toList

end Tree

end GeneralParsing
