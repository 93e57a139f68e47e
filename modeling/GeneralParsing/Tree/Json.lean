import GeneralParsing.Tree.Basic

/-!
# Trees as JSON

A tree is written as a JSON object with the members `tag`, `value`, `children`, `span` and
`packed`, in this order and only as far as there is something to say: an absent tag, value, list
of children or span is left out, and so is `packed` when it is false. The layout puts every member
and element on a line of its own, indented by two spaces a level; an empty list stays closed.
-/

namespace GeneralParsing

namespace Json

/-- The digits of a code point below 256, **two in hexadecimal**. -/
def hexPair (n : Nat) : List Char := [Nat.digitChar (n / 16), Nat.digitChar (n % 16)]

/-- A character **inside a string**. Quotes, backslashes and controls are escaped. -/
def stringCharacter (c : Char) : List Char :=
  match c with
  | '"' => ['\\', '"']
  | '\\' => ['\\', '\\']
  | '\x08' => ['\\', 'b']
  | '\x0c' => ['\\', 'f']
  | '\n' => ['\\', 'n']
  | '\r' => ['\\', 'r']
  | '\t' => ['\\', 't']
  | c => if c.toNat < 32 then ['\\', 'u', '0', '0'] ++ hexPair c.toNat else [c]

/-- A **string**. -/
def string (text : String) : String :=
  String.ofList ('"' :: text.toList.flatMap stringCharacter ++ ['"'])

/-- The beginning of a line at a **level** of nesting. -/
def indentation (level : Nat) : String := "\n" ++ String.ofList (List.replicate (2 * level) ' ')

/-- Items between brackets, **one a line**. -/
def lines (opening closing : String) (level : Nat) (items : List String) : String :=
  if items.isEmpty then opening ++ closing
  else
    opening ++ indentation (level + 1)
      ++ String.intercalate ("," ++ indentation (level + 1)) items
      ++ indentation level ++ closing

/-- An **array** of written items. -/
def array (level : Nat) (items : List String) : String := lines "[" "]" level items

/-- An **object** of named written items. -/
def object (level : Nat) (members : List (String × String)) : String :=
  lines "\x7b" "\x7d" level (members.map fun (name, item) => string name ++ ": " ++ item)

end Json

/-- A **span** as an object. -/
def Span.json (level : Nat) (span : Span) : String :=
  Json.object level [("start", toString span.start), ("end", toString span.stop)]

namespace Tree

variable {ι : Type}

/-- The members of an object for a tree whose children, if any, **are written**. -/
def jsonMembers (level : Nat) (label : Label) (children : Option (List String)) :
    List (String × String) :=
  (label.tag.map fun tag => ("tag", Json.string tag)).toList
    ++ (label.value.map fun value => ("value", Json.string value)).toList
    ++ (children.map fun items => ("children", Json.array (level + 1) items)).toList
    ++ (label.span.map fun span => ("span", span.json (level + 1))).toList
    ++ (if label.packed then [("packed", "true")] else [])

mutual

/-- A tree as an object at a level of nesting. -/
def jsonAt (level : Nat) : Tree ι → String
  | leaf label => Json.object level (jsonMembers level label none)
  | branch label _ children =>
    Json.object level (jsonMembers level label (some (jsonList (level + 2) children)))

/-- Trees as objects at a level of nesting. -/
def jsonList (level : Nat) : List (Tree ι) → List String
  | [] => []
  | t :: ts => jsonAt level t :: jsonList level ts

end

/-- The tree **as JSON**. -/
def json (t : Tree ι) : String := t.jsonAt 0

end Tree

end GeneralParsing
