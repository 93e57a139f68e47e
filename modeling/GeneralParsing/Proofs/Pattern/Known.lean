import GeneralParsing.Pattern.Basic
import GeneralParsing.Pattern.Escape
import GeneralParsing.Text.Blank

/-!
# The patterns that are used

Grammars for grammar text and quoted strings are built with patterns of a few forms, each for one
character of a class. `KnownPatterns` says what a reader is to make of these. All that is proved of
grammar text and of quoted strings is proved for any such reader.
-/

namespace GeneralParsing

/-- Whether a text is **one character** of a class. -/
def oneOf (ofClass : Char → Bool) : List Char → Bool
  | [c] => ofClass c
  | _ => false

/-- Whether a symbol is **one character** of a class. -/
def single (ofClass : Char → Bool) (symbol : String) : Bool := oneOf ofClass symbol.toList

/-- A character **of names**. -/
def isNameCharacter (c : Char) : Bool := c.isAlphanum || c == '_' || c == '-'

/-- A source is read, and between anchors it is read as the test for **one character of a
class**. -/
def ReadsClass (read? : List Char → Option (List Char → Bool)) (source : List Char)
    (ofClass : Char → Bool) : Prop :=
  (read? source).isSome = true ∧ read? (Pattern.anchor source) = some (oneOf ofClass)

/-- A reader of regular expressions that **knows the patterns in use**. -/
class KnownPatterns extends PatternReader where
  /-- Letters, digits, the underscore and the hyphen. -/
  name : ReadsClass read? "[A-Za-z0-9_-]".toList isNameCharacter
  /-- White space. -/
  blank : ReadsClass read? "\\s".toList isBlank
  /-- The digits from zero to nine. -/
  digit : ReadsClass read? "[0-9]".toList Char.isDigit
  /-- All characters but two, whatever these are, once they are escaped. -/
  others (c d : Char) :
    ReadsClass read? ('[' :: '^' :: Pattern.escape [c, d] ++ [']']) fun x => x != c && x != d

namespace Pattern

/-- The **source** of a pattern that excludes two characters. -/
def excluding (c d : Char) : String := String.ofList ('[' :: '^' :: escape [c, d] ++ [']'])

/-- A pattern for **one character of a class**. -/
def ofClass (source : String) (ofClass : Char → Bool) : Pattern := ⟨source, oneOf ofClass⟩

theorem read_of_readsClass [PatternReader] {source : String} {ofClass : Char → Bool}
    (h : ReadsClass PatternReader.read? source.toList ofClass) :
    read source = .ok (.ofClass source ofClass) :=
  read_eq_ok_iff.mpr ⟨h.1, h.2, rfl⟩

theorem read_excluding [KnownPatterns] (c d : Char) :
    read (excluding c d) = .ok (.ofClass (excluding c d) fun x => x != c && x != d) := by
  refine read_of_readsClass ?_
  rw [excluding, String.toList_ofList]
  exact KnownPatterns.others c d

end Pattern

end GeneralParsing
