import GeneralParsing.Text.CodeRanges

/-!
# Blank characters

A character is **blank** when it has the Unicode property `White_Space`. Trimming and splitting
into words both go by this class, and so does the class of spaces in patterns.
-/

namespace GeneralParsing

/-- The characters with the property `White_Space`. -/
def blankRanges : CodeRanges :=
  [(0x9, 0xD), (0x20, 0x20), (0x85, 0x85), (0xA0, 0xA0), (0x1680, 0x1680), (0x2000, 0x200A),
   (0x2028, 0x2029), (0x202F, 0x202F), (0x205F, 0x205F), (0x3000, 0x3000)]

/-- Whether the character is white space. -/
def isBlank (c : Char) : Bool := blankRanges.contains c

namespace Text

/-- The text without its **leading blanks**. -/
def trimStart (text : List Char) : List Char := text.dropWhile isBlank

/-- The text without its **trailing blanks**. -/
def trimEnd (text : List Char) : List Char := (text.reverse.dropWhile isBlank).reverse

/-- The text without blanks at either end. -/
def trim (text : List Char) : List Char := trimEnd (trimStart text)

/-- Splits off words, with the letters of the word being read in `word`, last letter first. -/
def wordsFrom (word : List Char) : List Char → List (List Char)
  | [] => if word.isEmpty then [] else [word.reverse]
  | c :: rest =>
    if isBlank c then
      if word.isEmpty then wordsFrom [] rest else word.reverse :: wordsFrom [] rest
    else wordsFrom (c :: word) rest

/-- The **words** of a text: its maximal runs of characters that are not blank. -/
def words (text : List Char) : List (List Char) := wordsFrom [] text

end Text

end GeneralParsing
