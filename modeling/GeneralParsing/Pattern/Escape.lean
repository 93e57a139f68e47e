/-!
# Escaping characters that mean something in a pattern

`Pattern.escape` writes a text as a pattern that matches it literally: a backslash goes before
each of the characters that a pattern could read as an operator, also before those that are
operators only inside brackets or in a verbose pattern.
-/

namespace GeneralParsing.Pattern

/-- The characters that a pattern may read as **operators**. -/
def operators : List Char :=
  ['\\', '.', '+', '*', '?', '(', ')', '|', '[', ']', '\x7b', '\x7d', '^', '$', '#', '&', '-', '~']

/-- Whether the character may be an operator. -/
def isOperator (c : Char) : Bool := operators.contains c

/-- The character as a pattern that **stands for itself**. -/
def escapeCharacter (c : Char) : List Char := if isOperator c then ['\\', c] else [c]

/-- The text as a pattern that **stands for itself**. -/
def escape (text : List Char) : List Char := text.flatMap escapeCharacter

end GeneralParsing.Pattern
