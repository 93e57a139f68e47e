import GeneralParsing.Text.Unprintable

/-!
# Quoted text

`Text.quote` writes a text between double quotes so that it stays on one line and every character
of it can be told from the outside: the quote and the backslash are escaped, the usual controls
have letters, and other characters that would not show are written by their code point. Single
quotes stand for themselves.
-/

namespace GeneralParsing.Text

/-- The code point in **lower case hexadecimal**, without leading zeros. -/
def hexadecimal (n : Nat) : List Char := Nat.toDigits 16 n

/-- What a character looks like **between quotes**. -/
def quoteCharacter (c : Char) : List Char :=
  if c = '"' then ['\\', '"']
  else if c = '\\' then ['\\', '\\']
  else if c = '\n' then ['\\', 'n']
  else if c = '\r' then ['\\', 'r']
  else if c = '\t' then ['\\', 't']
  else if c = '\x00' then ['\\', '0']
  else if isExtending c || isUnprintable c then
    ['\\', 'u', '\x7b'] ++ hexadecimal c.toNat ++ ['\x7d']
  else [c]

/-- The text **between double quotes**, each character as `quoteCharacter` writes it. -/
def quote (text : String) : String :=
  String.ofList ('"' :: text.toList.flatMap quoteCharacter ++ ['"'])

end GeneralParsing.Text
