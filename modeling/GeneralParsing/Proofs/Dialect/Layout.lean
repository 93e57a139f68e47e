import GeneralParsing.Proofs.Pattern.Known
import GeneralParsing.Rules.Dialect
import Mathlib

/-!
# The expressions of the dialect

The grammar of the dialect is put together step by step. Here it is once more, written out in full
with a name for every expression (`Dialect.written`), and it is what the steps come to with any
reader that knows the patterns in use (`Dialect.grammar_eq`). All that is proved about the dialect
is proved about this list.

Every symbol of the dialect is a single character. `single` says of which class.
-/

namespace GeneralParsing

namespace Dialect

/-! ### The classes of characters -/

/-- A character that **stands for itself** in strings. -/
def isPlain (c : Char) : Bool := c != '"' && c != '\\'

/-- One character of names. -/
def namePattern : Pattern := .ofClass "[A-Za-z0-9_-]" isNameCharacter

/-- One character that stands for itself in strings. -/
def plainPattern : Pattern := .ofClass "[^\"\\\\]" isPlain

/-- One blank. -/
def blankPattern : Pattern := .ofClass "\\s" isBlank

/-- One digit. -/
def digitPattern : Pattern := .ofClass "[0-9]" Char.isDigit

/-- The **four patterns** of the dialect. -/
def patterns : List Pattern := [namePattern, plainPattern, blankPattern, digitPattern]

/-- The patterns of the dialect accept **single characters** of their classes, whatever the reader,
as long as it knows them. -/
theorem accepts_namePattern : namePattern.accepts = single isNameCharacter := rfl

theorem accepts_plainPattern : plainPattern.accepts = single isPlain := rfl

theorem accepts_blankPattern : blankPattern.accepts = single isBlank := rfl

theorem accepts_digitPattern : digitPattern.accepts = single Char.isDigit := rfl

section

variable [KnownPatterns]

/-- The sources of the patterns in use **are read**, to the patterns above. -/
theorem read_namePattern : Pattern.read "[A-Za-z0-9_-]" = .ok namePattern :=
  Pattern.read_of_readsClass KnownPatterns.name

theorem read_plainPattern : Pattern.read "[^\"\\\\]" = .ok plainPattern :=
  Pattern.read_excluding '"' '\\'

theorem read_blankPattern : Pattern.read "\\s" = .ok blankPattern :=
  Pattern.read_of_readsClass KnownPatterns.blank

theorem read_digitPattern : Pattern.read "[0-9]" = .ok digitPattern :=
  Pattern.read_of_readsClass KnownPatterns.digit

end

/-! ### The grammar, written out -/

namespace Part

def openBrace : ExprId := 1
def closeBrace : ExprId := 3
def comma : ExprId := 5
def openAngle : ExprId := 7
def closeAngle : ExprId := 9
def openParen : ExprId := 11
def closeParen : ExprId := 13
def openBracket : ExprId := 15
def closeBracket : ExprId := 17
def nameCharacter : ExprId := 18
def nameCharacters : ExprId := 19
def name : ExprId := 20
def symbol : ExprId := 21
def hiddenSymbol : ExprId := 22
def escape : ExprId := 23
def escapeMark : ExprId := 24
def quote : ExprId := 25
def quoteMark : ExprId := 26
def plain : ExprId := 27
def escapedEscape : ExprId := 28
def escapedQuote : ExprId := 29
def piece : ExprId := 30
def pieces : ExprId := 31
def string : ExprId := 32
def quoted : ExprId := 33
def literal : ExprId := 34
def hash : ExprId := 36
def pattern : ExprId := 37
def newline : ExprId := 38
def space : ExprId := 39
def spaces : ExprId := 40
def optionalSpace : ExprId := 41
def digit : ExprId := 42
def integer : ExprId := 43
def phrase : ExprId := 44
def paren : ExprId := 45
def omittedPhrase : ExprId := 46
def lexicalPhrase : ExprId := 47
def atom : ExprId := 48
def star : ExprId := 50
def plus : ExprId := 52
def question : ExprId := 54
def repStar : ExprId := 55
def repPlus : ExprId := 56
def repQuestion : ExprId := 57
def repExact : ExprId := 58
def repMin : ExprId := 59
def repMinMax : ExprId := 60
def quantified : ExprId := 61
def item : ExprId := 62
def someSpace : ExprId := 63
def gap : ExprId := 64
def nextItem : ExprId := 65
def nextItems : ExprId := 66
def sequence : ExprId := 67
def branch : ExprId := 68
def barToken : ExprId := 69
def spacedBar : ExprId := 70
def bar : ExprId := 71
def nextBranch : ExprId := 72
def nextBranches : ExprId := 73
def alternation : ExprId := 74
def colon : ExprId := 76
def equals : ExprId := 77
def colonEquals : ExprId := 78
def colonColonEquals : ExprId := 79
def definition : ExprId := 80
def definedAs : ExprId := 81
def ruleName : ExprId := 82
def rule : ExprId := 83
def semicolon : ExprId := 84
def separatorMark : ExprId := 85
def spacedSeparator : ExprId := 86
def separator : ExprId := 87
def nextRule : ExprId := 88
def nextRules : ExprId := 89
def rules : ExprId := 90
def lastSemicolon : ExprId := 91
def trailing : ExprId := 92
def text : ExprId := 93

end Part

open GeneralParsing.Dialect.Part in
/-- The **expressions of the dialect** in order. Those before `openBrace` and the like are their
tokens, and the last but those of rules is a copy of `phrase` that nothing refers to. -/
def expressions : Array Expr := #[
  .token "\x7b", .omitted 0, .token "\x7d", .omitted 2, .token ",", .omitted 4, .token "<",
  .omitted 6, .token ">", .omitted 8, .token "(", .omitted 10, .token ")", .omitted 12,
  .token "[", .omitted 14, .token "]", .omitted 16,
  -- names and strings
  .pattern namePattern,
  .rep none nameCharacter 1 none, .lexical nameCharacters, .seq (some "symbol") [name],
  .seq (some "hiddenSymbol") [openAngle, name, closeAngle],
  .token "\\", .omitted escape, .token "\"", .omitted quote,
  .pattern plainPattern,
  .seq none [escapeMark, escape], .seq none [escapeMark, quote],
  .alt none [plain, escapedEscape, escapedQuote], .rep none piece 0 none, .lexical pieces,
  .seq none [quoteMark, string, quoteMark], .seq (some "token") [quoted], .token "#", .omitted 35,
  .seq (some "regexp") [hash, quoted],
  -- blanks and numbers
  .token "\n", .pattern blankPattern, .rep none space 0 none, .omitted spaces,
  .pattern digitPattern,
  .rep (some "integer") digit 1 none,
  -- phrases
  .alt none [atom, quantified, sequence, alternation],
  .seq none [openParen, optionalSpace, phrase, optionalSpace, closeParen],
  .seq (some "omittedSymbol") [openAngle, optionalSpace, phrase, optionalSpace, closeAngle],
  .seq (some "lex") [openBracket, optionalSpace, phrase, optionalSpace, closeBracket],
  .alt none [symbol, literal, pattern, paren, omittedPhrase, lexicalPhrase],
  .token "*", .omitted 49, .token "+", .omitted 51, .token "?", .omitted 53,
  .seq (some "repStar") [atom, star], .seq (some "repPlus") [atom, plus],
  .seq (some "repQuestion") [atom, question],
  .seq (some "repExact") [atom, openBrace, integer, closeBrace],
  .seq (some "repMin") [atom, openBrace, integer, comma, closeBrace],
  .seq (some "repMinMax") [atom, openBrace, integer, comma, integer, closeBrace],
  .alt none [repStar, repPlus, repQuestion, repExact, repMin, repMinMax],
  .alt none [atom, quantified], .rep none space 1 none, .omitted someSpace,
  .seq none [gap, item], .rep none nextItem 1 none, .seq (some "seq") [item, nextItems],
  .alt none [atom, quantified, sequence], .token "|",
  .seq none [spaces, barToken, spaces], .omitted spacedBar, .seq none [bar, branch],
  .rep none nextBranch 1 none, .seq (some "alt") [branch, nextBranches],
  .alt none [atom, quantified, sequence, alternation],
  -- rules
  .token ":", .token "=", .seq none [colon, equals], .seq none [colon, colon, equals],
  .alt none [equals, colonEquals, colonColonEquals], .omitted definition,
  .alt none [symbol, hiddenSymbol],
  .seq (some "rule") [ruleName, optionalSpace, definedAs, optionalSpace, phrase],
  .token ";", .alt none [newline, semicolon],
  .seq none [optionalSpace, separatorMark, optionalSpace], .omitted spacedSeparator,
  .seq none [separator, rule], .rep none nextRule 0 none, .seq (some "rules") [rule, nextRules],
  .rep none semicolon 0 (some 1), .omitted lastSemicolon,
  .seq none [Part.rules, optionalSpace, trailing]]

/-- The dialect has **no other patterns** than the four. -/
theorem mem_patterns {p : Pattern} (h : Expr.pattern p ∈ expressions.toList) : p ∈ patterns := by
  simpa [expressions, patterns] using h

/-- The **grammar of the dialect**, written out. -/
def written : Grammar := ⟨expressions, Part.text, by decide⟩

set_option maxRecDepth 2000 in
open Builder in
/-- Step by step one comes to **the grammar that is written out**, whatever else the reader of
patterns makes of its sources: the steps read four patterns, and these are known. -/
theorem grammar_eq [KnownPatterns] : grammar = .ok written := by
  have hexcluded : String.ofList ('[' :: '^' ::
      (Pattern.escape "\"".toList ++ Pattern.escape "\\".toList) ++ [']']) = "[^\"\\\\]" := by
    decide +kernel
  simp only [grammar, text, parts, quotedString, hexcluded, pattern_of_read read_namePattern,
    pattern_of_read read_plainPattern, pattern_of_read read_blankPattern,
    pattern_of_read read_digitPattern]
  cbv

/-- The grammar of the dialect refers **to expressions it has**. -/
theorem closed_written : written.Closed := by
  have hall : ∀ e ∈ expressions.toList, ∀ id ∈ e.children, id < 94 := by decide +kernel
  exact fun e he => hall e (Array.mem_toList_iff.mpr he)

end Dialect

end GeneralParsing
