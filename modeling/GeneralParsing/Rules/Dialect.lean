import GeneralParsing.Extraction.Walk
import GeneralParsing.Forest.Parse
import GeneralParsing.Grammar.Builder
import GeneralParsing.Rules.Basic
import GeneralParsing.Text.Blank

/-!
# The dialect that grammar text is written in

Grammar text is itself parsed by a grammar, `Dialect.grammar`, which is put together here by hand.
Blanks around the text do not matter, and a semicolon may end it. `Dialect.parse` yields the tree
of a text, and `Dialect.rules` the rules in it. A text that is no grammar is refused at a line and
a column.
-/

namespace GeneralParsing.Dialect

open Builder

variable [PatternReader]

/-- A literal that leaves **no trace**. -/
def omittedToken (text : String) : Build ExprId := do omitted (← token text)

/-- The expressions that **phrases are made from**. -/
structure Parts where
  /-- The opening brace. -/
  openBrace : ExprId
  /-- The closing brace. -/
  closeBrace : ExprId
  /-- The comma. -/
  comma : ExprId
  /-- The opening angle. -/
  openAngle : ExprId
  /-- The closing angle. -/
  closeAngle : ExprId
  /-- The opening parenthesis. -/
  openParen : ExprId
  /-- The closing parenthesis. -/
  closeParen : ExprId
  /-- The opening bracket. -/
  openBracket : ExprId
  /-- The closing bracket. -/
  closeBracket : ExprId
  /-- A symbol. -/
  symbol : ExprId
  /-- The name of a hidden rule. -/
  hiddenSymbol : ExprId
  /-- A literal. -/
  literal : ExprId
  /-- A pattern. -/
  pattern : ExprId
  /-- The end of a line. -/
  newline : ExprId
  /-- A blank. -/
  space : ExprId
  /-- Any number of blanks. -/
  spaces : ExprId
  /-- Any number of blanks, without a trace. -/
  optionalSpace : ExprId
  /-- A number. -/
  integer : ExprId

/-- Builds the parts. -/
def parts : Build Parts := do
  let openBrace ← omittedToken "\x7b"
  let closeBrace ← omittedToken "\x7d"
  let comma ← omittedToken ","
  let openAngle ← omittedToken "<"
  let closeAngle ← omittedToken ">"
  let openParen ← omittedToken "("
  let closeParen ← omittedToken ")"
  let openBracket ← omittedToken "["
  let closeBracket ← omittedToken "]"
  let nameCharacter ← Builder.pattern "[A-Za-z0-9_-]"
  let nameCharacters ← rep nameCharacter none 1 none
  let name ← lexical nameCharacters
  let symbol ← seq [name] (some "symbol")
  let hiddenSymbol ← seq [openAngle, name, closeAngle] (some "hiddenSymbol")
  let string ← quotedString "\"" "\\" none
  let literal ← seq [string] (some "token")
  let hash ← omittedToken "#"
  let pattern ← seq [hash, string] (some "regexp")
  let newline ← token "\n"
  let space ← Builder.pattern "\\s"
  let spaces ← rep space none 0 none
  let optionalSpace ← omitted spaces
  let digit ← Builder.pattern "[0-9]"
  let integer ← rep digit (some "integer") 1 none
  return {
    openBrace, closeBrace, comma, openAngle, closeAngle, openParen, closeParen, openBracket
    closeBracket, symbol, hiddenSymbol, literal, pattern, newline, space, spaces, optionalSpace
    integer }

/-- Builds **phrases**, in which phrases stand between brackets of all kinds. -/
def phraseBody (p : Parts) (phrase : ExprId) : Build ExprId := do
  let paren ← seq [p.openParen, p.optionalSpace, phrase, p.optionalSpace, p.closeParen] none
  let omittedPhrase ←
    seq [p.openAngle, p.optionalSpace, phrase, p.optionalSpace, p.closeAngle]
      (some "omittedSymbol")
  let lexicalPhrase ←
    seq [p.openBracket, p.optionalSpace, phrase, p.optionalSpace, p.closeBracket] (some "lex")
  let atom ← alt [p.symbol, p.literal, p.pattern, paren, omittedPhrase, lexicalPhrase] none
  let star ← omittedToken "*"
  let plus ← omittedToken "+"
  let question ← omittedToken "?"
  let repStar ← seq [atom, star] (some "repStar")
  let repPlus ← seq [atom, plus] (some "repPlus")
  let repQuestion ← seq [atom, question] (some "repQuestion")
  let repExact ← seq [atom, p.openBrace, p.integer, p.closeBrace] (some "repExact")
  let repMin ← seq [atom, p.openBrace, p.integer, p.comma, p.closeBrace] (some "repMin")
  let repMinMax ←
    seq [atom, p.openBrace, p.integer, p.comma, p.integer, p.closeBrace] (some "repMinMax")
  let quantified ← alt [repStar, repPlus, repQuestion, repExact, repMin, repMinMax] none
  let item ← alt [atom, quantified] none
  let gap ← rep p.space none 1 none
  let sequence ← delimitedList item gap none 2 (some "seq")
  let branch ← alt [atom, quantified, sequence] none
  let bar ← token "|"
  let alternation ← delimitedList branch bar (some p.spaces) 2 (some "alt")
  alt [atom, quantified, sequence, alternation] none

/-- Builds **whole texts** from the parts and phrases, and returns the start. -/
def textBody (p : Parts) (phrase : ExprId) : Build ExprId := do
  let colon ← token ":"
  let equals ← token "="
  let colonEquals ← seq [colon, equals] none
  let colonColonEquals ← seq [colon, colon, equals] none
  let definedAs ← omitted (← alt [equals, colonEquals, colonColonEquals] none)
  let name ← alt [p.symbol, p.hiddenSymbol] none
  let rule ←
    seq [name, p.optionalSpace, definedAs, p.optionalSpace, phrase] (some "rule")
  let semicolon ← token ";"
  let separator ← alt [p.newline, semicolon] none
  let rules ← delimitedList rule separator (some p.optionalSpace) 1 (some "rules")
  let trailing ← omitted (← rep semicolon none 0 (some 1))
  seq [rules, p.optionalSpace, trailing] none

/-- Builds the grammar of the dialect and returns the start. -/
def text : Build ExprId := do
  let p ← parts
  let phrases ← recs 1 fun slots => slots.mapM (phraseBody p)
  textBody p (phrases.headD 0)

/-- The **grammar of the dialect**. -/
def grammar : Except Error Grammar :=
  match Builder.run text with
  | (.ok start, b) => b.finish start
  | (.error e, _) => .error e

/-- The **line and column** of the place after these characters, both counted from one. -/
def location (before : List Char) : Nat × Nat :=
  before.foldl (fun (line, column) c => if c = '\n' then (line + 1, 1) else (line, column + 1))
    (1, 1)

/-- The error that a text is refused after `offset` characters. -/
def refuse (source : List Char) (offset : Nat) : Error :=
  let (line, column) := location (source.take offset)
  .grammarSyntax line column

/-- The **tree of a grammar text**, and the number of the next new family. The place of an error
is counted in the text with its surrounding blanks. -/
def parse (source : List Char) : Except Error (NumberedTree × Nat) := do
  let g ← grammar
  match Forest.parse g (Forest.characters (Text.trim source)) with
  | .ok forest => forest.extract {}
  | .error (.rejected position) =>
    throw (refuse source (source.length - (Text.trimStart source).length + position))
  | .error (.broken fault) => throw (.broken fault)

/-- The **rules of a grammar text**, in order. -/
def rules (source : List Char) : Except Error (List Rule) := do
  let (tree, _) ← parse source
  Rule.listOfTree tree

end GeneralParsing.Dialect
