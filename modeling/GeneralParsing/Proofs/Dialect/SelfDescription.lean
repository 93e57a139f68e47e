import GeneralParsing.Proofs.Dialect.Printing
import GeneralParsing.Proofs.Dialect.RoundTrip
import GeneralParsing.Rules.SelfDescription

/-!
# The rules of the dialect

The dialect is described in itself. Here are the rules that its description holds (`selfRules`),
and the description is read as these rules (`rules_selfDescription`): it is their plain text.
-/

namespace GeneralParsing.Dialect

/-- A mark that leaves **no trace**. -/
def silentMark (text : String) : Phrase := .omitted (.literal text)

/-- A phrase **between marks**, with blanks inside them. -/
def between (opening closing : String) : Phrase :=
  .seq [silentMark opening, .symbol "optionalSpace", .symbol "exp", .symbol "optionalSpace",
    silentMark closing]

/-- One of several **symbols**. -/
def anyOf (names : List String) : Phrase := .alt (names.map .symbol)

/-- The **rules of the dialect**. -/
def selfRules : List Rule := [
  ⟨"rules", false, .seq [.symbol "rule",
    .repeated (.seq [.symbol "ruleSeparator", .symbol "rule"]) .star]⟩,
  ⟨"rule", false, .seq [anyOf ["symbol", "hiddenSymbol"], .symbol "optionalSpace",
    .omitted (.alt [.literal "=", .seq [.literal ":", .literal "="],
      .seq [.literal ":", .literal ":", .literal "="]]),
    .symbol "optionalSpace", .symbol "exp"]⟩,
  ⟨"exp", true, anyOf ["variable", "quantifier", "seq", "alt"]⟩,
  ⟨"symbol", false, .symbol "identifier"⟩,
  ⟨"hiddenSymbol", false, .seq [silentMark "<", .symbol "identifier", silentMark ">"]⟩,
  ⟨"omittedSymbol", false, between "<" ">"⟩,
  ⟨"lex", false, between "[" "]"⟩,
  ⟨"token", false, .symbol "string"⟩,
  ⟨"variable", true, .alt [.symbol "symbol", .symbol "token", .symbol "regexp", between "(" ")",
    .symbol "omittedSymbol", .symbol "lex"]⟩,
  ⟨"repStar", false, .seq [.symbol "variable", silentMark "*"]⟩,
  ⟨"repPlus", false, .seq [.symbol "variable", silentMark "+"]⟩,
  ⟨"repQuestion", false, .seq [.symbol "variable", silentMark "?"]⟩,
  ⟨"repExact", false, .seq [.symbol "variable", silentMark "\x7b", .symbol "integer",
    silentMark "\x7d"]⟩,
  ⟨"repMin", false, .seq [.symbol "variable", silentMark "\x7b", .symbol "integer",
    silentMark ",", silentMark "\x7d"]⟩,
  ⟨"repMinMax", false, .seq [.symbol "variable", silentMark "\x7b", .symbol "integer",
    silentMark ",", .symbol "integer", silentMark "\x7d"]⟩,
  ⟨"quantifier", true,
    anyOf ["repStar", "repPlus", "repQuestion", "repExact", "repMin", "repMinMax"]⟩,
  ⟨"seq_", true, anyOf ["variable", "quantifier"]⟩,
  ⟨"seq", false, .seq [.symbol "seq_",
    .repeated (.seq [.omitted (.repeated (.pattern "\\s") .plus), .symbol "seq_"]) .plus]⟩,
  ⟨"alt_", true, anyOf ["variable", "quantifier", "seq"]⟩,
  ⟨"alt", false, .seq [.symbol "alt_",
    .repeated (.seq [.omitted (.seq [.symbol "optionalSpace", .literal "|",
      .symbol "optionalSpace"]), .symbol "alt_"]) .plus]⟩,
  ⟨"integer", false, .repeated (.pattern "[0-9]") .plus⟩,
  ⟨"regexp", false, .seq [silentMark "#", .symbol "string"]⟩,
  ⟨"optionalSpace", true, .omitted (.repeated (.pattern "\\s") .star)⟩,
  ⟨"ruleSeparator", true, .omitted (.seq [.symbol "optionalSpace",
    .alt [.literal "\n", .literal ";"], .symbol "optionalSpace"])⟩,
  ⟨"identifier", true, .lexical (.repeated (.pattern "[A-Za-z0-9_-]") .plus)⟩,
  ⟨"string", true, .seq [silentMark "\"",
    .lexical (.repeated (.alt [.pattern "[^\"\\\\]", .seq [silentMark "\\", .literal "\\"],
      .seq [silentMark "\\", .literal "\""]]) .star), silentMark "\""]⟩]

/-- The blanks at the bars of a rule. -/
def barGap (r : Rule) : List Char := if r.name = "ruleSeparator" then [] else [' ']

theorem selfDescriptionLines_eq : selfDescriptionLines =
    ((plainRules barGap selfRules).splitOn '\n').map String.ofList := by
  decide +kernel

theorem selfDescription_eq : selfDescription.toList = plainRules barGap selfRules := by
  rw [selfDescription, String.toList_intercalate, selfDescriptionLines_eq, List.map_map]
  simp [Function.comp_def]

theorem isName_of_selfRules : ∀ r ∈ selfRules, IsName r.name := by decide +kernel

theorem writable_selfRules : Writable selfRules where
  ne_nil := List.cons_ne_nil _ _
  name := isName_of_selfRules
  body := by
    -- all symbols of the rules are names of rules
    have hnames := isName_of_selfRules
    simp only [selfRules, List.forall_mem_cons] at hnames
    simp [selfRules, silentMark, between, anyOf, hnames, FitsQuantifier, Quantifier.bounds]

/-- **The description of the dialect is read** as the rules of the dialect. It is written in one of
the many ways in which these rules may be written, and so it is enough to show that. -/
theorem rules_selfDescription [KnownPatterns] : rules selfDescription.toList = .ok selfRules := by
  have hgap : ∀ r, Blanks (barGap r) := by
    intro r
    rw [barGap]
    split <;> decide
  rw [selfDescription_eq]
  exact rules_eq_of_writesText (writesText_plainRules hgap writable_selfRules)

end GeneralParsing.Dialect
