import GeneralParsing.Rules.Compile

/-!
# The dialect described in itself

`Dialect.selfDescription` is a grammar text for grammar texts. Compiled, it parses them, without
blanks around them and without a semicolon at the end, into the same trees as the grammar that is
put together by hand.
-/

namespace GeneralParsing.Dialect

/-- The lines of the **grammar text for grammar texts**. -/
def selfDescriptionLines : List String := [
  "rules = rule (ruleSeparator rule)*",
  "rule = (symbol | hiddenSymbol) optionalSpace <\"=\" | \":\" \"=\" | \":\" \":\" \"=\"> " ++
    "optionalSpace exp",
  "<exp> = variable | quantifier | seq | alt",
  "symbol = identifier",
  "hiddenSymbol = <\"<\"> identifier <\">\">",
  "omittedSymbol = <\"<\"> optionalSpace exp optionalSpace <\">\">",
  "lex = <\"[\"> optionalSpace exp optionalSpace <\"]\">",
  "token = string",
  "<variable> = symbol | token | regexp | <\"(\"> optionalSpace exp optionalSpace <\")\"> | " ++
    "omittedSymbol | lex",
  "repStar = variable <\"*\">",
  "repPlus = variable <\"+\">",
  "repQuestion = variable <\"?\">",
  "repExact = variable <\"\x7b\"> integer <\"\x7d\">",
  "repMin = variable <\"\x7b\"> integer <\",\"> <\"\x7d\">",
  "repMinMax = variable <\"\x7b\"> integer <\",\"> integer <\"\x7d\">",
  "<quantifier> = repStar | repPlus | repQuestion | repExact | repMin | repMinMax",
  "<seq_> = variable | quantifier",
  "seq = seq_ (<#\"\\\\s\"+> seq_)+",
  "<alt_> = variable | quantifier | seq",
  "alt = alt_ (<optionalSpace \"|\" optionalSpace> alt_)+",
  "integer = #\"[0-9]\"+",
  "regexp = <\"#\"> string",
  "<optionalSpace> = <#\"\\\\s\"*>",
  "<ruleSeparator> = <optionalSpace (\"",
  "\"|\";\") optionalSpace>",
  "<identifier> = [#\"[A-Za-z0-9_-]\"+]",
  "<string> = <\"\\\"\"> [(#\"[^\\\"\\\\\\\\]\" | <\"\\\\\"> \"\\\\\" | <\"\\\\\"> \"\\\"\")*] " ++
    "<\"\\\"\">"]

/-- The **grammar text for grammar texts**. -/
def selfDescription : String := String.intercalate "\n" selfDescriptionLines

end GeneralParsing.Dialect
