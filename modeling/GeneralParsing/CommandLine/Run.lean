import GeneralParsing.CommandLine.Arguments
import GeneralParsing.Grammar.Render
import GeneralParsing.Pattern.Common
import GeneralParsing.Rules.Compile
import GeneralParsing.Tree.Count
import GeneralParsing.Tree.Json
import GeneralParsing.Tree.Print

/-!
# What the command does

The command compiles a grammar file and parses inputs with it, printing a report for each. Inputs
come as arguments or else line by line. An error about an argument ends the run, whereas an error
about a line takes the place of its report.

`Command.run` computes everything the command prints, and its exit code, from the arguments, the
text of the grammar file and the lines.
-/

namespace GeneralParsing

/-- What a run of the command **leaves behind**. -/
structure Outcome where
  /-- What is printed. -/
  output : String
  /-- What is printed about errors. -/
  errors : String
  /-- The exit code. -/
  code : Nat
  deriving Repr, DecidableEq

namespace Command

/-- The reader of patterns **that the command uses**. -/
instance (priority := low) reader : PatternReader := Common.reader

/-- The **symbols of an input**: its words or its characters. -/
def symbols (words : Bool) (input : String) : List String :=
  if words then (Text.words input.toList).map String.ofList
  else Forest.characters input.toList

/-- A tree **as reported**. -/
def describe (report : Report) (t : NumberedTree) : String :=
  match report with
  | .count => toString t.count
  | .stats =>
    let stats := t.stats
    s!"trees: {stats.trees}, ambiguous nodes: {stats.ambiguous}, groups: {stats.groups}"
  | .json => t.json
  | .tree => t.print

/-- The **report on an input**. -/
def parse (g : Grammar) (o : CommandOptions) (input : String) : Except Error String :=
  match Forest.parse g (symbols o.words input) with
  | .ok forest => do
    let (tree, _) ← forest.extract o.shape
    return describe o.report tree
  | .error (.rejected _) => .ok "no parse"
  | .error (.broken fault) => .error (.broken fault)

/-- The reports on **arguments**, up to the first error. -/
def overArguments (g : Grammar) (o : CommandOptions) (output : String) : List String → Outcome
  | [] => ⟨output, "", 0⟩
  | input :: rest =>
    match parse g o input with
    | .ok report => overArguments g o (output ++ report ++ "\n") rest
    | .error e => ⟨output, "Error: " ++ e.message ++ "\n", 1⟩

/-- The reports on **lines**, errors among them. -/
def overLines (g : Grammar) (o : CommandOptions) (output : String) (lines : List String) :
    Outcome :=
  let report (line : String) : String :=
    match parse g o line with
    | .ok report => report
    | .error e => e.message
  ⟨lines.foldl (fun output line => output ++ report line ++ "\n") output, "", 0⟩

/-- Drops the carriage return **at the end of a line**, which comes last character first. -/
def dropReturn : List Char → List Char
  | '\r' :: line => line
  | line => line

/-- The lines of a text, with the line being read in `line`, last character first. A line ends
with a newline or a carriage return and a newline; what is left at the end of the text is a line
if it is not empty. -/
def linesFrom (line : List Char) : List Char → List String
  | [] => if line.isEmpty then [] else [String.ofList line.reverse]
  | '\n' :: rest => String.ofList (dropReturn line).reverse :: linesFrom [] rest
  | c :: rest => linesFrom (c :: line) rest

/-- The **lines** of a text. -/
def lines (text : String) : List String := linesFrom [] text.toList

/-- A failure **in what came before any input**, with its cause. -/
def failure (what cause : String) : Outcome :=
  ⟨"", "Error: " ++ what ++ "\n\nCaused by:\n    " ++ cause ++ "\n", 1⟩

/-- A **run of the command**. The text of the grammar file is given if there is such a file, and
the lines are looked at only if there are no inputs among the arguments. -/
def run (a : Arguments) (file : Option String) (input : String) : Outcome :=
  match file with
  | none => failure ("cannot read " ++ a.grammar) "No such file or directory (os error 2)"
  | some text =>
    match Grammar.compile a.options.splitLiterals text.toList with
    | .error e => failure ("cannot compile " ++ a.grammar) e.message
    | .ok g =>
      let output := if a.options.dumpGrammar then g.render else ""
      if a.inputs.isEmpty then overLines g a.options output (lines input)
      else overArguments g a.options output a.inputs

end Command

end GeneralParsing
