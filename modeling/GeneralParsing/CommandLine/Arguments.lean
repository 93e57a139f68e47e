import GeneralParsing.Extraction.Options

/-!
# Arguments of the command

The command takes the path of a grammar file and then inputs; options may stand anywhere before
a `--`, after which everything is an input. `Arguments.read` turns a list of arguments into a
record, or says what is wrong with it.
-/

namespace GeneralParsing

/-- What is printed **for an input** that matches. -/
inductive Report where
  /-- The tree as indented text. -/
  | tree
  /-- The tree as JSON. -/
  | json
  /-- The number of trees, and of distinct packed trees and groups. -/
  | stats
  /-- The number of trees. -/
  | count
  deriving Repr, DecidableEq

/-- The **options** of the command. -/
structure CommandOptions where
  /-- What becomes of several derivations; nothing unless it was asked for. -/
  ambiguity : Option Ambiguity := none
  /-- Whether an input is split into words rather than characters. -/
  words : Bool := false
  /-- Whether spans are recorded. -/
  spans : Bool := false
  /-- Whether nodes over a lone value are kept as they are. -/
  noCollapse : Bool := false
  /-- Whether literals are split into characters. -/
  splitLiterals : Bool := false
  /-- Whether JSON was asked for. -/
  json : Bool := false
  /-- Whether the number of trees was asked for. -/
  count : Bool := false
  /-- Whether figures were asked for. -/
  stats : Bool := false
  /-- Whether the compiled grammar is printed. -/
  dumpGrammar : Bool := false
  deriving Repr, DecidableEq

/-- What is printed for an input. The **count** goes before the figures, and these before JSON. -/
def CommandOptions.report (o : CommandOptions) : Report :=
  if o.count then .count else if o.stats then .stats else if o.json then .json else .tree

/-- How trees are shaped. -/
def CommandOptions.shape (o : CommandOptions) : ParseOptions :=
  ⟨o.ambiguity.getD .first, !o.noCollapse, o.spans⟩

/-- The **arguments** of the command. -/
structure Arguments where
  /-- The path of the grammar file. -/
  grammar : String
  /-- The inputs, in order. -/
  inputs : List String
  /-- The options. -/
  options : CommandOptions
  deriving Repr, DecidableEq

/-- What can be **wrong with the arguments**. -/
inductive UsageError where
  /-- There is no such option, or it takes no value. -/
  | unexpected (argument : String)
  /-- An option lacks its value. -/
  | missingValue (option : String)
  /-- An option does not take that value. -/
  | invalidValue (option value : String)
  /-- An option is given twice. -/
  | repeated (option : String)
  /-- There is no grammar file. -/
  | noGrammar
  deriving Repr, DecidableEq

/-- The **wording** of a usage error. -/
def UsageError.message : UsageError → String
  | unexpected argument => s!"unexpected argument '{argument}' found"
  | missingValue option => s!"a value is required for '{option}' but none was supplied"
  | invalidValue option value => s!"invalid value '{value}' for '{option}'"
  | repeated option => s!"the argument '{option}' cannot be used multiple times"
  | noGrammar => "the following required arguments were not provided: <GRAMMAR>"

/-- The policy of that name. -/
def Ambiguity.ofName? (name : String) : Option Ambiguity :=
  match name with
  | "first" => some .first
  | "error" => some .error
  | "packed" => some .packed
  | _ => none

namespace CommandOptions

/-- Sets the **policy**, once. -/
def setAmbiguity (o : CommandOptions) (value : String) : Except UsageError CommandOptions :=
  match o.ambiguity, Ambiguity.ofName? value with
  | some _, _ => .error (.repeated "--ambiguity")
  | none, some policy => .ok { o with ambiguity := some policy }
  | none, none => .error (.invalidValue "--ambiguity" value)

/-- Sets a **switch**, once. -/
def setSwitch (o : CommandOptions) (name : String) : Except UsageError CommandOptions :=
  let once (isSet : Bool) (o : CommandOptions) : Except UsageError CommandOptions :=
    if isSet then .error (.repeated name) else .ok o
  match name with
  | "--words" => once o.words { o with words := true }
  | "--spans" => once o.spans { o with spans := true }
  | "--no-collapse" => once o.noCollapse { o with noCollapse := true }
  | "--split-literals" => once o.splitLiterals { o with splitLiterals := true }
  | "--json" => once o.json { o with json := true }
  | "--count" => once o.count { o with count := true }
  | "--stats" => once o.stats { o with stats := true }
  | "--dump-grammar" => once o.dumpGrammar { o with dumpGrammar := true }
  | _ => .error (.unexpected name)

end CommandOptions

namespace Arguments

/-- Sorts arguments into **options and others**. -/
def sort (o : CommandOptions) : List String → Except UsageError (CommandOptions × List String)
  | [] => .ok (o, [])
  | "--" :: rest => .ok (o, rest)
  | "--ambiguity" :: rest =>
    match rest with
    | [] => .error (.missingValue "--ambiguity")
    | value :: rest => do sort (← o.setAmbiguity value) rest
  | argument :: rest =>
    match argument.toList with
    | '-' :: _ :: _ =>
      if argument.startsWith "--ambiguity=" then do
        sort (← o.setAmbiguity (argument.drop 12).toString) rest
      else do sort (← o.setSwitch argument) rest
    | _ => do
      let (o, others) ← sort o rest
      return (o, argument :: others)

/-- **Reads** the arguments. -/
def read (arguments : List String) : Except UsageError Arguments := do
  match ← sort {} arguments with
  | (_, []) => throw .noGrammar
  | (options, grammar :: inputs) => return ⟨grammar, inputs, options⟩

end Arguments

end GeneralParsing
