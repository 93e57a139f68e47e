import GeneralParsing.Rules.Dialect

/-!
# Compiling rules

`Grammar.compile` turns grammar text into a grammar. Every symbol gets a slot when it is first
met, as the name of a rule or inside a body; a rule fills the slot of its name. Literals with the
same text share one expression.

A visible rule tags what its body produces. Where the body is an expression that can carry a tag
it does so itself, and otherwise it is wrapped in a sequence of one. A visible rule that lists
itself among its alternatives is refused: that alternative would be its own choice, without the
node.
-/

namespace GeneralParsing

/-- A **symbol** met so far. -/
structure SymbolEntry where
  /-- Its name. -/
  name : String
  /-- The slot that stands for it. -/
  slot : ExprId
  /-- Whether a rule for it has been met. -/
  defined : Bool
  deriving Repr, DecidableEq

/-- What is **known by name**. -/
structure Scope where
  /-- The symbols, in the order in which they were met. -/
  symbols : List SymbolEntry := []
  /-- The literals and their expressions. -/
  literals : List (String × ExprId) := []
  deriving Repr, DecidableEq

/-- A part of **compiling** a grammar. -/
abbrev Compile := StateT Scope Build

namespace Compile

variable [PatternReader]

/-- The **slot of a symbol**, declared when the symbol is met for the first time. -/
def symbolSlot (name : String) : Compile ExprId := do
  match (← get).symbols.find? (·.name = name) with
  | some entry => return entry.slot
  | none =>
    let slot ← Builder.declare
    modify fun scope => { scope with symbols := scope.symbols ++ [⟨name, slot, false⟩] }
    return slot

/-- The **expression of a literal**, made when the literal is met for the first time. -/
def literalToken (text : String) : Compile ExprId := do
  match (← get).literals.lookup text with
  | some id => return id
  | none =>
    let id ← Builder.token text
    modify fun scope => { scope with literals := (text, id) :: scope.literals }
    return id

/-- An expression with a tag: as it is if there is none, and else **in a sequence of one**. -/
def carrying (tag : Option String) (id : ExprId) : Compile ExprId :=
  match tag with
  | some _ => Builder.seq [id] tag
  | none => return id

/-- The expression of a **literal with a tag**. The empty literal is the empty sequence, and a
literal is split into its characters where that is asked for and there are several. -/
def literal (split : Bool) (tag : Option String) (text : String) : Compile ExprId := do
  if text.isEmpty then Builder.seq [] tag
  else if split && text.length > 1 then
    let ids ← text.toList.mapM fun c => literalToken (String.singleton c)
    Builder.seq ids tag
  else carrying tag (← literalToken text)

mutual

/-- The expression of a **phrase with a tag**. -/
def phrase (split : Bool) (tag : Option String) : Phrase → Compile ExprId
  | .symbol name => do carrying tag (← symbolSlot name)
  | .literal text => literal split tag text
  | .pattern source => do carrying tag (← Builder.pattern source)
  | .seq parts => do Builder.seq (← phrases split parts) tag
  | .alt parts => do Builder.alt (← phrases split parts) tag
  | .repeated part quantifier => do
    let child ← phrase split none part
    Builder.rep child tag quantifier.bounds.1 quantifier.bounds.2
  | .omitted part => do
    let child ← phrase split none part
    carrying tag (← Builder.omitted child)
  | .lexical part => do
    let child ← phrase split none part
    carrying tag (← Builder.lexical child)

/-- The expressions of **phrases**, none of them tagged. -/
def phrases (split : Bool) : List Phrase → Compile (List ExprId)
  | [] => return []
  | p :: ps => do
    let id ← phrase split none p
    return id :: (← phrases split ps)

end

end Compile

/-- Whether a phrase is the symbol of that name. -/
def Phrase.isSymbol (name : String) : Phrase → Bool
  | .symbol other => other == name
  | _ => false

/-- Whether a rule **lists itself** among its alternatives. -/
def Rule.listsItself (rule : Rule) : Bool :=
  match rule.body with
  | .alt parts => parts.any (Phrase.isSymbol rule.name)
  | _ => false

namespace Compile

variable [PatternReader]

/-- Notes that a symbol **has a rule**, unless it had one. -/
def markDefined (name : String) : Compile Unit := do
  match (← get).symbols.find? (·.name = name) with
  | some ⟨_, _, false⟩ =>
    modify fun scope => { scope with
      symbols := scope.symbols.map fun entry =>
        if entry.name = name then { entry with defined := true } else entry }
  | _ => throw (.duplicateSymbol name)

/-- Compiles the body of a rule into **the slot of its name**, and returns the slot. -/
def defineRule (split : Bool) (r : Rule) : Compile ExprId := do
  let slot ← symbolSlot r.name
  markDefined r.name
  let body ← phrase split (if r.hidden then none else some r.name) r.body
  Builder.define slot body
  return slot

/-- **Compiles a rule** and returns the slot of its name. A visible rule that lists itself is
refused. -/
def rule (split : Bool) (r : Rule) : Compile ExprId :=
  if !r.hidden && r.listsItself then throw (.lostNamedNode r.name) else defineRule split r

/-- The symbols that **no rule** defines, in the order in which they were met. -/
def undefinedNames (scope : Scope) : List String :=
  (scope.symbols.filter (!·.defined)).map (·.name)

/-- Compiles all rules and returns the slot of the first. -/
def rules (split : Bool) (rs : List Rule) : Compile ExprId := do
  let slots ← rs.mapM (rule split)
  match slots with
  | [] => throw .noRules
  | start :: _ =>
    match undefinedNames (← get) with
    | [] => return start
    | names => throw (.undefinedSymbols names)

end Compile

namespace Grammar

variable [PatternReader]

/-- The grammar that **rules describe**. The first rule is the start rule; `split` says whether a
literal of several characters matches them as several symbols. -/
def ofRules (split : Bool) (rs : List Rule) : Except Error Grammar :=
  match Builder.run ((Compile.rules split rs).run' {}) with
  | (.ok start, b) => b.finish start
  | (.error e, _) => .error e

/-- **Compiles** grammar text. -/
def compile (split : Bool) (source : List Char) : Except Error Grammar := do
  ofRules split (← Dialect.rules source)

end Grammar

end GeneralParsing
