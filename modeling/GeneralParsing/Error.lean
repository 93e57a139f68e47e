import GeneralParsing.Text.Quoted

/-!
# Errors

What can go wrong while a grammar is built, grammar text is compiled or a tree is shaped, as
causes, with the wording of each in `Error.message`. An input that does not match a grammar is no
error; parsing reports where it was rejected.

A `Fault` is of another kind. It says that a grammar refers to an expression it does not have, or
that a table of the parser, or of a fold over a tree, was found inconsistent. Grammars built from
the references that the builder hands out have no faults.
-/

namespace GeneralParsing

/-- A **fault**: something looked up is not there. -/
inductive Fault where
  /-- The grammar has no expression with this index. -/
  | noExpression (id : Nat)
  /-- No record of a derivation has this index. -/
  | noMemo (id : Nat)
  /-- No node of the forest has this index. -/
  | noNode (id : Nat)
  /-- The result that alternatives should join is no choice. -/
  | notAChoice (id : Nat)
  /-- The bound on the number of steps was too small. -/
  | outOfSteps
  /-- A value was wanted of a tree before it had been computed. -/
  | notComputed
  /-- A tree was folded, and there is no value for the tree itself. -/
  | rootSkipped
  /-- A tree that is not packed has nothing in its place. -/
  | nothingPicked
  deriving Repr, DecidableEq

/-- The **wording** of a fault. -/
def Fault.message : Fault → String
  | noExpression id => s!"the grammar has no expression #{id}"
  | noMemo id => s!"no derivation has the number {id}"
  | noNode id => s!"no result has the number {id}"
  | notAChoice id => s!"result {id} is no choice"
  | outOfSteps => "the bound on the number of steps was too small"
  | notComputed => "a tree was looked up that has not been computed"
  | rootSkipped => "a fold has skipped its root"
  | nothingPicked => "no tree was picked"

/-- How a tree can **fail to be the tree of a rule**. -/
inductive ShapeFault where
  /-- A node without a tag where an expression is expected. -/
  | untaggedNode
  /-- A name, literal or pattern without a value. -/
  | missingValue
  /-- A bound that is not tagged as an integer. -/
  | expectedInteger
  /-- A bound that is no number below `2 ^ 64`. -/
  | badInteger
  /-- An omitted or lexical expression with another number of children than one. -/
  | expectedOneChild
  /-- A tag that no expression has with that number of children. -/
  | unexpectedNode
  /-- A rule whose first child is no name. -/
  | expectedRuleName
  /-- Something else than a rule. -/
  | expectedRule
  /-- Something else than a list of rules. -/
  | expectedRules
  deriving Repr, DecidableEq

/-- The **wording** of a shape fault. -/
def ShapeFault.message : ShapeFault → String
  | untaggedNode => "untagged node"
  | missingValue => "missing value"
  | expectedInteger => "expected integer"
  | badInteger => "bad integer"
  | expectedOneChild => "expected one child"
  | unexpectedNode => "unexpected node"
  | expectedRuleName => "expected rule name"
  | expectedRule => "expected rule"
  | expectedRules => "expected rules"

/-- The **causes** of failure. -/
inductive Error where
  /-- Grammar text is refused at this place; lines and columns count from one. -/
  | grammarSyntax (line column : Nat)
  /-- These symbols are used and no rule defines them. -/
  | undefinedSymbols (names : List String)
  /-- Two rules define this symbol. -/
  | duplicateSymbol (name : String)
  /-- A repetition whose least number exceeds its greatest. -/
  | invalidBounds (min max : Nat)
  /-- A delimited list that may be empty. -/
  | emptyList
  /-- A pattern that cannot be read. -/
  | invalidPattern (source : String)
  /-- A visible rule that lists itself as an alternative, so that its node would vanish. -/
  | lostNamedNode (name : String)
  /-- An expression that was declared and has no body, or is not there at all. -/
  | undefinedExpression (id : Nat)
  /-- An expression that cannot be defined since it is defined already. -/
  | redefinedExpression (id : Nat)
  /-- A tree that is no tree of a grammar, at a node with this tag. -/
  | malformedSyntax (fault : ShapeFault) (tag : Option String)
  /-- A grammar without rules. -/
  | noRules
  /-- A parse with several trees where one was asked for. -/
  | ambiguous
  /-- A fault in a grammar. -/
  | broken (fault : Fault)
  deriving Repr, DecidableEq

/-- The **wording** of an error. -/
def Error.message : Error → String
  | grammarSyntax line column => s!"cannot parse grammar at line {line}, column {column}"
  | undefinedSymbols names => "undefined symbols: " ++ String.intercalate ", " names
  | duplicateSymbol name => s!"symbol {name} already defined"
  | invalidBounds min max =>
    s!"invalid repetition bounds: min {min} is greater than max {max}"
  | emptyList => "delimited list needs at least one item"
  | invalidPattern source => "invalid regex " ++ Text.quote source
  | lostNamedNode name => s!"lost named node {name}: the rule lists itself as an alternative"
  | undefinedExpression id => s!"expression #{id} was declared but never defined"
  | redefinedExpression id => s!"expression #{id} is already defined"
  | malformedSyntax fault tag =>
    "malformed grammar syntax tree: " ++ fault.message ++ " in " ++ tag.getD "<group>"
  | noRules => "malformed grammar syntax tree: no rules"
  | ambiguous => "ambiguous parse tree"
  | broken fault => fault.message

end GeneralParsing
