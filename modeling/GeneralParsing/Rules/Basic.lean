import GeneralParsing.Error
import GeneralParsing.Tree.Basic

/-!
# Rules

Grammar text consists of **rules**, each a name and a body. A body is a **phrase**, made of symbols,
literals and patterns by sequence, alternation and repetition; a phrase can also be omitted from
the tree, or taken as one text. The name of a hidden rule does not appear in trees.

`Phrase.ofTree` and `Rule.ofTree` read phrases and rules off the trees that grammar text is parsed
into.
-/

namespace GeneralParsing

/-- **How often** something is repeated. -/
inductive Quantifier where
  /-- Any number of times. -/
  | star
  /-- At least once. -/
  | plus
  /-- At most once. -/
  | question
  /-- Exactly that often. -/
  | exact (n : Nat)
  /-- At least that often. -/
  | min (n : Nat)
  /-- At least and at most that often. -/
  | minMax (n m : Nat)
  deriving Repr, DecidableEq

/-- The least and, if there is one, the greatest **number of times**. -/
def Quantifier.bounds : Quantifier → Nat × Option Nat
  | star => (0, none)
  | plus => (1, none)
  | question => (0, some 1)
  | exact n => (n, some n)
  | min n => (n, none)
  | minMax n m => (n, some m)

/-- The **body** of a rule, or a part of it. -/
inductive Phrase where
  /-- What the rule of that name describes. -/
  | symbol (name : String)
  /-- The text itself. -/
  | literal (text : String)
  /-- One symbol that the pattern matches. -/
  | pattern (source : String)
  /-- The parts in order. -/
  | seq (parts : List Phrase)
  /-- One of the parts. -/
  | alt (parts : List Phrase)
  /-- The part again and again. -/
  | repeated (part : Phrase) (quantifier : Quantifier)
  /-- The part, without a trace in the tree. -/
  | omitted (part : Phrase)
  /-- The part, as one text. -/
  | lexical (part : Phrase)
  deriving Repr

/-- A **rule** of a grammar. -/
structure Rule where
  /-- The symbol that the rule defines. -/
  name : String
  /-- Whether the rule makes no node of its own. -/
  hidden : Bool
  /-- What the symbol stands for. -/
  body : Phrase
  deriving Repr

variable {ι : Type}

/-! ### Reading phrases off trees -/

/-- The error that a tree with this label is **out of shape**. -/
def ShapeFault.at {α : Type} (fault : ShapeFault) (label : Label) : Except Error α :=
  .error (.malformedSyntax fault label.tag)

/-- The value of a label that **has to have** one. -/
def Label.valueOrFault (label : Label) : Except Error String :=
  match label.value with
  | some value => .ok value
  | none => ShapeFault.missingValue.at label

/-- A number in **decimal digits**, with or without a plus sign, below `2 ^ 64`. -/
def number? (digits : List Char) : Option Nat :=
  let digits := match digits with
    | '+' :: rest => rest
    | digits => digits
  if digits.isEmpty || !digits.all Char.isDigit then none
  else
    let n := digits.foldl (fun n c => 10 * n + (c.toNat - '0'.toNat)) 0
    if n < Nat.pow 2 64 then some n else none

/-- The **bound of a repetition** that a tree holds. Its digits are the value, or else the values
of the children. -/
def Quantifier.boundOfTree (t : Tree ι) : Except Error Nat :=
  if t.label.tag ≠ some "integer" then ShapeFault.expectedInteger.at t.label
  else
    let digits := match t.label.value with
      | some value => value
      | none => String.join ((t.children.map Tree.label).filterMap Label.value)
    match number? digits.toList with
    | some n => .ok n
    | none => ShapeFault.badInteger.at t.label

namespace Phrase

/-- The phrase of a tree with this label, from its children and **the phrases of its children**.
Bounds are read before the phrase that they bound. -/
def assemble (label : Label) (children : List (Tree ι)) (phrases : List (Except Error Phrase)) :
    Except Error Phrase :=
  let only : Except Error Phrase := match phrases with
    | [phrase] => phrase
    | _ => ShapeFault.expectedOneChild.at label
  match label.tag with
  | none => ShapeFault.untaggedNode.at label
  | some "symbol" => symbol <$> label.valueOrFault
  | some "token" => literal <$> label.valueOrFault
  | some "regexp" => pattern <$> label.valueOrFault
  | some "seq" => seq <$> phrases.mapM id
  | some "alt" => alt <$> phrases.mapM id
  | some "omittedSymbol" => omitted <$> only
  | some "lex" => lexical <$> only
  | some tag =>
    match tag, children, phrases with
    | "repStar", [_], [phrase] => return repeated (← phrase) .star
    | "repPlus", [_], [phrase] => return repeated (← phrase) .plus
    | "repQuestion", [_], [phrase] => return repeated (← phrase) .question
    | "repExact", [_, n], phrase :: _ => do
      let n ← Quantifier.boundOfTree n
      return repeated (← phrase) (.exact n)
    | "repMin", [_, n], phrase :: _ => do
      let n ← Quantifier.boundOfTree n
      return repeated (← phrase) (.min n)
    | "repMinMax", [_, n, m], phrase :: _ => do
      let n ← Quantifier.boundOfTree n
      let m ← Quantifier.boundOfTree m
      return repeated (← phrase) (.minMax n m)
    | _, _, _ => ShapeFault.unexpectedNode.at label

mutual

/-- The **phrase** that a tree holds. -/
def ofTree : Tree ι → Except Error Phrase
  | .leaf label => assemble label ([] : List (Tree ι)) []
  | .branch label _ children => assemble label children (ofTrees children)

/-- The phrases that trees hold, as far as they hold one. -/
def ofTrees : List (Tree ι) → List (Except Error Phrase)
  | [] => []
  | t :: ts => ofTree t :: ofTrees ts

end

end Phrase

/-- The **rule** that a tree holds. -/
def Rule.ofTree (t : Tree ι) : Except Error Rule :=
  match t.label.tag, t.children with
  | some "rule", [name, body] => do
    let hidden ← match name.label.tag with
      | some "symbol" => pure false
      | some "hiddenSymbol" => pure true
      | _ => ShapeFault.expectedRuleName.at name.label
    let text ← name.label.valueOrFault
    return ⟨text, hidden, ← Phrase.ofTree body⟩
  | _, _ => ShapeFault.expectedRule.at t.label

/-- The **rules** that a tree holds, in order. -/
def Rule.listOfTree (t : Tree ι) : Except Error (List Rule) :=
  if t.label.tag = some "rules" then t.children.mapM Rule.ofTree
  else ShapeFault.expectedRules.at t.label

end GeneralParsing
