import GeneralParsing.Grammar.Basic
import GeneralParsing.Pattern.Escape

/-!
# Building a grammar

A `Builder` holds a growing list of **slots**. Most operations fill a new slot and return its
index. A slot can also be declared first, referred to, and defined later by a copy of the body in
another slot, so that rules can refer to each other. Where that other slot is itself still empty,
the definition waits as an **alias** until the grammar is finished.

A failing operation keeps what it had added before it failed. `Builder.finish` resolves the aliases
and yields a grammar when no slot is left empty.
-/

namespace GeneralParsing

/-- The **slots** of an unfinished grammar, and the definitions that wait. -/
structure Builder where
  /-- The slots; an empty one has been declared and not defined. -/
  slots : Array (Option Expr) := #[]
  /-- The definitions whose body was empty when they were made, in order, each as slot and
  body. -/
  aliases : List (ExprId × ExprId) := []

/-- An operation that **builds** on a grammar and may fail, keeping what it has built. -/
abbrev Build := ExceptT Error (StateM Builder)

namespace Builder

/-- The expression in a slot, if the slot is there and not empty. -/
def filled? (b : Builder) (id : ExprId) : Option Expr := b.slots[id]?.join

/-- **Runs** an operation on an empty builder. -/
def run {α : Type} (x : Build α) : Except Error α × Builder := (x.run).run {}

/-! ### Adding expressions -/

/-- Adds a slot and returns its index. -/
def addSlot (content : Option Expr) : Build ExprId :=
  modifyGet fun b => (b.slots.size, { b with slots := b.slots.push content })

/-- Adds an expression. -/
def add (e : Expr) : Build ExprId := addSlot (some e)

/-- The children **in order**. -/
def seq (children : List ExprId) (tag : Option String) : Build ExprId := add (.seq tag children)

/-- **One** of the children. -/
def alt (children : List ExprId) (tag : Option String) : Build ExprId := add (.alt tag children)

/-- One symbol equal to the text. The **empty text** is no symbol but the empty sequence. -/
def token (text : String) : Build ExprId :=
  if text.isEmpty then seq [] none else add (.token text)

/-- One symbol that matches a **pattern**. -/
def pattern [PatternReader] (source : String) : Build ExprId := do
  let p ← Pattern.read source
  add (.pattern p)

theorem pattern_of_read [PatternReader] {source : String} {p : Pattern}
    (h : Pattern.read source = .ok p) : pattern source = add (.pattern p) := by
  rw [pattern, h]
  rfl

/-- The child **repeated**. -/
def rep (child : ExprId) (tag : Option String) (min : Nat) (max : Option Nat) : Build ExprId :=
  match max with
  | some m => if m < min then throw (.invalidBounds min m) else add (.rep tag child min max)
  | none => add (.rep tag child min max)

/-- The child, **without a trace** in the tree. -/
def omitted (child : ExprId) : Build ExprId := add (.omitted child)

/-- The child, **as one text**. -/
def lexical (child : ExprId) : Build ExprId := add (.lexical child)

/-! ### Slots that are defined later -/

/-- **Declares** an expression that can be referred to before it is defined. -/
def declare : Build ExprId := addSlot none

/-- Whether a slot **can be defined**: it is there, empty, and no definition waits for it. -/
def definable (b : Builder) (slot : ExprId) : Bool :=
  b.slots[slot]?.any Option.isNone && b.aliases.all (·.1 != slot)

/-- The builder after a slot has been given the body of another. -/
def withDefinition (b : Builder) (slot body : ExprId) : Builder :=
  match b.filled? body with
  | some e => { b with slots := b.slots.setIfInBounds slot (some e) }
  | none => { b with aliases := b.aliases ++ [(slot, body)] }

/-- **Defines** a declared slot as a copy of a body. -/
def define (slot body : ExprId) : Build Unit := do
  if (← get).definable slot then modify fun b => b.withDefinition slot body
  else throw (.redefinedExpression slot)

/-- Declares several slots. -/
def declareMany : Nat → Build (List ExprId)
  | 0 => return []
  | n + 1 => do
    let slot ← declare
    return slot :: (← declareMany n)

/-- Defines slots by bodies, in order. -/
def defineAll (slots bodies : List ExprId) : Build Unit :=
  (slots.zip bodies).forM fun (slot, body) => define slot body

/-- **Mutually recursive definitions**: declares `n` slots, builds their bodies with the slots
in scope, and defines the slots. -/
def recs (n : Nat) (bodies : List ExprId → Build (List ExprId)) : Build (List ExprId) := do
  let slots ← declareMany n
  defineAll slots (← bodies slots)
  return slots

/-! ### Common shapes -/

/-- A **quoted string**: a delimiter, text in which the delimiter and the escape are escaped, and
the delimiter again. The text becomes one value. -/
def quotedString [PatternReader] (delimiter escape : String) (tag : Option String) :
    Build ExprId := do
  let escapeToken ← token escape
  let escapeOmitted ← omitted escapeToken
  let delimiterToken ← token delimiter
  let delimiterOmitted ← omitted delimiterToken
  let excluded := Pattern.escape delimiter.toList ++ Pattern.escape escape.toList
  let plain ← pattern (String.ofList ('[' :: '^' :: excluded ++ [']']))
  let escapedEscape ← seq [escapeOmitted, escapeToken] none
  let escapedDelimiter ← seq [escapeOmitted, delimiterToken] none
  let piece ← alt [plain, escapedEscape, escapedDelimiter] none
  let pieces ← rep piece none 0 none
  let text ← lexical pieces
  seq [delimiterOmitted, text, delimiterOmitted] tag

/-- At least `min` items, of which any two are **separated** without a trace. -/
def separated (item separator : ExprId) (min : Nat) (tag : Option String) : Build ExprId := do
  let between ← omitted separator
  let next ← seq [between, item] none
  let others ← rep next none (min - 1) none
  seq [item, others] tag

/-- A **delimited list**: at least `min` items with a delimiter between any two. Delimiters, and
the spaces around them if there are any, leave no trace. -/
def delimitedList (item delimiter : ExprId) (space : Option ExprId) (min : Nat)
    (tag : Option String) : Build ExprId :=
  if min < 1 then throw .emptyList
  else match space with
    | some space => do separated item (← seq [space, delimiter, space] none) min tag
    | none => separated item delimiter min tag

/-! ### Finishing -/

/-- Passes over the waiting definitions **once**, making those whose body is there by now. The
others are returned in order. -/
def settleOnce (slots : Array (Option Expr)) : List (ExprId × ExprId) →
    Array (Option Expr) × List (ExprId × ExprId)
  | [] => (slots, [])
  | (slot, body) :: rest =>
    match slots[body]?.join with
    | some e => settleOnce (slots.setIfInBounds slot (some e)) rest
    | none =>
      let (slots, left) := settleOnce slots rest
      (slots, (slot, body) :: left)

/-- Passes over the waiting definitions until none is left or a pass makes none. Each pass before
that makes at least one, so as many passes as there are definitions suffice. -/
def settle : Nat → Array (Option Expr) → List (ExprId × ExprId) → Array (Option Expr)
  | 0, slots, _ => slots
  | n + 1, slots, waiting =>
    let (slots, left) := settleOnce slots waiting
    if left.length = waiting.length then slots else settle n slots left

/-- The expressions of slots that are **all filled**, or the lowest empty slot. The first
argument is the index of the first slot. -/
def collect : Nat → List (Option Expr) → Except Error (List Expr)
  | _, [] => .ok []
  | id, none :: _ => .error (.undefinedExpression id)
  | id, some e :: rest => do
    let es ← collect (id + 1) rest
    return e :: es

/-- The **finished grammar**. -/
def finish (b : Builder) (start : ExprId) : Except Error Grammar := do
  let slots := settle b.aliases.length b.slots b.aliases
  let exprs ← collect 0 slots.toList
  if h : start < exprs.toArray.size then return ⟨exprs.toArray, start, h⟩
  else throw (.undefinedExpression start)

end Builder

end GeneralParsing
