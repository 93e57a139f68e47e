import GeneralParsing.Forest.Basic
import GeneralParsing.Grammar.Basic
import Std.Data.HashMap

/-!
# The parsing machine

The machine parses with any closed grammar, left-recursive and ambiguous ones included, and shares
work between derivations. At each position of the input it keeps a stack of **tasks**: to derive an
expression here, or to hand a finished result to a continuation.

A **memo** stands for one expression derived from one position. Whoever wants that derivation
registers a continuation with it, and every result the expression gets, now or at a later
position, is handed to all of them. A second wish for the same derivation finds the memo instead
of deriving again, and is served at once if there is a result here already. This is what makes
left recursion end.

Two results of one memo for the same span become alternatives of one **choice**: the first is
wrapped in a choice and handed on, and later ones are only added to that choice. Sequences and
repetitions collect their results in a choice of their own, inside the memo of the expression.

A repetition goes on after an iteration unless that iteration was empty and came after the least
number; an empty iteration beyond that could be followed by any number of others.
-/

namespace GeneralParsing

/-- The **number** of a memo. -/
abbrev MemoId := Nat

/-- What to do **with a result**. -/
inductive Continuation where
  /-- It is a result of the start expression. -/
  | accept
  /-- It is the next child of a sequence, after those done, which come newest first. -/
  | sequence (tag : Option String) (memo : MemoId) (done : List NodeId) (rest : List ExprId)
  /-- It is an alternative. -/
  | choice (tag : Option String) (memo : MemoId)
  /-- It is the iteration with this count of a repetition, after those done, which come newest
  first. -/
  | repetition (tag : Option String) (memo : MemoId) (done : List NodeId) (child : ExprId)
      (count min : Nat) (max : Option Nat)
  /-- It leaves no trace. -/
  | omitted (memo : MemoId)
  /-- It is taken as one text. -/
  | lexical (memo : MemoId)
  deriving Repr, DecidableEq

/-- The record of **one derivation**: an expression from one position. -/
structure Memo where
  /-- The position it began at. -/
  start : Nat
  /-- Who waits for results, the latest first. -/
  parents : List Continuation
  /-- The latest result and the position it ends at. -/
  latest : Option (Nat × NodeId) := none
  deriving Repr, DecidableEq

/-- The result that **ends at** a position, if there is one. -/
def Memo.resultAt (memo : Memo) (position : Nat) : Option NodeId :=
  match memo.latest with
  | some (stop, node) => if stop = position then some node else none
  | none => none

/-- A **task** of the machine. -/
inductive Task where
  /-- Derive an expression here, and go on with the results. -/
  | derive (next : Continuation) (id : ExprId)
  /-- Hand a result on. -/
  | resume (node : NodeId) (next : Continuation)
  deriving Repr, DecidableEq

/-- The **state** of the machine. -/
structure Machine where
  /-- The results so far. -/
  nodes : Array Forest.Node := #[]
  /-- The derivations so far. -/
  memos : Array Memo := #[]
  /-- The memo of each expression that has been derived from the current position. -/
  table : Std.HashMap ExprId MemoId := ∅
  /-- What is left to do at the current position, the next first. -/
  tasks : List Task := []
  /-- The terminals that match the symbol here, the latest first: the result, which ends at the
  next position, and the memo it belongs to. -/
  matched : List (NodeId × MemoId) := []
  /-- The results of the start expression for the whole input. -/
  roots : List NodeId := []
  /-- The number of symbols behind the machine. -/
  position : Nat := 0
  /-- The symbol here, unless the input has ended. -/
  lookahead : Option String := none
  /-- How often a continuation has been registered. -/
  registered : Nat := 0

namespace Machine

/-! ### Elementary moves -/

/-- Adds a task. -/
def addTask (m : Machine) (task : Task) : Machine := { m with tasks := task :: m.tasks }

/-- Adds a result. -/
def addNode (m : Machine) (kind : Forest.Kind) (span : Span) : Machine × NodeId :=
  ({ m with nodes := m.nodes.push ⟨kind, span⟩ }, m.nodes.size)

/-- Adds a memo that begins here, with its first parent. -/
def addMemo (m : Machine) (parent : Continuation) : Machine × MemoId :=
  ({ m with
      memos := m.memos.push ⟨m.position, [parent], none⟩
      registered := m.registered + 1 },
    m.memos.size)

/-- The memo with a number. -/
def memo (m : Machine) (id : MemoId) : Except Fault Memo :=
  match m.memos[id]? with
  | some memo => .ok memo
  | none => .error (.noMemo id)

/-- Records a result of a memo that **ends here**, and hands it to every parent, the earliest
first. -/
def complete (m : Machine) (id : MemoId) (node : NodeId) : Except Fault Machine := do
  let memo ← m.memo id
  return { m with
    memos := m.memos.setIfInBounds id { memo with latest := some (m.position, node) }
    tasks := memo.parents.foldl (fun tasks next => .resume node next :: tasks) m.tasks }

/-- Adds a result that ends here and completes a memo with it. -/
def finish (m : Machine) (id : MemoId) (kind : Forest.Kind) : Except Fault Machine := do
  let memo ← m.memo id
  let (m, node) := m.addNode kind ⟨memo.start, m.position⟩
  m.complete id node

/-! ### Deriving -/

/-- Registers a continuation with a memo, and serves it if the memo has a result here. -/
def register (m : Machine) (id : MemoId) (next : Continuation) : Except Fault Machine := do
  let memo ← m.memo id
  let tasks := match memo.resultAt m.position with
    | some node => .resume node next :: m.tasks
    | none => m.tasks
  return { m with
    memos := m.memos.setIfInBounds id { memo with parents := next :: memo.parents }
    tasks, registered := m.registered + 1 }

/-- Begins the derivation of an expression for a new memo. Terminals look at the symbol here. The
empty match of a repetition goes before its first iteration. -/
def expand (m : Machine) (memo : MemoId) : Expr → Except Fault Machine
  | .seq tag [] => m.finish memo (.sequence tag [])
  | .seq tag (child :: rest) =>
    let (m, inner) := m.addMemo (.choice none memo)
    return m.addTask (.derive (.sequence tag inner [] rest) child)
  | .alt tag children =>
    return { m with tasks := children.map (.derive (.choice tag memo)) ++ m.tasks }
  | .rep tag child min max => do
    let (m, inner) := m.addMemo (.choice none memo)
    let m := if max = some 0 then m
      else m.addTask (.derive (.repetition tag inner [] child 1 min max) child)
    if min = 0 then m.finish inner (.sequence tag []) else return m
  | .omitted child => return m.addTask (.derive (.omitted memo) child)
  | .lexical child => return m.addTask (.derive (.lexical memo) child)
  | e =>
    match m.lookahead with
    | none => return m
    | some symbol =>
      if e.accepts symbol then
        let (m, node) := m.addNode (.symbol symbol) ⟨m.position, m.position + 1⟩
        return { m with matched := (node, memo) :: m.matched }
      else return m

/-- **Derives** an expression here. -/
def derive (g : Grammar) (m : Machine) (next : Continuation) (id : ExprId) :
    Except Fault Machine :=
  match m.table[id]? with
  | some memo => m.register memo next
  | none =>
    match g.expr? id with
    | none => throw (.noExpression id)
    | some e =>
      let (m, memo) := m.addMemo next
      expand { m with table := m.table.insert id memo } memo e

/-! ### Resuming -/

/-- **Joins** an alternative to an existing choice. -/
def join (m : Machine) (choice node : NodeId) : Except Fault Machine :=
  match m.nodes[choice]? with
  | some ⟨.choice tag alternatives, span⟩ =>
    if alternatives.contains node then .ok m
    else .ok { m with
      nodes := m.nodes.setIfInBounds choice ⟨.choice tag (alternatives ++ [node]), span⟩ }
  | some _ => .error (.notAChoice choice)
  | none => .error (.noNode choice)

/-- Whether a result covers no symbol. -/
def isEmptyNode (m : Machine) (node : NodeId) : Except Fault Bool :=
  match m.nodes[node]? with
  | some n => .ok n.span.isEmpty
  | none => .error (.noNode node)

/-- **Hands a result** to a continuation. -/
def resume (m : Machine) (node : NodeId) : Continuation → Except Fault Machine
  | .accept =>
    if m.lookahead.isNone && !m.roots.contains node then
      return { m with roots := m.roots ++ [node] }
    else return m
  | .sequence tag memo done [] => m.finish memo (.sequence tag (node :: done).reverse)
  | .sequence tag memo done (child :: rest) =>
    return m.addTask (.derive (.sequence tag memo (node :: done) rest) child)
  | .choice tag memo => do
    match (← m.memo memo).resultAt m.position with
    | some existing => if existing = node then return m else m.join existing node
    | none => m.finish memo (.choice tag [node])
  | .repetition tag memo done child count min max => do
    let stalled := (← m.isEmptyNode node) && min ≤ count
    let goesOn := max.all (count < ·) && !stalled
    let m := if goesOn then
        m.addTask (.derive (.repetition tag memo (node :: done) child (count + 1) min max) child)
      else m
    if min ≤ count then m.finish memo (.sequence tag (node :: done).reverse) else return m
  | .omitted memo => m.finish memo .omitted
  | .lexical memo => m.finish memo (.lexical node)

/-! ### Running -/

/-- **One step**: the next task, taken from the stack, is done. -/
def step (g : Grammar) (m : Machine) : Task → Except Fault Machine
  | .derive next id => m.derive g next id
  | .resume node next => m.resume node next

/-- **Runs** until no task is left, for a bounded number of steps. -/
def run (g : Grammar) : Nat → Machine → Except Fault Machine
  | fuel, m =>
    match m.tasks with
    | [] => .ok m
    | task :: tasks =>
      match fuel with
      | 0 => .error .outOfSteps
      | fuel + 1 => do run g fuel (← step g { m with tasks } task)

end Machine

namespace Expr

/-- How many tasks the expansion of an expression adds. -/
def width : Expr → Nat
  | alt _ children => children.length
  | _ => 1

/-- How many continuations of an expression can follow one another **at one position**: the
children of a sequence, or the empty iterations of a repetition. -/
def steps : Expr → Nat
  | seq _ children => children.length
  | rep _ _ min _ => min + 2
  | _ => 1

end Expr

namespace Grammar

/-- The number of tasks that expanding every expression once adds. -/
def totalWidth (g : Grammar) : Nat := g.exprs.foldl (fun n e => n + e.width) 0

/-- The most continuations that follow one another at one position. -/
def maxSteps (g : Grammar) : Nat := g.exprs.foldl (fun n e => max n e.steps) 1

end Grammar

namespace Machine

/-- A **bound on the steps** at one position, from the total width and the greatest number of
steps of the grammar. An expression is expanded once here. A continuation is resumed at most once
here, whether it was registered before or is registered here, and each gives rise to a chain of at
most `maxSteps` others. -/
def stepBound (size totalWidth maxSteps : Nat) (m : Machine) : Nat :=
  4 * (m.registered + totalWidth + size + 1) * (maxSteps + 2) + m.tasks.length

/-- Moves to the **next position**: the terminals that matched complete their memos, the earliest
on top. -/
def advance (m : Machine) : Except Fault Machine :=
  m.matched.foldlM (fun m (node, memo) => m.complete memo node)
    { m with matched := [], table := ∅, position := m.position + 1 }

end Machine

end GeneralParsing
