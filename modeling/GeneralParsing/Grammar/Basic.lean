import GeneralParsing.Pattern.Basic

/-!
# Grammars

A **grammar** is a list of expressions, which refer to each other by index, and a start
expression. References may form cycles, and nothing keeps them inside the list: `Grammar.Closed`
says that they all are. The start always is.

Sequences, choices and repetitions can carry a tag, the name of the tree nodes they produce.
-/

namespace GeneralParsing

/-- The **index** of an expression in its grammar. -/
abbrev ExprId := Nat

/-- An **expression** of a grammar. -/
inductive Expr where
  /-- One symbol equal to the text. -/
  | token (text : String)
  /-- One symbol that the pattern accepts. -/
  | pattern (p : Pattern)
  /-- The children in order. -/
  | seq (tag : Option String) (children : List ExprId)
  /-- One of the children. -/
  | alt (tag : Option String) (children : List ExprId)
  /-- The child at least `min` times and, where there is a `max`, at most that often. -/
  | rep (tag : Option String) (child : ExprId) (min : Nat) (max : Option Nat)
  /-- The child, without a trace in the tree. -/
  | omitted (child : ExprId)
  /-- The child, as one text. -/
  | lexical (child : ExprId)

namespace Expr

/-- The **tag** of an expression. -/
def tag? : Expr → Option String
  | seq tag _ => tag
  | alt tag _ => tag
  | rep tag _ _ _ => tag
  | _ => none

/-- Whether the expression is a **terminal** that matches the symbol. -/
def accepts : Expr → String → Bool
  | token text, symbol => text == symbol
  | pattern p, symbol => p.accepts symbol
  | _, _ => false

/-- The expressions that an expression **refers to**, in order. -/
def children : Expr → List ExprId
  | token _ => []
  | pattern _ => []
  | seq _ children => children
  | alt _ children => children
  | rep _ child _ _ => [child]
  | omitted child => [child]
  | lexical child => [child]

end Expr

/-- A **grammar**. -/
structure Grammar where
  /-- The expressions, each known by its index. -/
  exprs : Array Expr
  /-- The start expression. -/
  start : ExprId
  /-- The start is one of the expressions. -/
  start_lt : start < exprs.size

namespace Grammar

/-- The number of expressions. -/
def size (g : Grammar) : Nat := g.exprs.size

/-- Whether there are no expressions. -/
def isEmpty (g : Grammar) : Bool := g.exprs.isEmpty

theorem isEmpty_eq_false (g : Grammar) : g.isEmpty = false := by
  have h := g.start_lt
  cases hs : g.exprs.isEmpty with
  | false => simpa [isEmpty] using hs
  | true => simp [Array.isEmpty_iff.1 hs] at h

/-- The expression with an index, if there is one. -/
def expr? (g : Grammar) (id : ExprId) : Option Expr := g.exprs[id]?

/-- A grammar is **closed** when every reference in it leads to one of its expressions. -/
def Closed (g : Grammar) : Prop := ∀ e ∈ g.exprs, ∀ id ∈ e.children, id < g.exprs.size

theorem exists_expr?_of_lt (g : Grammar) {id : ExprId} (h : id < g.exprs.size) :
    ∃ e, g.expr? id = some e :=
  ⟨g.exprs[id], by simp [expr?, h]⟩

theorem Closed.child_lt {g : Grammar} (hg : g.Closed) {id child : ExprId} {e : Expr}
    (he : g.expr? id = some e) (hc : child ∈ e.children) : child < g.exprs.size :=
  hg e (Array.mem_of_getElem? he) child hc

end Grammar

end GeneralParsing
