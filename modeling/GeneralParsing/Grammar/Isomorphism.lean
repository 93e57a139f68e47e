import GeneralParsing.Grammar.Basic
import Std.Data.HashSet

/-!
# Grammars that look the same

Two grammars are **isomorphic** when a walk from both starts in step never meets a difference.
Which index an expression has is ignored, so an expression that is used twice equals two copies
of it. A pair of expressions that was met before is taken to be equal, which makes the walk end
on cyclic grammars.
-/

namespace GeneralParsing

namespace Expr

/-- Whether two expressions **agree apart from their children**. Patterns are compared by their
source. -/
def alike : Expr → Expr → Bool
  | token x, token y => x == y
  | pattern x, pattern y => x.source == y.source
  | seq t cs, seq u ds => t == u && cs.length == ds.length
  | alt t cs, alt u ds => t == u && cs.length == ds.length
  | rep t _ m n, rep u _ m' n' => t == u && m == m' && n == n'
  | omitted _, omitted _ => true
  | lexical _, lexical _ => true
  | _, _ => false

end Expr

namespace Grammar

/-- The largest number of children of an expression. -/
def maxChildren (g : Grammar) : Nat :=
  g.exprs.foldl (fun n e => max n e.children.length) 0

/-- **Walks** both grammars in step. The pairs that have been met and the pairs still to meet are
given; the newest pair comes first. -/
def walkAlike (g h : Grammar) : Nat → Std.HashSet (ExprId × ExprId) → List (ExprId × ExprId) →
    Except Fault Bool
  | _, _, [] => .ok true
  | 0, _, _ :: _ => .error .outOfSteps
  | fuel + 1, met, (a, b) :: pending =>
    if met.contains (a, b) then walkAlike g h fuel met pending
    else
      match g.expr? a, h.expr? b with
      | none, _ => .error (.noExpression a)
      | _, none => .error (.noExpression b)
      | some x, some y =>
        if x.alike y then
          walkAlike g h fuel (met.insert (a, b)) ((x.children.zip y.children).reverse ++ pending)
        else .ok false

/-- Whether the grammars are **isomorphic**. Every pair of expressions is expanded at most once,
which bounds the number of pairs that are ever met. -/
def isomorphic (g h : Grammar) : Except Fault Bool :=
  walkAlike g h (g.size * h.size * (g.maxChildren + 1) + 1) ∅ [(g.start, h.start)]

end Grammar

end GeneralParsing
