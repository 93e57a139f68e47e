import GeneralParsing.Grammar.Basic

/-!
# Writing a grammar out

A grammar is written one expression a line, after a line that names the start. References are
written `#` and the index, tags after an at sign.
-/

namespace GeneralParsing

namespace Expr

/-- A **reference** to an expression. -/
def reference (id : ExprId) : String := s!"#{id}"

/-- References between separators. -/
def references (separator : String) (ids : List ExprId) : String :=
  String.intercalate separator (ids.map reference)

/-- The bounds of a repetition, **in braces**. -/
def bounds (min : Nat) (max : Option Nat) : String :=
  s!"\x7b{min}," ++ (max.map toString).getD "" ++ "\x7d"

/-- The expression **without its tag**. -/
def body : Expr → String
  | token text => Text.quote text
  | pattern p => "#" ++ Text.quote p.source
  | seq _ children => "seq(" ++ references " " children ++ ")"
  | alt _ children => "alt(" ++ references " | " children ++ ")"
  | rep _ child min max => "rep(" ++ reference child ++ ")" ++ bounds min max
  | omitted child => "omit(" ++ reference child ++ ")"
  | lexical child => "lex(" ++ reference child ++ ")"

/-- The expression **on one line**. -/
def render (e : Expr) : String :=
  match e.tag? with
  | some tag => e.body ++ " @" ++ tag
  | none => e.body

end Expr

/-- The **whole grammar**, each line ended. -/
def Grammar.render (g : Grammar) : String :=
  let line (e : Expr × Nat) : String := Expr.reference e.2 ++ " = " ++ e.1.render ++ "\n"
  "start " ++ Expr.reference g.start ++ "\n" ++ String.join (g.exprs.toList.zipIdx.map line)

end GeneralParsing
