import GeneralParsing.Proofs.Derivation.Bisimulation

/-!
# Counterparts

Two grammars that unfold to the same graphs have **counterparts**: related expressions are of one
kind, with the same literal or pattern, tag and bounds, and with related children in the same
places (`Grammar.Counterparts`). This is a bisimulation (`Grammar.Counterparts.bisimulation`) that
looks at what is omitted, too, and it can be turned round (`Grammar.Counterparts.flip`).
-/

namespace GeneralParsing

/-- Expressions of one kind, with the same text, tag and bounds, whose children are related **in
order**. -/
inductive Expr.Matches (R : ExprId → ExprId → Prop) : Expr → Expr → Prop
  | token (text : String) : Matches R (.token text) (.token text)
  | pattern (p : Pattern) : Matches R (.pattern p) (.pattern p)
  | seq {tag : Option String} {as bs : List ExprId} (hs : List.Forall₂ R as bs) :
      Matches R (.seq tag as) (.seq tag bs)
  | alt {tag : Option String} {as bs : List ExprId} (hs : List.Forall₂ R as bs) :
      Matches R (.alt tag as) (.alt tag bs)
  | rep {tag : Option String} {a b : ExprId} {min : Nat} {max : Option Nat} (hab : R a b) :
      Matches R (.rep tag a min max) (.rep tag b min max)
  | omitted {a b : ExprId} (hab : R a b) : Matches R (.omitted a) (.omitted b)
  | lexical {a b : ExprId} (hab : R a b) : Matches R (.lexical a) (.lexical b)

/-- Related expressions are there, and **match**. -/
def Grammar.Counterparts (g h : Grammar) (R : ExprId → ExprId → Prop) : Prop :=
  ∀ a b, R a b → ∃ x y, g.expr? a = some x ∧ h.expr? b = some y ∧ Expr.Matches R x y

variable {g h : Grammar} {R : ExprId → ExprId → Prop} {a b : ExprId} {x y : Expr}

/-- Matching does not depend on **which expression comes first**. -/
theorem Expr.Matches.flip (hxy : Matches R x y) : Matches (flip R) y x := by
  cases hxy with
  | token text => exact .token text
  | pattern p => exact .pattern p
  | seq hs => exact .seq hs.flip
  | alt hs => exact .alt hs.flip
  | rep hab => exact .rep hab
  | omitted hab => exact .omitted hab
  | lexical hab => exact .lexical hab

/-- Lists that are related are related **by more**, if what they hold is. -/
theorem forall₂_of_mem {α β : Type} {R S : α → β → Prop} {as : List α} {bs : List β}
    (hs : List.Forall₂ R as bs) (h : ∀ a ∈ as, ∀ b, R a b → S a b) : List.Forall₂ S as bs :=
  ((List.forall₂_and_left _ _).mpr ⟨h, hs⟩).imp fun _ b hab => hab.1 b hab.2

/-- Only **the children** matter to what has to be related. So a relation may be cut down to what is
reached. -/
theorem Expr.Matches.of_mem {S : ExprId → ExprId → Prop} (hxy : Matches R x y)
    (h : ∀ a ∈ x.children, ∀ b, R a b → S a b) : Matches S x y := by
  cases hxy with
  | token text => exact .token text
  | pattern p => exact .pattern p
  | seq hs => exact .seq (forall₂_of_mem hs h)
  | alt hs => exact .alt (forall₂_of_mem hs h)
  | rep hab => exact .rep (h _ List.mem_cons_self _ hab)
  | omitted hab => exact .omitted (h _ List.mem_cons_self _ hab)
  | lexical hab => exact .lexical (h _ List.mem_cons_self _ hab)

theorem Expr.children_rename (f : ExprId → ExprId) (e : Expr) :
    (e.rename f).children = e.children.map f := by
  cases e <;> rfl

/-- An expression **matches itself** under other references that its own are related to. -/
theorem Expr.matches_rename {f : ExprId → ExprId} {e : Expr} (he : ∀ c ∈ e.children, R c (f c)) :
    Matches R e (e.rename f) := by
  have hall : ∀ {ids : List ExprId}, (∀ c ∈ ids, R c (f c)) → List.Forall₂ R ids (ids.map f) :=
    fun hids => List.forall₂_map_right_iff.mpr (List.forall₂_same.mpr hids)
  cases e with
  | token text => exact .token text
  | pattern p => exact .pattern p
  | seq tag children => exact .seq (hall he)
  | alt tag children => exact .alt (hall he)
  | rep tag child min max => exact .rep (he child List.mem_cons_self)
  | omitted child => exact .omitted (he child List.mem_cons_self)
  | lexical child => exact .lexical (he child List.mem_cons_self)

/-- Expressions that match have **related children**, one by one. -/
theorem Expr.Matches.children (hxy : Matches R x y) : List.Forall₂ R x.children y.children := by
  cases hxy with
  | token | pattern => exact .nil
  | seq hs | alt hs => exact hs
  | rep hab | omitted hab | lexical hab => exact .cons hab .nil

/-- Expressions that match **agree**, for what they derive and for what they give. -/
theorem Expr.Matches.agree (hxy : Matches R x y) : Agree g h R x y := by
  cases hxy with
  | token text => exact .token text
  | pattern p => exact .pattern p
  | seq hs => exact .seq hs
  | alt hs => exact .alt hs
  | rep hab => exact .rep hab
  | omitted hab => exact .omitted hab
  | lexical hab => exact .lexical hab

/-- An expression **agrees with itself** under other references that are related to its own. -/
theorem Expr.agree_rename {f : ExprId → ExprId} {e : Expr} (he : ∀ c ∈ e.children, R (f c) c) :
    Agree g h R (e.rename f) e :=
  (Expr.matches_rename (R := Function.swap R) he).flip.agree

/-- Expressions that match accept **the same symbols**. -/
theorem Expr.Matches.accepts_eq (hxy : Matches R x y) (symbol : String) :
    y.accepts symbol = x.accepts symbol := by
  cases hxy <;> rfl

namespace Grammar

/-- Counterparts **can be turned around**. -/
theorem Counterparts.flip (hR : Counterparts g h R) : Counterparts h g (flip R) := by
  intro b a hab
  obtain ⟨x, y, hx, hy, hxy⟩ := hR a b hab
  exact ⟨y, x, hy, hx, hxy.flip⟩

/-- Counterparts are **a bisimulation**, so they derive the same in the same ways. Matching is
stronger than agreeing: it is about the order of alternatives as well. -/
theorem Counterparts.bisimulation (hR : Counterparts g h R) : Bisimulation g h R := by
  intro a b hab
  obtain ⟨x, y, hx, hy, hxy⟩ := hR a b hab
  exact ⟨x, y, hx, hy, hxy.agree⟩

/-- An expression that is related to one that is known **matches it**. -/
theorem Counterparts.exists_matches (hR : Counterparts g h R) (hx : g.expr? a = some x)
    (hab : R a b) : ∃ y, h.expr? b = some y ∧ Expr.Matches R x y := by
  obtain ⟨x', y, hx', hy, hxy⟩ := hR a b hab
  obtain rfl := Option.some.inj (hx.symm.trans hx')
  exact ⟨y, hy, hxy⟩

theorem Counterparts.tag?_eq (hR : Counterparts g h R) (hab : R a b) : h.tag? b = g.tag? a := by
  obtain ⟨x, y, hx, hy, hxy⟩ := hR a b hab
  rw [Grammar.tag?_eq hx, Grammar.tag?_eq hy, hxy.agree (g := g) (h := h) |>.tag?_eq]

end Grammar

end GeneralParsing
