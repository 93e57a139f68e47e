import GeneralParsing.Proofs.Grammar.Isomorphism

/-!
# Isomorphic grammars unfold alike

A grammar unfolds to a tree. Below an expression stand the ones that it refers to, as often as it
refers to them, and a cycle unfolds without an end. Which expressions are shared cannot be seen in
the unfolding, and the comparison of two grammars does not see it, either: closed grammars are
isomorphic exactly when their unfoldings agree to every depth, and exactly when the starts are
related by some relation that related expressions are in step under (`Grammar.InStep`).

The walk itself only assumes that a pair is equal when it is met again, and which pairs it meets
depends on both grammars. That isomorphism is transitive comes from the relations, which compose
(`Grammar.InStep.comp`), and not from the walk.
-/

namespace GeneralParsing

/-! ### Expressions without their children -/

/-- What an expression is **apart from its children**: its kind, with its text, tag and bounds.
A pattern stands for its source. -/
inductive Expr.Head where
  | token (text : String)
  | pattern (source : String)
  | seq (tag : Option String)
  | alt (tag : Option String)
  | rep (tag : Option String) (min : Nat) (max : Option Nat)
  | omitted
  | lexical
  deriving DecidableEq

variable {g h k : Grammar} {R S : ExprId → ExprId → Prop} {a b : ExprId} {x y : Expr} {depth : Nat}

namespace Expr

/-- The **head** of an expression. -/
def head : Expr → Head
  | token text => .token text
  | pattern p => .pattern p.source
  | seq tag _ => .seq tag
  | alt tag _ => .alt tag
  | rep tag _ min max => .rep tag min max
  | omitted _ => .omitted
  | lexical _ => .lexical

/-- Expressions are alike when they have **the same head and as many children**. -/
theorem alike_iff :
    x.alike y = true ↔ x.head = y.head ∧ x.children.length = y.children.length := by
  cases x <;> cases y <;> simp [alike, head, children, and_assoc]

end Expr

namespace Grammar

/-! ### Relations that are in step -/

/-- Related expressions are **in step**: they have the same head and as many children, and the
children are related pairwise, in order. -/
def InStep (g h : Grammar) (R : ExprId → ExprId → Prop) : Prop :=
  ∀ a b, R a b → ∃ x y, g.expr? a = some x ∧ h.expr? b = some y ∧ x.head = y.head ∧
    List.Forall₂ R x.children y.children

theorem alikeIn_iff : AlikeIn g h R a b ↔
    ∃ x y, g.expr? a = some x ∧ h.expr? b = some y ∧ x.head = y.head ∧
      List.Forall₂ R x.children y.children := by
  simp only [AlikeIn, Expr.alike_iff, and_assoc, List.forall₂_iff_zip, Prod.forall]

/-- Every expression is **in step with itself**. -/
theorem inStep_refl (hg : g.Closed) : InStep g g fun a b => a = b ∧ a < g.size := by
  rintro a _ ⟨rfl, ha⟩
  obtain ⟨x, hx⟩ := g.exists_expr?_of_lt ha
  exact ⟨x, x, hx, hx, rfl, List.forall₂_same.mpr fun c hc => ⟨rfl, hg.child_lt hx hc⟩⟩

theorem InStep.flip (hR : InStep g h R) : InStep h g (flip R) := by
  intro b a hab
  obtain ⟨x, y, hx, hy, hhead, hs⟩ := hR a b hab
  exact ⟨y, x, hy, hx, hhead.symm, hs.flip⟩

/-- Relations that are in step **compose**. So being isomorphic is transitive. -/
theorem InStep.comp (hR : InStep g h R) (hS : InStep h k S) : InStep g k (Relation.Comp R S) := by
  rintro a c ⟨b, hab, hbc⟩
  obtain ⟨x, y, hx, hy, hhead, hs⟩ := hR a b hab
  obtain ⟨y', z, hy', hz, hhead', hs'⟩ := hS b c hbc
  obtain rfl := Option.some.inj (hy.symm.trans hy')
  refine ⟨x, z, hx, hz, hhead.trans hhead', ?_⟩
  rw [List.forall₂_iff_get] at hs hs' ⊢
  exact ⟨hs.1.trans hs'.1, fun i hi hi' =>
    ⟨_, hs.2 i hi (hs.1 ▸ hi), hs'.2 i (hs.1 ▸ hi) hi'⟩⟩

/-- The walk finds no difference **exactly when the starts are in step**. This is about closed
grammars, for which the walk ends. -/
theorem isomorphic_iff_inStep (hg : g.Closed) (hh : h.Closed) :
    g.isomorphic h = .ok true ↔ ∃ R, InStep g h R ∧ R g.start h.start := by
  constructor
  · intro hiso
    obtain ⟨R, -, hpending, halike⟩ := exists_met_of_walkAlike hiso
    exact ⟨R, fun a b hab => alikeIn_iff.mp (halike a b hab Std.HashSet.not_mem_empty),
      hpending _ List.mem_cons_self⟩
  · rintro ⟨R, hR, hstart⟩
    exact isomorphic_of_alikeIn hg hh (fun a b hab => alikeIn_iff.mpr (hR a b hab)) hstart

end Grammar

/-! ### Unfoldings -/

/-- What a grammar unfolds to, **cut off** at some depth. -/
inductive Unfolding where
  | cut
  | node (head : Expr.Head) (children : List Unfolding)

namespace Grammar

/-- The **unfolding** of an expression, down to a depth. -/
def unfolding (g : Grammar) : Nat → ExprId → Unfolding
  | 0, _ => .cut
  | depth + 1, id =>
    match g.expr? id with
    | none => .cut
    | some e => .node e.head (e.children.map (g.unfolding depth))

theorem unfolding_succ (hx : g.expr? a = some x) :
    g.unfolding (depth + 1) a = .node x.head (x.children.map (g.unfolding depth)) := by
  rw [unfolding, hx]

/-- Expressions in step **unfold alike** to every depth. -/
theorem InStep.unfolding_eq (hR : InStep g h R) (hab : R a b) (depth : Nat) :
    g.unfolding depth a = h.unfolding depth b := by
  induction depth generalizing a b with
  | zero => rfl
  | succ depth ih =>
    obtain ⟨x, y, hx, hy, hhead, hs⟩ := hR a b hab
    have hchildren : x.children.map (g.unfolding depth) = y.children.map (h.unfolding depth) := by
      rw [← List.forall₂_eq_eq_eq, List.forall₂_map_left_iff, List.forall₂_map_right_iff]
      exact hs.imp fun _ _ => ih
    rw [unfolding_succ hx, unfolding_succ hy, hhead, hchildren]

/-- Expressions that unfold alike to every depth are **in step**. Children at the same place unfold
alike to every depth, as their parents do to one more. -/
theorem inStep_of_unfolding_eq (hg : g.Closed) (hh : h.Closed) :
    InStep g h fun a b =>
      a < g.size ∧ b < h.size ∧ ∀ depth, g.unfolding depth a = h.unfolding depth b := by
  rintro a b ⟨ha, hb, hunfold⟩
  obtain ⟨x, hx⟩ := g.exists_expr?_of_lt ha
  obtain ⟨y, hy⟩ := h.exists_expr?_of_lt hb
  have hnode (depth : Nat) : x.head = y.head ∧
      x.children.map (g.unfolding depth) = y.children.map (h.unfolding depth) := by
    have hsucc := hunfold (depth + 1)
    rw [unfolding_succ hx, unfolding_succ hy] at hsucc
    exact Unfolding.node.inj hsucc
  have hlength : x.children.length = y.children.length := by
    simpa using congrArg List.length (hnode 0).2
  refine ⟨x, y, hx, hy, (hnode 0).1, List.forall₂_iff_get.mpr ⟨hlength, fun i hi hi' => ?_⟩⟩
  refine ⟨hg.child_lt hx (List.get_mem _ _), hh.child_lt hy (List.get_mem _ _), fun depth => ?_⟩
  simpa [hi, hi'] using congrArg (·[i]?) (hnode depth).2

/-- The starts are in step **exactly when the grammars unfold alike** to every depth. So two
grammars are isomorphic if they cannot be told apart by unfolding. -/
theorem exists_inStep_iff (hg : g.Closed) (hh : h.Closed) :
    (∃ R, InStep g h R ∧ R g.start h.start) ↔
      ∀ depth, g.unfolding depth g.start = h.unfolding depth h.start :=
  ⟨fun ⟨_, hR, hstart⟩ => hR.unfolding_eq hstart,
    fun hunfold => ⟨_, inStep_of_unfolding_eq hg hh, g.start_lt, h.start_lt, hunfold⟩⟩

/-- The comparison of closed grammars **decides whether they unfold alike**. So it is reflexive,
symmetric and transitive. -/
theorem isomorphic_exact (hg : g.Closed) (hh : h.Closed) :
    ∃ answer, g.isomorphic h = .ok answer ∧
      (answer = true ↔ ∃ R, InStep g h R ∧ R g.start h.start) ∧
      (answer = true ↔ ∀ depth, g.unfolding depth g.start = h.unfolding depth h.start) ∧
      g.isomorphic g = .ok true ∧ h.isomorphic g = .ok answer ∧
      ∀ k : Grammar, k.Closed → answer = true → h.isomorphic k = .ok true →
        g.isomorphic k = .ok true := by
  obtain ⟨answer, hanswer⟩ := exists_isomorphic hg hh
  obtain ⟨turned, hturned⟩ := exists_isomorphic hh hg
  have hiff : answer = true ↔ ∃ R, InStep g h R ∧ R g.start h.start := by
    rw [← isomorphic_iff_inStep hg hh, hanswer, Except.ok.injEq]
  have hiff' : turned = true ↔ ∃ R, InStep h g R ∧ R h.start g.start := by
    rw [← isomorphic_iff_inStep hh hg, hturned, Except.ok.injEq]
  refine ⟨answer, hanswer, hiff, hiff.trans (exists_inStep_iff hg hh), ?refl, ?symm, ?trans⟩
  case refl =>
    exact (isomorphic_iff_inStep hg hg).mpr ⟨_, inStep_refl hg, rfl, g.start_lt⟩
  case symm =>
    -- a relation in step is turned over
    have hsame : turned = true ↔ answer = true := by
      rw [hiff, hiff']
      exact ⟨fun ⟨R, hR, hstart⟩ => ⟨_, hR.flip, hstart⟩, fun ⟨R, hR, hstart⟩ =>
        ⟨_, hR.flip, hstart⟩⟩
    rw [hturned, Bool.eq_iff_iff.mpr hsame]
  case trans =>
    -- two relations in step are composed
    intro k hk hfound hhk
    obtain ⟨R, hR, hstart⟩ := hiff.mp hfound
    obtain ⟨S, hS, hstart'⟩ := (isomorphic_iff_inStep hh hk).mp hhk
    exact (isomorphic_iff_inStep hg hk).mpr ⟨_, hR.comp hS, h.start, hstart, hstart'⟩

/-! ### A cycle, and the cycle unrolled -/

/-- A **list of names**, which is a name with a list of names behind it. -/
def names : Grammar where
  exprs := #[.token "name", .alt (some "list") [0, 2], .seq none [0, 1]]
  start := 1
  start_lt := by decide

/-- **Names**, whose lists are unrolled once. -/
def namesUnrolled : Grammar where
  exprs := #[.alt (some "list") [1, 2], .token "name", .seq none [1, 3],
    .alt (some "list") [4, 5], .token "name", .seq none [4, 0]]
  start := 0
  start_lt := by decide

theorem closed_names : names.Closed := by
  rw [Closed, names]
  decide

theorem closed_namesUnrolled : namesUnrolled.Closed := by
  rw [Closed, namesUnrolled]
  decide

/-- Each expression for lists of names is in step with **two expressions** of the unrolled lists. -/
theorem inStep_names : InStep names namesUnrolled fun a b =>
    a = 0 ∧ (b = 1 ∨ b = 4) ∨ a = 1 ∧ (b = 0 ∨ b = 3) ∨ a = 2 ∧ (b = 2 ∨ b = 5) := by
  rintro a b (⟨rfl, rfl | rfl⟩ | ⟨rfl, rfl | rfl⟩ | ⟨rfl, rfl | rfl⟩)
  · exact ⟨_, _, rfl, rfl, rfl, .nil⟩
  · exact ⟨_, _, rfl, rfl, rfl, .nil⟩
  all_goals exact ⟨_, _, rfl, rfl, rfl, .cons (by decide) (.cons (by decide) .nil)⟩

/-- Lists of names are **isomorphic to lists that are unrolled**, and the other way round. -/
theorem isomorphic_exact_names : names.Closed ∧ namesUnrolled.Closed ∧
    names.isomorphic namesUnrolled = .ok true ∧ namesUnrolled.isomorphic names = .ok true ∧
    ∀ depth, names.unfolding depth 1 = namesUnrolled.unfolding depth 0 := by
  obtain ⟨answer, hanswer, hiff, hunfold, -, hturned, -⟩ :=
    isomorphic_exact closed_names closed_namesUnrolled
  obtain rfl := hiff.mpr ⟨_, inStep_names, by decide⟩
  exact ⟨closed_names, closed_namesUnrolled, hanswer, hturned, hunfold.mp rfl⟩

end Grammar

end GeneralParsing
