import GeneralParsing.Pattern.Common
import GeneralParsing.Proofs.Grammar.Isomorphism
import GeneralParsing.Proofs.Grammar.Patterns
import GeneralParsing.Proofs.Parsing.Alike

/-!
# Isomorphic grammars accept the same inputs

When the walk that compares two grammars ends without having met a difference, the pairs it has met
are closed (`Grammar.exists_met_of_walkAlike`). So the pairs relate counterparts, the starts among
them, and either grammar may take the place of the other wherever inputs are recognised
(`Forest.parsedAlike_of_isomorphic`).

The walk compares patterns by their sources. A pattern's source decides what it matches, since a
pattern is what is read from its source (`Grammar.PatternsRead`), which holds of every grammar that
was built (`Grammar.Built.patternsRead`).
-/

namespace GeneralParsing

variable {g h : Grammar} {R : ExprId → ExprId → Prop} {a b : ExprId} {x y : Expr}

/-- Expressions that are alike and have related children **match**, where patterns of one source are
the same. -/
theorem Expr.matches_of_alike (halike : x.alike y = true)
    (hchildren : ∀ p ∈ x.children.zip y.children, R p.1 p.2)
    (hpattern : ∀ p q, x = .pattern p → y = .pattern q → p.source = q.source → p = q) :
    Matches R x y := by
  have hall : ∀ {as bs : List ExprId}, as.length = bs.length →
      (∀ p ∈ as.zip bs, R p.1 p.2) → List.Forall₂ R as bs :=
    fun hlen hs => List.forall₂_iff_zip.mpr ⟨hlen, fun hp => hs _ hp⟩
  cases x <;> cases y <;> simp only [alike, Bool.and_eq_true, beq_iff_eq, reduceCtorEq] at halike
  case token.token =>
    subst halike
    exact .token _
  case pattern.pattern p q =>
    obtain rfl := hpattern p q rfl rfl halike
    exact .pattern p
  case seq.seq =>
    obtain ⟨rfl, hlen⟩ := halike
    exact .seq (hall hlen hchildren)
  case alt.alt =>
    obtain ⟨rfl, hlen⟩ := halike
    exact .alt (hall hlen hchildren)
  case rep.rep =>
    obtain ⟨⟨rfl, rfl⟩, rfl⟩ := halike
    exact .rep (hchildren _ List.mem_cons_self)
  case omitted.omitted => exact .omitted (hchildren _ List.mem_cons_self)
  case lexical.lexical => exact .lexical (hchildren _ List.mem_cons_self)

namespace Grammar

/-- Counterparts are **alike down to their children**, which are counterparts. -/
theorem Counterparts.alikeIn (hR : Counterparts g h R) (hab : R a b) : AlikeIn g h R a b := by
  obtain ⟨x, y, hx, hy, hxy⟩ := hR a b hab
  refine ⟨x, y, hx, hy, ?_, fun p hp => List.forall₂_zip hxy.children hp⟩
  cases hxy with
  | token | pattern | rep => simp [Expr.alike]
  | seq hs | alt hs => simp [Expr.alike, hs.length_eq]
  | omitted | lexical => rfl

section

variable [PatternReader]

/-- The starts of isomorphic grammars are **counterparts**. The pairs that the test has gone through
are one such relation. -/
theorem exists_counterparts (hg : g.PatternsRead) (hh : h.PatternsRead)
    (hiso : g.isomorphic h = .ok true) :
    ∃ R, Counterparts g h R ∧ R g.start h.start := by
  obtain ⟨R, -, hpending, halike⟩ := exists_met_of_walkAlike hiso
  refine ⟨R, fun a b hab => ?_, hpending _ List.mem_cons_self⟩
  obtain ⟨x, y, hx, hy, hxy, hchildren⟩ := halike a b hab Std.HashSet.not_mem_empty
  refine ⟨x, y, hx, hy, Expr.matches_of_alike hxy hchildren ?_⟩
  rintro p q rfl rfl hsource
  exact hg.eq hh hx hy hsource

/-- Closed grammars are isomorphic **exactly when their starts are counterparts**. The test finds
the least relation, and it fails only where there is none. -/
theorem isomorphic_iff (hg : g.Closed) (hh : h.Closed) (hpg : g.PatternsRead)
    (hph : h.PatternsRead) :
    g.isomorphic h = .ok true ↔ ∃ R, Counterparts g h R ∧ R g.start h.start := by
  refine ⟨exists_counterparts hpg hph, ?_⟩
  rintro ⟨R, hR, hstart⟩
  exact isomorphic_of_alikeIn hg hh (fun a b hab => hR.alikeIn hab) hstart

end

end Grammar

/-- **Isomorphic grammars** parse every input alike: both accept it, or both reject it at the same
position. -/
theorem Forest.parsedAlike_of_isomorphic [PatternReader] (hg : g.Closed) (hh : h.Closed)
    (hpg : g.PatternsRead) (hph : h.PatternsRead) (hiso : g.isomorphic h = .ok true)
    (w : List String) : ParsedAlike g h w := by
  obtain ⟨R, hR, hstart⟩ := Grammar.exists_counterparts hpg hph hiso
  exact hR.parsedAlike hstart hg hh w

/-! ### Sums, shared differently -/

namespace Grammar

/-- **Sums** whose recursion goes back and forth between two copies of the choice. -/
def sumsInTwo : Grammar where
  exprs := #[.alt (some "sum") [4, 1], .token "n", .token "+", .alt (some "sum") [5, 1],
    .seq none [3, 2, 0], .seq none [0, 2, 3]]
  start := 0
  start_lt := by decide

theorem closed_sumsInTwo : sumsInTwo.Closed := by
  rw [Closed, sumsInTwo]
  decide

theorem patternsRead_sums [PatternReader] : sums.PatternsRead := by simp [PatternsRead, sums]

theorem patternsRead_sumsInTwo [PatternReader] : sumsInTwo.PatternsRead := by
  simp [PatternsRead, sumsInTwo]

open scoped Common in
/-- Each expression for sums has **one or two counterparts** in the grammar with two copies. -/
theorem isomorphic_sumsInTwo : sums.isomorphic sumsInTwo = .ok true := by
  refine (isomorphic_iff closed_sums closed_sumsInTwo patternsRead_sums patternsRead_sumsInTwo).mpr
    ⟨fun a b => (a, b) ∈ [(0, 1), (1, 2), (2, 4), (2, 5), (3, 0), (3, 3)], ?_, by decide⟩
  intro a b hab
  simp only [List.mem_cons, Prod.mk.injEq, List.not_mem_nil, or_false] at hab
  rcases hab with ⟨rfl, rfl⟩ | ⟨rfl, rfl⟩ | ⟨rfl, rfl⟩ | ⟨rfl, rfl⟩ | ⟨rfl, rfl⟩ | ⟨rfl, rfl⟩
  · exact ⟨_, _, rfl, rfl, .token "n"⟩
  · exact ⟨_, _, rfl, rfl, .token "+"⟩
  · exact ⟨_, _, rfl, rfl, .seq (by simp)⟩
  · exact ⟨_, _, rfl, rfl, .seq (by simp)⟩
  · exact ⟨_, _, rfl, rfl, .alt (by simp)⟩
  · exact ⟨_, _, rfl, rfl, .alt (by simp)⟩

end Grammar

open Grammar in
open scoped Common in
/-- Sums in two copies are **rejected where sums are**. -/
theorem Forest.parsedAlike_sumsInTwo : sums.Closed ∧ sumsInTwo.Closed ∧ sums.PatternsRead ∧
    sumsInTwo.PatternsRead ∧ sums.isomorphic sumsInTwo = .ok true ∧
    ParsedAlike sums sumsInTwo ["n", "+", "+"] :=
  ⟨closed_sums, closed_sumsInTwo, patternsRead_sums, patternsRead_sumsInTwo, isomorphic_sumsInTwo,
    Forest.parsedAlike_of_isomorphic closed_sums closed_sumsInTwo patternsRead_sums
      patternsRead_sumsInTwo isomorphic_sumsInTwo _⟩

end GeneralParsing
