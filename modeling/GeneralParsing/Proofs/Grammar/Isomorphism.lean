import GeneralParsing.Grammar.Isomorphism
import GeneralParsing.Proofs.Machine.Bound

/-!
# Comparing grammars ends

The walk that compares two grammars takes the pairs of expressions that it still has to meet from a
list. Meeting a pair for the first time adds at most as many pairs as an expression has children,
and a pair can be met for the first time only once. So the list and the pairs that have not been
met yet bound the rest of the walk, and with closed grammars it ends with an answer
(`Grammar.exists_isomorphic`).

When the walk ends without having met a difference, the pairs it has met are closed: the expressions
of each pair are alike, and their children make pairs that have been met, too
(`Grammar.exists_met_of_walkAlike`). Where the starts are among pairs that are closed like this, the
walk meets no difference (`Grammar.isomorphic_of_alikeIn`).
-/

namespace GeneralParsing

namespace Grammar

variable {g h : Grammar} {met : Std.HashSet (ExprId × ExprId)} {a b : ExprId}
  {pending : List (ExprId × ExprId)} {R : ExprId → ExprId → Prop}

/-- The pairs of expressions that **have not been met**. -/
def unmet (g h : Grammar) (met : Std.HashSet (ExprId × ExprId)) : Finset (ExprId × ExprId) :=
  (Finset.range g.size ×ˢ Finset.range h.size).filter (· ∉ met)

/-- A pair that is met for the first time is **met from then on**. There are finitely many pairs,
and so the walk ends. -/
theorem card_unmet_insert (ha : a < g.size) (hb : b < h.size) (hnew : (a, b) ∉ met) :
    (unmet g h (met.insert (a, b))).card + 1 ≤ (unmet g h met).card := by
  refine Finset.card_lt_card (Finset.ssubset_iff_of_subset ?_ |>.mpr ⟨(a, b), ?_, ?_⟩)
  · intro p hp
    simp only [unmet, Finset.mem_filter, Std.HashSet.mem_insert, not_or] at hp ⊢
    exact ⟨hp.1, hp.2.2⟩
  · simp [unmet, ha, hb, hnew]
  · simp [unmet]

theorem card_unmet_le : (unmet g h met).card ≤ g.size * h.size := by
  refine (Finset.card_filter_le _ _).trans (Nat.le_of_eq ?_)
  rw [Finset.card_product, Finset.card_range, Finset.card_range]

theorem length_children_le {e : Expr} {id : ExprId} (he : g.expr? id = some e) :
    e.children.length ≤ g.maxChildren := by
  rw [maxChildren, ← Array.foldl_toList]
  exact le_foldl_max_of_mem (fun e => e.children.length)
    (Array.mem_toList_iff.mpr (Array.mem_of_getElem? he)) 0

/-- With steps for the pairs in the list and for the children of the pairs that have not been met,
the walk **ends with an answer**. -/
theorem exists_walkAlike (hg : g.Closed) (hh : h.Closed) (fuel : Nat)
    (met : Std.HashSet (ExprId × ExprId)) (pending : List (ExprId × ExprId))
    (hpending : ∀ p ∈ pending, p.1 < g.size ∧ p.2 < h.size)
    (hfuel : pending.length + (unmet g h met).card * g.maxChildren ≤ fuel) :
    ∃ answer, walkAlike g h fuel met pending = .ok answer := by
  induction fuel generalizing met pending with
  | zero =>
    cases pending with
    | nil => exact ⟨true, by rw [walkAlike]⟩
    | cons p pending => simp at hfuel
  | succ fuel ih =>
    cases pending with
    | nil => exact ⟨true, by rw [walkAlike]⟩
    | cons p pending =>
      obtain ⟨a, b⟩ := p
      obtain ⟨⟨ha, hb⟩, hrest⟩ := List.forall_mem_cons.mp hpending
      rw [List.length_cons] at hfuel
      obtain ⟨x, hx⟩ := g.exists_expr?_of_lt ha
      obtain ⟨y, hy⟩ := h.exists_expr?_of_lt hb
      rw [walkAlike]
      -- a pair that has been met is passed over
      split
      · exact ih met pending hrest (by omega)
      · next hmet =>
        have hnew : (a, b) ∉ met := by simpa using hmet
        rw [hx, hy]
        dsimp only
        split
        · refine ih (met.insert (a, b)) ((x.children.zip y.children).reverse ++ pending) ?_ ?_
          · intro p hp
            rcases List.mem_append.mp hp with hp | hp
            · have hzip := List.of_mem_zip (List.mem_reverse.mp hp)
              exact ⟨hg.child_lt hx hzip.1, hh.child_lt hy hzip.2⟩
            · exact hrest p hp
          · -- the children take the place of a pair that had not been met
            have hchildren := length_children_le hx
            have hfewer : (unmet g h (met.insert (a, b))).card + 1 ≤ (unmet g h met).card :=
              card_unmet_insert ha hb hnew
            have hcard := Nat.mul_le_mul_right g.maxChildren hfewer
            rw [Nat.add_mul, Nat.one_mul] at hcard
            rw [List.length_append, List.length_reverse, List.length_zip]
            omega
        · exact ⟨false, rfl⟩

/-- **Closed grammars are compared**: the walk ends with an answer. The fuel is as much as it can
need. -/
theorem exists_isomorphic (hg : g.Closed) (hh : h.Closed) :
    ∃ answer, g.isomorphic h = .ok answer := by
  refine exists_walkAlike hg hh _ ∅ [(g.start, h.start)] ?_ ?_
  · simpa using ⟨g.start_lt, h.start_lt⟩
  · have hunmet : (unmet g h ∅).card ≤ g.size * h.size := card_unmet_le
    have hcard := Nat.mul_le_mul_right g.maxChildren hunmet
    rw [Nat.mul_add, Nat.mul_one, List.length_singleton]
    omega

/-! ### The pairs that are met -/

/-- Two expressions are **alike down to their children**, which are pairs of a relation. -/
def AlikeIn (g h : Grammar) (R : ExprId → ExprId → Prop) (a b : ExprId) : Prop :=
  ∃ x y, g.expr? a = some x ∧ h.expr? b = some y ∧ x.alike y = true ∧
    ∀ p ∈ x.children.zip y.children, R p.1 p.2

/-- A walk that meets no difference has met pairs that are **closed**: those that it meets after
those that had been met are alike down to their children. -/
theorem exists_met_of_walkAlike {fuel : Nat} (hwalk : walkAlike g h fuel met pending = .ok true) :
    ∃ R : ExprId → ExprId → Prop, (∀ p ∈ met, R p.1 p.2) ∧ (∀ p ∈ pending, R p.1 p.2) ∧
      ∀ a b, R a b → (a, b) ∉ met → AlikeIn g h R a b := by
  induction fuel generalizing met pending with
  | zero =>
    cases pending with
    | nil => exact ⟨fun a b => (a, b) ∈ met, fun _ hp => hp, nofun, fun _ _ hp hn => absurd hp hn⟩
    | cons p pending => cases hwalk
  | succ fuel ih =>
    cases pending with
    | nil => exact ⟨fun a b => (a, b) ∈ met, fun _ hp => hp, nofun, fun _ _ hp hn => absurd hp hn⟩
    | cons p pending =>
      obtain ⟨a, b⟩ := p
      rw [walkAlike] at hwalk
      split at hwalk
      · -- a pair that was met before is passed over
        next hmet =>
        obtain ⟨R, hR, hpending, halike⟩ := ih hwalk
        exact ⟨R, hR, List.forall_mem_cons.mpr ⟨hR (a, b) hmet, hpending⟩, halike⟩
      · split at hwalk
        · cases hwalk
        · cases hwalk
        · next x y hx hy =>
          split at hwalk
          · next hxy =>
            obtain ⟨R, hR, hpending, halike⟩ := ih hwalk
            obtain ⟨hchildren, hpending⟩ := List.forall_mem_append.mp hpending
            refine ⟨R, fun p hp => hR p (Std.HashSet.mem_insert.mpr (.inr hp)),
              List.forall_mem_cons.mpr ⟨hR (a, b) Std.HashSet.mem_insert_self, hpending⟩,
              fun a' b' hab hnew => ?_⟩
            by_cases hsame : (a, b) = (a', b')
            · -- this is the pair that has just been met
              cases hsame
              exact ⟨x, y, hx, hy, hxy, fun p hp => hchildren p (List.mem_reverse.mpr hp)⟩
            · refine halike a' b' hab fun hmem => ?_
              rcases Std.HashSet.mem_insert.mp hmem with heq | hmem
              · exact hsame (eq_of_beq heq)
              · exact hnew hmem
          · cases hwalk

/-- Among expressions that are alike down to their children the walk **meets no difference**. A
difference would be one between expressions that are related. -/
theorem walkAlike_ne (halike : ∀ a b, R a b → AlikeIn g h R a b) {fuel : Nat}
    (hpending : ∀ p ∈ pending, R p.1 p.2) : walkAlike g h fuel met pending ≠ .ok false := by
  induction fuel generalizing met pending with
  | zero => cases pending <;> simp [walkAlike]
  | succ fuel ih =>
    cases pending with
    | nil => simp [walkAlike]
    | cons p pending =>
      obtain ⟨a, b⟩ := p
      obtain ⟨hab, hrest⟩ := List.forall_mem_cons.mp hpending
      obtain ⟨x, y, hx, hy, hxy, hchildren⟩ := halike a b hab
      rw [walkAlike]
      split
      · exact ih hrest
      · rw [hx, hy]
        dsimp only
        rw [if_pos hxy]
        exact ih (List.forall_mem_append.mpr
          ⟨fun p hp => hchildren p (List.mem_reverse.mp hp), hrest⟩)

/-- Closed grammars are isomorphic when their starts are **among pairs that are alike down to their
children**. -/
theorem isomorphic_of_alikeIn (hg : g.Closed) (hh : h.Closed)
    (halike : ∀ a b, R a b → AlikeIn g h R a b) (hstart : R g.start h.start) :
    g.isomorphic h = .ok true := by
  obtain ⟨answer, hanswer⟩ := exists_isomorphic hg hh
  have hne : g.isomorphic h ≠ .ok false := walkAlike_ne halike (by simpa using hstart)
  cases answer with
  | true => exact hanswer
  | false => exact absurd hanswer hne

end Grammar

end GeneralParsing
