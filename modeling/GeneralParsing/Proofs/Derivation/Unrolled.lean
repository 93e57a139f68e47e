import GeneralParsing.Proofs.Derivation.Bisimulation

/-!
# Repetitions of an exact number of times

A repetition whose least and greatest number are the same can be **unrolled**: it is replaced by a
sequence of that many children (`Grammar.unroll`). Nothing is told from a derivation about which of
the two it is by, so the two grammars have the same derivations (`Grammar.Unrolls.valid_iff`), and
derive the same words.
-/

namespace GeneralParsing

/-- An expression **a number of times** in a row. -/
structure Repeat where
  /-- The tag of the whole. -/
  tag : Option String
  /-- The expression. -/
  child : ExprId
  /-- The number of times. -/
  times : Nat

namespace Repeat

/-- The expression as a **repetition** of this number of times. -/
def exact (r : Repeat) : Expr := .rep r.tag r.child r.times (some r.times)

/-- The expression as a **sequence** of that many children. -/
def unrolled (r : Repeat) : Expr := .seq r.tag (List.replicate r.times r.child)

end Repeat

namespace Grammar

/-- The grammar with **a sequence at an index**, of that many children. -/
def unroll (g : Grammar) (slot : ExprId) (r : Repeat) : Grammar where
  exprs := g.exprs.setIfInBounds slot r.unrolled
  start := g.start
  start_lt := by simpa using g.start_lt

/-- One grammar has a sequence **where the other has a repetition** of an exact number of times. -/
structure Unrolls (g h : Grammar) (slot : ExprId) (r : Repeat) : Prop where
  exact : g.expr? slot = some r.exact
  unrolled : h.expr? slot = some r.unrolled
  other : ∀ id, id ≠ slot → h.expr? id = g.expr? id
  start : h.start = g.start

variable {g h : Grammar} {slot : ExprId} {r : Repeat}

theorem unrolls_unroll (hexact : g.expr? slot = some r.exact) :
    g.Unrolls (g.unroll slot r) slot r where
  exact := hexact
  unrolled := by
    have hlt : slot < g.exprs.size := (Array.getElem?_eq_some_iff.mp hexact).1
    simp [expr?, unroll, hlt]
  other id hne := by rw [expr?, unroll, Array.getElem?_setIfInBounds_ne hne.symm, expr?]
  start := rfl

/-- A closed grammar is closed **when a repetition is unrolled**. The sequence refers to the
repeated expression, which was there. -/
theorem Closed.unroll (hg : g.Closed) (hexact : g.expr? slot = some r.exact) :
    (g.unroll slot r).Closed := by
  intro e he id hid
  rw [Grammar.unroll, Array.size_setIfInBounds]
  rcases Array.mem_or_eq_of_mem_setIfInBounds he with he | rfl
  · exact hg e he id hid
  · obtain rfl : id = r.child := List.eq_of_mem_replicate hid
    exact hg.child_lt hexact List.mem_cons_self

namespace Unrolls

open GeneralParsing.Derivation

variable (hu : g.Unrolls h slot r) {d : Derivation} {w : List String}

include hu

/-- What an expression other than the repetition is in one grammar it is **in the other**. -/
theorem expr?_of_ne_exact {id : ExprId} {e : Expr} (he : g.expr? id = some e)
    (hne : e ≠ r.exact) : h.expr? id = some e := by
  rw [hu.other id, he]
  rintro rfl
  exact hne (Option.some.inj (he.symm.trans hu.exact))

/-- What an expression other than the sequence is in one grammar it is **in the other**. -/
theorem expr?_of_ne_unrolled {id : ExprId} {e : Expr} (he : h.expr? id = some e)
    (hne : e ≠ r.unrolled) : g.expr? id = some e := by
  rw [← hu.other id, he]
  rintro rfl
  exact hne (Option.some.inj (he.symm.trans hu.unrolled))

theorem valid_unrolled (hd : d.Valid g) : d.Valid h := by
  induction hd with
  | symbol he ha => exact .symbol (hu.expr?_of_ne_exact he (by rintro rfl; cases ha)) ha
  | sequence he _ ih => exact .sequence (hu.expr?_of_ne_exact he (by simp [Repeat.exact])) ih
  | @repetition id tag child min max parts he hroot hmin hmax _ ih =>
    by_cases hid : id = slot
    · -- the iterations are as many as the sequence has children
      subst hid
      obtain ⟨-, rfl, rfl, rfl⟩ := Expr.rep.inj (Option.some.inj (he.symm.trans hu.exact))
      have hlength : parts.length = r.times := Nat.le_antisymm (hmax _ rfl) hmin
      have hroots : parts.map root = List.replicate r.times r.child := by
        rw [List.eq_replicate_of_mem (List.forall_mem_map.mpr hroot), List.length_map, hlength]
      have hseq : h.expr? id = some (.seq r.tag (parts.map root)) := hroots ▸ hu.unrolled
      exact .sequence hseq ih
    · exact .repetition ((hu.other id hid).trans he) hroot hmin hmax ih
  | choice he hc _ ih => exact .choice (hu.expr?_of_ne_exact he (by simp [Repeat.exact])) hc ih
  | omitted he _ ih => exact .omitted (hu.expr?_of_ne_exact he (by simp [Repeat.exact])) ih
  | lexical he _ ih => exact .lexical (hu.expr?_of_ne_exact he (by simp [Repeat.exact])) ih

theorem valid_exact (hd : d.Valid h) : d.Valid g := by
  induction hd with
  | symbol he ha => exact .symbol (hu.expr?_of_ne_unrolled he (by rintro rfl; cases ha)) ha
  | @sequence id tag parts he _ ih =>
    by_cases hid : id = slot
    · subst hid
      obtain ⟨-, hroots⟩ := Expr.seq.inj (Option.some.inj (he.symm.trans hu.unrolled))
      have hlength : parts.length = r.times := by simpa using congrArg List.length hroots
      refine .repetition hu.exact (fun d hd => ?_) hlength.ge ?_ ih
      · exact List.eq_of_mem_replicate (hroots ▸ List.mem_map_of_mem hd)
      · rintro _ ⟨⟩
        exact hlength.le
    · exact .sequence ((hu.other id hid).symm.trans he) ih
  | repetition he hroot hmin hmax _ ih =>
    exact .repetition (hu.expr?_of_ne_unrolled he (by simp [Repeat.unrolled])) hroot hmin hmax ih
  | choice he hc _ ih =>
    exact .choice (hu.expr?_of_ne_unrolled he (by simp [Repeat.unrolled])) hc ih
  | omitted he _ ih => exact .omitted (hu.expr?_of_ne_unrolled he (by simp [Repeat.unrolled])) ih
  | lexical he _ ih => exact .lexical (hu.expr?_of_ne_unrolled he (by simp [Repeat.unrolled])) ih

/-- **The derivations are the same.** A repetition of an exact number and a sequence of as many are
derived by the same list of parts. -/
theorem valid_iff : d.Valid g ↔ d.Valid h := ⟨hu.valid_unrolled, hu.valid_exact⟩

theorem derives_iff (id : ExprId) (w : List String) : g.Derives id w ↔ h.Derives id w := by
  rw [Grammar.derives_iff, Grammar.derives_iff]
  exact exists_congr fun d => and_congr_left' hu.valid_iff

theorem derivesAll_iff (ids : List ExprId) (w : List String) :
    g.DerivesAll ids w ↔ h.DerivesAll ids w :=
  derivesAll_congr (List.forall₂_same.mpr fun id _ => hu.derives_iff id) w

end Unrolls

end Grammar

end GeneralParsing
