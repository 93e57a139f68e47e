import GeneralParsing.Grammar.Isomorphism
import GeneralParsing.Proofs.Grammar.Definitions

/-!
# The patterns of a built grammar

Every pattern in a grammar that was built is the one that is read from its source
(`Grammar.Built.patternsRead`): a pattern comes to a builder by being read, and from slot to slot by
being copied. So the source of a pattern decides what it matches, and expressions that differ at
most in what their patterns match are the same (`Expr.eq_of_alike`).
-/

namespace GeneralParsing

/-- Every pattern in the grammar is the one that is **read from its source**. -/
def Grammar.PatternsRead [PatternReader] (g : Grammar) : Prop :=
  ∀ p, Expr.pattern p ∈ g.exprs → Pattern.read p.source = .ok p

/-- Expressions that are alike and have the same children **are the same**, where patterns of one
source are. -/
theorem Expr.eq_of_alike {x y : Expr} (halike : x.alike y = true)
    (hchildren : x.children = y.children)
    (hpattern : ∀ p q, x = .pattern p → y = .pattern q → p.source = q.source → p = q) : x = y := by
  cases x <;> cases y <;> simp_all [alike, children]

namespace Builder

variable [PatternReader] {ids ids' : List ExprId} {b b' : Builder}

/-- Calls keep all expressions as they **were read**. -/
theorem Calls.allHold_isRead (h : Calls ids b ids' b') (hb : AllHold Expr.IsRead b.slots) :
    AllHold Expr.IsRead b'.slots := by
  induction h with
  | nil => exact hb
  | @call ids' b b' _ c _ ih =>
    by_cases hdeclare : c = .declare
    · subst hdeclare
      exact (ih hb).push nofun
    by_cases hdefine : ∃ slot body, c = .define slot body
    · obtain ⟨slot, body, rfl⟩ := hdefine
      rw [Call.after, Call.run, run_bind]
      rcases hrun : (Builder.define slot body).run.run b' with ⟨e | u, b''⟩
      · exact define_failed hrun ▸ ih hb
      · obtain ⟨-, -, rfl⟩ := define_inv hrun
        exact (ih hb).withDefinition slot body
    · refine onlyAdds_call c hdeclare (fun slot body heq => hdefine ⟨slot, body, heq⟩)
        (fun b => AllHold Expr.IsRead b.slots) (fun b e he h => h.push ?_) b' (ih hb)
      rintro _ ⟨⟩
      exact he

end Builder

namespace Grammar

variable [PatternReader] {g h : Grammar} {a b : ExprId}

/-- **All patterns** of a grammar that is built are read from their sources. There is no other way
to come by a pattern. -/
theorem Built.patternsRead (hg : g.Built) : g.PatternsRead := by
  obtain ⟨ids, b, hsession, -, hfinish⟩ := hg
  have hempty : Builder.AllHold Expr.IsRead ({} : Builder).slots := fun id e he => by simp at he
  exact fun p hp => (hsession.calls.allHold_isRead hempty).finish hfinish _ hp p rfl

/-- Patterns of one source are **the same**. That is why comparing grammars may look at the sources
alone. -/
theorem PatternsRead.eq (hg : g.PatternsRead) (hh : h.PatternsRead) {p q : Pattern}
    (hp : g.expr? a = some (.pattern p)) (hq : h.expr? b = some (.pattern q))
    (hsource : p.source = q.source) : p = q := by
  have hreadp := hg p (Array.mem_of_getElem? hp)
  have hreadq := hh q (Array.mem_of_getElem? hq)
  rw [hsource] at hreadp
  exact Except.ok.inj (hreadp.symm.trans hreadq)

end Grammar

end GeneralParsing
