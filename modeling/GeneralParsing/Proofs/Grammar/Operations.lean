import GeneralParsing.Pattern.Common
import GeneralParsing.Proofs.Grammar.Chains
import GeneralParsing.Proofs.Grammar.Definitions

/-!
# Operations in any order

`Operations` is a sequence of a builder's operations, among them `recs` with an arbitrary
computation of its caller's inside, and with indices that may point at any slot, whether it is
there, not there yet, or never. Its `History` is what a reader of the calls would write down: the
slots that were declared, and the definitions that succeeded.

The history decides what comes of finishing the builder (`Operations.finish_exact`): there is a
grammar if and only if every declared slot leads, along the definitions, to an expression that was
built.
-/

namespace GeneralParsing

namespace Builder

/-! ### Histories -/

/-- The definitions that **succeed** of some that are made in order until one fails. -/
def made : List (ExprId × ExprId) → Builder → List (ExprId × ExprId)
  | [], _ => []
  | (slot, body) :: pairs, b =>
    match (define slot body).run.run b with
    | (.ok _, b') => (slot, body) :: made pairs b'
    | (.error _, _) => []

/-- The slots that have been **declared**, and the definitions that have succeeded, as slot and
body. -/
structure History where
  declared : List ExprId := []
  links : List (ExprId × ExprId) := []

namespace History

/-- Slots are declared. -/
def declare (hist : History) (slots : List ExprId) : History :=
  { hist with declared := hist.declared ++ slots }

/-- Definitions are made, one after another until one fails. -/
def define (hist : History) (pairs : List (ExprId × ExprId)) (b : Builder) : History :=
  { hist with links := hist.links ++ made pairs b }

/-- The history **after** a call. -/
def after [PatternReader] (hist : History) (c : Call) (b : Builder) : History :=
  match c with
  | .declare => hist.declare (c.handed b)
  | .define slot body => hist.define [(slot, body)] b
  | _ => hist

end History

/-- **Operations** one after another, of whatever indices, from a builder and its history to what
they are after. -/
inductive Operations [PatternReader] : History → Builder → History → Builder → Prop
  | nil (hist : History) (b : Builder) : Operations hist b hist b
  | call {hist hist' : History} {b b' : Builder} (h : Operations hist b hist' b') (c : Call) :
      Operations hist b (hist'.after c b') (c.after b')
  | recs {hist hist' hist'' : History} {b b' b₁ b₂ : Builder} {slots : List ExprId}
      {result : Except Error (List ExprId)} (h : Operations hist b hist' b') (n : Nat)
      (bodies : List ExprId → Build (List ExprId))
      (hslots : (declareMany n).run.run b' = (.ok slots, b₁))
      (hinner : Operations (hist'.declare slots) b₁ hist'' b₂)
      (hbodies : (bodies slots).run.run b₁ = (result, b₂)) :
      Operations hist b (hist''.define (slots.zip (result.toOption.getD [])) b₂)
        ((Builder.recs n bodies).run.run b').2

/-! ### What a history tells -/

/-- A history **describes** a builder. -/
def History.Describes (hist : History) (b : Builder) : Prop :=
  Chained (· ∈ hist.declared) hist.links b.slots b.aliases

section

variable {hist hist' : History} {b b' : Builder} {slot body : ExprId}

theorem describes_empty : History.Describes {} {} :=
  ⟨⟨List.nodup_nil, by simp⟩, by simp, by simp, by simp, by simp [BuiltIn], by simp⟩

theorem History.Describes.declare (h : hist.Describes b) :
    (hist.declare [b.slots.size]).Describes { b with slots := b.slots.push none } :=
  Chained.push_none h fun id => by simp [History.declare]

/-- A definition is in the history **if it succeeds**. -/
theorem History.Describes.definitions (h : hist.Describes b) (pairs : List (ExprId × ExprId)) :
    (hist.define pairs b).Describes ((Builder.definitions pairs).run.run b).2 := by
  induction pairs generalizing hist b with
  | nil =>
    rw [History.define, made, List.append_nil]
    exact h
  | cons pair pairs ih =>
    obtain ⟨slot, body⟩ := pair
    rw [History.define, made, definitions_cons]
    rcases hrun : (Builder.define slot body).run.run b with ⟨e | u, b'⟩
    · simp only [List.append_nil]
      rw [define_failed hrun]
      exact h
    · obtain ⟨hslot, hnew, rfl⟩ := define_inv hrun
      have hdefined : History.Describes { hist with links := hist.links ++ [(slot, body)] }
          (b.withDefinition slot body) := Chained.withDefinition h hslot hnew
      simpa [History.define] using ih hdefined

theorem History.Describes.declareMany {n : Nat} {slots : List ExprId} (h : hist.Describes b)
    (hrun : (Builder.declareMany n).run.run b = (.ok slots, b')) :
    (hist.declare slots).Describes b' := by
  induction n generalizing hist b slots with
  | zero =>
    cases hrun
    simpa [History.declare] using h
  | succ n ih =>
    obtain ⟨slots', rfl, hrest⟩ := declareMany_succ_inv hrun
    simpa [History.declare] using ih h.declare hrest

theorem History.Describes.call [PatternReader] (h : hist.Describes b) (c : Call) :
    (hist.after c b).Describes (c.after b) := by
  by_cases hdeclare : c = .declare
  · subst hdeclare
    exact h.declare
  · by_cases hdefine : ∃ slot body, c = .define slot body
    · obtain ⟨slot, body, rfl⟩ := hdefine
      have hmade := h.definitions [(slot, body)]
      rwa [definitions_singleton] at hmade
    · have hkeep : (hist.after c b) = hist := by
        cases c <;> first | rfl | simp at hdeclare hdefine
      rw [hkeep]
      exact onlyAdds_call c hdeclare (fun slot body heq => hdefine ⟨slot, body, heq⟩)
        hist.Describes (fun _ e _ h => Chained.push_some h e) b h

/-- **The history of operations describes** the builder they lead to. A history says what was
declared and defined, in which order, and leaves the expressions out. -/
theorem Operations.describes [PatternReader] (h : Operations hist b hist' b')
    (hb : hist.Describes b) : hist'.Describes b' := by
  induction h with
  | nil => exact hb
  | call _ c ih => exact (ih hb).call c
  | @recs _ _ hist'' _ _ _ b₂ slots result _ n bodies hslots _ hbodies ih ihinner =>
    have hinner := ihinner ((ih hb).declareMany hslots)
    cases result with
    | error e =>
      rw [recs_run hslots, run_bind, hbodies]
      simpa [Except.toOption, History.define, made] using hinner
    | ok out =>
      rw [recs_run_ok hslots hbodies]
      exact hinner.definitions (slots.zip out)

/-- **Slots resolve through chains of definitions, in whatever order they were made.** There is a
grammar if and only if the start is among the slots and every declared slot leads to an expression
that was built. The grammar then has, in every declared slot, what was built where it leads, and
everything else as it was built. Where slots do not resolve the error is about the lowest of them.
Settling ends after no more passes than definitions wait. -/
theorem Operations.finish_exact [PatternReader] (h : Operations {} {} hist b) (start : ExprId) :
    ((∃ g, b.finish start = .ok g) ↔ start < b.slots.size ∧
      ∀ slot ∈ hist.declared, Resolves (· ∈ hist.declared) hist.links b.slots slot) ∧
    (∀ g, b.finish start = .ok g → g.start = start ∧ g.size = b.slots.size ∧
      (∀ slot ∈ hist.declared, ∃ root e, LeadsTo hist.links slot root ∧
        BuiltIn (· ∈ hist.declared) b.slots root ∧ b.slots[root]? = some (some e) ∧
          g.expr? slot = some e) ∧
      ∀ id, BuiltIn (· ∈ hist.declared) b.slots id →
        ∃ e, b.slots[id]? = some (some e) ∧ g.expr? id = some e) ∧
    (∀ slot ∈ hist.declared, ¬ Resolves (· ∈ hist.declared) hist.links b.slots slot →
      (∀ lower < slot, lower ∈ hist.declared →
        Resolves (· ∈ hist.declared) hist.links b.slots lower) →
      b.finish start = .error (.undefinedExpression slot)) ∧
    ∃ n ≤ b.aliases.length,
      (settleOnce (passes n b.slots b.aliases).1 (passes n b.slots b.aliases).2).2.length =
        (passes n b.slots b.aliases).2.length ∧
      settle b.aliases.length b.slots b.aliases = (passes n b.slots b.aliases).1 := by
  have hchained : Chained (· ∈ hist.declared) hist.links b.slots b.aliases :=
    h.describes describes_empty
  have hlowest : ∀ slot ∈ hist.declared,
      ¬ Resolves (· ∈ hist.declared) hist.links b.slots slot →
      (∀ lower < slot, lower ∈ hist.declared →
        Resolves (· ∈ hist.declared) hist.links b.slots lower) →
      b.finish start = .error (.undefinedExpression slot) :=
    fun slot hslot hres hlower => hchained.finish_eq_error hslot hres hlower
  -- a declared slot that does not resolve would have been an error
  have hfinished : ∀ g, b.finish start = .ok g →
      (∀ slot ∈ hist.declared, Resolves (· ∈ hist.declared) hist.links b.slots slot) := by
    intro g hg slot hslot
    by_contra hres
    obtain ⟨lowest, herror⟩ := hchained.exists_finish_eq_error hslot hres start
    rw [herror] at hg
    cases hg
  refine ⟨⟨?_, ?_⟩, fun g hg => ?_, hlowest, exists_passes_eq_settle (Nat.le_refl _)⟩
  · rintro ⟨g, hg⟩
    refine ⟨?_, hfinished g hg⟩
    -- if the start is not there nothing else can be missing
    by_contra hstart
    rw [(hchained.finish_of_resolves (hfinished g hg)).2 hstart] at hg
    cases hg
  · rintro ⟨hstart, hres⟩
    exact (hchained.finish_of_resolves hres).1 hstart
  · obtain ⟨hstart, hsize, hexpr⟩ := hchained.expr?_of_finish hg
    refine ⟨hstart, hsize, fun slot hslot => ?_, fun id hid => ?_⟩
    · obtain ⟨root, hleads, hroot⟩ := hfinished g hg slot hslot
      obtain ⟨e, he⟩ := hchained.built root hroot
      exact ⟨root, e, hleads, hroot, he, (hexpr slot e).mpr ⟨root, hleads, hroot.2, he⟩⟩
    · obtain ⟨e, he⟩ := hchained.built id hid
      exact ⟨e, he, (hexpr id e).mpr ⟨id, .refl, hid.2, he⟩⟩

open scoped Common in
/-- The body of the second definition is not even a slot when the definition is made. -/
theorem finish_of_body_that_comes_later :
    Operations {} {} ⟨[0, 1], [(0, 1), (1, 2)]⟩
        ⟨#[none, none, some (.token "b")], [(0, 1), (1, 2)]⟩ ∧
      ∃ g, Builder.finish ⟨#[none, none, some (.token "b")], [(0, 1), (1, 2)]⟩ 0 = .ok g := by
  have h : Operations {} {} ⟨[0, 1], [(0, 1), (1, 2)]⟩
      ⟨#[none, none, some (.token "b")], [(0, 1), (1, 2)]⟩ :=
    (((((Operations.nil {} {}).call .declare).call .declare).call (.define 0 1)).call
      (.define 1 2)).call (.token "b")
  refine ⟨h, (Operations.finish_exact h 0).1.mpr ⟨by decide, fun slot hslot => ?_⟩⟩
  have hlast : LeadsTo [(0, 1), (1, 2)] 1 2 := .single (by decide)
  have hbuilt : BuiltIn (· ∈ [0, 1]) #[none, none, some (.token "b")] 2 := ⟨by decide, by decide⟩
  rcases List.mem_pair.mp hslot with rfl | rfl
  · exact ⟨2, hlast.head (by decide), hbuilt⟩
  · exact ⟨2, hlast, hbuilt⟩

end

end Builder

end GeneralParsing
