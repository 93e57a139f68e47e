import GeneralParsing.Proofs.Grammar.Chains
import GeneralParsing.Proofs.Grammar.Definitions

/-!
# Building further

What a builder holds stays as it is while a session goes on, so a grammar that is finished at any
later time has it (`Builder.Completes.expr?`). And a builder that could be finished by now can be
finished, too, after more expressions have been added (`Builder.Session.exists_finish_extend`),
because the definitions that wait are for slots that were there, and what is new stands behind them.
-/

namespace GeneralParsing

namespace Builder

variable {slots more : Array (Option Expr)} {waiting : List (ExprId × ExprId)}
variable {ids ids' : List ExprId} {b b' : Builder} {start start₀ id : ExprId} {g g₀ : Grammar}
variable {e : Expr}

/-! ### What stays as it is -/

/-- What a slot holds it holds **after more calls**. -/
theorem Calls.keeps [PatternReader] (h : Calls ids b ids' b') (he : b.slots[id]? = some (some e)) :
    b'.slots[id]? = some (some e) := by
  induction h with
  | nil => exact he
  | @call ids' b b' _ c _ ih =>
    have hpush : ∀ (b : Builder) content, b.slots[id]? = some (some e) →
        (b.slots.push content)[id]? = some (some e) := fun _ _ => getElem?_push_of_some
    by_cases hdeclare : c = .declare
    · subst hdeclare
      exact hpush b' none (ih he)
    by_cases hdefine : ∃ slot body, c = .define slot body
    · obtain ⟨slot, body, rfl⟩ := hdefine
      rw [Call.after, Call.run, run_bind]
      rcases hrun : (Builder.define slot body).run.run b' with ⟨e' | u, b''⟩
      · exact define_failed hrun ▸ ih he
      · -- a slot that can be defined is empty, so it is another one
        obtain ⟨hslot, -, rfl⟩ := define_inv hrun
        change (b'.withDefinition slot body).slots[id]? = some (some e)
        unfold withDefinition
        split
        · exact getElem?_setIfInBounds_of_some hslot (ih he)
        · exact ih he
    · exact onlyAdds_call c hdeclare (fun slot body heq => hdefine ⟨slot, body, heq⟩)
        (fun b => b.slots[id]? = some (some e)) (fun b e' _ => hpush b (some e')) b' (ih he)

/-- At any time **the slots are linked**. -/
theorem Session.exists_linkedBy [PatternReader] (hb : Session [] {} ids b) :
    ∃ links, LinkedBy b links := by
  have hempty : ({} : Builder).InRange := fun id e he => by simp at he
  have hlinked : LinkedBy {} [] := ⟨List.nodup_nil, by simp, by simp, by simp, by simp, by simp⟩
  obtain ⟨links, -, hlinks⟩ := hb.calls.linkedBy hempty (by simp) hlinked
  exact ⟨links, hlinks⟩

/-- A builder **is completed** to a grammar when it is finished, after some more calls perhaps. -/
def Completes [PatternReader] (ids : List ExprId) (b : Builder) (start : ExprId) (g : Grammar) :
    Prop :=
  ∃ ids' b', Session ids b ids' b' ∧ b'.finish start = .ok g

theorem Completes.built [PatternReader] (h : Completes ids b start g) (hb : Session [] {} ids b)
    (hstart : start ∈ ids) : g.start = start ∧ g.Built := by
  obtain ⟨ids', b', hmore, hfinish⟩ := h
  obtain ⟨rfl, -⟩ := settled_of_finish hfinish
  exact ⟨rfl, ids', b', hb.trans hmore, hmore.subset hstart, hfinish⟩

/-- The grammar **has what the builder held**. Settling fills slots that are empty, and changes none
that are not. -/
theorem Completes.expr? [PatternReader] (h : Completes ids b start g) (hb : Session [] {} ids b)
    (he : b.slots[id]? = some (some e)) : g.expr? id = some e := by
  obtain ⟨ids', b', hmore, hfinish⟩ := h
  obtain ⟨links, hlinks⟩ := (hb.trans hmore).exists_linkedBy
  obtain ⟨-, -, hkept, -⟩ := hlinks.finish hfinish
  exact hkept id e (hmore.calls.keeps he)

/-! ### Settling -/

/-- Definitions **among the slots** that are there. -/
def Within (slots : Array (Option Expr)) (waiting : List (ExprId × ExprId)) : Prop :=
  ∀ link ∈ waiting, link.1 < slots.size ∧ link.2 < slots.size

/-- A pass over definitions among the first slots **leaves the others alone**. -/
theorem settleOnce_append (h : Within slots waiting) :
    settleOnce (slots ++ more) waiting =
      ((settleOnce slots waiting).1 ++ more, (settleOnce slots waiting).2) := by
  induction waiting generalizing slots with
  | nil => rfl
  | cons link rest ih =>
    obtain ⟨slot, body⟩ := link
    obtain ⟨⟨hslot, hbody⟩, hrest⟩ := List.forall_mem_cons.mp h
    rw [settleOnce, settleOnce, Array.getElem?_append_left hbody]
    cases slots[body]?.join with
    | none => simp only [ih hrest]
    | some e =>
      have hset : Within (slots.setIfInBounds slot (some e)) rest := by
        simpa [Within] using hrest
      simp only [Array.setIfInBounds_append_left hslot, ih hset]

theorem settleOnce_subset : (settleOnce slots waiting).2 ⊆ waiting := by
  induction waiting generalizing slots with
  | nil => exact List.Subset.refl []
  | cons link rest ih =>
    obtain ⟨slot, body⟩ := link
    rw [settleOnce]
    split
    · exact List.subset_cons_of_subset _ ih
    · exact List.cons_subset_cons _ ih

/-- Settling definitions among the first slots **leaves the others alone**. The new ones are filled
and nothing waits for them. -/
theorem settle_append {n : Nat} (h : Within slots waiting) :
    settle n (slots ++ more) waiting = settle n slots waiting ++ more := by
  induction n generalizing slots waiting with
  | zero => rfl
  | succ n ih =>
    have hleft : Within (settleOnce slots waiting).1 (settleOnce slots waiting).2 := by
      intro link hlink
      rw [size_settleOnce]
      exact h link (settleOnce_subset hlink)
    simp only [settle, settleOnce_append h]
    split
    · rfl
    · exact ih hleft

/-! ### More expressions -/

/-- The builder **with more expressions**, in new slots. -/
def extend (b : Builder) (es : List Expr) : Builder :=
  { b with slots := b.slots ++ (es.map some).toArray }

theorem extend_nil : b.extend [] = b := by simp [extend]

/-- What is new stands **behind the others**. -/
theorem getElem?_extend (es : List Expr) (k : Nat) :
    (b.extend es).slots[b.slots.size + k]? = es[k]?.map some := by
  simp [extend, Array.getElem?_append_right]

/-- An expression that is added comes **behind the others**. -/
theorem add_run_extend (e : Expr) (es : List Expr) : (add e).run.run (b.extend es) =
    (.ok (b.slots.size + es.length), b.extend (es ++ [e])) := by
  have hsize : (b.extend es).slots.size = b.slots.size + es.length := by simp [extend]
  have hpush : (b.extend es).slots.push (some e) = (b.extend (es ++ [e])).slots := by
    simp [extend]
  rw [← hsize]
  change (Except.ok (b.extend es).slots.size,
    { b with slots := (b.extend es).slots.push (some e) }) = _
  rw [hpush]
  rfl

/-- A builder that can be finished **can be finished after more has been added**. With that a
grammar may be extended by expressions that refer to it. -/
theorem Session.exists_finish_extend [PatternReader] (hb : Session [] {} ids b)
    (hfinish : b.finish start₀ = .ok g₀) (es : List Expr)
    (hstart : start < b.slots.size + es.length) :
    ∃ g, (b.extend es).finish start = .ok g := by
  obtain ⟨links, hlinks⟩ := hb.exists_linkedBy
  have hwithin : Within b.slots b.aliases :=
    fun link hlink => hlinks.lt link (hlinks.linked link hlink)
  obtain ⟨-, hslots⟩ := settled_of_finish hfinish
  have hsize : g₀.exprs.size = b.slots.size := (size_of_settled hslots).trans size_settle
  have hsettled : settle b.aliases.length b.slots b.aliases = g₀.exprs.map some :=
    Array.ext_getElem? fun id => by rw [hslots, Array.getElem?_map, Grammar.expr?]
  have hes : (settle (b.extend es).aliases.length (b.extend es).slots
      (b.extend es).aliases).toList = (g₀.exprs.toList ++ es).map some := by
    rw [extend, settle_append hwithin, hsettled]
    simp
  have hlt : start < (g₀.exprs.toList ++ es).toArray.size := by simpa [hsize] using hstart
  rw [finish_of_map_some hes, dif_pos hlt]
  exact ⟨_, rfl⟩

end Builder

end GeneralParsing
