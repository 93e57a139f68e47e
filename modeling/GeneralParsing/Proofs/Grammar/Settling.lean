import GeneralParsing.Grammar.Builder
import GeneralParsing.Proofs.Arrays

/-!
# Settling definitions

A definition **links** a slot to a body: the slot is to hold a copy of the body's expression. If the
body is empty when the definition is made, it waits. `Linked` says what holds at all times: a slot
that waits is empty, any other link has been met, and every expression has come to its place from
one that was built, by way of links (`Grounded`). The last point excludes links that feed on each
other in a circle.

Settling keeps all this (`Linked.settle`), and so a finished grammar has the same expression at both
ends of every link (`Linked.finish`).
-/

namespace GeneralParsing

namespace Builder

/-- An index **leads by links** to an expression that was not declared but built. -/
inductive Grounded (declared : ExprId → Prop) (links : List (ExprId × ExprId)) : ExprId → Prop
  | built {id : ExprId} (h : ¬ declared id) : Grounded declared links id
  | link {slot body : ExprId} (hlink : (slot, body) ∈ links)
      (h : Grounded declared links body) : Grounded declared links slot

/-- Slots, the links among them, and the links that **wait**. -/
structure Linked (declared : ExprId → Prop) (links : List (ExprId × ExprId))
    (slots : Array (Option Expr)) (waiting : List (ExprId × ExprId)) : Prop where
  nodup : (waiting.map Prod.fst).Nodup
  empty : ∀ link ∈ waiting, slots[link.1]? = some none
  met : ∀ link ∈ links, link ∈ waiting ∨ ∃ e, slots[link.1]? = some (some e) ∧
    slots[link.2]? = some (some e)
  linked : ∀ link ∈ waiting, link ∈ links
  lt : ∀ link ∈ links, link.1 < slots.size ∧ link.2 < slots.size
  grounded : ∀ id e, slots[id]? = some (some e) → Grounded declared links id

variable {declared declared' : ExprId → Prop} {links links' : List (ExprId × ExprId)}
variable {slots : Array (Option Expr)} {waiting : List (ExprId × ExprId)}

/-- What is grounded **stays so** as slots are declared and linked. -/
theorem Grounded.mono {n : Nat} (hdeclared : ∀ id < n, declared' id → declared id)
    (hlinks : ∀ link ∈ links, link ∈ links') (hlt : ∀ link ∈ links, link.2 < n) {id : ExprId}
    (hid : id < n) (h : Grounded declared links id) : Grounded declared' links' id := by
  induction h with
  | built h => exact .built fun hd => h (hdeclared _ hid hd)
  | link hlink _ ih => exact .link (hlinks _ hlink) (ih (hlt _ hlink))

/-- Filling an empty slot leaves **the filled ones** as they are. -/
theorem getElem?_setIfInBounds_of_some {slot id : ExprId} {e e' : Expr}
    (hempty : slots[slot]? = some none) (h : slots[id]? = some (some e)) :
    (slots.setIfInBounds slot (some e'))[id]? = some (some e) := by
  have hne : slot ≠ id := by
    rintro rfl
    rw [hempty] at h
    cases h
  rwa [Array.getElem?_setIfInBounds_ne hne]

/-- Slots that hold the same expression **go on holding it** when others are made. -/
theorem exists_held_push {slot body : ExprId} {x : Option Expr}
    (h : ∃ e : Expr, slots[slot]? = some (some e) ∧ slots[body]? = some (some e)) :
    ∃ e : Expr, (slots.push x)[slot]? = some (some e) ∧ (slots.push x)[body]? = some (some e) :=
  h.imp fun _ held => ⟨getElem?_push_of_some held.1, getElem?_push_of_some held.2⟩

/-- A slot that is filled when it is made **is linked to nothing**. -/
theorem Linked.push_some {e : Expr} (h : Linked declared links slots waiting)
    (hdeclared : ¬ declared slots.size) : Linked declared links (slots.push (some e)) waiting where
  nodup := h.nodup
  empty link hlink := getElem?_push_of_some (h.empty link hlink)
  met link hlink := (h.met link hlink).imp_right exists_held_push
  linked := h.linked
  lt link hlink := by
    have hlt := h.lt link hlink
    rw [Array.size_push]
    exact ⟨Nat.lt_succ_of_lt hlt.1, Nat.lt_succ_of_lt hlt.2⟩
  grounded id e' hid := by
    rcases getElem?_push_eq_some hid with ⟨rfl, -⟩ | hid
    · exact .built hdeclared
    · exact h.grounded id e' hid

/-- A slot that is **declared** is empty. -/
theorem Linked.push_none (h : Linked declared links slots waiting)
    (hdeclared : ∀ id < slots.size, declared' id → declared id) :
    Linked declared' links (slots.push none) waiting where
  nodup := h.nodup
  empty link hlink := getElem?_push_of_some (h.empty link hlink)
  met link hlink := (h.met link hlink).imp_right exists_held_push
  linked := h.linked
  lt link hlink := by
    have hlt := h.lt link hlink
    rw [Array.size_push]
    exact ⟨Nat.lt_succ_of_lt hlt.1, Nat.lt_succ_of_lt hlt.2⟩
  grounded id e hid := by
    have hid' : slots[id]? = some (some e) := by
      rcases getElem?_push_eq_some hid with ⟨-, hnone⟩ | hid
      · cases hnone
      · exact hid
    have hlt : id < slots.size := (Array.getElem?_eq_some_iff.mp hid').1
    exact (h.grounded id e hid').mono hdeclared (fun _ hlink => hlink)
      (fun link hlink => (h.lt link hlink).2) hlt

/-- A link is made to an empty slot that **waits for nothing else**. It is met as soon as the body
has an expression. -/
theorem Linked.wait {slot body : ExprId} (h : Linked declared links slots waiting)
    (hslot : slots[slot]? = some none) (hnew : slot ∉ waiting.map Prod.fst)
    (hbody : body < slots.size) :
    Linked declared ((slot, body) :: links) slots (waiting ++ [(slot, body)]) where
  nodup := by
    rw [List.map_append, List.nodup_append_comm]
    exact List.nodup_cons.mpr ⟨hnew, h.nodup⟩
  empty := by simpa [or_imp, forall_and, hslot] using h.empty
  met link hlink := by
    rcases List.mem_cons.mp hlink with rfl | hlink
    · exact .inl (by simp)
    · exact (h.met link hlink).imp_left (List.mem_append_left _)
  linked link hlink := by
    rcases List.mem_append.mp hlink with hlink | hlink
    · exact List.mem_cons_of_mem _ (h.linked link hlink)
    · rw [List.mem_singleton.mp hlink]
      exact List.mem_cons_self
  lt := List.forall_mem_cons.mpr ⟨⟨(Array.getElem?_eq_some_iff.mp hslot).1, hbody⟩, h.lt⟩
  grounded id e hid := (h.grounded id e hid).mono (fun _ _ hd => hd)
    (fun _ hlink => List.mem_cons_of_mem _ hlink) (fun link hlink => (h.lt link hlink).2)
    (Array.getElem?_eq_some_iff.mp hid).1

/-- A waiting link **is met** once its body is there. -/
theorem Linked.meet {slot body : ExprId} {e : Expr} {before rest : List (ExprId × ExprId)}
    (h : Linked declared links slots (before ++ (slot, body) :: rest))
    (hbody : slots[body]? = some (some e)) :
    Linked declared links (slots.setIfInBounds slot (some e)) (before ++ rest) := by
  have hslot : slots[slot]? = some none := h.empty (slot, body) (by simp)
  have hlt : slot < slots.size := (Array.getElem?_eq_some_iff.mp hslot).1
  have hself : (slots.setIfInBounds slot (some e))[slot]? = some (some e) := by simp [hlt]
  have hsub : (before ++ rest).Sublist (before ++ (slot, body) :: rest) :=
    (List.sublist_cons_self _ rest).append_left before
  have hother : ∀ link ∈ before ++ rest, slot ≠ link.1 := by
    intro link hlink heq
    have hnodup := h.nodup
    rw [List.map_append, List.map_cons, List.nodup_middle] at hnodup
    have hmem : link.1 ∈ (before ++ rest).map Prod.fst := List.mem_map_of_mem hlink
    rw [← heq, List.map_append] at hmem
    exact (List.nodup_cons.mp hnodup).1 hmem
  constructor
  · exact h.nodup.sublist (hsub.map Prod.fst)
  · intro link hlink
    rw [Array.getElem?_setIfInBounds_ne (hother link hlink)]
    exact h.empty link (hsub.subset hlink)
  · intro link hlink
    rcases h.met link hlink with hwait | ⟨e', hslot', hbody'⟩
    · rcases List.mem_append.mp hwait with hwait | hwait
      · exact .inl (List.mem_append_left rest hwait)
      · rcases List.mem_cons.mp hwait with rfl | hwait
        · exact .inr ⟨e, hself, getElem?_setIfInBounds_of_some hslot hbody⟩
        · exact .inl (List.mem_append_right before hwait)
    · exact .inr ⟨e', getElem?_setIfInBounds_of_some hslot hslot',
        getElem?_setIfInBounds_of_some hslot hbody'⟩
  · exact fun link hlink => h.linked link (hsub.subset hlink)
  · simpa using h.lt
  · intro id e' hid
    rcases eq_or_ne slot id with rfl | hne
    · exact .link (h.linked (slot, body) (by simp)) (h.grounded body e hbody)
    · rw [Array.getElem?_setIfInBounds_ne hne] at hid
      exact h.grounded id e' hid

/-- Whether a definition succeeds **depends on its slot** alone. The body may be missing or may wait
itself. -/
theorem define_run (slot body : ExprId) (b : Builder) : (define slot body).run.run b =
    if b.definable slot then (.ok (), b.withDefinition slot body)
    else (.error (.redefinedExpression slot), b) := by
  change StateT.run (ExceptT.run (if b.definable slot then
    (modify fun b => b.withDefinition slot body : Build Unit)
      else throw (.redefinedExpression slot))) b = _
  split <;> rfl

/-- A slot can be defined when it is **empty and waits for nothing else**. -/
theorem definable_iff {b : Builder} {slot : ExprId} : b.definable slot = true ↔
    b.slots[slot]? = some none ∧ slot ∉ b.aliases.map Prod.fst := by
  rw [definable, Bool.and_eq_true, Option.any_eq_true, List.all_eq_true, List.mem_map]
  simp only [Option.isNone_iff_eq_none, exists_eq_right, bne_iff_ne, not_exists, not_and]

/-- A definition that succeeds was given **an empty slot that does not wait** for another body. -/
theorem define_inv {b b' : Builder} {slot body : ExprId} {u : Unit}
    (hrun : (define slot body).run.run b = (.ok u, b')) :
    b.slots[slot]? = some none ∧ slot ∉ b.aliases.map Prod.fst ∧
      b' = b.withDefinition slot body := by
  rw [define_run] at hrun
  split at hrun
  next hdefinable =>
    cases hrun
    obtain ⟨hslot, hnew⟩ := definable_iff.mp hdefinable
    exact ⟨hslot, hnew, rfl⟩
  next => cases hrun

/-- A definition that fails **leaves all as it was**. -/
theorem define_failed {b b' : Builder} {slot body : ExprId} {e : Error}
    (hrun : (define slot body).run.run b = (.error e, b')) : b' = b := by
  rw [define_run] at hrun
  split at hrun <;> cases hrun
  rfl

/-- A definition **links** its slot to its body, be the body there or not. In the one case the
expression is copied, and in the other the definition waits. -/
theorem Linked.withDefinition {b : Builder} {slot body : ExprId}
    (h : Linked declared links b.slots b.aliases) (hslot : b.slots[slot]? = some none)
    (hnew : slot ∉ b.aliases.map Prod.fst) (hbody : body < b.slots.size) :
    Linked declared ((slot, body) :: links) (b.withDefinition slot body).slots
      (b.withDefinition slot body).aliases := by
  have hwait := h.wait hslot hnew hbody
  unfold Builder.withDefinition
  split
  · next e hfilled => simpa using hwait.meet (Option.join_eq_some_iff.mp hfilled)
  · exact hwait

/-- Slots that **keep** what other slots hold. -/
def Keeps (slots slots' : Array (Option Expr)) : Prop :=
  slots'.size = slots.size ∧ ∀ (id : ExprId) e, slots[id]? = some (some e) →
    slots'[id]? = some (some e)

theorem Keeps.refl (slots : Array (Option Expr)) : Keeps slots slots := ⟨rfl, fun _ _ h => h⟩

/-- Keeping what slots hold **goes on**. -/
theorem Keeps.trans {slots slots' slots'' : Array (Option Expr)} (h : Keeps slots slots')
    (h' : Keeps slots' slots'') : Keeps slots slots'' :=
  ⟨h'.1.trans h.1, fun id e hid => h'.2 id e (h.2 id e hid)⟩

/-- One round of settling keeps the links, **and fills slots only**. What is met is no longer
waiting, and what is not met stays. -/
theorem Linked.settleOnce {before : List (ExprId × ExprId)}
    (h : Linked declared links slots (before ++ waiting)) :
    Linked declared links (Builder.settleOnce slots waiting).1
        (before ++ (Builder.settleOnce slots waiting).2) ∧
      Keeps slots (Builder.settleOnce slots waiting).1 := by
  induction waiting generalizing slots before with
  | nil => exact ⟨h, .refl slots⟩
  | cons link rest ih =>
    obtain ⟨slot, body⟩ := link
    rw [Builder.settleOnce]
    cases hbody : slots[body]?.join with
    | some e =>
      have hbody' : slots[body]? = some (some e) := Option.join_eq_some_iff.mp hbody
      obtain ⟨hlinked, hkeeps⟩ := ih (h.meet hbody')
      have hslot : slots[slot]? = some none := h.empty (slot, body) (by simp)
      exact ⟨hlinked, Keeps.trans ⟨by simp, fun id e' hid =>
        getElem?_setIfInBounds_of_some hslot hid⟩ hkeeps⟩
    | none =>
      rw [List.append_cons] at h
      obtain ⟨hlinked, hkeeps⟩ := ih h
      rw [← List.append_cons] at hlinked
      exact ⟨hlinked, hkeeps⟩

/-- **Settling** keeps links and what slots hold. -/
theorem Linked.settle {n : Nat} (h : Linked declared links slots waiting) :
    ∃ left, Linked declared links (settle n slots waiting) left ∧
      Keeps slots (Builder.settle n slots waiting) := by
  induction n generalizing slots waiting with
  | zero => exact ⟨waiting, h, .refl slots⟩
  | succ n ih =>
    have h' : Linked declared links slots ([] ++ waiting) := h
    obtain ⟨hlinked, hkeeps⟩ := h'.settleOnce
    obtain ⟨left, hlinked', hkeeps'⟩ := ih hlinked
    simp only [Builder.settle]
    split
    · exact ⟨_, hlinked, hkeeps⟩
    · exact ⟨left, hlinked', hkeeps.trans hkeeps'⟩

/-- Slots are collected when **all of them are filled**. -/
theorem map_some_of_collect {id : Nat} {contents : List (Option Expr)} {es : List Expr}
    (h : collect id contents = .ok es) : contents = es.map some := by
  induction contents generalizing id es with
  | nil =>
    cases h
    rfl
  | cons content rest ih =>
    cases content with
    | none => cases h
    | some e =>
      rw [collect] at h
      cases hrest : collect (id + 1) rest with
      | error err =>
        rw [hrest] at h
        cases h
      | ok es' =>
        rw [hrest] at h
        cases h
        rw [ih hrest, List.map_cons]

/-- A finished grammar has **what the slots hold** when all definitions are settled. That there is a
grammar shows that all slots are filled. -/
theorem settled_of_finish {b : Builder} {start : ExprId} {g : Grammar}
    (h : b.finish start = .ok g) : g.start = start ∧ ∀ id : ExprId,
      (Builder.settle b.aliases.length b.slots b.aliases)[id]? = (g.expr? id).map some := by
  rw [Builder.finish] at h
  cases hcollect : collect 0 (Builder.settle b.aliases.length b.slots b.aliases).toList with
  | error e =>
    rw [hcollect] at h
    cases h
  | ok es =>
    rw [hcollect] at h
    have hstart : start < es.toArray.size := by
      by_contra hlt
      simp only [bind, Except.bind, dif_neg hlt] at h
      cases h
    simp only [bind, Except.bind, dif_pos hstart] at h
    cases h
    refine ⟨rfl, fun id => ?_⟩
    rw [← Array.getElem?_toList, map_some_of_collect hcollect, List.getElem?_map, Grammar.expr?,
      List.getElem?_toArray]

/-- A finished grammar has **as many expressions** as there were slots. -/
theorem size_of_settled {slots : Array (Option Expr)} {g : Grammar}
    (h : ∀ id : ExprId, slots[id]? = (g.expr? id).map some) : g.size = slots.size := by
  refine Nat.le_antisymm (Nat.le_of_not_lt fun hlt => ?_) (Nat.le_of_not_lt fun hlt => ?_)
  · have hnone := h slots.size
    rw [Grammar.expr?, Array.getElem?_eq_getElem hlt] at hnone
    simp at hnone
  · have hnone := h g.size
    rw [Grammar.expr?, Grammar.size, Array.getElem?_eq_none (Nat.le_refl _)] at hnone
    simp at hnone
    exact absurd hlt (Nat.not_lt_of_le hnone)

/-! ### What all slots hold -/

theorem size_settleOnce : (settleOnce slots waiting).1.size = slots.size := by
  induction waiting generalizing slots with
  | nil => rfl
  | cons link rest ih =>
    rw [settleOnce]
    split
    · exact ih.trans Array.size_setIfInBounds
    · exact ih

/-- Settling adds **no slots**, however many rounds it takes. -/
theorem size_settle {n : Nat} : (settle n slots waiting).size = slots.size := by
  induction n generalizing slots waiting with
  | zero => rfl
  | succ n ih =>
    simp only [settle]
    split
    · exact size_settleOnce
    · exact ih.trans size_settleOnce

/-- Every slot that is not empty **holds an expression of a kind**. -/
def AllHold (kind : Expr → Prop) (slots : Array (Option Expr)) : Prop :=
  ∀ (id : ExprId) e, slots[id]? = some (some e) → kind e

section

variable {kind : Expr → Prop} {b : Builder} {slot body : ExprId} {e : Expr}

/-- A new slot **may hold the same kind** of expression, or nothing. -/
theorem AllHold.push {content : Option Expr} (h : AllHold kind slots)
    (hcontent : ∀ e, content = some e → kind e) : AllHold kind (slots.push content) := by
  intro id e he
  rcases getElem?_push_eq_some he with ⟨-, rfl⟩ | he
  · exact hcontent e rfl
  · exact h id e he

/-- A slot that gets a copy of what another holds gets **nothing new**. -/
theorem AllHold.copy (h : AllHold kind slots) (hbody : slots[body]? = some (some e)) :
    AllHold kind (slots.setIfInBounds slot (some e)) := by
  intro id e' hid
  rcases getElem?_setIfInBounds_eq_some hid with ⟨-, heq⟩ | hid
  · cases heq
    exact h body e hbody
  · exact h id e' hid

/-- A definition **copies one of the expressions** or waits, so it brings nothing new. Properties of
single expressions come through definitions by this. -/
theorem AllHold.withDefinition (h : AllHold kind b.slots) (slot body : ExprId) :
    AllHold kind (b.withDefinition slot body).slots := by
  unfold Builder.withDefinition
  split
  · next hfilled => exact h.copy (Option.join_eq_some_iff.mp hfilled)
  · exact h

/-- A round of settling **copies expressions** from slot to slot, so it brings nothing new. -/
theorem AllHold.settleOnce (h : AllHold kind slots) :
    AllHold kind (Builder.settleOnce slots waiting).1 := by
  induction waiting generalizing slots with
  | nil => exact h
  | cons link rest ih =>
    obtain ⟨slot, body⟩ := link
    rw [Builder.settleOnce]
    cases hbody : slots[body]?.join with
    | none => exact ih h
    | some e => exact ih (h.copy (Option.join_eq_some_iff.mp hbody))

/-- Settling brings **nothing new**, however many rounds it takes. -/
theorem AllHold.settle {n : Nat} (h : AllHold kind slots) :
    AllHold kind (Builder.settle n slots waiting) := by
  induction n generalizing slots waiting with
  | zero => exact h
  | succ n ih =>
    simp only [Builder.settle]
    split
    · exact h.settleOnce
    · exact ih h.settleOnce

/-- A finished grammar has **nothing but what the slots held**, so all its expressions are of their
kind. -/
theorem AllHold.finish {start : ExprId} {g : Grammar} (h : AllHold kind b.slots)
    (hfinish : b.finish start = .ok g) : ∀ e ∈ g.exprs, kind e := by
  obtain ⟨-, hslots⟩ := settled_of_finish hfinish
  intro e he
  obtain ⟨id, hid⟩ := Array.getElem?_of_mem he
  have hsettled : AllHold kind (Builder.settle b.aliases.length b.slots b.aliases) := h.settle
  refine hsettled id e ?_
  rw [hslots, Grammar.expr?, hid, Option.map_some]

end

/-- **A finished grammar** keeps what was built, has the same expression at both ends of every link,
and has no other expressions than grounded ones. -/
theorem Linked.finish {b : Builder} {start : ExprId} {g : Grammar}
    (h : Linked declared links b.slots b.aliases) (hfinish : b.finish start = .ok g) :
    g.start = start ∧ g.size = b.slots.size ∧
      (∀ (id : ExprId) e, b.slots[id]? = some (some e) → g.expr? id = some e) ∧
      (∀ link ∈ links, ∃ e, g.expr? link.1 = some e ∧ g.expr? link.2 = some e) ∧
      ∀ id e, g.expr? id = some e → Grounded declared links id := by
  obtain ⟨left, hlinked, hkeeps⟩ := h.settle (n := b.aliases.length)
  obtain ⟨hstart, hslots⟩ := settled_of_finish hfinish
  have hfilled : ∀ (id : ExprId) e, (Builder.settle b.aliases.length b.slots b.aliases)[id]? =
      some (some e) → g.expr? id = some e := by
    intro id e hid
    rw [hslots] at hid
    simpa using hid
  refine ⟨hstart, (size_of_settled hslots).trans hkeeps.1,
    fun id e hid => hfilled id e (hkeeps.2 id e hid), fun link hlink => ?_, fun id e hid => ?_⟩
  · rcases hlinked.met link hlink with hwait | ⟨e, hslot, hbody⟩
    · have hempty := hlinked.empty link hwait
      rw [hslots] at hempty
      simp at hempty
    · exact ⟨e, hfilled _ _ hslot, hfilled _ _ hbody⟩
  · exact hlinked.grounded id e (by rw [hslots, hid]; rfl)

end Builder

end GeneralParsing
