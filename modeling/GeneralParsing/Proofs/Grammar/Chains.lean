import GeneralParsing.Proofs.Grammar.Settling

/-!
# Chains of definitions

A slot **leads** by links to wherever the definitions, followed from slot to body, go. Settling
fills a slot exactly if it leads to one that is filled, and with what that one holds, in whatever
order the definitions wait and however long their chains are (`Pending.getElem?_settle`); those in
a circle stay empty. It ends after no more passes than there are definitions
(`exists_passes_eq_settle`).

Before anything is settled, the definitions that did not wait have been made already. `Chained`
says what is the same before and after: an expression that has come to a declared slot is the one
that was built where the slot leads. So a grammar can be finished exactly if every declared slot
leads to an expression that was built (`Chained.finish_of_resolves`, `Chained.finish_eq_error`).
-/

namespace GeneralParsing

namespace Builder

variable {declared : ExprId → Prop} {links links' : List (ExprId × ExprId)}
variable {slots : Array (Option Expr)} {waiting : List (ExprId × ExprId)}
variable {id root : ExprId} {e e' : Expr}

/-- A slot **leads** somewhere by links from slots to bodies. -/
def LeadsTo (links : List (ExprId × ExprId)) : ExprId → ExprId → Prop :=
  Relation.ReflTransGen fun slot body => (slot, body) ∈ links

theorem LeadsTo.mono (h : LeadsTo links id root) (hsub : links ⊆ links') :
    LeadsTo links' id root :=
  Relation.ReflTransGen.mono (fun _ _ hlink => hsub hlink) _ _ h

/-! ### Settling -/

/-- Definitions that **wait**: each for a slot of its own, which is empty. -/
structure Pending (slots : Array (Option Expr)) (waiting : List (ExprId × ExprId)) : Prop where
  nodup : (waiting.map Prod.fst).Nodup
  empty : ∀ link ∈ waiting, slots[link.1]? = some none

/-- A slot is **supplied** with an expression that is found where it leads. -/
def Supplies (slots : Array (Option Expr)) (waiting : List (ExprId × ExprId)) (id : ExprId)
    (e : Expr) : Prop :=
  ∃ root, LeadsTo waiting id root ∧ slots[root]? = some (some e)

/-- A slot that waits **is not filled**. -/
theorem Pending.not_mem_of_filled (h : Pending slots waiting)
    (hid : slots[id]? = some (some e)) (body : ExprId) : (id, body) ∉ waiting := by
  intro hlink
  have hempty := h.empty _ hlink
  rw [hid] at hempty
  cases hempty

/-- A filled slot is supplied **with what it holds**, and nothing else. -/
theorem Pending.supplies_of_filled (h : Pending slots waiting)
    (hid : slots[id]? = some (some e)) : Supplies slots waiting id e' ↔ e' = e := by
  constructor
  · rintro ⟨root, hleads, hroot⟩
    rcases hleads.cases_head with rfl | ⟨body, hlink, -⟩
    · rw [hid] at hroot
      cases hroot
      rfl
    · exact absurd hlink (h.not_mem_of_filled hid body)
  · rintro rfl
    exact ⟨id, .refl, hid⟩

/-- A definition may **wait too** if its slot is empty and waits for nothing else. So a slot waits
for one body at the most. -/
theorem Pending.wait {slot body : ExprId} (h : Pending slots waiting)
    (hslot : slots[slot]? = some none) (hnew : slot ∉ waiting.map Prod.fst) :
    Pending slots (waiting ++ [(slot, body)]) where
  nodup := by
    rw [List.map_append, List.nodup_append_comm]
    exact List.nodup_cons.mpr ⟨hnew, h.nodup⟩
  empty := by simpa [or_imp, forall_and, hslot] using h.empty

/-- A definition that has been **met** leaves the others waiting. -/
theorem Pending.meet {slot body : ExprId} {before rest : List (ExprId × ExprId)}
    (h : Pending slots (before ++ (slot, body) :: rest)) :
    Pending (slots.setIfInBounds slot (some e)) (before ++ rest) := by
  have hnodup := h.nodup
  rw [List.map_append, List.map_cons, List.nodup_middle, ← List.map_append] at hnodup
  obtain ⟨hslot, hnodup⟩ := List.nodup_cons.mp hnodup
  refine ⟨hnodup, fun link hlink => ?_⟩
  have hne : slot ≠ link.1 := by
    rintro rfl
    exact hslot (List.mem_map.mpr ⟨link, hlink, rfl⟩)
  have hmem : link ∈ before ++ (slot, body) :: rest :=
    ((List.sublist_cons_self _ rest).append_left before).subset hlink
  rw [Array.getElem?_setIfInBounds_ne hne]
  exact h.empty link hmem

/-- Meeting a definition **changes nothing** about what slots are supplied with. What the slot gets
now is what it would have been supplied with later. -/
theorem Pending.supplies_meet {slot body : ExprId} {e₀ : Expr}
    {before rest : List (ExprId × ExprId)}
    (h : Pending slots (before ++ (slot, body) :: rest)) (hbody : slots[body]? = some (some e₀)) :
    Supplies (slots.setIfInBounds slot (some e₀)) (before ++ rest) id e ↔
      Supplies slots (before ++ (slot, body) :: rest) id e := by
  have hslot : slots[slot]? = some none := h.empty (slot, body) (by simp)
  have hlt : slot < slots.size := (Array.getElem?_eq_some_iff.mp hslot).1
  have hself : (slots.setIfInBounds slot (some e₀))[slot]? = some (some e₀) := by simp [hlt]
  have hsub : before ++ rest ⊆ before ++ (slot, body) :: rest :=
    ((List.sublist_cons_self _ rest).append_left before).subset
  constructor
  · rintro ⟨root, hleads, hroot⟩
    rcases eq_or_ne slot root with rfl | hne
    · rw [hself] at hroot
      cases hroot
      exact ⟨body, (hleads.mono hsub).tail (by simp), hbody⟩
    · rw [Array.getElem?_setIfInBounds_ne hne] at hroot
      exact ⟨root, hleads.mono hsub, hroot⟩
  · rintro ⟨root, hleads, hroot⟩
    induction hleads using Relation.ReflTransGen.head_induction_on with
    | refl => exact ⟨root, .refl, getElem?_setIfInBounds_of_some hslot hroot⟩
    | @head id next hlink _ ih =>
      have hcases : (id, next) ∈ before ++ rest ∨ (id, next) = (slot, body) := by
        simp only [List.mem_append, List.mem_cons] at hlink ⊢
        tauto
      rcases hcases with hlink | heq
      · obtain ⟨root', hleads', hroot'⟩ := ih
        exact ⟨root', hleads'.head hlink, hroot'⟩
      · obtain ⟨rfl, rfl⟩ := Prod.mk.inj heq
        have hbody' : (slots.setIfInBounds id (some e₀))[next]? = some (some e₀) :=
          getElem?_setIfInBounds_of_some hslot hbody
        obtain rfl : e = e₀ := (h.meet.supplies_of_filled hbody').mp ih
        exact ⟨id, .refl, hself⟩

/-- **One pass** changes nothing about what slots are supplied with. Those that are still waiting
afterwards are in the order in which they were. -/
theorem Pending.settleOnce {before : List (ExprId × ExprId)}
    (h : Pending slots (before ++ waiting)) :
    Pending (Builder.settleOnce slots waiting).1
        (before ++ (Builder.settleOnce slots waiting).2) ∧
      ∀ id e, Supplies (Builder.settleOnce slots waiting).1
          (before ++ (Builder.settleOnce slots waiting).2) id e ↔
        Supplies slots (before ++ waiting) id e := by
  induction waiting generalizing slots before with
  | nil => exact ⟨h, fun _ _ => Iff.rfl⟩
  | cons link rest ih =>
    obtain ⟨slot, body⟩ := link
    rw [Builder.settleOnce]
    cases hbody : slots[body]?.join with
    | some e₀ =>
      obtain ⟨hpending, hsupplies⟩ := ih h.meet
      exact ⟨hpending, fun id e => (hsupplies id e).trans
        (h.supplies_meet (Option.join_eq_some_iff.mp hbody))⟩
    | none =>
      rw [List.append_cons] at h
      obtain ⟨hpending, hsupplies⟩ := ih h
      rw [← List.append_cons] at hpending
      simp only [← List.append_cons] at hsupplies
      exact ⟨hpending, hsupplies⟩

/-- A pass never leaves **more** definitions waiting. -/
theorem length_settleOnce_le : (settleOnce slots waiting).2.length ≤ waiting.length := by
  induction waiting generalizing slots with
  | nil => exact Nat.le_refl _
  | cons link rest ih =>
    obtain ⟨slot, body⟩ := link
    rw [settleOnce]
    split
    · exact Nat.le_succ_of_le ih
    · exact Nat.succ_le_succ ih

/-- A pass that leaves **as many** definitions waiting has found all their bodies empty. From then
on further passes do nothing. -/
theorem settleOnce_of_length_eq
    (h : (settleOnce slots waiting).2.length = waiting.length) :
    (settleOnce slots waiting).1 = slots ∧ ∀ link ∈ waiting, slots[link.2]?.join = none := by
  induction waiting generalizing slots with
  | nil => exact ⟨rfl, by simp⟩
  | cons link rest ih =>
    obtain ⟨slot, body⟩ := link
    rw [settleOnce] at h ⊢
    cases hbody : slots[body]?.join with
    | some e =>
      rw [hbody] at h
      exact absurd h (Nat.ne_of_lt (Nat.lt_succ_of_le length_settleOnce_le))
    | none =>
      rw [hbody] at h
      obtain ⟨hslots, hrest⟩ := ih (Nat.succ.inj h)
      exact ⟨hslots, List.forall_mem_cons.mpr ⟨hbody, hrest⟩⟩

/-- The slots, and what still waits, **after some passes**. -/
def passes (n : Nat) (slots : Array (Option Expr)) (waiting : List (ExprId × ExprId)) :
    Array (Option Expr) × List (ExprId × ExprId) :=
  (fun s => settleOnce s.1 s.2)^[n] (slots, waiting)

/-- **Settling ends**, after no more passes than there are definitions, with slots where a further
pass would make none. -/
theorem exists_passes_eq_settle {n : Nat} (hn : waiting.length ≤ n) :
    ∃ k ≤ waiting.length,
      (settleOnce (passes k slots waiting).1 (passes k slots waiting).2).2.length
        = (passes k slots waiting).2.length ∧
      settle n slots waiting = (passes k slots waiting).1 := by
  induction n generalizing slots waiting with
  | zero =>
    obtain rfl := List.length_eq_zero_iff.mp (Nat.le_zero.mp hn)
    exact ⟨0, Nat.le_refl _, rfl, rfl⟩
  | succ n ih =>
    simp only [settle]
    split
    · next heq => exact ⟨0, Nat.zero_le _, heq, (settleOnce_of_length_eq heq).1⟩
    · next hne =>
      have hlt := Nat.lt_of_le_of_ne length_settleOnce_le hne
      obtain ⟨k, hk, hlast, hsettle⟩ := @ih (settleOnce slots waiting).1 _
        (Nat.le_of_lt_succ (Nat.lt_of_lt_of_le hlt hn))
      exact ⟨k + 1, Nat.succ_le_of_lt (Nat.lt_of_le_of_lt hk hlt), hlast, hsettle⟩

/-- **Settling** fills a slot exactly if it is supplied, with what it is supplied with. As many
passes as there are definitions are enough, since each but the last meets one. -/
theorem Pending.getElem?_settle {n : Nat} (h : Pending slots waiting) (hn : waiting.length ≤ n) :
    (settle n slots waiting)[id]? = some (some e) ↔ Supplies slots waiting id e := by
  induction n generalizing slots waiting with
  | zero =>
    obtain rfl := List.length_eq_zero_iff.mp (Nat.le_zero.mp hn)
    rw [settle]
    constructor
    · exact fun hid => ⟨id, .refl, hid⟩
    · rintro ⟨root, hleads, hroot⟩
      rcases hleads.cases_head with rfl | ⟨body, hlink, -⟩
      · exact hroot
      · cases hlink
  | succ n ih =>
    have h' : Pending slots ([] ++ waiting) := h
    obtain ⟨hpending, hsupplies⟩ := h'.settleOnce
    simp only [settle]
    split
    · next heq =>
      -- no definition has been met, so nothing that waits leads to a filled slot
      obtain ⟨hslots, hbodies⟩ := settleOnce_of_length_eq heq
      rw [hslots]
      constructor
      · exact fun hid => ⟨id, .refl, hid⟩
      · rintro ⟨root, hleads, hroot⟩
        rcases hleads.cases_tail with rfl | ⟨slot, -, hlink⟩
        · exact hroot
        · have hnone := hbodies _ hlink
          rw [hroot] at hnone
          cases hnone
    · next hne =>
      have hlt := Nat.lt_of_le_of_ne length_settleOnce_le hne
      exact (ih hpending (Nat.le_of_lt_succ (Nat.lt_of_lt_of_le hlt hn))).trans (hsupplies id e)

/-! ### Collecting -/

/-- Slots that are **all filled** are collected. -/
theorem collect_map_some (id : Nat) (es : List Expr) : collect id (es.map some) = .ok es := by
  induction es generalizing id with
  | nil => rfl
  | cons e es ih =>
    rw [List.map_cons, collect, ih]
    rfl

/-- The error is about **the lowest** empty slot. -/
theorem collect_append_none (id : Nat) (es : List Expr) (rest : List (Option Expr)) :
    collect id (es.map some ++ none :: rest) = .error (.undefinedExpression (id + es.length)) := by
  induction es generalizing id with
  | nil => rfl
  | cons e es ih =>
    rw [List.map_cons, List.cons_append, collect, ih, List.length_cons, Nat.add_right_comm]
    rfl

/-! ### What slots hold at any time -/

/-- An index of an expression that was **built**, not declared. -/
def BuiltIn (declared : ExprId → Prop) (slots : Array (Option Expr)) (id : ExprId) : Prop :=
  id < slots.size ∧ ¬ declared id

/-- A slot **resolves** when it leads to an expression that was built. -/
def Resolves (declared : ExprId → Prop) (links : List (ExprId × ExprId))
    (slots : Array (Option Expr)) (id : ExprId) : Prop :=
  ∃ root, LeadsTo links id root ∧ BuiltIn declared slots root

/-- Slots, the links made so far and those among them that wait. Indices may point **anywhere**. -/
structure Chained (declared : ExprId → Prop) (links : List (ExprId × ExprId))
    (slots : Array (Option Expr)) (waiting : List (ExprId × ExprId)) : Prop where
  pending : Pending slots waiting
  linked : ∀ link ∈ waiting, link ∈ links
  met : ∀ link ∈ links, link ∈ waiting ∨ ∃ e, slots[link.1]? = some (some e) ∧
    slots[link.2]? = some (some e)
  declared_lt : ∀ id, declared id → id < slots.size
  built : ∀ id, BuiltIn declared slots id → ∃ e, slots[id]? = some (some e)
  grounded : ∀ id e, slots[id]? = some (some e) →
    ∃ root, LeadsTo links id root ∧ ¬ declared root ∧ slots[root]? = some (some e)

/-- **Adding** an expression. -/
theorem Chained.push_some (h : Chained declared links slots waiting) (e : Expr) :
    Chained declared links (slots.push (some e)) waiting where
  pending := ⟨h.pending.nodup, fun link hlink =>
    getElem?_push_of_some (h.pending.empty link hlink)⟩
  linked := h.linked
  met link hlink := (h.met link hlink).imp_right exists_held_push
  declared_lt id hid := by
    rw [Array.size_push]
    exact Nat.lt_succ_of_lt (h.declared_lt id hid)
  built id hid := by
    have hlt := hid.1
    rw [Array.size_push] at hlt
    rcases Nat.lt_succ_iff_lt_or_eq.mp hlt with hlt | rfl
    · exact (h.built id ⟨hlt, hid.2⟩).imp fun _ => getElem?_push_of_some
    · exact ⟨e, Array.getElem?_push_size⟩
  grounded id e' hid := by
    rcases getElem?_push_eq_some hid with ⟨rfl, -⟩ | hid
    · exact ⟨slots.size, .refl, fun hd => Nat.lt_irrefl _ (h.declared_lt _ hd), ‹_›⟩
    · obtain ⟨root, hleads, hroot, he⟩ := h.grounded id e' hid
      exact ⟨root, hleads, hroot, getElem?_push_of_some he⟩

/-- **Declaring** a slot. Such a slot has no expression until something is linked to it. -/
theorem Chained.push_none {declared' : ExprId → Prop} (h : Chained declared links slots waiting)
    (hdeclared : ∀ id, declared' id ↔ declared id ∨ id = slots.size) :
    Chained declared' links (slots.push none) waiting where
  pending := ⟨h.pending.nodup, fun link hlink =>
    getElem?_push_of_some (h.pending.empty link hlink)⟩
  linked := h.linked
  met link hlink := (h.met link hlink).imp_right exists_held_push
  declared_lt id hid := by
    rw [Array.size_push]
    rcases (hdeclared id).mp hid with hid | rfl
    · exact Nat.lt_succ_of_lt (h.declared_lt id hid)
    · exact Nat.lt_succ_self _
  built id hid := by
    have hlt := hid.1
    rw [Array.size_push] at hlt
    rcases Nat.lt_succ_iff_lt_or_eq.mp hlt with hlt | rfl
    · refine (h.built id ⟨hlt, fun hd => hid.2 ?_⟩).imp fun _ => getElem?_push_of_some
      exact (hdeclared id).mpr (.inl hd)
    · exact absurd ((hdeclared _).mpr (.inr rfl)) hid.2
  grounded id e hid := by
    rcases getElem?_push_eq_some hid with ⟨-, hnone⟩ | hid
    · cases hnone
    · obtain ⟨root, hleads, hroot, he⟩ := h.grounded id e hid
      refine ⟨root, hleads, fun hd => ?_, getElem?_push_of_some he⟩
      rcases (hdeclared root).mp hd with hd | rfl
      · exact hroot hd
      · exact absurd (Array.getElem?_eq_some_iff.mp he).1 (Nat.lt_irrefl _)

/-- **Defining** a slot, be the body there or not. A body that is not there is a slot to come, and
the definition waits for it. -/
theorem Chained.withDefinition {b : Builder} {slot body : ExprId}
    (h : Chained declared links b.slots b.aliases) (hslot : b.slots[slot]? = some none)
    (hnew : slot ∉ b.aliases.map Prod.fst) :
    Chained declared (links ++ [(slot, body)]) (b.withDefinition slot body).slots
      (b.withDefinition slot body).aliases := by
  have hwait : Pending b.slots (b.aliases ++ [(slot, body)]) := h.pending.wait hslot hnew
  have hsub : links ⊆ links ++ [(slot, body)] := List.subset_append_left _ _
  unfold Builder.withDefinition
  split
  · -- the body is filled, and so the slot gets a copy right away
    next e hfilled =>
    have hbody : b.slots[body]? = some (some e) := Option.join_eq_some_iff.mp hfilled
    have hkeep : ∀ {id e'}, b.slots[id]? = some (some e') →
        (b.slots.setIfInBounds slot (some e))[id]? = some (some e') :=
      getElem?_setIfInBounds_of_some hslot
    have hself : (b.slots.setIfInBounds slot (some e))[slot]? = some (some e) := by
      simp [(Array.getElem?_eq_some_iff.mp hslot).1]
    have hsize : (b.slots.setIfInBounds slot (some e)).size = b.slots.size :=
      Array.size_setIfInBounds
    constructor
    · simpa using hwait.meet (e := e)
    · exact fun link hlink => hsub (h.linked link hlink)
    · intro link hlink
      rcases List.mem_append.mp hlink with hlink | hlink
      · refine (h.met link hlink).imp_right ?_
        rintro ⟨e', hslot', hbody'⟩
        exact ⟨e', hkeep hslot', hkeep hbody'⟩
      · obtain rfl := List.mem_singleton.mp hlink
        exact .inr ⟨e, hself, hkeep hbody⟩
    · exact fun id hid => hsize ▸ h.declared_lt id hid
    · exact fun id hid => (h.built id ⟨hsize ▸ hid.1, hid.2⟩).imp fun _ => hkeep
    · -- what the slot holds was built where the body leads, one link further on
      intro id e' hid
      rcases eq_or_ne slot id with rfl | hne
      · rw [hself] at hid
        cases hid
        obtain ⟨root, hleads, hroot, he⟩ := h.grounded body e hbody
        exact ⟨root, (hleads.mono hsub).head (by simp), hroot, hkeep he⟩
      · rw [Array.getElem?_setIfInBounds_ne hne] at hid
        obtain ⟨root, hleads, hroot, he⟩ := h.grounded id e' hid
        exact ⟨root, hleads.mono hsub, hroot, hkeep he⟩
  · -- the body is empty, and so the definition waits
    refine ⟨hwait, fun link hlink => ?_, fun link hlink => ?_, h.declared_lt, h.built,
      fun id e hid => ?_⟩
    · exact (List.mem_append.mp hlink).elim (fun hlink => hsub (h.linked link hlink))
        (List.mem_append_right _)
    · exact (List.mem_append.mp hlink).elim
        (fun hlink => (h.met link hlink).imp_left (List.mem_append_left _))
        (fun hlink => .inl (List.mem_append_right _ hlink))
    · obtain ⟨root, hleads, hroot, he⟩ := h.grounded id e hid
      exact ⟨root, hleads.mono hsub, hroot, he⟩

/-- A slot and its body **resolve alike**, whether the definition waits or has been made. Following
links and waiting for bodies are two views of the same. -/
theorem Chained.supplies_iff (h : Chained declared links slots waiting) :
    Supplies slots waiting id e ↔
      ∃ root, LeadsTo links id root ∧ ¬ declared root ∧ slots[root]? = some (some e) := by
  constructor
  · rintro ⟨root, hleads, hroot⟩
    obtain ⟨root', hleads', hbuilt, hroot'⟩ := h.grounded root e hroot
    exact ⟨root', (hleads.mono h.linked).trans hleads', hbuilt, hroot'⟩
  · rintro ⟨root, hleads, -, hroot⟩
    induction hleads using Relation.ReflTransGen.head_induction_on with
    | refl => exact ⟨root, .refl, hroot⟩
    | head hlink _ ih =>
      rcases h.met _ hlink with hwait | ⟨e', hslot, hbody⟩
      · obtain ⟨root', hleads', hroot'⟩ := ih
        exact ⟨root', hleads'.head hwait, hroot'⟩
      · obtain rfl : e = e' := (h.pending.supplies_of_filled hbody).mp ih
        exact ⟨_, .refl, hslot⟩

/-- Settling fills a slot **with what was built** where it leads. The order in which slots were
declared and defined is forgotten in this. -/
theorem Chained.getElem?_settle (h : Chained declared links slots waiting) :
    (settle waiting.length slots waiting)[id]? = some (some e) ↔
      ∃ root, LeadsTo links id root ∧ ¬ declared root ∧ slots[root]? = some (some e) :=
  (h.pending.getElem?_settle (Nat.le_refl _)).trans h.supplies_iff

/-- Settling fills the slots **that resolve**. -/
theorem Chained.resolves_iff (h : Chained declared links slots waiting) :
    Resolves declared links slots id ↔
      ∃ e, (settle waiting.length slots waiting)[id]? = some (some e) := by
  simp only [h.getElem?_settle]
  constructor
  · rintro ⟨root, hleads, hbuilt⟩
    obtain ⟨e, he⟩ := h.built root hbuilt
    exact ⟨e, root, hleads, hbuilt.2, he⟩
  · rintro ⟨e, root, hleads, hbuilt, he⟩
    exact ⟨root, hleads, (Array.getElem?_eq_some_iff.mp he).1, hbuilt⟩

/-- What stays empty was **declared**. -/
theorem declared_of_not_resolves (hlt : id < slots.size)
    (hid : ¬ Resolves declared links slots id) : declared id := by
  by_contra hdeclared
  exact hid ⟨id, .refl, hlt, hdeclared⟩

/-! ### Finishing -/

/-- Either all contents are there or there is **a lowest** that is not. -/
theorem exists_map_some_or (contents : List (Option Expr)) :
    (∃ es : List Expr, contents = es.map some) ∨
      ∃ (es : List Expr) (rest : List (Option Expr)), contents = es.map some ++ none :: rest := by
  induction contents with
  | nil => exact .inl ⟨[], rfl⟩
  | cons content contents ih =>
    cases content with
    | none => exact .inr ⟨[], contents, rfl⟩
    | some e =>
      rcases ih with ⟨es, rfl⟩ | ⟨es, rest, rfl⟩
      · exact .inl ⟨e :: es, rfl⟩
      · exact .inr ⟨e :: es, rest, rfl⟩

section

variable {b : Builder} {start : ExprId} {g : Grammar}

theorem finish_of_map_some {es : List Expr}
    (hes : (settle b.aliases.length b.slots b.aliases).toList = es.map some) :
    b.finish start = if h : start < es.toArray.size then .ok ⟨es.toArray, start, h⟩
      else .error (.undefinedExpression start) := by
  rw [finish, hes, collect_map_some]
  rfl

theorem finish_of_append_none {es : List Expr} {rest : List (Option Expr)}
    (hes : (settle b.aliases.length b.slots b.aliases).toList = es.map some ++ none :: rest) :
    b.finish start = .error (.undefinedExpression es.length) := by
  rw [finish, hes, collect_append_none, Nat.zero_add]
  rfl

/-- Where every declared slot resolves, **nothing is missing** but, maybe, the start. The start is
given by the caller, so that it may be anything. -/
theorem Chained.finish_of_resolves (h : Chained declared links b.slots b.aliases)
    (hres : ∀ id, declared id → Resolves declared links b.slots id) :
    (start < b.slots.size → ∃ g, b.finish start = .ok g) ∧
      (¬ start < b.slots.size → b.finish start = .error (.undefinedExpression start)) := by
  rcases exists_map_some_or (settle b.aliases.length b.slots b.aliases).toList with
    ⟨es, hes⟩ | ⟨es, rest, hes⟩
  · have hsize : es.toArray.size = b.slots.size := by
      have hlen := congrArg List.length hes
      rw [Array.length_toList, size_settle, List.length_map] at hlen
      exact hlen.symm
    rw [finish_of_map_some hes]
    constructor
    · intro hlt
      rw [dif_pos (hsize ▸ hlt)]
      exact ⟨_, rfl⟩
    · intro hlt
      rw [dif_neg (hsize ▸ hlt)]
  · have hnone : (settle b.aliases.length b.slots b.aliases)[es.length]? = some none := by
      rw [← Array.getElem?_toList, hes]
      simp
    have hsize : (settle b.aliases.length b.slots b.aliases).size = b.slots.size := size_settle
    have hlt : es.length < b.slots.size := hsize ▸ (Array.getElem?_eq_some_iff.mp hnone).1
    exfalso
    by_cases hid : Resolves declared links b.slots es.length
    · obtain ⟨e, he⟩ := h.resolves_iff.mp hid
      rw [hnone] at he
      cases he
    · exact hid (hres _ (declared_of_not_resolves hlt hid))

/-- If a declared slot does not resolve, the error is about **the lowest** that does not. Slots are
looked through in order. -/
theorem Chained.finish_eq_error (h : Chained declared links b.slots b.aliases)
    (hdeclared : declared id) (hid : ¬ Resolves declared links b.slots id)
    (hlower : ∀ lower < id, declared lower → Resolves declared links b.slots lower) :
    b.finish start = .error (.undefinedExpression id) := by
  have hfilled : ∀ {lower}, (∃ e, (settle b.aliases.length b.slots b.aliases)[lower]? =
      some (some e)) → lower ≠ id := by
    rintro lower hlow rfl
    exact hid (h.resolves_iff.mpr hlow)
  have hsize : (settle b.aliases.length b.slots b.aliases).size = b.slots.size := size_settle
  rcases exists_map_some_or (settle b.aliases.length b.slots b.aliases).toList with
    ⟨es, hes⟩ | ⟨es, rest, hes⟩
  · have hlt : id < es.length := by
      have hlen := congrArg List.length hes
      rw [Array.length_toList, hsize, List.length_map] at hlen
      exact hlen ▸ h.declared_lt id hdeclared
    refine absurd rfl (hfilled ⟨es[id], ?_⟩)
    rw [← Array.getElem?_toList, hes]
    simp [hlt]
  · rw [finish_of_append_none hes]
    have hnone : (settle b.aliases.length b.slots b.aliases)[es.length]? = some none := by
      rw [← Array.getElem?_toList, hes]
      simp
    have hlt : es.length < b.slots.size := hsize ▸ (Array.getElem?_eq_some_iff.mp hnone).1
    have hempty : ¬ Resolves declared links b.slots es.length := by
      intro hres
      obtain ⟨e, he⟩ := h.resolves_iff.mp hres
      rw [hnone] at he
      cases he
    congr 2
    rcases Nat.lt_trichotomy es.length id with hlow | heq | hlow
    · exact absurd (hlower _ hlow (declared_of_not_resolves hlt hempty)) hempty
    · exact heq
    · refine absurd rfl (hfilled ⟨es[id], ?_⟩)
      rw [← Array.getElem?_toList, hes, List.getElem?_append_left (by simpa using hlow)]
      simp [hlow]

/-- If some declared slot does not resolve, **there is a lowest**. -/
theorem Chained.exists_finish_eq_error (h : Chained declared links b.slots b.aliases)
    (hdeclared : declared id) (hid : ¬ Resolves declared links b.slots id) (start : ExprId) :
    ∃ lowest, b.finish start = .error (.undefinedExpression lowest) := by
  induction id using Nat.strong_induction_on with
  | _ id ih =>
    by_cases hlower : ∀ lower < id, declared lower → Resolves declared links b.slots lower
    · exact ⟨id, h.finish_eq_error hdeclared hid hlower⟩
    · push Not at hlower
      obtain ⟨lower, hlt, hdeclared', hid'⟩ := hlower
      exact ih lower hlt hdeclared' hid'

/-- **A finished grammar** has, at every index, what was built where the index leads. All that was
ever asked of settling is in this. -/
theorem Chained.expr?_of_finish (h : Chained declared links b.slots b.aliases)
    (hfinish : b.finish start = .ok g) : g.start = start ∧ g.size = b.slots.size ∧
      ∀ id e, g.expr? id = some e ↔
        ∃ root, LeadsTo links id root ∧ ¬ declared root ∧ b.slots[root]? = some (some e) := by
  obtain ⟨hstart, hslots⟩ := settled_of_finish hfinish
  refine ⟨hstart, (size_of_settled hslots).trans size_settle, fun id e => ?_⟩
  rw [← h.getElem?_settle, hslots]
  simp

end

end Builder

end GeneralParsing
