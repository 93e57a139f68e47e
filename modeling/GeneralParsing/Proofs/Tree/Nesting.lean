import GeneralParsing.Proofs.Tree.Tiling

/-!
# Trees with nested spans

Trees are **in order** between two positions when they follow one another without overlap and the
spans of their parts are nested (`Tree.InOrder`): the children of a node are in order between the
ends of its span, and so is each alternative of a packed tree for itself. There may be gaps, before
the trees, between them and after them, where input is covered that leaves nothing in the tree.
-/

namespace GeneralParsing

namespace Tree

section

variable {ι : Type}

/-- A tree whose span lies **within a stretch**. -/
def Within (start stop : Nat) (t : Tree ι) : Prop :=
  ∃ first last, t.label.span = some ⟨first, last⟩ ∧ start ≤ first ∧ last ≤ stop

/-- A tree **ends before** another starts, or just there. -/
def Before (t u : Tree ι) : Prop :=
  ∀ span ∈ t.label.span, ∀ span' ∈ u.label.span, span.stop ≤ span'.start

@[simp] theorem within_plain {start stop : Nat} {t : Tree ι} :
    t.plain.Within start stop ↔ t.Within start stop := by
  rw [Within, Within, label_plain]

@[simp] theorem before_plain {t u : Tree ι} : t.plain.Before u.plain ↔ t.Before u := by
  rw [Before, Before, label_plain, label_plain]

end

/-- Trees **in order** between two positions. -/
inductive InOrder : List PlainTree → Nat → Nat → Prop
  | nil {start stop : Nat} (hle : start ≤ stop) : InOrder [] start stop
  | solid {t : PlainTree} {ts : List PlainTree} {start first last stop : Nat}
      (hp : t.isPacked = false) (hspan : t.label.span = some ⟨first, last⟩)
      (hstart : start ≤ first) (hc : InOrder t.children first last) (hs : InOrder ts last stop) :
      InOrder (t :: ts) start stop
  | packed {t : PlainTree} {ts : List PlainTree} {start first last stop : Nat}
      (hp : t.isPacked = true) (hspan : t.label.span = some ⟨first, last⟩)
      (hstart : start ≤ first) (hne : t.children ≠ [])
      (ha : ∀ u ∈ t.children, InOrder [u] first last) (hs : InOrder ts last stop) :
      InOrder (t :: ts) start stop

variable {t u : PlainTree} {ts us : List PlainTree} {start start' middle stop stop' : Nat}

theorem InOrder.le (h : InOrder ts start stop) : start ≤ stop := by
  induction h with
  | nil hle => exact hle
  | solid _ _ hstart _ _ ihc ih => omega
  | packed _ _ hstart hne _ _ iha ih =>
    obtain ⟨u, hu⟩ := List.exists_mem_of_ne_nil _ hne
    have hle := iha u hu
    omega

/-- Trees are in order between positions **further apart**. -/
theorem InOrder.widen (h : InOrder ts start stop) (hstart : start' ≤ start) (hstop : stop ≤ stop') :
    InOrder ts start' stop' := by
  induction h generalizing start' with
  | nil hle => exact .nil (by omega)
  | solid hp hspan hfirst hc _ _ ih =>
    exact .solid hp hspan (by omega) hc (ih (Nat.le_refl _) hstop)
  | packed hp hspan hfirst hne ha _ _ ih =>
    exact .packed hp hspan (by omega) hne ha (ih (Nat.le_refl _) hstop)

/-- Trees in order **go on** where the first ones end. -/
theorem InOrder.append (h : InOrder ts start middle) (h' : InOrder us middle stop) :
    InOrder (ts ++ us) start stop := by
  induction h with
  | nil hle => exact h'.widen hle (Nat.le_refl _)
  | solid hp hspan hstart hc _ _ ih => exact .solid hp hspan hstart hc (ih h')
  | packed hp hspan hstart hne ha _ _ ih => exact .packed hp hspan hstart hne ha (ih h')

/-- The alternatives of a packed tree **are in order**, each for itself, and there are some. -/
theorem InOrder.alternatives (h : InOrder [t] start stop) (hp : t.isPacked = true) :
    t.children ≠ [] ∧ ∀ u ∈ t.children, InOrder [u] start stop := by
  cases h with
  | solid hp' => cases hp.symm.trans hp'
  | packed _ _ hstart hne ha hs => exact ⟨hne, fun u hu => (ha u hu).widen hstart hs.le⟩

/-- The children of a tree that is not packed **are in order**. They lie within its span, one after
another. -/
theorem InOrder.children (h : InOrder [t] start stop) (hp : t.isPacked = false) :
    InOrder t.children start stop := by
  cases h with
  | solid _ _ hstart hc hs => exact hc.widen hstart hs.le
  | packed hp' => cases hp.symm.trans hp'

/-- What comes after a tree in order **starts where the tree ends**. By this one may go through
trees in order from the left. -/
theorem InOrder.exists_cons (h : InOrder (t :: ts) start stop) :
    ∃ first last, t.label.span = some ⟨first, last⟩ ∧ start ≤ first ∧ InOrder [t] first last ∧
      InOrder ts last stop := by
  cases h with
  | solid hp hspan hstart hc hs =>
    exact ⟨_, _, hspan, hstart, .solid hp hspan (Nat.le_refl _) hc (.nil (Nat.le_refl _)), hs⟩
  | packed hp hspan hstart hne ha hs =>
    exact ⟨_, _, hspan, hstart, .packed hp hspan (Nat.le_refl _) hne ha (.nil (Nat.le_refl _)), hs⟩

/-- Each of several trees in order **is in order for itself**. -/
theorem InOrder.of_mem (h : InOrder ts start stop) (ht : t ∈ ts) : InOrder [t] start stop := by
  induction ts generalizing start with
  | nil => cases ht
  | cons u us ih =>
    obtain ⟨first, last, -, hstart, hu, hus⟩ := h.exists_cons
    rcases List.mem_cons.mp ht with rfl | ht
    · exact hu.widen hstart hus.le
    · exact (ih hus ht).widen (Nat.le_trans hstart hu.le) (Nat.le_refl _)

/-- The parts of a tree in order **are in order**. The induction goes down the tree, and positions
only get closer. -/
theorem InOrder.of_part (h : InOrder [t] start stop) (hu : u.PartOf t) :
    InOrder [u] start stop := by
  induction hu with
  | refl => exact h
  | @child child t hchild _ ih =>
    refine ih ?_
    cases hp : t.isPacked with
    | false => exact (h.children hp).of_mem hchild
    | true => exact (h.alternatives hp).2 child hchild

theorem InOrder.within (h : InOrder [t] start stop) : t.Within start stop := by
  obtain ⟨first, last, hspan, hstart, -, hs⟩ := h.exists_cons
  exact ⟨first, last, hspan, hstart, hs.le⟩

/-- Trees in order **do not overlap**. That holds of any two of them, not only of neighbours. -/
theorem InOrder.pairwise_before (h : InOrder ts start stop) : ts.Pairwise Before := by
  induction ts generalizing start with
  | nil => exact .nil
  | cons t ts ih =>
    obtain ⟨first, last, hspan, -, -, hts⟩ := h.exists_cons
    refine .cons (fun u hu span hfirst span' hsecond => ?_) (ih hts)
    obtain ⟨first', last', hspan', hle, -⟩ := (hts.of_mem hu).within
    obtain rfl := Option.some.inj (hspan.symm.trans hfirst)
    obtain rfl := Option.some.inj (hspan'.symm.trans hsecond)
    exact hle

/-- A tree in order has a span, and its children **lie within it**. Unless they are alternatives,
they do not overlap. -/
theorem InOrder.exists_span (h : InOrder [t] start stop) :
    ∃ first last, t.label.span = some ⟨first, last⟩ ∧ first ≤ last ∧ last ≤ stop ∧
      (∀ child ∈ t.children, child.Within first last) ∧
      (t.isPacked = false → t.children.Pairwise Before) := by
  cases h with
  | solid hp hspan _ hc hs =>
    exact ⟨_, _, hspan, hc.le, hs.le, fun child hchild => (hc.of_mem hchild).within,
      fun _ => hc.pairwise_before⟩
  | packed hp hspan _ hne ha hs =>
    obtain ⟨u, hu⟩ := List.exists_mem_of_ne_nil _ hne
    exact ⟨_, _, hspan, (ha u hu).le, hs.le, fun child hchild => (ha child hchild).within,
      fun hp' => absurd (hp.symm.trans hp') (by simp)⟩

end Tree

end GeneralParsing
