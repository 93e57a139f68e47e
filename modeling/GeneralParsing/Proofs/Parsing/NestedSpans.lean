import GeneralParsing.Proofs.Parsing.WholeText
import GeneralParsing.Proofs.Tree.Nesting

/-!
# Spans are nested

Whether or not something is omitted, the trees that a node of the forest contributes are in order
inside the stretch of input that the node covers (`Forest.coverage_inOrder`). So in the tree of an
input the children of a node lie within its span and do not overlap, and the alternatives of a
packed tree lie within the span of that tree (`Forest.exists_span_of_extract`).
-/

namespace GeneralParsing

open GeneralParsing.Tree

/-! ### Shapes of trees in order -/

namespace ParseOptions

variable {o : ParseOptions} {ts : List PlainTree} {start stop : Nat}

theorem inOrder_leaf (ho : o.spans = true) (hle : start ≤ stop) {label : Label}
    (hp : label.packed = false) :
    InOrder [o.plainSpanned ⟨start, stop⟩ (.leaf label)] start stop := by
  rw [plainSpanned_of_spans ho]
  exact .solid hp rfl (Nat.le_refl _) (.nil hle) (.nil (Nat.le_refl _))

theorem inOrder_branch (ho : o.spans = true) {label : Label} (hp : label.packed = false)
    (h : InOrder ts start stop) :
    InOrder [o.plainSpanned ⟨start, stop⟩ (.branch label () ts)] start stop := by
  rw [plainSpanned_of_spans ho]
  exact .solid hp rfl (Nat.le_refl _) h (.nil (Nat.le_refl _))

/-- Shapes **keep trees in order**. A tag is given the span of its node, and its children lie in
that one after another. -/
theorem keptByShapes_inOrder (ho : o.spans = true) :
    o.KeptByShapes ⟨start, stop⟩ (InOrder · start stop) where
  joined tag h _ := inOrder_leaf ho h.le rfl
  node tag h := inOrder_branch ho rfl h
  group h := inOrder_branch ho rfl h
  packed hne h := by
    rw [plainSpanned_of_spans ho]
    exact .packed rfl rfl (Nat.le_refl _) hne h (.nil (Nat.le_refl _))
  alternatives h hp := h.alternatives hp
  members h hg := h.children (isPacked_of_isGroup hg)

end ParseOptions

namespace Forest

variable {g : Grammar} {w : List String} {f : Forest} {o : ParseOptions}

/-- Outputs are **in order inside the stretch** of their result. That gives the spans of a whole
tree, by what holds of all coverages. -/
theorem coverage_inOrder (ho : o.spans = true) : Coverage g w o (fun _ => True) InOrder where
  shapes _ _ := ParseOptions.keptByShapes_inOrder ho
  child _ _ _ _ := trivial
  nil start := .nil (Nat.le_refl start)
  append h h' := h.append h'
  value _ hd := ParseOptions.inOrder_leaf ho (Nat.le.intro hd.ends) rfl
  empty start _ := ParseOptions.inOrder_leaf ho (Nat.le_refl start) rfl
  omitted _ _ hle := .nil hle

/-- **Spans are nested.** Every part of the tree of an input has a span inside the input, its
children lie within that span, and unless they are alternatives they do not overlap. -/
theorem exists_span_of_extract (hg : g.Closed) (hf : parse g w = .ok f) (ho : o.spans = true)
    {t : NumberedTree} {n : Nat} (ht : f.extract o = .ok (t, n)) :
    ∀ u : NumberedTree, u.PartOf t → ∃ start stop, u.label.span = some ⟨start, stop⟩ ∧
      start ≤ stop ∧ stop ≤ w.length ∧ (∀ child ∈ u.children, child.Within start stop) ∧
      (u.isPacked = false → u.children.Pairwise Before) := by
  have hinput : InOrder [t.plain] 0 w.length := (coverage_inOrder ho).extract hg hf trivial ht
  intro u hu
  obtain ⟨start, stop, hspan, hle, hstop, hwithin, hbefore⟩ := (hinput.of_part hu.plain).exists_span
  simp only [label_plain, children_plain, List.forall_mem_map, within_plain, isPacked_plain,
    List.pairwise_map, before_plain] at hspan hwithin hbefore
  exact ⟨start, stop, hspan, hle, hstop, hwithin, hbefore⟩

open Grammar in
/-- The spans of a pair **are nested**. -/
theorem exists_span_of_extract_pair :
    pairs.Closed ∧ ∃ f, parse pairs ["a", "b"] = .ok f ∧
      f.extract { ambiguity := .packed, collapse := true, spans := true } = .ok (pairTree, 4) ∧
      ∀ u : NumberedTree, u.PartOf pairTree → ∃ start stop, u.label.span = some ⟨start, stop⟩ ∧
        start ≤ stop ∧ stop ≤ 2 ∧ (∀ child ∈ u.children, child.Within start stop) ∧
        (u.isPacked = false → u.children.Pairwise Before) := by
  obtain ⟨f, hf, ht⟩ := exists_extract_pair
  exact ⟨closed_pairs, f, hf, ht, exists_span_of_extract closed_pairs hf rfl ht⟩

end Forest

end GeneralParsing
