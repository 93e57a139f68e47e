import GeneralParsing.Proofs.Extraction.Paired
import GeneralParsing.Proofs.Parsing.Termination
import GeneralParsing.Proofs.Parsing.WholeText

/-!
# Spans are decoration

`Tree.bare` is a tree without its spans. Nothing that is asked of a tree when trees are shaped has
to do with spans, so erasing the spans of a shape gives the shape, without spans, of the bare trees.
Extracting with spans and without therefore goes the same way and gives the same tree, up to spans
(`Forest.bare_extract`).
-/

namespace GeneralParsing

namespace Tree

/-! ### Bare trees -/

mutual

/-- The tree **without spans**. -/
def bare : PlainTree → PlainTree
  | leaf label => leaf { label with span := none }
  | branch label family children => branch { label with span := none } family (bareAll children)

/-- The trees without spans. -/
def bareAll : List PlainTree → List PlainTree
  | [] => []
  | t :: ts => bare t :: bareAll ts

end

theorem bareAll_eq_map (ts : List PlainTree) : bareAll ts = ts.map bare := by
  induction ts with
  | nil => rfl
  | cons t ts ih => rw [bareAll, ih, List.map_cons]

variable (t : PlainTree)

@[simp] theorem label_bare : t.bare.label = { t.label with span := none } := by cases t <;> rfl

@[simp] theorem children_bare : t.bare.children = t.children.map bare := by
  cases t <;> simp [bare, children, bareAll_eq_map]

@[simp] theorem isBranch_bare : t.bare.isBranch = t.isBranch := by cases t <;> rfl

@[simp] theorem isPacked_bare : t.bare.isPacked = t.isPacked := by simp [isPacked]

@[simp] theorem isGroup_bare : t.bare.isGroup = t.isGroup := by simp [isGroup]

@[simp] theorem isValueLeaf_bare : t.bare.isValueLeaf = t.isValueLeaf := by simp [isValueLeaf]

@[simp] theorem bare_withSpan (span : Span) : (t.withSpan span).bare = t.bare := by cases t <;> rfl

@[simp] theorem bare_branch (label : Label) (ts : List PlainTree) :
    (branch label () ts).bare = branch { label with span := none } () (ts.map bare) := by
  rw [bare, bareAll_eq_map]

/-- Trees that are **one by one the same**, up to spans. -/
theorem forall₂_bare_iff {ts us : List PlainTree} :
    List.Forall₂ (fun t u => t.bare = u.bare) ts us ↔ ts.map bare = us.map bare := by
  rw [← List.forall₂_eq_eq_eq, List.forall₂_map_left_iff, List.forall₂_map_right_iff]

end Tree

namespace ParseOptions

open GeneralParsing.Tree

/-! ### Shapes of bare trees -/

/-- The same options **without spans**. -/
def withoutSpans (o : ParseOptions) : ParseOptions := { o with spans := false }

variable (o : ParseOptions) (span : Span)

@[simp] theorem bare_plainSpanned (t : PlainTree) : (o.plainSpanned span t).bare = t.bare := by
  unfold plainSpanned
  split <;> simp

@[simp] theorem plainSpanned_withoutSpans (t : PlainTree) :
    o.withoutSpans.plainSpanned span t = t :=
  plainSpanned_of_not_spans rfl t

/-- Taking spans away **commutes with all the shaping**: what a derivation contributes comes first.
-/
theorem bare_plainAlternatives (ts : List PlainTree) :
    (o.plainAlternatives span ts).map bare =
      o.withoutSpans.plainAlternatives span (ts.map bare) := by
  match ts with
  | [t] =>
    simp only [plainAlternatives, List.map_cons, List.map_nil, isPacked_bare, children_bare]
    split <;> simp
  | [] | t :: u :: ts => simp [plainAlternatives, PlainTree.group]

/-- Packing without spans gives **the packed tree without its spans**. Spans go on last, and nothing
that is decided depends on them. -/
theorem bare_plainPack (found : List (List PlainTree)) :
    (o.plainPack span found).bare = o.withoutSpans.plainPack span (found.map (List.map bare)) := by
  simp only [plainPack, bare_plainSpanned, plainSpanned_withoutSpans, PlainTree.packed, bare_branch,
    List.map_flatMap, List.flatMap_map, bare_plainAlternatives]

/-- Wrapping without spans gives **the wrapped tree without its spans**. -/
theorem bare_plainWrap (tag : String) (ts : List PlainTree) :
    (o.plainWrap span tag ts).bare = o.withoutSpans.plainWrap span tag (ts.map bare) := by
  simp only [plainWrap, bare_plainSpanned, plainSpanned_withoutSpans]
  rcases ts with _ | ⟨t, _ | ⟨u, ts⟩⟩
  · simp [PlainTree.tagged, PlainTree.node]
  · simp only [PlainTree.tagged, List.map_cons, List.map_nil, isValueLeaf_bare, label_bare,
      withoutSpans]
    split
    · rfl
    · simp [PlainTree.node]
  · simp [PlainTree.tagged, PlainTree.node]

/-- Whether a tag moves inside does not depend **on spans**. It depends on the tags and on what is
packed. -/
theorem plainDistributes_bare (t : PlainTree) :
    o.withoutSpans.plainDistributes t.bare = o.plainDistributes t := by
  simp [plainDistributes, withoutSpans, List.all_map, List.any_map, Function.comp_def]

/-- Tagging without spans gives **the tagged tree without its spans**. Both cases are alike, since
they are told apart without spans. -/
theorem bare_plainTagged (tag : String) (ts : List PlainTree) :
    (o.plainTagged span tag ts).bare = o.withoutSpans.plainTagged span tag (ts.map bare) := by
  match ts with
  | [only] =>
    have hwrap := bare_plainWrap o span tag [only]
    simp only [List.map_cons, List.map_nil] at hwrap
    simp only [plainTagged, List.map_cons, List.map_nil, plainDistributes_bare, children_bare,
      List.map_map]
    split
    · simp only [bare_plainSpanned, plainSpanned_withoutSpans, PlainTree.packed, bare_branch,
        List.map_map]
      refine congrArg _ (List.map_congr_left fun part _ => ?_)
      simp only [Function.comp_apply, bare_plainWrap, isGroup_bare, children_bare]
      split <;> rfl
    · exact hwrap
  | [] | t :: u :: ts => exact bare_plainWrap o span tag _

/-- Being the same tree up to spans is **respected by shapes**. So the extraction with spans and the
one without go hand in hand. -/
theorem respected_bare : o.Respected o.withoutSpans fun t u => t.bare = u.bare where
  ambiguity_eq := rfl
  value span text := by simp
  taggedValue span tag text := by simp
  pack span {found found'} h _ _ := by
    have hfound : found.map (List.map bare) = found'.map (List.map bare) := by
      rw [← List.forall₂_eq_eq_eq, List.forall₂_map_left_iff, List.forall₂_map_right_iff]
      exact h.imp fun _ _ => forall₂_bare_iff.mp
    rw [bare_plainPack, bare_plainPack, hfound]
    rfl
  tagged span tag {ts us} h := by
    rw [bare_plainTagged, bare_plainTagged, forall₂_bare_iff.mp h]
    rfl

end ParseOptions

namespace Forest

open GeneralParsing.Tree

variable {g : Grammar} {w : List String} {f : Forest} {o : ParseOptions}

/-- The tree of the roots without spans is **the bare one**. -/
theorem bare_plainRoot (ts : List PlainTree) :
    (f.plainRoot o ts).bare = f.plainRoot o.withoutSpans (ts.map bare) := by
  match ts with
  | [t] => rfl
  | [] | t :: u :: ts => simp [plainRoot, PlainTree.group]

/-- Trees with spans and without are **the same up to spans**. The numbers of families may differ,
and so only the trees are compared. -/
theorem bare_eq_of_extract {t u : NumberedTree} {n m : Nat} (ht : f.extract o = .ok (t, n))
    (hu : f.extract o.withoutSpans = .ok (u, m)) : t.plain.bare = u.plain.bare := by
  have hpaired := paired_extract (ParseOptions.respected_bare o) f
  rw [ht, hu] at hpaired
  cases hpaired with
  | ok h =>
    obtain ⟨ts, us, hts, ht, hu⟩ := h
    rw [ht, hu, bare_plainRoot, bare_plainRoot, forall₂_bare_iff.mp hts]
    rfl

/-- **Recording spans does not change the tree**: with spans and without, extraction fails because
of ambiguity, or gives trees that are the same up to spans. -/
theorem bare_extract (hg : g.Closed) (hf : parse g w = .ok f) (policy : Ambiguity)
    (collapse : Bool) :
    (f.extract ⟨policy, collapse, true⟩ = .error .ambiguous ∧
        f.extract ⟨policy, collapse, false⟩ = .error .ambiguous) ∨
      ∃ t n u m, f.extract ⟨policy, collapse, true⟩ = .ok (t, n) ∧
        f.extract ⟨policy, collapse, false⟩ = .ok (u, m) ∧ t.plain.bare = u.plain.bare := by
  have hpaired := paired_extract (ParseOptions.respected_bare ⟨policy, collapse, true⟩) f
  have hcases := extract_cases (closed_of_parse hg hf) ⟨policy, collapse, true⟩
  change Paired _ _ (f.extract ⟨policy, collapse, false⟩) at hpaired
  generalize f.extract ⟨policy, collapse, true⟩ = on at hpaired hcases ⊢
  generalize f.extract ⟨policy, collapse, false⟩ = off at hpaired ⊢
  cases hpaired with
  | error e =>
    rcases hcases with ⟨t, n, hok⟩ | herror
    · cases hok
    · exact .inl ⟨herror, herror⟩
  | @ok t u h =>
    obtain ⟨ts, us, hts, ht, hu⟩ := h
    refine .inr ⟨t.1, t.2, u.1, u.2, rfl, rfl, ?_⟩
    rw [ht, hu, bare_plainRoot, bare_plainRoot, forall₂_bare_iff.mp hts]
    rfl

open Grammar in
/-- The packed forms of a pair are **the same up to spans**. -/
theorem bare_extract_pair : pairs.Closed ∧ ∃ f, parse pairs ["a", "b"] = .ok f ∧
    ((f.extract ⟨.packed, true, true⟩ = .error .ambiguous ∧
        f.extract ⟨.packed, true, false⟩ = .error .ambiguous) ∨
      ∃ t n u m, f.extract ⟨.packed, true, true⟩ = .ok (t, n) ∧
        f.extract ⟨.packed, true, false⟩ = .ok (u, m) ∧ t.plain.bare = u.plain.bare) := by
  obtain ⟨f, hf, -⟩ := exists_extract_pair
  exact ⟨closed_pairs, f, hf, bare_extract closed_pairs hf .packed true⟩

end Forest

end GeneralParsing
