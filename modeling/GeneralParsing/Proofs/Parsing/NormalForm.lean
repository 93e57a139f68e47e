import GeneralParsing.Proofs.Parsing.WholeText
import GeneralParsing.Proofs.Tree.Counting

/-!
# The normal form of extracted trees

Every part of an extracted tree has one of five forms (`Tree.Form`), and where a form may stand is
limited (`Tree.FormedAt`): groups are alternatives of packed trees, packed trees are never
alternatives of packed trees, and a tag that could have moved into alternatives or joined a value
has done so. Shapes keep this form, provided that what they are put around are no groups: a group
is only ever made as an alternative, or at the root.

Since packed trees have two alternatives or more, an extracted tree stands for one tree just when
no part of it is packed (`Forest.formedAt_of_extract`).
-/

namespace GeneralParsing

namespace Tree

/-! ### Forms -/

/-- The **forms** that a tree can have. -/
inductive Form where
  /-- A leaf with a value. -/
  | value
  /-- A leaf with a tag and a value. -/
  | taggedValue
  /-- A tag with children. -/
  | node
  /-- Alternatives, with neither a tag nor a value. -/
  | packed
  /-- Siblings, with neither a tag nor a value. -/
  | group
  deriving Repr, DecidableEq

variable {ι : Type}

/-- Trees **of a form**, with or without a span. -/
inductive HasForm : Form → Tree ι → Prop
  | value (text : String) (span : Option Span) : HasForm .value (.leaf { value := some text, span })
  | taggedValue (tag text : String) (span : Option Span) :
      HasForm .taggedValue (.leaf { tag := some tag, value := some text, span })
  | node (tag : String) (span : Option Span) (family : ι) (children : List (Tree ι)) :
      HasForm .node (.branch { tag := some tag, span } family children)
  | packed (span : Option Span) (family : ι) (alternatives : List (Tree ι)) :
      HasForm .packed (.branch { span, packed := true } family alternatives)
  | group (span : Option Span) (family : ι) (members : List (Tree ι)) :
      HasForm .group (.branch { span } family members)

/-- A tree that is **well formed at its root**, for extraction with the options. -/
structure FormedAt (o : ParseOptions) (t : Tree ι) : Prop where
  /-- The tree has just one form. -/
  form : ∃! form, t.HasForm form
  /-- Below the root groups are alternatives, and have two members or more. -/
  groups : ∀ child ∈ t.children, child.isGroup = true →
    t.HasForm .packed ∧ 2 ≤ child.children.length
  /-- Trees are packed under the packed policy only. There are two alternatives or more, and they
  are not packed themselves. -/
  packed : t.isPacked = true → o.ambiguity = .packed ∧ 2 ≤ t.children.length ∧
    ∀ alternative ∈ t.children, alternative.isPacked = false
  /-- A tag around a packed tree has moved into the alternatives if all of them are groups. -/
  distributed : t.HasForm .node → ∀ only, t.children = [only] → only.isPacked = true →
    ∃ alternative ∈ only.children, alternative.isGroup = false
  /-- Where collapsing is on, a tag has joined a lone untagged value, and has moved into the
  alternatives of a packed tree if there is an untagged value among them. -/
  collapsed : o.collapse = true → t.HasForm .node → ∀ only, t.children = [only] →
    only.isValueLeaf = false ∧ (only.isPacked = true →
      ∀ alternative ∈ only.children, alternative.isValueLeaf = false)
  /-- Spans are all there or all missing. -/
  spans : t.label.span.isSome = o.spans

section

variable {o : ParseOptions} {form form' : Form} {t : Tree ι}

/-- A tree has **one form at most**: labels tell the forms apart. So one may say the form of a tree.
-/
theorem HasForm.unique (h : t.HasForm form) (h' : t.HasForm form') : form' = form := by
  cases h <;> cases h' <;> rfl

theorem HasForm.existsUnique (h : t.HasForm form) : ∃! form, t.HasForm form :=
  ⟨form, h, fun _ h' => h.unique h'⟩

/-- A span **does not matter** to the form. -/
theorem HasForm.withSpan (h : t.HasForm form) (span : Span) : (t.withSpan span).HasForm form := by
  cases h <;> constructor

/-- Packed trees are those **of the packed form**. -/
theorem HasForm.isPacked_eq (h : t.HasForm form) : t.isPacked = decide (form = .packed) := by
  cases h <;> rfl

/-- Marks have nothing to do with **the form**. Statements about numbered trees and about plain ones
can therefore be exchanged. -/
theorem hasForm_plain : t.plain.HasForm form ↔ t.HasForm form := by
  constructor
  · intro h
    cases t with
    | leaf label => cases h <;> constructor
    | branch label family children =>
      rw [plain_branch] at h
      cases h <;> constructor
  · intro h
    cases h <;> constructor

theorem FormedAt.of_plain (h : t.plain.FormedAt o) : t.FormedAt o where
  form := by simpa only [hasForm_plain] using h.form
  groups child hchild hg := by
    have hmem : child.plain ∈ t.plain.children := children_plain t ▸ List.mem_map_of_mem hchild
    simpa [hasForm_plain, children_plain] using h.groups child.plain hmem (by simpa using hg)
  packed hp := by simpa [children_plain] using h.packed (by simpa using hp)
  distributed hnode only honly hp := by
    have hplain : t.plain.children = [only.plain] := by simp [children_plain, honly]
    simpa [children_plain] using
      h.distributed (hasForm_plain.mpr hnode) only.plain hplain (by simpa using hp)
  collapsed ho hnode only honly := by
    have hplain : t.plain.children = [only.plain] := by simp [children_plain, honly]
    simpa [children_plain] using h.collapsed ho (hasForm_plain.mpr hnode) only.plain hplain
  spans := by simpa using h.spans

/-- A tree that is **well formed in all its parts**. -/
def Formed (o : ParseOptions) (t : Tree ι) : Prop := ∀ u : Tree ι, u.PartOf t → u.FormedAt o

/-- A tree is well formed in all its parts if **it is so at the root, and its children are**. What
is asked at a node depends on the node and the forms of its children. -/
theorem formed_iff : t.Formed o ↔ t.FormedAt o ∧ ∀ child ∈ t.children, child.Formed o :=
  forall_part_iff

theorem Formed.of_plain (h : t.plain.Formed o) : t.Formed o :=
  fun u hu => .of_plain (h u.plain hu.plain)

end

/-- A well formed tree that can **stand among siblings**. -/
structure Sibling (o : ParseOptions) (t : PlainTree) : Prop where
  formed : t.Formed o
  not_isGroup : t.isGroup = false

/-- A well formed tree that can stand **among alternatives**. -/
structure Alternative (o : ParseOptions) (t : PlainTree) : Prop where
  formed : t.Formed o
  not_isPacked : t.isPacked = false
  two_le : t.isGroup = true → 2 ≤ t.children.length

section

variable {o : ParseOptions} {t : PlainTree}

/-- What can stand among siblings can stand **among alternatives**, unless it is packed. A packed
alternative would have been opened up. -/
theorem Sibling.alternative (h : t.Sibling o) (hp : t.isPacked = false) : t.Alternative o :=
  ⟨h.formed, hp, fun hg => absurd hg (by simp [h.not_isGroup])⟩

/-- The children of a packed tree **are alternatives**. With fewer than two it would not have been
packed. -/
theorem Formed.alternatives (h : t.Formed o) (hp : t.isPacked = true) :
    2 ≤ t.children.length ∧ ∀ alternative ∈ t.children, alternative.Alternative o := by
  obtain ⟨ht, hchildren⟩ := formed_iff.mp h
  obtain ⟨-, hlen, hflat⟩ := ht.packed hp
  exact ⟨hlen, fun alternative hmem => ⟨hchildren alternative hmem, hflat alternative hmem,
    fun hg => (ht.groups alternative hmem hg).2⟩⟩

/-- The children of a tree that is not packed **are siblings**. -/
theorem Formed.siblings (h : t.Formed o) (hp : t.isPacked = false) :
    ∀ child ∈ t.children, child.Sibling o := by
  obtain ⟨ht, hchildren⟩ := formed_iff.mp h
  refine fun child hchild => ⟨hchildren child hchild, Bool.eq_false_iff.mpr fun hg => ?_⟩
  have hpacked := (ht.groups child hchild hg).1.isPacked_eq
  simp [hp] at hpacked

end

end Tree

namespace ParseOptions

open GeneralParsing.Tree

variable {o : ParseOptions} {span : Span} {ts : List PlainTree}

/-- Recording spans **keeps the form**. -/
theorem hasForm_plainSpanned {form : Form} {t : PlainTree} (h : t.HasForm form) :
    (o.plainSpanned span t).HasForm form := by
  unfold plainSpanned
  split
  · exact h.withSpan span
  · exact h

/-- There is a span **just where spans are recorded**. Every shape ends with this, so spans are
everywhere or nowhere. -/
theorem isSome_span_plainSpanned {t : PlainTree} (h : t.label.span = none) :
    (o.plainSpanned span t).label.span.isSome = o.spans := by
  unfold plainSpanned
  split
  · next ho => cases t <;> simp [withSpan, withLabel, Tree.label, ho]
  · next ho => simpa [h] using ho

/-! ### Shapes are well formed -/

/-- A leaf can stand **among siblings**. -/
theorem sibling_leaf {label : Label} {form : Form} (h : (Tree.leaf label : PlainTree).HasForm form)
    (hspan : label.span = none) : (o.plainSpanned span (.leaf label)).Sibling o := by
  have hchildren : (o.plainSpanned span (.leaf label)).children = [] := children_plainSpanned _
  have hp : (o.plainSpanned span (.leaf label)).isPacked = false := by
    rw [isPacked_plainSpanned]
    cases h <;> rfl
  have hg : (o.plainSpanned span (.leaf label)).isGroup = false := by
    rw [isGroup_plainSpanned]
    cases h <;> rfl
  refine ⟨formed_iff.mpr ⟨?_, by simp [hchildren]⟩, hg⟩
  exact {
    form := (hasForm_plainSpanned h).existsUnique
    groups := by simp [hchildren]
    packed := by simp [hp]
    distributed := by simp [hchildren]
    collapsed := by simp [hchildren]
    spans := isSome_span_plainSpanned hspan }

/-- A group of siblings is **well formed**, wherever it stands. As a sibling it would be opened up,
so it stands at the root or among alternatives. -/
theorem formed_group (h : ∀ t ∈ ts, t.Sibling o) :
    (o.plainSpanned span (PlainTree.group ts)).Formed o := by
  have hform : (o.plainSpanned span (PlainTree.group ts)).HasForm .group :=
    hasForm_plainSpanned (.group none () ts)
  refine formed_iff.mpr ⟨?_, by simpa using fun t ht => (h t ht).formed⟩
  exact {
    form := hform.existsUnique
    groups := fun child hchild hg => by simp [(h child (by simpa using hchild)).not_isGroup] at hg
    packed := by simp
    distributed := fun hnode => nomatch hform.unique hnode
    collapsed := fun _ hnode => nomatch hform.unique hnode
    spans := isSome_span_plainSpanned rfl }

/-- A packed tree can stand among siblings if it has **two alternatives or more**, none of them
packed. -/
theorem sibling_packed (ho : o.ambiguity = .packed) (hlen : 2 ≤ ts.length)
    (h : ∀ t ∈ ts, t.Alternative o) : (o.plainSpanned span (PlainTree.packed ts)).Sibling o := by
  have hform : (o.plainSpanned span (PlainTree.packed ts)).HasForm .packed :=
    hasForm_plainSpanned (.packed none () ts)
  have hg : (o.plainSpanned span (PlainTree.packed ts)).isGroup = false := by
    rw [isGroup_plainSpanned]
    rfl
  refine ⟨formed_iff.mpr ⟨?_, by simpa using fun t ht => (h t ht).formed⟩, hg⟩
  exact {
    form := hform.existsUnique
    groups := fun child hchild hg => ⟨hform, (h child (by simpa using hchild)).two_le hg⟩
    packed := fun _ => ⟨ho, by simpa using hlen, by simpa using fun t ht => (h t ht).not_isPacked⟩
    distributed := fun hnode => nomatch hform.unique hnode
    collapsed := fun _ hnode => nomatch hform.unique hnode
    spans := isSome_span_plainSpanned rfl }

/-- What one derivation contributes to a packed tree is **alternatives**. A lone tree that is packed
gives its own alternatives instead of itself. -/
theorem alternative_plainAlternatives (hne : ts ≠ []) (h : ∀ t ∈ ts, t.Sibling o) :
    o.plainAlternatives span ts ≠ [] ∧ ∀ t ∈ o.plainAlternatives span ts, t.Alternative o := by
  unfold plainAlternatives
  split
  · next only =>
    have honly := h only (by simp)
    split
    · next hp =>
      obtain ⟨hlen, halternatives⟩ := honly.formed.alternatives hp
      exact ⟨List.ne_nil_of_length_pos (by omega), halternatives⟩
    · next hp => simpa using honly.alternative (by simpa using hp)
  · next hone =>
    have hlen : 2 ≤ ts.length := by
      match ts, hne, hone with
      | [t], _, hone => exact (hone t rfl).elim
      | t :: u :: ts, _, _ => simp
    simpa using ⟨formed_group h, by simp, fun _ => by simpa using hlen⟩

/-- Outputs that are packed can stand **among siblings**. Several derivations are needed for that,
and each of them has trees. -/
theorem sibling_plainPack (ho : o.ambiguity = .packed) {found : List (List PlainTree)}
    (hlen : 2 ≤ found.length) (hne : ∀ ts ∈ found, ts ≠ [])
    (h : ∀ ts ∈ found, ∀ t ∈ ts, t.Sibling o) : (o.plainPack span found).Sibling o := by
  have hparts : ∀ ts ∈ found, o.plainAlternatives span ts ≠ [] ∧
      ∀ t ∈ o.plainAlternatives span ts, t.Alternative o :=
    fun ts hts => alternative_plainAlternatives (hne ts hts) (h ts hts)
  refine sibling_packed ho ?_ fun t ht => ?_
  · have hone : ∀ n ∈ found.map fun ts => (o.plainAlternatives span ts).length, 1 ≤ n :=
      List.forall_mem_map.mpr fun ts hts => List.length_pos_iff.mpr (hparts ts hts).1
    have hsum := List.length_le_sum_of_one_le _ hone
    rw [List.length_map] at hsum
    rw [List.length_flatMap]
    omega
  · obtain ⟨ts, hts, ht⟩ := List.mem_flatMap.mp ht
    exact (hparts ts hts).2 t ht

/-- A tag that neither joins a value nor moves into alternatives **makes a node**. -/
theorem sibling_node (tag : String) (h : ∀ t ∈ ts, t.Sibling o) (hc : o.collapses ts = false)
    (hd : ∀ only, ts = [only] → o.plainDistributes only = false) :
    (o.plainSpanned span (PlainTree.node tag ts)).Sibling o := by
  have hform : (o.plainSpanned span (PlainTree.node tag ts)).HasForm .node :=
    hasForm_plainSpanned (.node tag none () ts)
  have hchildren : (o.plainSpanned span (PlainTree.node tag ts)).children = ts :=
    children_plainSpanned _
  refine ⟨formed_iff.mpr ⟨?_, by simpa using fun t ht => (h t ht).formed⟩, by simp⟩
  exact {
    form := hform.existsUnique
    groups := fun child hchild hg => by simp [(h child (hchildren ▸ hchild)).not_isGroup] at hg
    packed := by simp
    distributed := fun _ only honly hp => by
      have hstays := hd only (hchildren ▸ honly)
      simp only [plainDistributes, hp, Bool.true_and, Bool.or_eq_false_iff] at hstays
      simpa using List.all_eq_false.mp hstays.1
    collapsed := fun ho _ only honly => by
      obtain rfl : ts = [only] := hchildren ▸ honly
      refine ⟨by simpa [collapses, ho] using hc, fun hp => ?_⟩
      have hstays := hd only rfl
      simp only [plainDistributes, hp, ho, Bool.true_and, Bool.or_eq_false_iff] at hstays
      simpa using List.any_eq_false.mp hstays.2
    spans := isSome_span_plainSpanned rfl }

/-- A tag around trees is **well formed** unless it was to move into alternatives. -/
theorem sibling_plainWrap (tag : String) (h : ∀ t ∈ ts, t.Sibling o)
    (hd : ∀ only, ts = [only] → o.plainDistributes only = false) :
    (o.plainWrap span tag ts).Sibling o := by
  unfold plainWrap
  cases hc : o.collapses ts with
  | false =>
    rw [tagged_of_not_collapses hc]
    exact sibling_node tag h hc hd
  | true =>
    -- trees that collapse are one untagged value
    match ts, hc with
    | [only], hc =>
      have hcollapse : (o.collapse && only.isValueLeaf) = true := hc
      rw [PlainTree.tagged, if_pos hcollapse]
      exact sibling_leaf (.taggedValue tag _ none) rfl

/-- A tag **keeps trees well formed**, also where it moves into alternatives. In that case the
alternatives are tagged one by one, and these are nodes. -/
theorem sibling_plainTagged (tag : String) (h : ∀ t ∈ ts, t.Sibling o) :
    (o.plainTagged span tag ts).Sibling o := by
  unfold plainTagged
  split
  · next only =>
    have honly := (h only (by simp)).formed
    split
    · next hd =>
      have hp := isPacked_of_plainDistributes hd
      have ho := ((formed_iff.mp honly).1.packed hp).1
      obtain ⟨hlen, halternatives⟩ := honly.alternatives hp
      refine sibling_packed ho (by simpa using hlen) fun t ht => ?_
      obtain ⟨part, hpart, rfl⟩ := List.mem_map.mp ht
      have halternative := halternatives part hpart
      refine (sibling_plainWrap tag ?_ ?_).alternative (isPacked_plainWrap tag _)
      · split
        · exact halternative.formed.siblings halternative.not_isPacked
        · next hg => simpa using ⟨halternative.formed, by simpa using hg⟩
      · -- a group has two members or more, and an alternative that is none is not packed
        split
        · next hg =>
          intro lone hlone
          simpa [hlone] using halternative.two_le hg
        · simp [plainDistributes, halternative.not_isPacked]
    · next hd => exact sibling_plainWrap tag h (by simpa using hd)
  · next hone => exact sibling_plainWrap tag h fun only honly => absurd honly (hone only)

end ParseOptions

namespace Forest

open GeneralParsing.Tree

variable {f : Forest} {o : ParseOptions}

/-- What a node gives **can stand among siblings**, on any path. The shapes are the only places
where trees are made. -/
theorem sibling_freshOutput {path : List NodeId} {id : NodeId} {ts : List PlainTree}
    (h : f.freshOutput o path id = .ok (some ts)) : ∀ t ∈ ts, t.Sibling o :=
  forall_mem_freshOutput
    (fun _ text => ParseOptions.sibling_leaf (.value text none) rfl)
    (fun _ tag text => ParseOptions.sibling_leaf (.taggedValue tag text none) rfl)
    (fun ho _ _ => ParseOptions.sibling_plainPack ho)
    (fun _ tag _ => ParseOptions.sibling_plainTagged tag) h

/-- The tree of a forest is **well formed**, and if it is a group it does not have just one
member. -/
theorem formed_freshTree {t : PlainTree} (h : f.freshTree o = .ok t) :
    t.Formed o ∧ (t.isGroup = true → t.children.length ≠ 1) := by
  obtain ⟨ts, rfl, hts⟩ := exists_plainRoot_of_freshTree
    (fun ho _ => ParseOptions.sibling_plainPack ho) sibling_freshOutput h
  unfold plainRoot
  split
  · next only =>
    have honly := hts only (by simp)
    exact ⟨honly.formed, fun hg => absurd hg (by simp [honly.not_isGroup])⟩
  · next hone =>
    refine ⟨ParseOptions.formed_group hts, fun _ hlen => ?_⟩
    rw [ParseOptions.children_plainSpanned] at hlen
    obtain ⟨only, rfl⟩ := List.length_eq_one_iff.mp hlen
    exact hone only rfl

/-- **Extracted trees are in normal form.** All parts are well formed, a group at the root does not
have just one member, and so the tree stands for one tree just when it has no packed part. -/
theorem formedAt_of_extract {t : NumberedTree} {n : Nat} (h : f.extract o = .ok (t, n)) :
    (∀ u : NumberedTree, u.PartOf t → u.FormedAt o) ∧
      (t.isGroup = true → t.children.length ≠ 1) ∧
      (t.count = 1 ↔ t.stats.ambiguous = 0) := by
  obtain ⟨hplain, hroot⟩ := formed_freshTree (freshTree_of_extract h)
  have hformed : t.Formed o := .of_plain hplain
  obtain ⟨members, hfiled⟩ := exists_filed_of_extract h
  refine ⟨hformed, by simpa [children_plain] using hroot, ?_⟩
  exact trees_eq_one_iff hfiled fun u hu hp => ((hformed u hu).packed hp).2.1

open Grammar in
/-- Both forms of a pair, packed, are **in normal form**. -/
theorem formedAt_of_extract_pair :
    ∃ f, parse pairs ["a", "b"] = .ok f ∧
      f.extract { ambiguity := .packed, collapse := true, spans := true } = .ok (pairTree, 4) ∧
      (∀ u : NumberedTree, u.PartOf pairTree →
        u.FormedAt { ambiguity := .packed, collapse := true, spans := true }) ∧
      (pairTree.isGroup = true → pairTree.children.length ≠ 1) ∧
      (pairTree.count = 1 ↔ pairTree.stats.ambiguous = 0) := by
  obtain ⟨f, hf, ht⟩ := exists_extract_pair
  exact ⟨f, hf, ht, formedAt_of_extract ht⟩

end Forest

end GeneralParsing
