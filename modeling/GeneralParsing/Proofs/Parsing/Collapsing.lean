import GeneralParsing.Proofs.Extraction.FirstOfPacked
import GeneralParsing.Proofs.Extraction.Paired
import GeneralParsing.Proofs.Parsing.ErrorPolicy
import GeneralParsing.Proofs.Parsing.WholeText
import GeneralParsing.Proofs.Tree.Counting

/-!
# Collapsing commutes with choosing

`Tree.collapsed` joins tags with lone untagged values in a tree that is already there, from the
bottom up. Collapsing during extraction looks quite different: it moves tags into the alternatives
of packed trees, which changes what is packed into what. But the readings are the same. What is
extracted with collapsing reads as the readings, collapsed, of what is extracted without
(`Tree.Collapses`), because a tag commutes with reading either way, and around a reading the one tag
is the other collapsed (`ParseOptions.plainWrap_map_collapsed`).

So the packed tree with collapsing stands for the collapsed trees of the packed tree without, in the
same order and just as many, and the first tree is the collapsed first tree
(`Forest.trees_extract_collapse`).
-/

namespace GeneralParsing

namespace Tree

/-! ### Collapsed trees -/

/-- A label around trees, **joined with a lone untagged value** if it has a tag. -/
def joinedWith (label : Label) : List PlainTree → PlainTree
  | [only] =>
    if label.tag.isSome && only.isValueLeaf then
      leaf { tag := label.tag, value := only.label.value, span := label.span }
    else branch label () [only]
  | ts => branch label () ts

mutual

/-- The tree **collapsed**: from the bottom up, every tagged node whose only child is an untagged
value gives way to a tagged value with the span of the node. -/
def collapsed : PlainTree → PlainTree
  | leaf label => leaf label
  | branch label _ children => joinedWith label (collapsedAll children)

/-- The trees collapsed. -/
def collapsedAll : List PlainTree → List PlainTree
  | [] => []
  | t :: ts => collapsed t :: collapsedAll ts

end

theorem collapsedAll_eq_map (ts : List PlainTree) : collapsedAll ts = ts.map collapsed := by
  induction ts with
  | nil => rfl
  | cons t ts ih => rw [collapsedAll, ih, List.map_cons]

/-- Collapsing goes **from the leaves to the root**: a node is joined after its children. -/
theorem collapsed_branch (label : Label) (ts : List PlainTree) :
    (branch label () ts).collapsed = joinedWith label (ts.map collapsed) := by
  rw [collapsed, collapsedAll_eq_map]

/-- Without a tag there is **nothing to join**. -/
theorem joinedWith_of_no_tag {label : Label} (h : label.tag = none) (ts : List PlainTree) :
    joinedWith label ts = branch label () ts := by
  match ts with
  | [only] => simp [joinedWith, h]
  | [] | t :: u :: ts => rfl

theorem collapsed_single (ts : List PlainTree) :
    (PlainTree.single ts).collapsed = PlainTree.single (ts.map collapsed) := by
  match ts with
  | [t] => rfl
  | [] | t :: u :: ts =>
    simp only [PlainTree.single, PlainTree.group, collapsed_branch, joinedWith_of_no_tag]
    rfl

/-- A tree that **collapses** another: it reads as the readings of the other, collapsed. -/
structure Collapses (t u : PlainTree) : Prop where
  normal : t.Normal
  normal' : u.Normal
  readingsAt_eq : readingsAt false t = (readingsAt false u).map (List.map collapsed)

variable {t u : PlainTree} {ts us : List PlainTree} {found found' : List (List PlainTree)}

/-- Trees that collapse to others **are normal**, and so are the others. -/
theorem normal_of_forall₂ (h : List.Forall₂ Collapses ts us) :
    (∀ t ∈ ts, t.Normal) ∧ ∀ u ∈ us, u.Normal := by
  induction h with
  | nil => simp
  | cons h _ ih =>
    exact ⟨List.forall_mem_cons.mpr ⟨h.normal, ih.1⟩, List.forall_mem_cons.mpr ⟨h.normal', ih.2⟩⟩

/-- Several trees **collapse together**. -/
theorem readingsAll_eq_of_forall₂ (h : List.Forall₂ Collapses ts us) :
    readingsAll ts = (readingsAll us).map (List.map collapsed) := by
  induction h with
  | nil => rfl
  | cons h _ ih =>
    rw [readingsAll, readingsAll, h.readingsAt_eq, ih]
    simp [List.map_flatMap, List.flatMap_map, Function.comp_def]

/-- The same holds **derivation by derivation**. Derivations with trees correspond to derivations
with trees. -/
theorem normal_of_forall₂_forall₂ (h : List.Forall₂ (List.Forall₂ Collapses) found found')
    (hne : ∀ ts ∈ found, ts ≠ []) : (∀ us ∈ found', us ≠ []) ∧
      (∀ ts ∈ found, ∀ t ∈ ts, t.Normal) ∧ ∀ us ∈ found', ∀ u ∈ us, u.Normal := by
  induction h with
  | nil => simp
  | @cons ts us found found' h _ ih =>
    obtain ⟨hts, hne⟩ := List.forall_mem_cons.mp hne
    obtain ⟨hne', hn, hn'⟩ := ih hne
    obtain ⟨hnts, hnus⟩ := normal_of_forall₂ h
    have hus : us ≠ [] := fun hnil => hts (List.forall₂_nil_right_iff.mp (hnil ▸ h))
    exact ⟨List.forall_mem_cons.mpr ⟨hus, hne'⟩, List.forall_mem_cons.mpr ⟨hnts, hn⟩,
      List.forall_mem_cons.mpr ⟨hnus, hn'⟩⟩

/-- Several outputs **collapse one by one**. -/
theorem flatMap_readingsAll_eq_of_forall₂
    (h : List.Forall₂ (List.Forall₂ Collapses) found found') :
    found.flatMap readingsAll = (found'.flatMap readingsAll).map (List.map collapsed) := by
  induction h with
  | nil => rfl
  | cons h _ ih =>
    rw [List.flatMap_cons, List.flatMap_cons, readingsAll_eq_of_forall₂ h, ih, List.map_append]

end Tree

namespace ParseOptions

open GeneralParsing.Tree

/-- The same options with **collapsing on**. -/
def collapsing (o : ParseOptions) : ParseOptions := { o with collapse := true }

/-- The same options with **collapsing off**. -/
def keeping (o : ParseOptions) : ParseOptions := { o with collapse := false }

variable {o : ParseOptions} {span : Span}

/-- Around trees as they are read, a tag with collapsing is **the tag without, collapsed**. This is
where collapsing takes place; everything else just passes it on. -/
theorem plainWrap_map_collapsed (tag : String) (r : List PlainTree) :
    o.collapsing.plainWrap span tag (r.map collapsed) =
      (o.keeping.plainWrap span tag r).collapsed := by
  -- the label that the tag gets, with a span or without
  obtain ⟨label, htag, hnode, hleaf⟩ : ∃ label : Label, label.tag = some tag ∧
      (∀ ts, o.plainSpanned span (PlainTree.node tag ts) = branch label () ts) ∧
      ∀ text, o.plainSpanned span (PlainTree.taggedValue tag text) =
        leaf { tag := label.tag, value := some text, span := label.span } := by
    cases ho : o.spans with
    | false =>
      simp only [plainSpanned_of_not_spans ho]
      exact ⟨{ tag := some tag }, rfl, fun _ => rfl, fun _ => rfl⟩
    | true =>
      simp only [plainSpanned_of_spans ho]
      exact ⟨{ tag := some tag, span := some span }, rfl, fun _ => rfl, fun _ => rfl⟩
  have hkeeping : o.keeping.plainWrap span tag r = branch label () r := by
    have hnever : o.keeping.collapses r = false := by
      unfold collapses
      split <;> rfl
    rw [← hnode, plainWrap, tagged_of_not_collapses hnever]
    rfl
  have hcollapsing : ∀ ts, o.collapsing.plainWrap span tag ts = joinedWith label ts := by
    intro ts
    rcases ts with _ | ⟨only, _ | ⟨u, ts⟩⟩
    · exact hnode []
    · change o.plainSpanned span (PlainTree.tagged true tag [only]) = _
      rw [PlainTree.tagged, Bool.true_and, joinedWith, htag, Option.isSome_some, Bool.true_and]
      split
      · next hv =>
        obtain ⟨text, htext⟩ := exists_value_of_isValueLeaf hv
        rw [hleaf, htext, htag]
        rfl
      · exact hnode [only]
    · exact hnode (only :: u :: ts)
  rw [hcollapsing, hkeeping, collapsed_branch]

/-- A leaf collapses **to itself**. -/
theorem collapses_leaf {label : Label} (hp : label.packed = false) :
    Collapses (o.collapsing.plainSpanned span (.leaf label))
      (o.keeping.plainSpanned span (.leaf label)) := by
  refine ⟨Forest.normal_plainSpanned_leaf _ span hp, Forest.normal_plainSpanned_leaf _ span hp, ?_⟩
  change readingsAt false (o.plainSpanned span (.leaf label)) =
    (readingsAt false (o.plainSpanned span (.leaf label))).map (List.map collapsed)
  unfold plainSpanned
  split <;> simp [readingsAt, withSpan, withLabel, Tree.label, hp, collapsed]

/-- Packing commutes **with collapsing**. The members of a packed tree collapse each by itself. -/
theorem collapses_plainPack {found found' : List (List PlainTree)}
    (h : List.Forall₂ (List.Forall₂ Collapses) found found') (hfound : found ≠ [])
    (hne : ∀ ts ∈ found, ts ≠ []) :
    Collapses (o.collapsing.plainPack span found) (o.keeping.plainPack span found') := by
  obtain ⟨hne', hn, hn'⟩ := normal_of_forall₂_forall₂ h hne
  have hfound' : found' ≠ [] := fun hnil => hfound (List.forall₂_nil_right_iff.mp (hnil ▸ h))
  refine ⟨normal_plainPack hfound hne hn, normal_plainPack hfound' hne' hn', ?_⟩
  rw [← readingsAll_singleton, ← readingsAll_singleton, readingsAll_plainPack hn,
    readingsAll_plainPack hn']
  exact flatMap_readingsAll_eq_of_forall₂ h

/-- Tagging commutes with collapsing, **wherever the tag ends up**. A tag is moved into the
alternatives of a packed tree where collapsing could apply, so both cases come up. -/
theorem collapses_plainTagged (tag : String) {ts us : List PlainTree}
    (h : List.Forall₂ Collapses ts us) :
    Collapses (o.collapsing.plainTagged span tag ts) (o.keeping.plainTagged span tag us) := by
  obtain ⟨hts, hus⟩ := normal_of_forall₂ h
  refine ⟨normal_plainTagged hts, normal_plainTagged hus, ?_⟩
  rw [← readingsAll_singleton, ← readingsAll_singleton, readingsAll_plainTagged hts,
    readingsAll_plainTagged hus, readingsAll_eq_of_forall₂ h, List.map_map, List.map_map]
  exact List.map_congr_left fun r _ => congrArg ([·]) (plainWrap_map_collapsed tag r)

/-- Shapes **respect collapsing**. By this a whole extraction with collapsing follows the one
without, node by node. -/
theorem respected_collapses : o.collapsing.Respected o.keeping Collapses where
  ambiguity_eq := rfl
  value _ _ := collapses_leaf rfl
  taggedValue _ _ _ := collapses_leaf rfl
  pack _ _ _ h hfound hne := collapses_plainPack h hfound hne
  tagged _ tag _ _ h := collapses_plainTagged tag h

end ParseOptions

namespace Forest

open GeneralParsing.Tree

variable {g : Grammar} {w : List String} {f : Forest} {o : ParseOptions} {ts us : List PlainTree}

/-- A group collapses **member by member**. -/
theorem collapsed_plainSpanned_group (o : ParseOptions) (span : Span) (ts : List PlainTree) :
    (o.plainSpanned span (PlainTree.group ts)).collapsed =
      o.plainSpanned span (PlainTree.group (ts.map collapsed)) := by
  unfold ParseOptions.plainSpanned
  split <;> exact (collapsed_branch _ _).trans (joinedWith_of_no_tag rfl _)

/-- Trees that collapse others do so **as one tree**. The group around several roots has no tag and
stays as it is. -/
theorem readingsAt_plainRoot_eq (h : List.Forall₂ Collapses ts us) :
    readingsAt false (f.plainRoot o ts) =
      (readingsAt false (f.plainRoot o us)).map (List.map collapsed) := by
  have hgroup : readingsAt false (o.plainSpanned f.wholeSpan (PlainTree.group ts)) =
      (readingsAt false (o.plainSpanned f.wholeSpan (PlainTree.group us))).map
        (List.map collapsed) := by
    rw [ParseOptions.readingsAt_plainSpanned_group, ParseOptions.readingsAt_plainSpanned_group,
      readingsAll_eq_of_forall₂ h, List.map_map, List.map_map]
    exact List.map_congr_left fun r _ =>
      congrArg ([·]) (collapsed_plainSpanned_group o f.wholeSpan r).symm
  match ts, us, h with
  | [], [], _ => exact hgroup
  | [t], [u], .cons h _ => exact h.readingsAt_eq
  | _ :: _ :: _, _ :: _ :: _, _ => exact hgroup

/-- Trees without packed parts collapse as they are, **as one tree**. -/
theorem plainRoot_eq_collapsed (h : List.Forall₂ Collapses ts us)
    (ht : (f.plainRoot o ts).Unpacked) (hu : (f.plainRoot o us).Unpacked) :
    f.plainRoot o ts = (f.plainRoot o us).collapsed := by
  have hreadings := readingsAt_plainRoot_eq (f := f) (o := o) h
  -- either tree has one reading, itself
  rw [ht.readingsAt_eq, hu.readingsAt_eq] at hreadings
  simpa using hreadings

/-- Both extractions **have a tree**, unless ambiguity is an error, and one is made of trees that
collapse those of the other. -/
theorem exists_extract_collapse (hf : f.Closed) {policy : Ambiguity} (hpolicy : policy ≠ .error)
    (spans : Bool) :
    ∃ t n u m, f.extract ⟨policy, true, spans⟩ = .ok (t, n) ∧
      f.extract ⟨policy, false, spans⟩ = .ok (u, m) ∧ ∃ ts us, List.Forall₂ Collapses ts us ∧
        t.plain = f.plainRoot ⟨policy, true, spans⟩ ts ∧
        u.plain = f.plainRoot ⟨policy, true, spans⟩ us := by
  have hpaired := paired_extract (ParseOptions.respected_collapses (o := ⟨policy, true, spans⟩)) f
  change Paired _ (f.extract ⟨policy, true, spans⟩) (f.extract ⟨policy, false, spans⟩) at hpaired
  obtain ⟨t, n, ht⟩ : ∃ t n, f.extract ⟨policy, true, spans⟩ = .ok (t, n) := by
    obtain ⟨t, n, p, m, hfirst, hpacked, -⟩ := extract_first_atTop hf ⟨policy, true, spans⟩
    cases policy with
    | first => exact ⟨t, n, hfirst⟩
    | error => exact absurd rfl hpolicy
    | packed => exact ⟨p, m, hpacked⟩
  rw [ht] at hpaired ⊢
  generalize f.extract ⟨policy, false, spans⟩ = off at hpaired ⊢
  cases hpaired with
  | @ok _ u h => exact ⟨t, n, u.1, u.2, rfl, rfl, h⟩

/-- The packed tree with collapsing **stands for the collapsed trees** of the packed tree
without. -/
theorem trees_extract_packed (hf : f.Closed) (spans : Bool) :
    ∃ t n u m, f.extract ⟨.packed, true, spans⟩ = .ok (t, n) ∧
      f.extract ⟨.packed, false, spans⟩ = .ok (u, m) ∧
      t.plain.trees = u.plain.trees.map collapsed ∧ t.count = u.count := by
  obtain ⟨t, n, u, m, ht, hu, ts, us, hts, htroot, huroot⟩ :=
    exists_extract_collapse hf (show Ambiguity.packed ≠ .error by simp) spans
  obtain ⟨members, hfiled⟩ := exists_filed_of_extract ht
  obtain ⟨members', hfiled'⟩ := exists_filed_of_extract hu
  have hreadings : readingsAt false t.plain =
      (readingsAt false u.plain).map (List.map collapsed) := by
    rw [htroot, huroot, readingsAt_plainRoot_eq hts]
  refine ⟨t, n, u, m, ht, hu, ?_, ?_⟩
  · rw [trees, trees, hreadings, List.map_map, List.map_map]
    exact List.map_congr_left fun r _ => (collapsed_single r).symm
  · rw [count_eq hfiled, count_eq hfiled', ← length_readingsAt t.plain false,
      ← length_readingsAt u.plain false, hreadings, List.length_map]

/-- The first tree with collapsing is **the first tree without, collapsed**. Neither of them has
packed parts, so the trees themselves can be compared. -/
theorem extract_first_collapsed (hf : f.Closed) (spans : Bool) :
    ∃ t n u m, f.extract ⟨.first, true, spans⟩ = .ok (t, n) ∧
      f.extract ⟨.first, false, spans⟩ = .ok (u, m) ∧ t.plain = u.plain.collapsed := by
  obtain ⟨t, n, u, m, ht, hu, ts, us, hts, htroot, huroot⟩ :=
    exists_extract_collapse hf (show Ambiguity.first ≠ .error by simp) spans
  have htsolid := unpacked_freshTree (by simp) (freshTree_of_extract ht)
  have husolid := unpacked_freshTree (by simp) (freshTree_of_extract hu)
  refine ⟨t, n, u, m, ht, hu, ?_⟩
  rw [htroot] at htsolid ⊢
  rw [huroot] at husolid ⊢
  exact plainRoot_eq_collapsed hts htsolid husolid

/-- **Collapsing commutes with choosing.** With collapsing the packed tree of an input stands for
the collapsed trees of the packed tree without, in the same order and just as many, and the first
tree is the collapsed first tree. -/
theorem trees_extract_collapse (hg : g.Closed) (hf : parse g w = .ok f) (spans : Bool) :
    (∃ t n u m, f.extract ⟨.packed, true, spans⟩ = .ok (t, n) ∧
      f.extract ⟨.packed, false, spans⟩ = .ok (u, m) ∧
      t.plain.trees = u.plain.trees.map collapsed ∧ t.count = u.count) ∧
    ∃ t n u m, f.extract ⟨.first, true, spans⟩ = .ok (t, n) ∧
      f.extract ⟨.first, false, spans⟩ = .ok (u, m) ∧ t.plain = u.plain.collapsed :=
  have hclosed := closed_of_parse hg hf
  ⟨trees_extract_packed hclosed spans, extract_first_collapsed hclosed spans⟩

open Grammar in
/-- Collapsing commutes with choosing **between the forms of a pair**. -/
theorem trees_extract_collapse_pair : pairs.Closed ∧ ∃ f, parse pairs ["a", "b"] = .ok f ∧
    (∃ t n u m, f.extract ⟨.packed, true, true⟩ = .ok (t, n) ∧
      f.extract ⟨.packed, false, true⟩ = .ok (u, m) ∧
      t.plain.trees = u.plain.trees.map collapsed ∧ t.count = u.count) ∧
    ∃ t n u m, f.extract ⟨.first, true, true⟩ = .ok (t, n) ∧
      f.extract ⟨.first, false, true⟩ = .ok (u, m) ∧ t.plain = u.plain.collapsed := by
  obtain ⟨f, hf, -⟩ := exists_extract_pair
  exact ⟨closed_pairs, f, hf, trees_extract_collapse closed_pairs hf true⟩

end Forest

end GeneralParsing
