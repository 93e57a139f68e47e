import GeneralParsing.Extraction.Shape
import GeneralParsing.Proofs.Tree.Numbering
import GeneralParsing.Proofs.Tree.Readings

/-!
# Shapes with no regard to sharing

The shapes that extraction gives to trees, once more for plain trees: packing, tagging, and moving a
tag into the alternatives of a packed tree. `plain_result_pack` and `plain_result_labelled` say that
these are the numbered shapes with the numbers forgotten.

The main results are about readings. A packed tree reads as any of the outputs it was packed from
(`readingsAll_plainPack`), and a tagged output reads as the readings of the output, each tagged by
itself (`readingsAll_plainTagged`): moving a tag into alternatives changes nothing that a tree
stands for. Both keep outputs normal.
-/

namespace GeneralParsing

namespace ParseOptions

/-! ### The plain shapes -/

/-- The tree with the span, **if spans are recorded**. -/
def plainSpanned (o : ParseOptions) (span : Span) (t : PlainTree) : PlainTree :=
  if o.spans then t.withSpan span else t

/-- The alternatives that **one derivation** contributes. -/
def plainAlternatives (o : ParseOptions) (span : Span) : List PlainTree → List PlainTree
  | [t] => if t.isPacked then t.children else [t]
  | ts => [o.plainSpanned span (PlainTree.group ts)]

/-- The outputs of **several derivations** as one tree. -/
def plainPack (o : ParseOptions) (span : Span) (found : List (List PlainTree)) : PlainTree :=
  o.plainSpanned span (PlainTree.packed (found.flatMap (o.plainAlternatives span)))

/-- A **tagged node**, or a tagged value where collapsing is on and a lone untagged value is all
there is. -/
def plainWrap (o : ParseOptions) (span : Span) (tag : String) (ts : List PlainTree) : PlainTree :=
  o.plainSpanned span (PlainTree.tagged o.collapse tag ts)

/-- Whether a tag **moves into the alternatives** of a packed tree. -/
def plainDistributes (o : ParseOptions) (t : PlainTree) : Bool :=
  t.isPacked
    && (t.children.all Tree.isGroup || (o.collapse && t.children.any Tree.isValueLeaf))

/-- The output of a **tagged result**. -/
def plainTagged (o : ParseOptions) (span : Span) (tag : String) (ts : List PlainTree) :
    PlainTree :=
  match ts with
  | [only] =>
    if o.plainDistributes only then
      o.plainSpanned span (PlainTree.packed (only.children.map fun part =>
        o.plainWrap span tag (if part.isGroup then part.children else [part])))
    else o.plainWrap span tag ts
  | _ => o.plainWrap span tag ts

/-- The output of a result, **tagged if it has a tag**. -/
def plainLabelled (o : ParseOptions) (span : Span) (tag : Option String) (ts : List PlainTree) :
    List PlainTree :=
  match tag with
  | some tag => [o.plainTagged span tag ts]
  | none => ts

end ParseOptions

/-! ### Forgetting the numbers -/

namespace ParseOptions

variable (o : ParseOptions) (span : Span)

/-- Recording spans **commutes with forgetting the numbers**, and so does all the shaping below. -/
@[simp] theorem plain_spanned (t : NumberedTree) :
    (o.spanned span t).plain = o.plainSpanned span t.plain := by
  unfold spanned plainSpanned
  split <;> simp

theorem plain_result_alternatives (ts : List NumberedTree) (n : Nat) :
    ((o.alternatives span ts).result n).map Tree.plain =
      o.plainAlternatives span (ts.map Tree.plain) := by
  unfold alternatives
  split
  · next t =>
    simp only [List.map_cons, List.map_nil, plainAlternatives, Tree.isPacked_plain,
      Numbering.result_pure]
    split <;> simp [Tree.children_plain]
  · next hts =>
    have hne : ∀ t, ts.map Tree.plain ≠ [t] := by
      intro t ht
      obtain ⟨u, rfl, -⟩ := List.map_eq_singleton_iff.mp ht
      exact hts u rfl
    rw [plainAlternatives.eq_2 _ _ _ hne]
    simp [NumberedTree.group, PlainTree.group]

/-- Packing gives **the plain packed tree**, whatever numbers it hands out. -/
theorem plain_result_pack (found : List (List NumberedTree)) (n : Nat) :
    ((o.pack span found).result n).plain = o.plainPack span (found.map (List.map Tree.plain)) := by
  have hparts : ((found.mapM (o.alternatives span)).result n).map (List.map Tree.plain) =
      found.map fun ts => o.plainAlternatives span (ts.map Tree.plain) :=
    Numbering.map_result_mapM (fun ts _ => plain_result_alternatives o span ts) n
  simp only [pack, NumberedTree.packed, Numbering.result_bind, Numbering.result_pure,
    Numbering.result_inner, plain_spanned, Tree.plain_branch, plainPack,
      PlainTree.packed, List.map_flatten]
  rw [hparts, List.flatMap_map, List.flatMap_def]

/-- Wrapping gives **the plain wrapped tree**, whatever numbers it hands out. -/
theorem plain_result_wrap (tag : String) (ts : List NumberedTree) (n : Nat) :
    ((o.wrap span tag ts).result n).plain = o.plainWrap span tag (ts.map Tree.plain) := by
  have hnode : ((o.spanned span <$> NumberedTree.node tag ts).result n).plain =
      o.plainSpanned span (PlainTree.node tag (ts.map Tree.plain)) := by
    simp [NumberedTree.node, PlainTree.node]
  unfold wrap plainWrap
  cases ts with
  | nil => exact hnode
  | cons only rest =>
    cases rest with
    | cons t rest => exact hnode
    | nil =>
      simp only [List.map_cons, List.map_nil, PlainTree.tagged, Tree.label_plain,
        Tree.isValueLeaf_plain] at hnode ⊢
      cases hv : only.label.value with
      | none => simpa [Tree.isValueLeaf, hv] using hnode
      | some text =>
        simp only [Option.getD_some]
        split
        · simp [NumberedTree.taggedValue, PlainTree.taggedValue]
        · exact hnode

/-- Whether a tag moves inside does not depend **on the numbers**. -/
theorem plainDistributes_plain (t : NumberedTree) :
    o.plainDistributes t.plain = o.distributes t := by
  simp [plainDistributes, distributes, Tree.children_plain, List.all_map, List.any_map,
    Function.comp_def]

/-- Tagging gives **the plain tagged tree**, whatever numbers it hands out. In both cases, whether
the tag moves into alternatives or not. -/
theorem plain_result_tagged (tag : String) (ts : List NumberedTree) (n : Nat) :
    ((o.tagged span tag ts).result n).plain = o.plainTagged span tag (ts.map Tree.plain) := by
  unfold tagged plainTagged
  cases ts with
  | nil => exact plain_result_wrap o span tag [] n
  | cons only rest =>
    cases rest with
    | cons t rest => exact plain_result_wrap o span tag (only :: t :: rest) n
    | nil =>
      simp only [List.map_cons, List.map_nil, plainDistributes_plain]
      split
      · have hparts : ((only.children.mapM fun part =>
            o.wrap span tag (if part.isGroup then part.children else [part])).result n).map
              Tree.plain = only.children.map fun part => o.plainWrap span tag
                (if part.plain.isGroup then part.plain.children else [part.plain]) := by
          refine Numbering.map_result_mapM (fun part _ k => ?_) n
          rw [plain_result_wrap, Tree.isGroup_plain, Tree.children_plain, apply_ite (List.map _),
            List.map_singleton]
        simp only [NumberedTree.packed, Numbering.result_bind, Numbering.result_pure,
          Numbering.result_inner, plain_spanned, Tree.plain_branch]
        rw [hparts, Tree.children_plain, List.map_map]
        rfl
      · exact plain_result_wrap o span tag [only] n

/-- The output of a result is **the plain one**, with a tag or without. -/
theorem plain_result_labelled (tag : Option String) (ts : List NumberedTree) (n : Nat) :
    ((o.labelled span tag ts).result n).map Tree.plain =
      o.plainLabelled span tag (ts.map Tree.plain) := by
  cases tag with
  | none => rfl
  | some tag => simp [labelled, plainLabelled, plain_result_tagged]

/-! ### Readings of shapes -/

variable {o span}

/-- Where spans are not recorded **nothing changes**. -/
theorem plainSpanned_of_not_spans (ho : o.spans = false) (t : PlainTree) :
    o.plainSpanned span t = t := by
  rw [plainSpanned, ho]
  rfl

theorem plainSpanned_of_spans (ho : o.spans = true) (span : Span) (t : PlainTree) :
    o.plainSpanned span t = t.withSpan span := by
  rw [plainSpanned, if_pos ho]

@[simp] theorem isPacked_plainSpanned (t : PlainTree) :
    (o.plainSpanned span t).isPacked = t.isPacked := by
  unfold plainSpanned; split <;> cases t <;> rfl

@[simp] theorem isGroup_plainSpanned (t : PlainTree) :
    (o.plainSpanned span t).isGroup = t.isGroup := by
  unfold plainSpanned; split <;> cases t <;> rfl

@[simp] theorem isValueLeaf_plainSpanned (t : PlainTree) :
    (o.plainSpanned span t).isValueLeaf = t.isValueLeaf := by
  unfold plainSpanned; split <;> cases t <;> rfl

@[simp] theorem isBranch_plainSpanned (t : PlainTree) :
    (o.plainSpanned span t).isBranch = t.isBranch := by
  unfold plainSpanned; split <;> cases t <;> rfl

@[simp] theorem children_plainSpanned (t : PlainTree) :
    (o.plainSpanned span t).children = t.children := by
  unfold plainSpanned; split <;> cases t <;> rfl

/-- A tagged node reads **as one node** with the readings of its children in it. A span is not
looked at. -/
theorem readingsAt_plainSpanned_node (b : Bool) (tag : String) (ts : List PlainTree) :
    Tree.readingsAt b (o.plainSpanned span (PlainTree.node tag ts)) =
      (Tree.readingsAll ts).map fun r => [o.plainSpanned span (PlainTree.node tag r)] := by
  unfold plainSpanned
  split <;> simp [PlainTree.node, Tree.withSpan, Tree.withLabel, Tree.label, Tree.readingsAt,
    Tree.isGroup]

/-- In its place a group reads as **a group** of each reading of its members. -/
theorem readingsAt_plainSpanned_group (ts : List PlainTree) :
    Tree.readingsAt false (o.plainSpanned span (PlainTree.group ts)) =
      (Tree.readingsAll ts).map fun r => [o.plainSpanned span (PlainTree.group r)] := by
  unfold plainSpanned
  split <;> simp [PlainTree.group, Tree.withSpan, Tree.withLabel, Tree.label, Tree.readingsAt]

/-- What one derivation contributes reads **as its trees do**: a group made for it gives way. A
group that an alternative needs is opened up again when it is read. -/
theorem readingsAt_plainAlternatives {ts : List PlainTree} (h : ∀ t ∈ ts, t.Normal) :
    (o.plainAlternatives span ts).flatMap (Tree.readingsAt true) = Tree.readingsAll ts := by
  unfold plainAlternatives
  split
  · next t =>
    rw [Tree.readingsAll_singleton]
    cases hp : t.isPacked with
    | true => rw [if_pos rfl, Tree.readingsAt_of_isPacked hp]
    | false =>
      have hg : t.isGroup = false := (h t (by simp)).not_isGroup
      simp [Tree.readingsAt_of_not_isGroup hg]
  · rw [List.flatMap_singleton, Tree.readingsAt_of_isGroup (by simp)]
    simp

/-- A packed tree reads as **any of the outputs** it was packed from. -/
theorem readingsAll_plainPack {found : List (List PlainTree)}
    (h : ∀ ts ∈ found, ∀ t ∈ ts, t.Normal) :
    Tree.readingsAll [o.plainPack span found] = found.flatMap Tree.readingsAll := by
  have hpack : (o.plainPack span found).isPacked = true := by simp [plainPack]
  rw [Tree.readingsAll_singleton, Tree.readingsAt_of_isPacked hpack, plainPack,
    children_plainSpanned, PlainTree.children_packed, List.flatMap_assoc]
  exact List.flatMap_congr fun ts hts => readingsAt_plainAlternatives (h ts hts)

/-! ### Readings under a tag -/

/-- Only around a packed tree a tag may **move into alternatives**. -/
theorem isPacked_of_plainDistributes {t : PlainTree} (h : o.plainDistributes t = true) :
    t.isPacked = true := by
  rw [plainDistributes, Bool.and_eq_true] at h
  exact h.1

/-- Trees **collapse under a tag** when all there is is an untagged value. -/
def collapses (o : ParseOptions) : List PlainTree → Bool
  | [only] => o.collapse && only.isValueLeaf
  | _ => false

/-- Trees that do not collapse become **the children of a node**. -/
theorem tagged_of_not_collapses {tag : String} {ts : List PlainTree}
    (h : o.collapses ts = false) : PlainTree.tagged o.collapse tag ts = PlainTree.node tag ts := by
  unfold PlainTree.tagged
  split
  · next only => rw [if_neg (by simpa [collapses] using h)]
  · rfl

/-- Two trees or more **never collapse**. A tag is joined to a lone value, and never to several
trees. -/
theorem collapses_of_length {ts : List PlainTree} (h : 2 ≤ ts.length) :
    o.collapses ts = false := by
  unfold collapses
  split
  · simp at h
  · rfl

/-- A tag commutes with reading when collapsing does **not depend on the reading**. Otherwise some
readings would be joined with the tag and others wrapped. -/
theorem readingsAt_plainWrap {tag : String} {ts : List PlainTree} (hn : ∀ t ∈ ts, t.Normal)
    (h : ∀ r ∈ Tree.readingsAll ts, o.collapses r = o.collapses ts) (b : Bool) :
    Tree.readingsAt b (o.plainWrap span tag ts) =
      (Tree.readingsAll ts).map fun r => [o.plainWrap span tag r] := by
  unfold plainWrap
  cases hc : o.collapses ts with
  | false =>
    rw [tagged_of_not_collapses hc, readingsAt_plainSpanned_node]
    exact List.map_congr_left fun r hr => by
      rw [tagged_of_not_collapses ((h r hr).trans hc)]
  | true =>
    obtain ⟨only, rfl, hcol⟩ : ∃ only, ts = [only] ∧ (o.collapse && only.isValueLeaf) = true := by
      unfold collapses at hc
      split at hc
      · exact ⟨_, rfl, hc⟩
      · cases hc
    have hv : only.isValueLeaf = true := by simp_all
    have hp : only.isPacked = false := Tree.isPacked_of_isValueLeaf hv
    cases hn only (by simp) with
    | packed hp' => cases hp.symm.trans hp'
    | solid _ _ hleaf =>
      cases only with
      | branch label family members => cases hleaf hv
      | leaf label =>
        have hread : Tree.readingsAll [Tree.leaf label] = [[Tree.leaf label]] := by
          simp [Tree.readingsAt, show label.packed = false from hp]
        rw [hread]
        simp only [PlainTree.tagged, hcol, if_true, List.map_cons, List.map_nil]
        unfold plainSpanned
        split <;> simp [PlainTree.taggedValue, Tree.readingsAt, Tree.withSpan, Tree.withLabel,
          Tree.label]

/-- Whether a reading collapses is seen **from the tree that it is a reading of**. A tree that is
not packed has one shape in all its readings. -/
theorem collapses_of_mem_readingsAt {t : PlainTree} (hp : t.isPacked = false) {r : List PlainTree}
    (hr : r ∈ Tree.readingsAt false t) : o.collapses r = (o.collapse && t.isValueLeaf) := by
  obtain ⟨u, rfl, hlabel, -⟩ := Tree.exists_of_mem_readingsAt hp hr
  simp [collapses, Tree.isValueLeaf, hlabel]

/-- Unless a tag moves into the alternatives, whether it collapses **does not depend on the
reading**. -/
theorem collapses_of_mem_readingsAll {ts : List PlainTree} (hn : ∀ t ∈ ts, t.Normal)
    (hd : ∀ only, ts = [only] → o.plainDistributes only = false) {r : List PlainTree}
    (hr : r ∈ Tree.readingsAll ts) : o.collapses r = o.collapses ts := by
  match ts with
  | [] =>
    obtain rfl : r = [] := by simpa using hr
    rfl
  | t :: u :: ts =>
    have hle := Tree.length_le_of_normal hn hr
    rw [collapses_of_length (Nat.le_trans (by simp) hle), collapses_of_length (by simp)]
  | [only] =>
    rw [Tree.readingsAll_singleton] at hr
    cases hp : only.isPacked with
    | false => exact collapses_of_mem_readingsAt hp hr
    | true =>
      have hts : o.collapses [only] = false := by
        have hlabel : only.label.packed = true := hp
        simp [collapses, Tree.isValueLeaf, hlabel]
      rw [hts]
      have hd := hd only rfl
      simp only [plainDistributes, hp, Bool.true_and, Bool.or_eq_false_iff] at hd
      cases hn only (by simp) with
      | solid hp' => cases hp.symm.trans hp'
      | @packed label alternatives _ _ hflat _ hlen hmember =>
        obtain ⟨part, hpart, hr⟩ := (Tree.mem_readingsAt_packed hp).mp hr
        rcases Tree.mem_readingsAt_alternative hr with ⟨-, hr⟩ | ⟨hg, hr⟩
        · rw [collapses_of_mem_readingsAt (hflat part hpart) hr]
          simp only [Tree.children, Bool.and_eq_false_iff] at hd ⊢
          exact hd.2.imp id fun h => by simpa using List.any_eq_false.mp h part hpart
        · have hle := Tree.length_le_of_normal (hmember part hpart hg) hr
          exact collapses_of_length (Nat.le_trans (hlen part hpart hg) hle)

/-- **A tag commutes with reading**: a tagged output reads as the readings of the output, each
tagged by itself. -/
theorem readingsAll_plainTagged {tag : String} {ts : List PlainTree} (hn : ∀ t ∈ ts, t.Normal) :
    Tree.readingsAll [o.plainTagged span tag ts] =
      (Tree.readingsAll ts).map fun r => [o.plainWrap span tag r] := by
  rw [Tree.readingsAll_singleton]
  by_cases hd : ∀ only, ts = [only] → o.plainDistributes only = false
  · have hwrap : o.plainTagged span tag ts = o.plainWrap span tag ts := by
      unfold plainTagged
      split
      · next only => rw [if_neg (by simp [hd only rfl])]
      · rfl
    rw [hwrap]
    exact readingsAt_plainWrap hn (fun r hr => collapses_of_mem_readingsAll hn hd hr) false
  · obtain ⟨only, rfl, hdist⟩ : ∃ only, ts = [only] ∧ o.plainDistributes only = true := by
      simpa using hd
    have hp : only.isPacked = true := isPacked_of_plainDistributes hdist
    have hpart : ∀ part ∈ only.children, Tree.readingsAt true (o.plainWrap span tag
        (if part.isGroup then part.children else [part])) =
          (Tree.readingsAt true part).map fun r => [o.plainWrap span tag r] := by
      intro part hpart
      cases hn only (by simp) with
      | solid hp' => cases hp.symm.trans hp'
      | packed _ _ hflat hsolid hlen hmember =>
        cases hg : part.isGroup with
        | true =>
          rw [if_pos rfl, Tree.readingsAt_of_isGroup hg]
          refine readingsAt_plainWrap (hmember part hpart hg) (fun r hr => ?_) true
          have hle := Tree.length_le_of_normal (hmember part hpart hg) hr
          have htwo := hlen part hpart hg
          rw [collapses_of_length htwo, collapses_of_length (Nat.le_trans htwo hle)]
        | false =>
          rw [if_neg (by simp), Tree.readingsAt_of_not_isGroup hg, ← Tree.readingsAll_singleton]
          refine readingsAt_plainWrap (by simpa using hsolid part hpart hg) (fun r hr => ?_) true
          rw [Tree.readingsAll_singleton] at hr
          exact collapses_of_mem_readingsAt (hflat part hpart) hr
    rw [plainTagged, if_pos hdist, Tree.readingsAt_of_isPacked (by simp), children_plainSpanned,
      PlainTree.children_packed, List.flatMap_map, Tree.readingsAll_singleton,
      Tree.readingsAt_of_isPacked hp, List.map_flatMap]
    exact List.flatMap_congr hpart

/-- A tag is put on **every reading by itself**: moving it into the alternatives loses nothing. That
is why the tag moves: around the packed tree it could not collapse in each alternative. -/
theorem readingsAll_plainLabelled {tag : Option String} {ts : List PlainTree}
    (hn : ∀ t ∈ ts, t.Normal) :
    Tree.readingsAll (o.plainLabelled span tag ts) =
      (Tree.readingsAll ts).map fun r => (tag.map (o.plainWrap span · r)).elim r ([·]) := by
  cases tag with
  | none => simp [plainLabelled]
  | some tag => exact readingsAll_plainTagged hn

/-! ### Shapes are normal -/

/-- A packed tree is normal if its alternatives are **flat**, and the groups among them not too
short. -/
theorem normal_plainSpanned_packed {alternatives : List PlainTree} (hne : alternatives ≠ [])
    (hflat : ∀ t ∈ alternatives, t.isPacked = false)
    (hsolid : ∀ t ∈ alternatives, t.isGroup = false → t.Normal)
    (hlen : ∀ t ∈ alternatives, t.isGroup = true → 2 ≤ t.children.length)
    (hmember : ∀ t ∈ alternatives, t.isGroup = true → ∀ u ∈ t.children, u.Normal) :
    (o.plainSpanned span (PlainTree.packed alternatives)).Normal := by
  unfold plainSpanned
  split <;> exact .packed rfl hne hflat hsolid hlen hmember

theorem isPacked_plainWrap (tag : String) (ts : List PlainTree) :
    (o.plainWrap span tag ts).isPacked = false := by
  unfold plainWrap PlainTree.tagged
  split
  · split <;> simp
  · simp

theorem isGroup_plainWrap (tag : String) (ts : List PlainTree) :
    (o.plainWrap span tag ts).isGroup = false := by
  unfold plainWrap PlainTree.tagged
  split
  · split <;> simp
  · simp

/-- A wrapped tree is normal **if its children are**. -/
theorem normal_plainWrap {tag : String} {ts : List PlainTree} (hn : ∀ t ∈ ts, t.Normal) :
    (o.plainWrap span tag ts).Normal := by
  refine .solid (isPacked_plainWrap tag ts) (isGroup_plainWrap tag ts) ?_ ?_ <;>
    unfold plainWrap PlainTree.tagged <;> split
  · split <;> simp
  · simp
  · split
    · simp
    · simpa using hn
  · simpa using hn

/-- A tagged tree is normal, **even where the tag has moved inside**. The alternatives are then
nodes or leaves. -/
theorem normal_plainTagged {tag : String} {ts : List PlainTree} (hn : ∀ t ∈ ts, t.Normal) :
    (o.plainTagged span tag ts).Normal := by
  unfold plainTagged
  split
  · next only =>
    split
    · next hd =>
      have hp : only.isPacked = true := isPacked_of_plainDistributes hd
      cases hn only (by simp) with
      | solid hp' => cases hp.symm.trans hp'
      | @packed label alternatives _ hne hflat hsolid hlen hmember =>
        have hparts : ∀ part ∈ alternatives, ∀ t ∈ (if part.isGroup then part.children else [part]),
            t.Normal := by
          intro part hpart
          cases hg : part.isGroup with
          | true => simpa using hmember part hpart hg
          | false => simpa using hsolid part hpart hg
        refine normal_plainSpanned_packed (by simpa [Tree.children] using hne) ?_ ?_ ?_ ?_ <;>
          simp only [Tree.children, List.forall_mem_map, isPacked_plainWrap, isGroup_plainWrap,
            implies_true, Bool.false_eq_true, false_implies]
        exact fun part hpart _ => normal_plainWrap (hparts part hpart)
    · exact normal_plainWrap hn
  · exact normal_plainWrap hn

/-- The output of a result is normal, **tagged or not**. -/
theorem normal_plainLabelled {tag : Option String} {ts : List PlainTree}
    (hn : ∀ t ∈ ts, t.Normal) : ∀ t ∈ o.plainLabelled span tag ts, t.Normal := by
  cases tag with
  | none => exact hn
  | some tag => simpa [plainLabelled] using normal_plainTagged hn

/-- A packed tree is normal if no derivation in it is **without trees**. -/
theorem normal_plainPack {found : List (List PlainTree)} (hfound : found ≠ [])
    (hne : ∀ ts ∈ found, ts ≠ []) (hn : ∀ ts ∈ found, ∀ t ∈ ts, t.Normal) :
    (o.plainPack span found).Normal := by
  -- what each output contributes: the alternatives of a packed tree, a lone tree, or a group
  have halt : ∀ ts ∈ found, ∀ t ∈ o.plainAlternatives span ts, t.isPacked = false ∧
      (t.isGroup = false → t.Normal) ∧
      (t.isGroup = true → 2 ≤ t.children.length ∧ ∀ u ∈ t.children, u.Normal) := by
    intro ts hts t ht
    unfold plainAlternatives at ht
    split at ht
    · next only =>
      have honly := hn _ hts only (by simp)
      split at ht
      · next hp =>
        cases honly with
        | solid hp' => cases hp.symm.trans hp'
        | packed _ _ hflat hsolid hlen hmember =>
          exact ⟨hflat t ht, hsolid t ht, fun hg => ⟨hlen t ht hg, hmember t ht hg⟩⟩
      · next hp =>
        obtain rfl : t = only := by simpa using ht
        exact ⟨by simpa using hp, fun _ => honly, fun hg => by simp [honly.not_isGroup] at hg⟩
    · next hone =>
      obtain rfl : t = o.plainSpanned span (PlainTree.group ts) := by simpa using ht
      refine ⟨by simp, by simp, fun _ => ⟨?_, by simpa using hn ts hts⟩⟩
      match ts, hne ts hts, hone with
      | [t], _, hone => exact (hone t rfl).elim
      | t :: u :: ts, _, _ => simp
  have hsome : ∀ ts ∈ found, o.plainAlternatives span ts ≠ [] := by
    intro ts hts
    unfold plainAlternatives
    split
    · next only =>
      split
      · next hp =>
        cases hn _ hts only (by simp) with
        | solid hp' => cases hp.symm.trans hp'
        | packed _ hne => exact hne
      · simp
    · simp
  obtain ⟨ts, hts⟩ := List.exists_mem_of_ne_nil _ hfound
  obtain ⟨t, ht⟩ := List.exists_mem_of_ne_nil _ (hsome ts hts)
  refine normal_plainSpanned_packed (List.ne_nil_of_mem (List.mem_flatMap.mpr ⟨ts, hts, ht⟩))
    ?_ ?_ ?_ ?_ <;> intro t ht <;> obtain ⟨ts, hts, ht⟩ := List.mem_flatMap.mp ht
  · exact (halt ts hts t ht).1
  · exact (halt ts hts t ht).2.1
  · exact fun hg => ((halt ts hts t ht).2.2 hg).1
  · exact fun hg => ((halt ts hts t ht).2.2 hg).2

end ParseOptions

end GeneralParsing
