import GeneralParsing.Proofs.Extraction.Choices
import GeneralParsing.Proofs.Extraction.Memory
import GeneralParsing.Proofs.Tree.First
import Mathlib

/-!
# The first output is the first of all outputs

Under the first policy a node gives what one gets from its packed output by taking the first
alternative everywhere (`exists_freshOutput`). Packing keeps the order of alternatives, and a
tag commutes with reading, so both can be followed through the readings of outputs: what a plain
recursion picks from a normal tree is its first reading.
-/

namespace GeneralParsing

namespace Tree

@[simp] theorem firstAll_nil : firstAll [] = [] := rfl

/-- First readings of siblings are **strung together**. -/
theorem firstAll_append (ts us : List PlainTree) :
    firstAll (ts ++ us) = firstAll ts ++ firstAll us := by
  simp [firstAll_eq_flatMap]

/-- Normal trees give **something** in their place. A packed tree has alternatives, and each of them
is a derivation with trees. -/
theorem firstAll_eq_nil {ts : List PlainTree} (hn : ∀ t ∈ ts, t.Normal) :
    firstAll ts = [] ↔ ts = [] := by
  refine ⟨fun h => ?_, fun h => by rw [h, firstAll_nil]⟩
  have hfirst := head?_readingsAll fun t ht => head?_readingsAt (hn t ht)
  have hle := length_le_of_normal hn (List.mem_of_head? hfirst)
  rw [h] at hle
  exact List.eq_nil_of_length_eq_zero (Nat.le_zero.mp hle)

/-- What holds of the trees in readings of each of several trees holds of **the trees in readings of
all**. -/
theorem forall_mem_of_mem_readingsAll {motive : PlainTree → Prop} {ts r : List PlainTree}
    (h : ∀ t ∈ ts, ∀ r ∈ readingsAt false t, ∀ u ∈ r, motive u) (hr : r ∈ readingsAll ts) :
    ∀ u ∈ r, motive u := by
  induction ts generalizing r with
  | nil =>
    obtain rfl : r = [] := by simpa using hr
    simp
  | cons t ts ih =>
    obtain ⟨a, ha, b, hb, rfl⟩ : ∃ a ∈ readingsAt false t, ∃ b ∈ readingsAll ts, a ++ b = r := by
      simpa [readingsAll] using hr
    intro u hu
    rcases List.mem_append.mp hu with hu | hu
    · exact h t (by simp) a ha u hu
    · exact ih (fun v hv => h v (by simp [hv])) hb u hu

/-- The trees of a reading **are not packed**. -/
theorem not_isPacked_of_mem_readingsAt (t : PlainTree) :
    ∀ b, ∀ r ∈ readingsAt b t, ∀ u ∈ r, u.isPacked = false := by
  induction t using Tree.induct with
  | leaf label =>
    intro b r hr
    rw [readingsAt] at hr
    split at hr
    · simp at hr
    · next hp =>
      obtain rfl : r = [leaf label] := by simpa using hr
      simpa [isPacked, Tree.label] using hp
  | branch label family members ih =>
    intro b r hr
    rw [readingsAt] at hr
    split at hr
    · rw [readingsAny_eq_flatMap, List.mem_flatMap] at hr
      obtain ⟨t, ht, hr⟩ := hr
      exact ih t ht true r hr
    · next hp =>
      split at hr
      · exact forall_mem_of_mem_readingsAll (fun t ht => ih t ht false) hr
      · obtain ⟨parts, -, rfl⟩ := List.mem_map.mp hr
        simpa [isPacked, Tree.label] using hp

/-- The trees in readings of a normal tree **are no groups**. A group among alternatives is opened
up, and elsewhere there is none. -/
theorem Normal.not_isGroup_of_mem {t : PlainTree} (ht : t.Normal) :
    ∀ r ∈ readingsAt false t, ∀ u ∈ r, u.isGroup = false := by
  induction ht with
  | solid hp hg _ _ _ =>
    intro r hr
    obtain ⟨u, rfl, hlabel, hbranch⟩ := exists_of_mem_readingsAt hp hr
    rw [List.forall_mem_singleton, ← hg, isGroup, isGroup, hlabel, hbranch]
  | @packed label alternatives hp _ _ _ _ _ ihsolid ihmember =>
    intro r hr
    obtain ⟨t, ht, hr⟩ := (mem_readingsAt_packed hp).mp hr
    rcases mem_readingsAt_alternative hr with ⟨hg, hr⟩ | ⟨hg, hr⟩
    · exact ihsolid t ht hg r hr
    · exact forall_mem_of_mem_readingsAll (ihmember t ht hg) hr

/-- What is picked is **neither packed nor a group**. These are the two kinds of trees that a parent
would open up. -/
theorem solid_of_mem_firstAll {ts : List PlainTree} (hn : ∀ t ∈ ts, t.Normal) :
    ∀ u ∈ firstAll ts, u.isPacked = false ∧ u.isGroup = false := by
  have hfirst := List.mem_of_head? (head?_readingsAll fun t ht => head?_readingsAt (hn t ht))
  exact fun u hu => ⟨forall_mem_of_mem_readingsAll
    (fun t _ => not_isPacked_of_mem_readingsAt t false) hfirst u hu,
    forall_mem_of_mem_readingsAll (fun t ht => (hn t ht).not_isGroup_of_mem) hfirst u hu⟩

end Tree

namespace ParseOptions

variable {o : ParseOptions} {span : Span}

/-- A tag that does not move into alternatives **wraps**. -/
theorem plainLabelled_of_not_isPacked {tag : Option String} {ts : List PlainTree}
    (h : ∀ t ∈ ts, t.isPacked = false) :
    o.plainLabelled span tag ts = (tag.map (o.plainWrap span · ts)).elim ts ([·]) := by
  cases tag with
  | none => rfl
  | some tag =>
    simp only [plainLabelled, plainTagged, Option.map_some, Option.elim_some]
    split
    · next only =>
      have honly : o.plainDistributes only = false := by
        simp [plainDistributes, h only (by simp)]
      rw [if_neg (by simp [honly])]
    · rfl

/-- Picking commutes **with a tag**. Where the tag has moved into alternatives it is on the first of
them, too. -/
theorem firstAll_plainLabelled {tag : Option String} {ts : List PlainTree}
    (hn : ∀ t ∈ ts, t.Normal) :
    Tree.firstAll (o.plainLabelled span tag ts) = o.plainLabelled span tag (Tree.firstAll ts) := by
  have hfirst := Tree.head?_readingsAll fun t ht => Tree.head?_readingsAt (hn t ht)
  have hlabelled : (Tree.readingsAll (o.plainLabelled span tag ts)).head? =
      some (Tree.firstAll (o.plainLabelled span tag ts)) :=
    Tree.head?_readingsAll fun t ht => Tree.head?_readingsAt (normal_plainLabelled hn t ht)
  rw [readingsAll_plainLabelled hn, List.head?_map, hfirst, Option.map_some] at hlabelled
  rw [plainLabelled_of_not_isPacked fun u hu => (Tree.solid_of_mem_firstAll hn u hu).1]
  exact (Option.some.inj hlabelled).symm

end ParseOptions

namespace Forest

/-- Picking from a packed output takes **the first output that was packed**. With one output there
is nothing to pick from, and the same is true. -/
theorem firstAll_packAll {o : ParseOptions} {span : Span} {found : List (List PlainTree)}
    (hne : ∀ ts ∈ found, ts ≠ []) (hn : ∀ ts ∈ found, ∀ t ∈ ts, t.Normal) :
    Tree.firstAll (packAll o span found) = (found.map Tree.firstAll).headD [] := by
  cases found with
  | nil => rfl
  | cons ts found =>
    have hpack : (Tree.readingsAll (packAll o span (ts :: found))).head? =
        some (Tree.firstAll (packAll o span (ts :: found))) :=
      Tree.head?_readingsAll fun t ht => Tree.head?_readingsAt (normal_packAll hne hn t ht)
    have hts := Tree.head?_readingsAll fun t ht => Tree.head?_readingsAt (hn ts (by simp) t ht)
    have hread : Tree.readingsAll ts ≠ [] := fun h => by simp [h] at hts
    rw [readingsAll_packAll (by simp) hn, Tree.head?_flatMap_of_ne_nil hread, hts] at hpack
    exact (Option.some.inj hpack).symm

/-! ### Outputs are normal -/

theorem normal_plainSpanned_leaf (o : ParseOptions) (span : Span) {label : Label}
    (hp : label.packed = false) : (o.plainSpanned span (.leaf label)).Normal := by
  refine .solid ((ParseOptions.isPacked_plainSpanned _).trans hp)
    ((ParseOptions.isGroup_plainSpanned _).trans (by simp [Tree.isGroup, Tree.isBranch]))
    (fun _ => ?_) ?_
  · rw [ParseOptions.isBranch_plainSpanned]
    rfl
  · rw [ParseOptions.children_plainSpanned]
    simp [Tree.children]

/-- **Outputs are normal**, whatever the policy. Shapes keep trees normal, and nothing else makes
them. -/
theorem normal_freshOutput {f : Forest} {o : ParseOptions} {path : List NodeId} {id : NodeId}
    {ts : List PlainTree} (h : f.freshOutput o path id = .ok (some ts)) : ∀ t ∈ ts, t.Normal :=
  forall_mem_freshOutput (fun span _ => normal_plainSpanned_leaf o span rfl)
    (fun span _ _ => normal_plainSpanned_leaf o span rfl)
    (fun _ _ _ hlen => ParseOptions.normal_plainPack (List.ne_nil_of_length_pos (by omega)))
    (fun _ _ _ => ParseOptions.normal_plainTagged) h

/-- An output of **normal trees**. -/
def NormalOutput (out : PlainOutput) : Prop := ∀ ts, out = some ts → ∀ t ∈ ts, t.Normal

/-- Normal outputs remain normal **when they are joined**. -/
theorem normalOutput_joined {outs : List PlainOutput} (h : ∀ out ∈ outs, NormalOutput out) :
    NormalOutput (joined outs) := by
  intro ts hts t ht
  obtain ⟨tss, rfl, rfl⟩ := joined_eq_some.mp hts
  obtain ⟨us, hus, ht⟩ := List.mem_flatten.mp ht
  exact h (some us) (List.mem_map_of_mem hus) us rfl t ht

/-! ### Picking from outputs -/

/-- Picking the first readings **commutes with joining** outputs. -/
theorem map_firstAll_joined (outs : List PlainOutput) :
    (joined outs).map Tree.firstAll = joined (outs.map (Option.map Tree.firstAll)) := by
  induction outs with
  | nil => rfl
  | cons out outs ih =>
    cases out with
    | none => rfl
    | some ts =>
      simp only [joined, List.map_cons, Option.map_some, ← ih, Option.map_map]
      exact congrArg (Option.map · (joined outs)) (funext fun us => Tree.firstAll_append ts us)

/-- Picking leaves an output empty only **if it was empty**. So the first of the outputs with trees
stays the first after picking. -/
theorem withTrees_map_firstAll {outs : List PlainOutput} (h : ∀ out ∈ outs, NormalOutput out) :
    withTrees (outs.map (Option.map Tree.firstAll)) = (withTrees outs).map Tree.firstAll := by
  induction outs with
  | nil => rfl
  | cons out outs ih =>
    have ih := ih fun out hout => h out (by simp [hout])
    match out with
    | none => simpa using ih
    | some [] => simpa using ih
    | some (t :: ts) =>
      have hne : Tree.firstAll (t :: ts) ≠ [] := fun hnil =>
        List.cons_ne_nil t ts ((Tree.firstAll_eq_nil (h _ (by simp) _ rfl)).mp hnil)
      obtain ⟨u, us, hus⟩ := List.exists_cons_of_ne_nil hne
      simp [hus, ih]

theorem normal_of_mem_withTrees {outs : List PlainOutput} (h : ∀ out ∈ outs, NormalOutput out) :
    ∀ ts ∈ withTrees outs, ∀ t ∈ ts, t.Normal :=
  fun ts hts => h (some ts) (mem_withTrees.mp hts).1 ts rfl

/-- **Choices commute with picking**: the first output with trees is what one picks from all of
them, packed. -/
theorem chosen_first_of_packed (o : ParseOptions) (span : Span) {outs : List PlainOutput}
    (h : ∀ out ∈ outs, NormalOutput out) :
    ∃ out, chosen { o with ambiguity := .packed } span (outs.map .ok) = .ok out ∧ NormalOutput out ∧
      chosen { o with ambiguity := .first } span
        ((outs.map (Option.map Tree.firstAll)).map .ok) = .ok (out.map Tree.firstAll) := by
  have hn := normal_of_mem_withTrees h
  have hne : ∀ ts ∈ withTrees outs, ts ≠ [] := fun ts hts => (mem_withTrees.mp hts).2
  refine ⟨_, chosen_packed rfl span, ?_, ?_⟩
  · intro ts hts
    split at hts
    · obtain rfl := Option.some.inj hts
      exact normal_packAll hne hn
    · cases hts
  · have hany : (outs.map (Option.map Tree.firstAll)).any Option.isSome =
      outs.any Option.isSome := by
      simp [List.any_map, Function.comp_def]
    rw [chosen_first rfl, hany, withTrees_map_firstAll h, ← firstAll_packAll hne hn]
    cases outs.any Option.isSome <;> rfl

/-- **Under the first policy a node gives what one picks from its packed output.** Neither
policy fails on a closed forest. -/
theorem exists_freshOutput {f : Forest} (hf : f.Closed) (o : ParseOptions) {path : List NodeId}
    {id : NodeId} (hpath : f.IsPath path) (hid : id < f.size) :
    ∃ out, f.freshOutput { o with ambiguity := .packed } path id = .ok out ∧
      f.freshOutput { o with ambiguity := .first } path id = .ok (out.map Tree.firstAll) := by
  refine path_induct hf (motive := fun path id => ∃ out,
    f.freshOutput { o with ambiguity := .packed } path id = .ok out ∧
      f.freshOutput { o with ambiguity := .first } path id = .ok (out.map Tree.firstAll))
    (fun path id hpath hmem => ?_) (fun path id kind span hpath hnot hnode ih => ?_) hpath hid
  · -- on a path through itself a node has no output under either policy
    exact ⟨none, freshOutput_of_mem hpath.length_le hmem, freshOutput_of_mem hpath.length_le hmem⟩
  rw [freshOutput_of_not_mem hpath.length_le hnot hnode,
    freshOutput_of_not_mem hpath.length_le hnot hnode]
  choose! out hpacked hfirst using ih
  -- what the parts give is a list of outputs for one policy, and what is picked from it for the
  -- other
  have hresults : ∀ parts ⊆ kind.parts,
      parts.map (f.freshOutput { o with ambiguity := .packed } (id :: path)) =
          (parts.map out).map .ok ∧
        parts.map (f.freshOutput { o with ambiguity := .first } (id :: path)) =
          ((parts.map out).map (Option.map Tree.firstAll)).map .ok ∧
        ∀ out' ∈ parts.map out, NormalOutput out' := by
    intro parts hsub
    rw [List.map_map, List.map_map, List.map_map]
    refine ⟨List.map_congr_left fun part hpart => hpacked part (hsub hpart),
      List.map_congr_left fun part hpart => hfirst part (hsub hpart),
      List.forall_mem_map.mpr fun part hpart ts hts => ?_⟩
    exact normal_freshOutput ((hpacked part (hsub hpart)).trans (congrArg Except.ok hts))
  have hlabelled : ∀ tag out, NormalOutput out →
      (out.map Tree.firstAll).map (o.plainLabelled span tag) =
        (out.map (o.plainLabelled span tag)).map Tree.firstAll := by
    intro tag out hn
    cases out with
    | none => rfl
    | some ts => exact congrArg some (ParseOptions.firstAll_plainLabelled (hn ts rfl)).symm
  have hleaf : ∀ label : Label, label.packed = false →
      (.ok (some [o.plainSpanned span (.leaf label)]) : Except Error PlainOutput) =
        .ok ((some [o.plainSpanned span (.leaf label)]).map Tree.firstAll) := by
    intro label hp
    unfold ParseOptions.plainSpanned
    split <;> simp [Tree.firstAll, Tree.firstAt, Tree.withSpan, Tree.withLabel, Tree.label, hp]
  cases kind with
  | symbol text => exact ⟨_, rfl, hleaf _ rfl⟩
  | omitted => exact ⟨_, rfl, rfl⟩
  | lexical child => exact ⟨_, rfl, hleaf _ rfl⟩
  | sequence tag children =>
    cases children with
    | nil =>
      cases tag with
      | none => exact ⟨_, rfl, rfl⟩
      | some tag => exact ⟨_, rfl, hleaf _ rfl⟩
    | cons child children =>
      obtain ⟨hp, hf, hn⟩ := hresults (child :: children) (List.Subset.refl _)
      rw [freshNode_sequence, freshNode_sequence, hp, hf, strung_ok, strung_ok,
        ← map_firstAll_joined]
      exact ⟨_, rfl, congrArg _ (hlabelled tag _ (normalOutput_joined hn))⟩
  | choice tag alternatives =>
    obtain ⟨hp, hf, hn⟩ := hresults alternatives (List.Subset.refl _)
    obtain ⟨out', hpacked, hnormal, hfirst⟩ := chosen_first_of_packed o span hn
    rw [freshNode, freshNode, hp, hf, hpacked, hfirst]
    exact ⟨_, rfl, congrArg _ (hlabelled tag _ hnormal)⟩

/-! ### Picking from the tree of a forest -/

/-- Without spans **no tree carries one**. -/
theorem span_eq_none_of_freshOutput {f : Forest} {o : ParseOptions} (ho : o.spans = false)
    {path : List NodeId} {id : NodeId} {ts : List PlainTree}
    (h : f.freshOutput o path id = .ok (some ts)) : ∀ t ∈ ts, t.label.span = none := by
  have hspanned : ∀ span t, o.plainSpanned span t = t :=
    fun _ => ParseOptions.plainSpanned_of_not_spans ho
  have hwrap : ∀ span tag ts, (o.plainWrap span tag ts).label.span = none := by
    intro span tag ts
    rw [ParseOptions.plainWrap, hspanned, PlainTree.tagged.eq_def]
    split
    · split <;> rfl
    · rfl
  refine forall_mem_freshOutput ?_ ?_ ?_ ?_ h
  · exact fun span text => congrArg (fun t => t.label.span) (hspanned span _)
  · exact fun span tag text => congrArg (fun t => t.label.span) (hspanned span _)
  · exact fun _ span found _ _ _ => congrArg (fun t => t.label.span) (hspanned span _)
  · intro span tag ts _
    rw [ParseOptions.plainTagged.eq_def]
    split
    · split
      · exact congrArg (fun t => t.label.span) (hspanned span _)
      · exact hwrap span tag _
    · exact hwrap span tag _

/-- The tree as it stands at the top of an extraction: a group covers **the whole input**. -/
def atTop (f : Forest) (o : ParseOptions) (t : PlainTree) : PlainTree :=
  if t.isGroup then o.plainSpanned f.wholeSpan t else t

/-- Only a group at the top **gets another span**. -/
theorem atTop_of_not_isGroup {f : Forest} {o : ParseOptions} {t : PlainTree}
    (h : t.isGroup = false) : f.atTop o t = t := by
  rw [atTop, if_neg (by simp [h])]

theorem atTop_of_not_spans {f : Forest} {o : ParseOptions} (ho : o.spans = false)
    (t : PlainTree) : f.atTop o t = t := by
  rw [atTop, ParseOptions.plainSpanned_of_not_spans ho, ite_self]

/-- A group at the top **keeps nothing of its span**, if it has one only where spans are
recorded. -/
theorem atTop_group {f : Forest} {o : ParseOptions} {span : Option Span}
    (hspan : o.spans = false → span = none) (ts : List PlainTree) :
    f.atTop o (.branch { span } () ts) = o.plainSpanned f.wholeSpan (PlainTree.group ts) := by
  have hgroup : (Tree.branch { span } () ts : PlainTree).isGroup = true := rfl
  rw [atTop, if_pos hgroup, ParseOptions.plainSpanned, ParseOptions.plainSpanned]
  cases ho : o.spans with
  | false => rw [hspan ho]; rfl
  | true => rfl

/-- Picking from trees **as one tree**. The two differ in the span of a group at most, which `atTop`
sets right. -/
theorem atTop_firstPlain {f : Forest} {o : ParseOptions} {ts : List PlainTree}
    (hn : ∀ t ∈ ts, t.Normal) (hspan : o.spans = false → ∀ t ∈ ts, t.label.span = none) :
    f.atTop o (f.plainRoot o ts).firstPlain = f.plainRoot o (Tree.firstAll ts) := by
  by_cases hone : ts.length = 1
  · obtain ⟨t, rfl⟩ := List.length_eq_one_iff.mp hone
    have hall : Tree.firstAll [t] = Tree.firstAt false t := by simp [Tree.firstAll]
    rw [plainRoot, Tree.firstPlain, hall]
    split
    · next only heq =>
      have honly := Tree.solid_of_mem_firstAll hn only (by simp [hall, heq])
      rw [heq, plainRoot, atTop_of_not_isGroup honly.2]
    · next hne =>
      rw [plainRoot.eq_2 _ _ _ hne]
      exact atTop_group (fun ho => hspan ho t (by simp)) _
  · have hfirst := Tree.head?_readingsAll fun t ht => Tree.head?_readingsAt (hn t ht)
    have hlen := Tree.length_le_of_normal hn (List.mem_of_head? hfirst)
    have hmany : (Tree.firstAll ts).length ≠ 1 := by
      intro h
      have hnil : ts = [] := List.eq_nil_of_length_eq_zero (by omega)
      simp [hnil] at h
    rw [plainRoot_of_length_ne hone, plainRoot_of_length_ne hmany]
    -- a group keeps its label, and picking goes on in its members
    have hpick : (o.plainSpanned f.wholeSpan (PlainTree.group ts)).firstPlain =
        o.plainSpanned f.wholeSpan (PlainTree.group (Tree.firstAll ts)) := by
      unfold ParseOptions.plainSpanned
      split <;> rfl
    rw [hpick, atTop, if_pos (by simp)]
    unfold ParseOptions.plainSpanned
    split <;> rfl

/-- The trees of the first policy are **what one picks from the packed trees**. One walk takes the
first output at each choice, the other takes the first of what has been packed there. -/
theorem freshTree_first {f : Forest} (hf : f.Closed) (o : ParseOptions) :
    ∃ ts, (∀ t ∈ ts, t.Normal) ∧ (o.spans = false → ∀ t ∈ ts, t.label.span = none) ∧
      f.freshTree { o with ambiguity := .packed } = .ok (f.plainRoot o ts) ∧
      f.freshTree { o with ambiguity := .first } = .ok (f.plainRoot o (Tree.firstAll ts)) := by
  have hroot := fun root hroot => exists_freshOutput hf o (isPath_nil f) (hf.root_lt root hroot)
  choose! out hpacked hfirst using hroot
  have hp : f.roots.map (f.freshOutput { o with ambiguity := .packed } []) =
      (f.roots.map out).map .ok := by
    rw [List.map_map]
    exact List.map_congr_left hpacked
  have hfst : f.roots.map (f.freshOutput { o with ambiguity := .first } []) =
      ((f.roots.map out).map (Option.map Tree.firstAll)).map .ok := by
    rw [List.map_map, List.map_map]
    exact List.map_congr_left hfirst
  have hn : ∀ out' ∈ f.roots.map out, NormalOutput out' :=
    List.forall_mem_map.mpr fun root hroot ts hts =>
      normal_freshOutput ((hpacked root hroot).trans (congrArg Except.ok hts))
  -- both policies choose among the same outputs, so the roots are like any choice
  obtain ⟨all, hall, hnormal, hpick⟩ := chosen_first_of_packed o f.wholeSpan hn
  have hspan : o.spans = false → ∀ ts, all = some ts → ∀ t ∈ ts, t.label.span = none := by
    rintro ho ts rfl
    rcases chosen_cases hall with rfl | hmem | ⟨-, found, -, -, rfl⟩
    · simp
    · obtain ⟨root, hroot, hts⟩ := List.mem_map.mp (hp ▸ hmem)
      exact span_eq_none_of_freshOutput (o := { o with ambiguity := .packed }) ho hts
    · rw [List.forall_mem_singleton]
      exact congrArg (fun t => t.label.span)
        (ParseOptions.plainSpanned_of_not_spans ho _)
  refine ⟨all.getD [], ?_, fun ho => ?_, ?_, ?_⟩
  · cases all with
    | none => simp
    | some ts => exact hnormal ts rfl
  · cases all with
    | none => simp
    | some ts => exact hspan ho ts rfl
  · rw [freshTree, hp, hall, ok_bind]
    rfl
  · rw [freshTree, hfst, hpick, ok_bind]
    cases all <;> rfl

/-- **The tree of the first policy is the first tree of the packed tree**, for a closed forest. A
group at the top is to cover the whole input, where the packed tree it is picked from may cover
less. -/
theorem extract_first_atTop {f : Forest} (hf : f.Closed) (o : ParseOptions) :
    ∃ t n p m, f.extract { o with ambiguity := .first } = .ok (t, n) ∧
      f.extract { o with ambiguity := .packed } = .ok (p, m) ∧
      ∀ k, t.plain = f.atTop o (p.first.result k).plain := by
  obtain ⟨ts, hn, hspan, hpacked, hfirst⟩ := freshTree_first hf o
  obtain ⟨p, m, hp, hplain⟩ := exists_extract hpacked
  obtain ⟨t, n, ht, hpicked⟩ := exists_extract hfirst
  refine ⟨t, n, p, m, ht, hp, fun k => ?_⟩
  obtain ⟨members, hfiled⟩ := exists_filed_of_extract hp
  rw [Tree.plain_result_first hfiled, hplain, hpicked, atTop_firstPlain hn hspan]

/-- Without spans the two trees are **the same**. -/
theorem extract_first_of_packed {f : Forest} (hf : f.Closed) {o : ParseOptions}
    (ho : o.spans = false) :
    ∃ t n p m, f.extract { o with ambiguity := .first } = .ok (t, n) ∧
      f.extract { o with ambiguity := .packed } = .ok (p, m) ∧
      ∀ k, t.plain = (p.first.result k).plain := by
  obtain ⟨t, n, p, m, ht, hp, hpick⟩ := extract_first_atTop hf o
  exact ⟨t, n, p, m, ht, hp, fun k => (hpick k).trans (atTop_of_not_spans ho _)⟩

end Forest

end GeneralParsing
