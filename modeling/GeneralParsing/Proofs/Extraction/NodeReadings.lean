import GeneralParsing.Proofs.Extraction.FirstOfPacked
import Mathlib

/-!
# What nodes read as

Under the packed policy and without spans, a node on a path **reads as** the readings of its
output. There is an equation for every kind of node, and together they say what packing amounts to:
a sequence reads as readings of its children strung together, a choice reads as any of its
alternatives does, and a tag is put on every reading by itself. One thing is lost. A choice reads
as nothing only if that is all that its alternatives read as (`readsAs_choice`).

`mem_trees_extract` says the same of the tree of a forest.
-/

namespace GeneralParsing

/-- The options to **pack all derivations**, without spans. -/
def ParseOptions.packing (collapse : Bool) : ParseOptions :=
  { ambiguity := .packed, collapse, spans := false }

namespace Forest

/-! ### Readings of outputs -/

/-- An output **reads as** a list of trees. -/
def Reads (out : PlainOutput) (r : List PlainTree) : Prop :=
  ∃ ts, out = some ts ∧ r ∈ Tree.readingsAll ts

variable {collapse : Bool} {outs : List PlainOutput} {out : PlainOutput}
variable {ts r : List PlainTree}

@[simp] theorem not_reads_none : ¬ Reads none r := by simp [Reads]

@[simp] theorem reads_some : Reads (some ts) r ↔ r ∈ Tree.readingsAll ts := by simp [Reads]

/-- Outputs joined read as **readings strung together**. A reading is chosen for each of them
independently. -/
theorem reads_joined :
    Reads (joined outs) r ↔ ∃ rs, List.Forall₂ Reads outs rs ∧ r = rs.flatten := by
  induction outs generalizing r with
  | nil => simp [joined]
  | cons out outs ih =>
    cases out with
    | none =>
      simp only [joined, not_reads_none, false_iff, not_exists, not_and]
      intro rs hrs
      cases hrs with
      | cons h _ => exact absurd h not_reads_none
    | some ts =>
      rw [joined]
      constructor
      · rintro ⟨us, hus, hr⟩
        obtain ⟨vs, hvs, rfl⟩ := Option.map_eq_some_iff.mp hus
        obtain ⟨a, ha, b, hb, rfl⟩ := Tree.mem_readingsAll_append.mp hr
        obtain ⟨rs, hrs, rfl⟩ := ih.mp ⟨vs, hvs, hb⟩
        exact ⟨a :: rs, .cons ⟨ts, rfl, ha⟩ hrs, rfl⟩
      · rintro ⟨rs, hrs, rfl⟩
        cases hrs with
        | @cons _ a _ rs ha hrs =>
          obtain ⟨vs, hvs, hb⟩ := ih.mpr ⟨rs, hrs, rfl⟩
          refine ⟨ts ++ vs, by rw [hvs, Option.map_some], ?_⟩
          exact Tree.mem_readingsAll_append.mpr ⟨a, reads_some.mp ha, _, hb, rfl⟩

/-- A normal output with trees **never reads as nothing**. A packed tree has no empty alternatives.
-/
theorem NormalOutput.ne_nil (hn : NormalOutput (some ts)) (hts : ts ≠ []) (hr : Reads (some ts) r) :
    r ≠ [] := by
  have hle := Tree.length_le_of_normal (hn ts rfl) (reads_some.mp hr)
  have hpos := List.length_pos_iff.mpr hts
  exact List.length_pos_iff.mp (by omega)

/-- A normal output **reads as something**. -/
theorem NormalOutput.exists_reads (hn : NormalOutput (some ts)) : ∃ r, Reads (some ts) r := by
  have hne := Tree.readingsAll_ne_nil fun t ht => (hn ts rfl t ht).readingsAt_ne_nil
  obtain ⟨r, hr⟩ := List.exists_mem_of_ne_nil _ hne
  exact ⟨r, reads_some.mpr hr⟩

/-- A tag is put on **every reading by itself**. Whether it collapses may differ from one reading to
the next. -/
theorem reads_labelled (hn : NormalOutput out) (span : Span) (tag : Option String) :
    Reads (out.map ((ParseOptions.packing collapse).plainLabelled span tag)) r ↔
      ∃ part, Reads out part ∧ r = PlainTree.labelled collapse tag part := by
  cases out with
  | none => simp
  | some ts =>
    rw [Option.map_some, reads_some, ParseOptions.readingsAll_plainLabelled (hn ts rfl),
      List.mem_map]
    simp only [reads_some]
    refine exists_congr fun part => and_congr_right fun _ => ?_
    cases tag with
    | none => exact eq_comm
    | some tag =>
      have hwrap : (ParseOptions.packing collapse).plainWrap span tag part =
          PlainTree.tagged collapse tag part := ParseOptions.plainSpanned_of_not_spans rfl _
      simp only [Option.map_some, Option.elim, hwrap, PlainTree.labelled]
      exact eq_comm

/-- The outputs of several derivations **as one**. -/
def packedAll (collapse : Bool) (span : Span) (outs : List PlainOutput) : PlainOutput :=
  if outs.any Option.isSome then
    some (packAll (ParseOptions.packing collapse) span (withTrees outs))
  else none

/-- The packed policy chooses **all outputs, as one**. -/
theorem chosen_packing (span : Span) (outs : List PlainOutput) :
    chosen (ParseOptions.packing collapse) span (outs.map .ok) =
      .ok (packedAll collapse span outs) := chosen_packed rfl span

/-- Outputs packed into one **are normal** if each of them is. -/
theorem normalOutput_packedAll (hn : ∀ out ∈ outs, NormalOutput out) (span : Span) :
    NormalOutput (packedAll collapse span outs) := by
  intro ts hts
  rw [packedAll] at hts
  split at hts
  · obtain rfl := Option.some.inj hts
    exact normal_packAll (fun ts hts => (mem_withTrees.mp hts).2) (normal_of_mem_withTrees hn)
  · cases hts

/-- Outputs packed read as any of them does, but as nothing only **if all of them do**. An output
without trees is passed over where another one has some. -/
theorem reads_packedAll (hn : ∀ out ∈ outs, NormalOutput out) (span : Span) :
    Reads (packedAll collapse span outs) r ↔ (∃ out ∈ outs, Reads out r) ∧
      (r = [] → ∀ out ∈ outs, ∀ r', Reads out r' → r' = []) := by
  rw [packedAll]
  cases hany : outs.any Option.isSome with
  -- no output is there, so nothing is read on either side
  | false =>
    have hnone : ∀ out ∈ outs, out = none := by simpa using hany
    simp only [Bool.false_eq_true, if_false, not_reads_none, false_iff, not_and]
    rintro ⟨out, hout, hr⟩
    rw [hnone out hout] at hr
    exact absurd hr not_reads_none
  | true =>
    rw [if_pos rfl, reads_some]
    by_cases hfound : withTrees outs = []
    · -- all outputs that are there are empty
      have hempty : ∀ ts, some ts ∈ outs → ts = [] := fun ts hts =>
        by_contra fun hne => List.ne_nil_of_mem (mem_withTrees.mpr ⟨hts, hne⟩) hfound
      obtain ⟨out, hout, hsome⟩ := List.any_eq_true.mp hany
      obtain ⟨ts, rfl⟩ := Option.isSome_iff_exists.mp hsome
      obtain rfl := hempty ts hout
      have hnil : ∀ out ∈ outs, ∀ r', Reads out r' → r' = [] := by
        rintro out hout r' ⟨ts, rfl, hr⟩
        rw [hempty ts hout] at hr
        simpa using hr
      rw [hfound, packAll, Tree.readingsAll_nil, List.mem_singleton]
      constructor
      · rintro rfl
        exact ⟨⟨some [], hout, by simp⟩, fun _ => hnil⟩
      · rintro ⟨⟨out, hout, hr⟩, -⟩
        exact hnil out hout r hr
    · -- some output has trees, and empty ones are passed over
      rw [readingsAll_packAll hfound (normal_of_mem_withTrees hn), List.mem_flatMap]
      constructor
      · rintro ⟨ts, hts, hr⟩
        obtain ⟨hmem, hne⟩ := mem_withTrees.mp hts
        exact ⟨⟨some ts, hmem, reads_some.mpr hr⟩,
          fun hnil => absurd hnil ((hn _ hmem).ne_nil hne (reads_some.mpr hr))⟩
      · rintro ⟨⟨out, hout, ts, rfl, hr⟩, hnil⟩
        refine ⟨ts, mem_withTrees.mpr ⟨hout, ?_⟩, hr⟩
        rintro rfl
        obtain ⟨us, hus⟩ := List.exists_mem_of_ne_nil _ hfound
        obtain ⟨hmem, hne⟩ := mem_withTrees.mp hus
        obtain ⟨r', hr'⟩ := (hn _ hmem).exists_reads
        exact (hn _ hmem).ne_nil hne hr' (hnil (by simpa using hr) _ hmem r' hr')

/-! ### Readings of nodes -/

/-- The output of a node on a path **under the packed policy**, which never fails. -/
def packedOutput (f : Forest) (collapse : Bool) (path : List NodeId) (id : NodeId) : PlainOutput :=
  match f.freshOutput (ParseOptions.packing collapse) path id with
  | .ok out => out
  | .error _ => none

/-- A node **reads as** a list of trees on a path. -/
def ReadsAs (f : Forest) (collapse : Bool) (path : List NodeId) (id : NodeId)
    (r : List PlainTree) : Prop :=
  Reads (f.packedOutput collapse path id) r

/-- What a node reads as, by its kind, **from what other nodes read as**. -/
def Kind.ReadsBy (f : Forest) (collapse : Bool) (reads : NodeId → List PlainTree → Prop)
    (r : List PlainTree) : Kind → Prop
  | .symbol text => r = [PlainTree.value text]
  | .sequence tag [] => r = (tag.map (PlainTree.taggedValue · "")).toList
  | .sequence tag (child :: children) =>
    ∃ rs, List.Forall₂ reads (child :: children) rs ∧ r = PlainTree.labelled collapse tag rs.flatten
  | .choice tag alternatives => ∃ part, r = PlainTree.labelled collapse tag part ∧
    (∃ a ∈ alternatives, reads a part) ∧
      (part = [] → ∀ a ∈ alternatives, ∀ r', reads a r' → r' = [])
  | .omitted => r = []
  | .lexical child => r = [PlainTree.value (f.text child)]

variable {f : Forest} {path : List NodeId} {id : NodeId} {kind : Kind} {span : Span}

/-- Under the packed policy every node of a closed forest **has an output** or is cut. Nothing is
ambiguous where everything is packed. -/
theorem freshOutput_packing (hf : f.Closed) (collapse : Bool) (hpath : f.IsPath path)
    (hid : id < f.size) : f.freshOutput (ParseOptions.packing collapse) path id =
      .ok (f.packedOutput collapse path id) := by
  obtain ⟨out, hout, -⟩ := exists_freshOutput hf (ParseOptions.packing collapse) hpath hid
  have hpacking : f.freshOutput (ParseOptions.packing collapse) path id = .ok out := hout
  rw [packedOutput, hpacking]

/-- What a node gives under the packed policy **is normal**. -/
theorem normal_packedOutput (f : Forest) (collapse : Bool) (path : List NodeId) (id : NodeId) :
    NormalOutput (f.packedOutput collapse path id) := by
  intro ts hts
  rw [packedOutput] at hts
  split at hts
  · next hout =>
    rw [hts] at hout
    exact normal_freshOutput hout
  · cases hts

/-- Of nodes that are packed **any reading** is one of the whole, but for nothing. This is the
equation of a choice before its tag is put on. -/
theorem reads_choice (span : Span) {alternatives : List NodeId} :
    Reads (packedAll collapse span (alternatives.map (f.packedOutput collapse path))) r ↔
      (∃ a ∈ alternatives, f.ReadsAs collapse path a r) ∧
        (r = [] → ∀ a ∈ alternatives, ∀ r', f.ReadsAs collapse path a r' → r' = []) := by
  rw [reads_packedAll (List.forall_mem_map.mpr fun a _ => normal_packedOutput f collapse path a),
    List.forall_mem_map]
  simp only [List.mem_map, exists_exists_and_eq_and, ReadsAs]

/-- A node on a path through itself **reads as nothing at all**. There the walk is cut, so there is
no output to be read. -/
theorem not_readsAs_of_mem (hpath : f.IsPath path) (hmem : id ∈ path) :
    ¬ f.ReadsAs collapse path id r := by
  rw [ReadsAs, packedOutput, freshOutput_of_mem hpath.length_le hmem]
  exact not_reads_none

theorem reads_leaf {label : Label} (hp : label.packed = false) :
    Reads (some [(.leaf label : PlainTree)]) r ↔ r = [.leaf label] := by
  simp [Tree.readingsAt, hp]

/-- **What a node reads as** on a path that does not lead through it. Together with the previous one
this determines all readings. -/
theorem readsAs_iff (hf : f.Closed) (hpath : f.IsPath path) (hnot : id ∉ path)
    (hnode : f.node? id = some ⟨kind, span⟩) : f.ReadsAs collapse path id r ↔
      kind.ReadsBy f collapse (f.ReadsAs collapse (id :: path)) r := by
  have hid : id < f.size := (Array.getElem?_eq_some_iff.mp hnode).1
  have hout := freshOutput_packing hf collapse hpath hid
  rw [freshOutput_of_not_mem hpath.length_le hnot hnode] at hout
  have hspanned : ∀ t, (ParseOptions.packing collapse).plainSpanned span t = t :=
    ParseOptions.plainSpanned_of_not_spans rfl
  -- what the parts give is there, since the forest is closed
  have hparts : kind.parts.map (f.freshOutput (ParseOptions.packing collapse) (id :: path)) =
      (kind.parts.map (f.packedOutput collapse (id :: path))).map .ok := by
    rw [List.map_map]
    exact List.map_congr_left fun part hpart => freshOutput_packing hf collapse
      (hpath.cons hid hnot) (hf.part_lt id _ hnode part hpart)
  have hnormal : ∀ parts : List NodeId,
      ∀ out ∈ parts.map (f.packedOutput collapse (id :: path)), NormalOutput out :=
    fun parts => List.forall_mem_map.mpr fun part _ => normal_packedOutput f collapse _ part
  rw [ReadsAs]
  match kind with
  | .symbol text | .lexical child =>
    rw [← Except.ok.inj hout, hspanned]
    exact reads_leaf rfl
  | .omitted | .sequence none [] =>
    rw [← Except.ok.inj hout]
    simp [Kind.ReadsBy]
  | .sequence (some tag) [] =>
    rw [← Except.ok.inj hout, hspanned]
    exact reads_leaf rfl
  | .sequence tag (child :: children) =>
    rw [Kind.parts] at hparts
    rw [freshNode_sequence, hparts, strung_ok, map_ok] at hout
    rw [← Except.ok.inj hout, reads_labelled (normalOutput_joined (hnormal _))]
    simp only [reads_joined, List.forall₂_map_left_iff, Kind.ReadsBy]
    constructor
    · rintro ⟨_, ⟨rs, hrs, rfl⟩, rfl⟩
      exact ⟨rs, hrs, rfl⟩
    · rintro ⟨rs, hrs, rfl⟩
      exact ⟨_, ⟨rs, hrs, rfl⟩, rfl⟩
  | .choice tag alternatives =>
    rw [Kind.parts] at hparts
    rw [freshNode, hparts, chosen_packing, map_ok] at hout
    rw [← Except.ok.inj hout, reads_labelled (normalOutput_packedAll (hnormal _) span)]
    simp only [reads_choice, Kind.ReadsBy]
    exact exists_congr fun part => and_comm

/-- If one of several nodes reads as something, there is something that the choice **among them**
reads as. -/
theorem exists_reads_choice {reads : NodeId → List PlainTree → Prop} {alternatives : List NodeId}
    {a : NodeId} (ha : a ∈ alternatives) (hr : reads a r) :
    ∃ part, (∃ a ∈ alternatives, reads a part) ∧
      (part = [] → ∀ a ∈ alternatives, ∀ r', reads a r' → r' = []) := by
  by_cases hsome : ∃ b ∈ alternatives, ∃ part, reads b part ∧ part ≠ []
  · obtain ⟨b, hb, part, hpart, hne⟩ := hsome
    exact ⟨part, ⟨b, hb, hpart⟩, fun hnil => absurd hnil hne⟩
  · refine ⟨r, ⟨a, ha, hr⟩, fun _ b hb part hpart => ?_⟩
    by_contra hne
    exact hsome ⟨b, hb, part, hpart, hne⟩

/-! ### Readings of the tree -/

/-- The trees that siblings stand for **as one tree**. Several trees are a group, which has a
reading for each combination. -/
theorem trees_single (hn : ∀ t ∈ ts, t.Normal) :
    (PlainTree.single ts).trees = (Tree.readingsAll ts).map PlainTree.single := by
  by_cases hone : ts.length = 1
  · obtain ⟨t, rfl⟩ := List.length_eq_one_iff.mp hone
    rw [PlainTree.single, Tree.trees, Tree.readingsAll_singleton]
  · have hgroup : ∀ r ∈ Tree.readingsAll ts, PlainTree.single r = PlainTree.group r := by
      intro r hr
      refine PlainTree.single_of_length_ne fun hlen => ?_
      have hle := Tree.length_le_of_normal hn hr
      obtain rfl : ts = [] := List.eq_nil_of_length_eq_zero (by omega)
      simp_all
    rw [PlainTree.single_of_length_ne hone, List.map_congr_left hgroup, Tree.trees]
    simp [Tree.readingsAt, PlainTree.group, PlainTree.single]

/-- Without spans, the tree of the first policy is **among those that the packed tree stands
for**. -/
theorem extract_first_mem_trees (hf : f.Closed) {o : ParseOptions} (ho : o.spans = false) :
    ∃ t n p m, f.extract { o with ambiguity := .first } = .ok (t, n) ∧
      f.extract { o with ambiguity := .packed } = .ok (p, m) ∧ t.plain ∈ p.plain.trees := by
  obtain ⟨ts, hn, -, hpacked, hfirst⟩ := freshTree_first hf o
  obtain ⟨p, m, hp, hplain⟩ := exists_extract hpacked
  obtain ⟨t, n, ht, hpicked⟩ := exists_extract hfirst
  have hread := Tree.head?_readingsAll fun t ht => Tree.head?_readingsAt (hn t ht)
  refine ⟨t, n, p, m, ht, hp, ?_⟩
  rw [hpicked, hplain, plainRoot_of_not_spans ho, plainRoot_of_not_spans ho, trees_single hn]
  exact List.mem_map_of_mem (List.mem_of_head? hread)

/-- **The trees of the packed tree** are the readings of the roots, each as one tree. So the packed
tree stands for these and for no others. -/
theorem mem_trees_extract (hf : f.Closed) {root : NodeId} (hroot : root ∈ f.roots)
    (hr : f.ReadsAs collapse [] root r) :
    ∃ t n, f.extract (ParseOptions.packing collapse) = .ok (t, n) ∧
      ∀ u, u ∈ t.plain.trees ↔ ∃ r, u = PlainTree.single r ∧
        (∃ root ∈ f.roots, f.ReadsAs collapse [] root r) ∧
          (r = [] → ∀ root ∈ f.roots, ∀ r', f.ReadsAs collapse [] root r' → r' = []) := by
  have houts : f.roots.map (f.freshOutput (ParseOptions.packing collapse) []) =
      (f.roots.map (f.packedOutput collapse [])).map .ok := by
    rw [List.map_map]
    exact List.map_congr_left fun root hroot =>
      freshOutput_packing hf collapse (isPath_nil f) (hf.root_lt root hroot)
  obtain ⟨r₀, hr₀⟩ := exists_reads_choice hroot hr
  obtain ⟨ts, hts, -⟩ := (reads_choice f.wholeSpan).mpr hr₀
  have hn : ∀ t ∈ ts, t.Normal := normalOutput_packedAll
    (List.forall_mem_map.mpr fun a _ => normal_packedOutput f collapse [] a) _ ts hts
  have htree : f.freshTree (ParseOptions.packing collapse) = .ok (PlainTree.single ts) := by
    rw [freshTree, houts, chosen_packing, ok_bind, hts, Option.getD_some,
      plainRoot_of_not_spans rfl]
    rfl
  obtain ⟨t, n, hext, hplain⟩ := exists_extract htree
  refine ⟨t, n, hext, fun u => ?_⟩
  rw [hplain, trees_single hn, List.mem_map]
  refine exists_congr fun r => ?_
  rw [← reads_choice f.wholeSpan, hts, reads_some]
  exact and_comm.trans (and_congr_left' eq_comm)

end Forest

end GeneralParsing
