import GeneralParsing.Proofs.Extraction.FirstOfPacked
import GeneralParsing.Proofs.Tree.Counting

/-!
# In how many ways an output reads

Where every part of a node has trees, the number of readings goes by the kind of the node: a
sequence multiplies the numbers of its parts, and a choice adds those of its alternatives, provided
that all of them are kept (`ways_sequence`, `ways_choice`). They are under the packed policy, and
under every policy if there is just one. A tag changes no number. The number of readings of a lone
root is the number of trees that are counted (`Forest.exists_extract_of_hasTrees`).
-/

namespace GeneralParsing

namespace Tree

theorem length_readingsAll_flatten (tss : List (List PlainTree)) :
    (readingsAll tss.flatten).length = (tss.map fun ts => (readingsAll ts).length).prod := by
  induction tss with
  | nil => rfl
  | cons ts tss ih => rw [List.flatten_cons, length_readingsAll_append, ih, List.map_cons,
      List.prod_cons]

end Tree

namespace Forest

/-- A result that **has trees**, all of them normal. -/
def HasTrees (result : Except Error PlainOutput) : Prop :=
  ∃ ts, result = .ok (some ts) ∧ ts ≠ [] ∧ ∀ t ∈ ts, t.Normal

/-- In how many ways a result **reads**: in none if it is missing. -/
def ways : Except Error PlainOutput → Nat
  | .ok (some ts) => (Tree.readingsAll ts).length
  | _ => 0

/-- Every alternative with trees **is kept**: all are packed, or there is only one. -/
def KeepsAll (o : ParseOptions) (alternatives : List NodeId) : Prop :=
  o.ambiguity = .packed ∨ alternatives.length = 1

variable {o : ParseOptions} {span : Span} {tag : Option String} {ids : List NodeId}
variable {visit : NodeId → Except Error PlainOutput} {result : Except Error PlainOutput}

/-- Results that have trees are **lists of trees**. -/
theorem exists_map_of_hasTrees (h : ∀ id ∈ ids, HasTrees (visit id)) :
    ∃ tss : List (List PlainTree), ids.map visit = tss.map (fun ts => .ok (some ts)) ∧
      (∀ ts ∈ tss, ts ≠ []) ∧ (∀ ts ∈ tss, ∀ t ∈ ts, t.Normal) ∧
        (tss.map fun ts => (Tree.readingsAll ts).length) = ids.map fun id => ways (visit id) := by
  choose! out hout hne hn using h
  refine ⟨ids.map out, ?_, List.forall_mem_map.mpr hne, List.forall_mem_map.mpr hn, ?_⟩
  · rw [List.map_map]
    exact List.map_congr_left hout
  · rw [List.map_map]
    exact List.map_congr_left fun id hid => by rw [hout id hid]; rfl

/-- Strung together, results read in **all combinations**. Readings of the parts are chosen
independently, so the numbers multiply. -/
theorem ways_strung (hne : ids ≠ []) (h : ∀ id ∈ ids, HasTrees (visit id)) :
    HasTrees (strung (ids.map visit)) ∧
      ways (strung (ids.map visit)) = (ids.map fun id => ways (visit id)).prod := by
  obtain ⟨tss, htss, htrees, hn, hways⟩ := exists_map_of_hasTrees h
  rw [strung_of_map htss, ← hways]
  refine ⟨⟨tss.flatten, rfl, ?_, ?_⟩, Tree.length_readingsAll_flatten tss⟩
  · obtain ⟨id, hid⟩ := List.exists_mem_of_ne_nil _ hne
    have hmem := List.mem_map_of_mem (f := visit) hid
    rw [htss] at hmem
    obtain ⟨ts, hts, -⟩ := List.mem_map.mp hmem
    exact fun hnil => htrees ts hts (List.flatten_eq_nil_iff.mp hnil ts hts)
  · intro t ht
    obtain ⟨ts, hts, ht⟩ := List.mem_flatten.mp ht
    exact hn ts hts t ht

theorem withTrees_map_some {tss : List (List PlainTree)} (h : ∀ ts ∈ tss, ts ≠ []) :
    withTrees (tss.map some) = tss := by
  induction tss with
  | nil => rfl
  | cons ts tss ih =>
    obtain ⟨hne, hrest⟩ := List.forall_mem_cons.mp h
    obtain ⟨t, ts, rfl⟩ := List.exists_cons_of_ne_nil hne
    rw [List.map_cons, withTrees_cons, ih hrest]

/-- A choice that keeps all alternatives reads as **any of them**. The numbers add up, as every
alternative has trees. -/
theorem ways_chosen (hkeeps : KeepsAll o ids) (hne : ids ≠ [])
    (h : ∀ id ∈ ids, HasTrees (visit id)) : HasTrees (chosen o span (ids.map visit)) ∧
      ways (chosen o span (ids.map visit)) = (ids.map fun id => ways (visit id)).sum := by
  obtain ⟨tss, htss, htrees, hn, hways⟩ := exists_map_of_hasTrees h
  have hlen : tss.length = ids.length := by
    have hmap := congrArg List.length htss
    rwa [List.length_map, List.length_map, eq_comm] at hmap
  have hsome : tss ≠ [] := fun hnil => hne (List.map_eq_nil_iff.mp (by rw [htss, hnil]; rfl))
  have hchosen : chosen o span (ids.map visit) = .ok (some (packAll o span tss)) := by
    rw [htss]
    rcases hkeeps with hpacked | hone
    · obtain ⟨ts, hts⟩ := List.exists_mem_of_ne_nil _ hsome
      have hany : (tss.map some).any Option.isSome = true :=
        List.any_eq_true.mpr ⟨some ts, List.mem_map_of_mem hts, rfl⟩
      have hmap : tss.map (fun ts => (.ok (some ts) : Except Error PlainOutput)) =
          (tss.map some).map .ok := by simp
      rw [hmap, chosen_packed hpacked, if_pos hany, withTrees_map_some htrees]
    · obtain ⟨ts, rfl⟩ := List.length_eq_one_iff.mp (hlen.trans hone)
      exact chosen_singleton o span ts
  rw [hchosen, ← hways, ← List.length_flatMap, ← readingsAll_packAll hsome hn]
  refine ⟨⟨_, rfl, ?_, normal_packAll htrees hn⟩, rfl⟩
  match tss, hsome with
  | [only], _ => exact htrees only (by simp)
  | ts :: us :: tss, _ => exact List.cons_ne_nil _ _

/-- A tag **changes no number**. -/
theorem ways_labelled (h : HasTrees result) :
    HasTrees (result.map (Option.map (o.plainLabelled span tag))) ∧
      ways (result.map (Option.map (o.plainLabelled span tag))) = ways result := by
  obtain ⟨ts, rfl, hne, hn⟩ := h
  refine ⟨⟨_, rfl, ?_, ParseOptions.normal_plainLabelled hn⟩, ?_⟩
  · cases tag with
    | none => exact hne
    | some tag => exact List.cons_ne_nil _ _
  · change (Tree.readingsAll (o.plainLabelled span tag ts)).length = (Tree.readingsAll ts).length
    rw [ParseOptions.readingsAll_plainLabelled hn, List.length_map]

/-! ### Nodes -/

section

variable {f : Forest} {path : List NodeId} {id : NodeId} (hpath : f.IsPath path) (hnot : id ∉ path)
include hpath hnot

/-- A symbol **reads as itself**. -/
theorem ways_symbol {text : String} (hnode : f.node? id = some ⟨.symbol text, span⟩) :
    HasTrees (f.freshOutput o path id) ∧ ways (f.freshOutput o path id) = 1 := by
  have hout : f.freshOutput o path id =
      .ok (some [o.plainSpanned span (PlainTree.value text)]) :=
    freshOutput_of_not_mem hpath.length_le hnot hnode
  rw [hout]
  refine ⟨⟨_, rfl, List.cons_ne_nil _ _, normal_freshOutput hout⟩, ?_⟩
  unfold ParseOptions.plainSpanned
  split <;> rfl

/-- A sequence reads as **its parts in all combinations**. The path goes through the node itself
when its parts are looked at. -/
theorem ways_sequence (hnode : f.node? id = some ⟨.sequence tag ids, span⟩) (hne : ids ≠ [])
    (h : ∀ part ∈ ids, HasTrees (f.freshOutput o (id :: path) part)) :
    HasTrees (f.freshOutput o path id) ∧ ways (f.freshOutput o path id) =
      (ids.map fun part => ways (f.freshOutput o (id :: path) part)).prod := by
  obtain ⟨part, parts, rfl⟩ := List.exists_cons_of_ne_nil hne
  obtain ⟨htrees, hways⟩ := ways_strung hne h
  obtain ⟨htrees', hways'⟩ := ways_labelled htrees
  rw [freshOutput_of_not_mem hpath.length_le hnot hnode, freshNode_sequence, ← hways]
  exact ⟨htrees', hways'⟩

/-- A choice that keeps all alternatives reads as **any of them**. -/
theorem ways_choice (hnode : f.node? id = some ⟨.choice tag ids, span⟩) (hkeeps : KeepsAll o ids)
    (hne : ids ≠ []) (h : ∀ part ∈ ids, HasTrees (f.freshOutput o (id :: path) part)) :
    HasTrees (f.freshOutput o path id) ∧ ways (f.freshOutput o path id) =
      (ids.map fun part => ways (f.freshOutput o (id :: path) part)).sum := by
  obtain ⟨htrees, hways⟩ := ways_chosen hkeeps hne h
  obtain ⟨htrees', hways'⟩ := ways_labelled htrees
  rw [freshOutput_of_not_mem hpath.length_le hnot hnode, freshNode, ← hways]
  exact ⟨htrees', hways'⟩

/-- A choice of one alternative **comes to what that comes to**, under the tag. That is so under
every policy. -/
theorem freshOutput_only {part : NodeId} {ts : List PlainTree}
    (hnode : f.node? id = some ⟨.choice tag [part], span⟩)
    (h : f.freshOutput o (id :: path) part = .ok (some ts)) :
    f.freshOutput o path id = .ok (some (o.plainLabelled span tag ts)) := by
  rw [freshOutput_of_not_mem hpath.length_le hnot hnode, freshNode, List.map_singleton, h,
    chosen_singleton]
  rfl

/-- A choice of one alternative reads **as that**. -/
theorem ways_only {part : NodeId} (hnode : f.node? id = some ⟨.choice tag [part], span⟩)
    (h : HasTrees (f.freshOutput o (id :: path) part)) : HasTrees (f.freshOutput o path id) ∧
      ways (f.freshOutput o path id) = ways (f.freshOutput o (id :: path) part) := by
  have hways := ways_choice hpath hnot hnode (.inr rfl) (List.cons_ne_nil _ _)
    (List.forall_mem_singleton.mpr h)
  rwa [List.map_singleton, List.sum_singleton] at hways

end

/-! ### The tree -/

theorem number_plainRoot (f : Forest) (o : ParseOptions) (ts : List PlainTree) :
    (f.plainRoot o ts).number = (Tree.readingsAll ts).length := by
  rw [← Tree.length_readingsAt _ false]
  unfold plainRoot
  split
  · rw [Tree.readingsAll_singleton]
  · rw [ParseOptions.readingsAt_plainSpanned_group, List.length_map]

theorem freshTree_of_root {f : Forest} {root : NodeId} {ts : List PlainTree}
    (hroots : f.roots = [root]) (hout : f.freshOutput o [] root = .ok (some ts)) :
    f.freshTree o = .ok (f.plainRoot o ts) := by
  rw [freshTree, hroots, List.map_singleton, hout, chosen_singleton]
  rfl

/-- What a lone root comes to **is the tree**, which stands for as many as there are readings. There
is no group around it, so nothing is changed at the top. -/
theorem exists_extract_of_root {f : Forest} {root : NodeId} {ts : List PlainTree}
    (hroots : f.roots = [root]) (hout : f.freshOutput o [] root = .ok (some ts)) :
    ∃ t n, f.extract o = .ok (t, n) ∧ t.plain = f.plainRoot o ts ∧
      t.count = min (2 ^ 128 - 1) (Tree.readingsAll ts).length := by
  obtain ⟨t, n, hext, hplain⟩ := exists_extract (freshTree_of_root hroots hout)
  obtain ⟨members, hfiled⟩ := exists_filed_of_extract hext
  refine ⟨t, n, hext, hplain, ?_⟩
  rw [Tree.count_eq hfiled, hplain, number_plainRoot]
  rfl

/-- A lone root that has trees **has a tree**, which stands for as many as the root has readings. -/
theorem exists_extract_of_hasTrees {f : Forest} {root : NodeId} (hroots : f.roots = [root])
    (h : HasTrees (f.freshOutput o [] root)) : ∃ t n, f.extract o = .ok (t, n) ∧
      t.count = min (2 ^ 128 - 1) (ways (f.freshOutput o [] root)) := by
  obtain ⟨ts, hout, -⟩ := h
  obtain ⟨t, n, hext, -, hcount⟩ := exists_extract_of_root hroots hout
  rw [hout]
  exact ⟨t, n, hext, hcount⟩

end Forest

end GeneralParsing
