import GeneralParsing.Proofs.Parsing.ErrorPolicy
import GeneralParsing.Proofs.Parsing.Termination

/-!
# What is ambiguous and what only seems so

The error policy fails as soon as it sees two alternatives with trees. Packing them makes an output
with several readings, and these stay in the outputs of the nodes above: a sequence reads as its
parts in all combinations, a choice as any of its alternatives, and a tag changes no number
(`Several`). They are lost in one way only. When a part further right in a sequence has no output,
because it leads back to a node on the path, the sequence is discarded with all that it has strung
together (`Discards`).

So where the error policy finds ambiguity, the packed tree stands for several trees, or packing
discards several readings (`packed_or_discards_of_ambiguous`). The second case is real:
`extract_flourished` is an input with one tree that the error policy rejects.
-/

namespace GeneralParsing

/-! ### Outputs with several readings -/

namespace Tree

theorem length_readingsAll_pos {ts : List PlainTree} (hn : ∀ t ∈ ts, t.Normal) :
    0 < (readingsAll ts).length :=
  List.length_pos_iff.mpr (readingsAll_ne_nil fun t ht => (hn t ht).readingsAt_ne_nil)

end Tree

/-- Normal trees that have **several readings**. -/
structure Several (ts : List PlainTree) : Prop where
  normal : ∀ t ∈ ts, t.Normal
  two_le : 2 ≤ (Tree.readingsAll ts).length

namespace Several

variable {ts us : List PlainTree}

theorem ne_nil (h : Several ts) : ts ≠ [] := by
  rintro rfl
  exact absurd h.two_le (by simp)

theorem append_left (h : Several us) (hn : ∀ t ∈ ts, t.Normal) : Several (ts ++ us) where
  normal := List.forall_mem_append.mpr ⟨hn, h.normal⟩
  two_le := by
    rw [Tree.length_readingsAll_append]
    exact Nat.le_trans h.two_le (Nat.le_mul_of_pos_left _ (Tree.length_readingsAll_pos hn))

theorem append_right (h : Several ts) (hn : ∀ t ∈ us, t.Normal) : Several (ts ++ us) where
  normal := List.forall_mem_append.mpr ⟨h.normal, hn⟩
  two_le := by
    rw [Tree.length_readingsAll_append]
    exact Nat.le_trans h.two_le (Nat.le_mul_of_pos_right _ (Tree.length_readingsAll_pos hn))

/-- Several readings of a part are several readings **of the whole**. What stands around it has a
reading at least, and so the readings of the part stay apart. -/
theorem flatten {before after : List (List PlainTree)} (h : Several ts)
    (hbefore : ∀ us ∈ before, ∀ t ∈ us, t.Normal) (hafter : ∀ us ∈ after, ∀ t ∈ us, t.Normal) :
    Several (before ++ ts :: after).flatten := by
  have hflat : ∀ tss : List (List PlainTree), (∀ us ∈ tss, ∀ t ∈ us, t.Normal) →
      ∀ t ∈ tss.flatten, t.Normal := by
    intro tss hn t ht
    obtain ⟨us, hus, ht⟩ := List.mem_flatten.mp ht
    exact hn us hus t ht
  rw [List.flatten_append, List.flatten_cons]
  exact (h.append_right (hflat after hafter)).append_left (hflat before hbefore)

/-- A tag **keeps** the readings. -/
theorem plainLabelled (h : Several ts) (o : ParseOptions) (span : Span) (tag : Option String) :
    Several (o.plainLabelled span tag ts) where
  normal := ParseOptions.normal_plainLabelled h.normal
  two_le := by
    rw [ParseOptions.readingsAll_plainLabelled h.normal, List.length_map]
    exact h.two_le

end Several

section

variable {o : ParseOptions} {span : Span} {found : List (List PlainTree)}
  (hne : ∀ ts ∈ found, ts ≠ []) (hn : ∀ ts ∈ found, ∀ t ∈ ts, t.Normal)
include hne hn

/-- Several readings of an alternative are several readings **of the choice**. The other
alternatives add readings and take none away. -/
theorem Several.packAll {ts : List PlainTree} (h : Several ts) (hmem : ts ∈ found) :
    Several (Forest.packAll o span found) where
  normal := Forest.normal_packAll hne hn
  two_le := by
    rw [Forest.readingsAll_packAll (List.ne_nil_of_mem hmem) hn, List.length_flatMap]
    exact Nat.le_trans h.two_le (List.le_sum_of_mem (List.mem_map_of_mem hmem))

/-- Several alternatives make **several readings**. Every alternative has one at the least. -/
theorem several_packAll (h : 2 ≤ found.length) : Several (Forest.packAll o span found) where
  normal := Forest.normal_packAll hne hn
  two_le := by
    have hsome : found ≠ [] := List.length_pos_iff.mp (Nat.lt_of_lt_of_le Nat.zero_lt_two h)
    have hone : ∀ k ∈ found.map fun ts => (Tree.readingsAll ts).length, 1 ≤ k :=
      List.forall_mem_map.mpr fun ts hts => Tree.length_readingsAll_pos (hn ts hts)
    have hle := List.length_le_sum_of_one_le _ hone
    rw [List.length_map] at hle
    rw [Forest.readingsAll_packAll hsome hn, List.length_flatMap]
    exact Nat.le_trans h hle

end

namespace Forest

variable {f : Forest} {o : ParseOptions} {path : List NodeId} {span : Span}

/-! ### Readings that are discarded -/

/-- On the way down from a node that is reached by a path, **several readings are discarded**: the
parts of a sequence that come before one without output have several. -/
inductive Discards (f : Forest) (o : ParseOptions) : List NodeId → NodeId → Prop
  | here {path : List NodeId} {id : NodeId} {tag : Option String} {span : Span}
      {done rest : List NodeId} {last : NodeId} {tss : List (List PlainTree)} (hpath : id ∉ path)
      (hnode : f.node? id = some ⟨.sequence tag (done ++ last :: rest), span⟩)
      (hdone : done.map (f.freshOutput o (id :: path)) = tss.map fun ts => .ok (some ts))
      (hseveral : Several tss.flatten) (hlast : f.freshOutput o (id :: path) last = .ok none) :
      Discards f o path id
  | sequence {path : List NodeId} {id : NodeId} {tag : Option String} {span : Span}
      {done rest : List NodeId} {part : NodeId} {tss : List (List PlainTree)} (hpath : id ∉ path)
      (hnode : f.node? id = some ⟨.sequence tag (done ++ part :: rest), span⟩)
      (hdone : done.map (f.freshOutput o (id :: path)) = tss.map fun ts => .ok (some ts))
      (h : Discards f o (id :: path) part) : Discards f o path id
  | choice {path : List NodeId} {id : NodeId} {tag : Option String} {span : Span}
      {alternatives : List NodeId} {part : NodeId} (hpath : id ∉ path)
      (hnode : f.node? id = some ⟨.choice tag alternatives, span⟩) (hpart : part ∈ alternatives)
      (h : Discards f o (id :: path) part) : Discards f o path id

/-! ### Where the error policy fails -/

/-- What is strung together fails **at a part**, after others that have outputs. Those before are
strung together already; the failure comes from a part. -/
theorem exists_of_strung_eq_error {visit : NodeId → Except Error PlainOutput} {ids : List NodeId}
    {e : Error} (h : strung (ids.map visit) = .error e) :
    ∃ done part rest, ∃ tss : List (List PlainTree), ids = done ++ part :: rest ∧
      done.map visit = tss.map (fun ts => .ok (some ts)) ∧ visit part = .error e := by
  induction ids with
  | nil => cases h
  | cons id ids ih =>
    rw [List.map_cons, strung] at h
    rcases hid : visit id with e' | _ | ts
    · rw [hid] at h
      obtain rfl : e' = e := Except.error.inj h
      exact ⟨[], id, ids, [], rfl, rfl, hid⟩
    · rw [hid] at h
      cases h
    · rw [hid, ok_bind] at h
      have hrest : strung (ids.map visit) = .error e := by
        cases hs : strung (ids.map visit) with
        | error e' => simpa [hs, bind, Except.bind] using h
        | ok out => cases out <;> simp [hs] at h
      obtain ⟨done, part, rest, tss, rfl, hdone, hpart⟩ := ih hrest
      exact ⟨id :: done, part, rest, ts :: tss, rfl, by simp [hid, hdone], hpart⟩

/-- Where all alternatives have outputs, the error policy fails on **two with trees**. Alternatives
without trees never count. -/
theorem two_le_of_gathered_eq_error {viable : Bool} {found : List (List PlainTree)}
    {outs : List PlainOutput} {e : Error}
    (h : gathered .error viable found (outs.map .ok) = .error e) :
    2 ≤ found.length + (withTrees outs).length := by
  induction outs generalizing viable found with
  | nil => cases h
  | cons out outs ih =>
    rcases out with _ | _ | ⟨t, ts⟩
    · exact ih h
    · exact ih h
    · cases found with
      | nil =>
        change gathered .error true [t :: ts] (outs.map .ok) = _ at h
        have hle := ih h
        rw [withTrees_cons, List.length_cons]
        rw [List.length_singleton] at hle
        simpa [Nat.add_comm] using hle
      | cons us found =>
        simp only [withTrees_cons, List.length_cons]
        omega

/-- Where nothing fails all outputs are there, or one is missing **after others that are there**. A
walk stops there, so what stands behind it is not looked at. -/
theorem all_some_or_exists_none {visit : NodeId → Except Error PlainOutput} {ids : List NodeId}
    (h : ∀ id ∈ ids, ∃ out, visit id = .ok out) :
    (∃ tss : List (List PlainTree), ids.map visit = tss.map fun ts => .ok (some ts)) ∨
      ∃ done last rest, ∃ tss : List (List PlainTree), ids = done ++ last :: rest ∧
        done.map visit = tss.map (fun ts => .ok (some ts)) ∧ visit last = .ok none := by
  induction ids with
  | nil => exact .inl ⟨[], rfl⟩
  | cons id ids ih =>
    obtain ⟨⟨out, hout⟩, hrest⟩ := List.forall_mem_cons.mp h
    cases out with
    | none => exact .inr ⟨[], id, ids, [], rfl, rfl, hout⟩
    | some ts =>
      rcases ih hrest with ⟨tss, htss⟩ | ⟨done, last, rest, tss, rfl, hdone, hlast⟩
      · exact .inl ⟨ts :: tss, by simp [hout, htss]⟩
      · exact .inr ⟨id :: done, last, rest, ts :: tss, rfl, by simp [hout, hdone], hlast⟩

theorem normal_of_map {ids : List NodeId} {tss : List (List PlainTree)}
    (h : ids.map (f.freshOutput o path) = tss.map fun ts => .ok (some ts)) :
    ∀ ts ∈ tss, ∀ t ∈ ts, t.Normal := by
  intro ts hts
  have hmem := List.mem_map_of_mem (f := fun ts => (.ok (some ts) : Except Error PlainOutput)) hts
  rw [← h] at hmem
  obtain ⟨id, -, hid⟩ := List.mem_map.mp hmem
  exact normal_freshOutput hid

/-! ### From the parts to the whole -/

section

variable (hf : f.Closed) (hpath : f.IsPath path) {ids : List NodeId}
  (hids : ∀ id ∈ ids, id < f.size)
include hf hpath hids

/-- Under the packed policy **nothing fails**. -/
theorem exists_packed (o : ParseOptions) : ∃ out : NodeId → PlainOutput,
    (∀ id ∈ ids, f.freshOutput { o with ambiguity := .packed } path id = .ok (out id)) ∧
      ids.map (f.freshOutput { o with ambiguity := .packed } path) = (ids.map out).map .ok ∧
        ∀ ts ∈ withTrees (ids.map out), ∀ t ∈ ts, t.Normal := by
  have hall : ∀ id ∈ ids, ∃ out,
      f.freshOutput { o with ambiguity := .packed } path id = .ok out := by
    intro id hid
    obtain ⟨out, hout, -⟩ := exists_freshOutput hf o hpath (hids id hid)
    exact ⟨out, hout⟩
  choose! out hout using hall
  refine ⟨out, hout, ?_, normal_of_mem_withTrees (List.forall_mem_map.mpr fun id hid ts hts =>
    normal_freshOutput ((hout id hid).trans (congrArg Except.ok hts)))⟩
  rw [List.map_map]
  exact List.map_congr_left hout

variable {e : Error} {D : NodeId → Prop}
  (ih : ∀ id ∈ ids, ∀ e, f.freshOutput { o with ambiguity := .error } path id = .error e →
    D id ∨ ∃ ts, f.freshOutput { o with ambiguity := .packed } path id = .ok (some ts) ∧
      Several ts)
include ih

/-- Where the error policy fails **among alternatives**, packing them keeps several readings, or
discards some on the way down from one of them. -/
theorem several_chosen
    (h : chosen { o with ambiguity := .error } span
      (ids.map (f.freshOutput { o with ambiguity := .error } path)) = .error e) :
    (∃ id ∈ ids, D id) ∨ ∃ ts, chosen { o with ambiguity := .packed } span
      (ids.map (f.freshOutput { o with ambiguity := .packed } path)) = .ok (some ts) ∧
        Several ts := by
  obtain ⟨out, hout, houts, hnormal⟩ := exists_packed hf hpath hids o
  have hne : ∀ ts ∈ withTrees (ids.map out), ts ≠ [] := fun ts hts => (mem_withTrees.mp hts).2
  have hpacked : ∀ us ∈ withTrees (ids.map out),
      chosen { o with ambiguity := .packed } span ((ids.map out).map .ok) =
        .ok (some (packAll { o with ambiguity := .packed } span (withTrees (ids.map out)))) := by
    intro us hus
    have hany : (ids.map out).any Option.isSome = true :=
      List.any_eq_true.mpr ⟨some us, (mem_withTrees.mp hus).1, rfl⟩
    rw [chosen_packed rfl, if_pos hany]
  rw [houts]
  by_cases hfail : ∃ id ∈ ids, ∃ e,
      f.freshOutput { o with ambiguity := .error } path id = .error e
  · -- an alternative has failed, and several readings of it are several of the choice
    obtain ⟨id, hid, e, hid'⟩ := hfail
    refine (ih id hid e hid').imp (fun hd => ⟨id, hid, hd⟩) ?_
    rintro ⟨ts, hts, hseveral⟩
    have hts : ts ∈ withTrees (ids.map out) := by
      have hsome : out id = some ts := Except.ok.inj ((hout id hid).symm.trans hts)
      exact mem_withTrees.mpr ⟨hsome ▸ List.mem_map_of_mem hid, hseveral.ne_nil⟩
    exact ⟨_, hpacked ts hts, hseveral.packAll hne hnormal hts⟩
  · -- all alternatives have outputs, so two of them have trees
    refine .inr ?_
    have hsame : ids.map (f.freshOutput { o with ambiguity := .error } path) =
        (ids.map out).map .ok := by
      rw [← houts]
      refine List.map_congr_left fun id hid => ?_
      cases hid' : f.freshOutput { o with ambiguity := .error } path id with
      | error e => exact absurd ⟨id, hid, e, hid'⟩ hfail
      | ok out => exact (follows_freshOutput f o .packed path id out hid').symm
    rw [hsame, chosen] at h
    have htwo : 2 ≤ (withTrees (ids.map out)).length := by
      cases hg : gathered .error false [] ((ids.map out).map .ok) with
      | error e => simpa using two_le_of_gathered_eq_error hg
      | ok all =>
        rw [hg, ok_bind] at h
        split at h <;> cases h
    obtain ⟨us, hus⟩ := List.exists_mem_of_length_pos (Nat.lt_of_lt_of_le Nat.zero_lt_two htwo)
    exact ⟨_, hpacked us hus, several_packAll hne hnormal htwo⟩

end

/-- What **the error policy** has come to so far, other policies come to as well. -/
theorem map_freshOutput_of_error {ids : List NodeId} {tss : List (List PlainTree)}
    (h : ids.map (f.freshOutput { o with ambiguity := .error } path) =
      tss.map fun ts => .ok (some ts)) (policy : Ambiguity) :
    ids.map (f.freshOutput { o with ambiguity := policy } path) =
      tss.map fun ts => .ok (some ts) := by
  rw [← h]
  refine List.map_congr_left fun id hid => ?_
  have hmem := List.mem_map_of_mem (f := f.freshOutput { o with ambiguity := .error } path) hid
  rw [h] at hmem
  obtain ⟨ts, -, hts⟩ := List.mem_map.mp hmem
  rw [← hts]
  exact follows_freshOutput f o policy path id _ hts.symm

/-- Where the error policy fails **at a part of a sequence**, what the packed policy strings
together has several readings, or the sequence discards several. -/
theorem several_sequence (hf : f.Closed) {id : NodeId} {tag : Option String}
    {children : List NodeId} {e : Error} (hpath : f.IsPath (id :: path)) (hnot : id ∉ path)
    (hnode : f.node? id = some ⟨.sequence tag children, span⟩)
    (ih : ∀ part ∈ children, ∀ e,
      f.freshOutput { o with ambiguity := .error } (id :: path) part = .error e →
        f.Discards { o with ambiguity := .packed } (id :: path) part ∨
          ∃ ts, f.freshOutput { o with ambiguity := .packed } (id :: path) part = .ok (some ts) ∧
            Several ts)
    (h : strung (children.map (f.freshOutput { o with ambiguity := .error } (id :: path))) =
      .error e) :
    f.Discards { o with ambiguity := .packed } path id ∨
      ∃ ts, strung (children.map (f.freshOutput { o with ambiguity := .packed } (id :: path))) =
        .ok (some ts) ∧ Several ts := by
  have hlt := hf.part_lt id _ hnode
  obtain ⟨done, part, rest, tss, rfl, hdone, hpart⟩ := exists_of_strung_eq_error h
  replace hdone := map_freshOutput_of_error hdone .packed
  rw [Kind.parts] at hlt
  -- the first failing part decides: what it discards, the sequence discards
  rcases ih part (by simp) e hpart with hd | ⟨ts, hts, hseveral⟩
  · exact .inl (.sequence hnot hnode hdone hd)
  have hafter : ∀ id ∈ rest, id < f.size := fun id hid => hlt id (by simp [hid])
  obtain ⟨out, hout, -⟩ := exists_packed hf hpath hafter o
  rcases all_some_or_exists_none fun id hid => ⟨out id, hout id hid⟩ with
    ⟨uss, huss⟩ | ⟨done', last, rest, uss, rfl, hdone', hlast⟩
  · -- nothing is missing: the readings are strung together
    have hall : (done ++ part :: rest).map
        (f.freshOutput { o with ambiguity := .packed } (id :: path)) =
          (tss ++ ts :: uss).map fun ts => .ok (some ts) := by
      rw [List.map_append, List.map_cons, hdone, hts, huss, List.map_append, List.map_cons]
    exact .inr ⟨_, strung_of_map hall, hseveral.flatten (normal_of_map hdone) (normal_of_map huss)⟩
  · -- a later part has no output: the readings so far are discarded at it
    have hall : (done ++ part :: done').map
        (f.freshOutput { o with ambiguity := .packed } (id :: path)) =
          (tss ++ ts :: uss).map fun ts => .ok (some ts) := by
      rw [List.map_append, List.map_cons, hdone, hts, hdone', List.map_append, List.map_cons]
    have hsplit : done ++ part :: (done' ++ last :: rest) =
        (done ++ part :: done') ++ last :: rest := by simp
    rw [hsplit] at hnode
    exact .inl (.here hnot hnode hall
      (hseveral.flatten (normal_of_map hdone) (normal_of_map hdone')) hlast)

/-- **Where the error policy fails at a node**, the packed output has several readings, or several
are discarded on the way down. -/
theorem several_freshOutput (hf : f.Closed) {id : NodeId} (hpath : f.IsPath path)
    (hid : id < f.size) {e : Error}
    (h : f.freshOutput { o with ambiguity := .error } path id = .error e) :
    f.Discards { o with ambiguity := .packed } path id ∨
      ∃ ts, f.freshOutput { o with ambiguity := .packed } path id = .ok (some ts) ∧
        Several ts := by
  refine path_induct hf (motive := fun path id => ∀ e,
    f.freshOutput { o with ambiguity := .error } path id = .error e →
      f.Discards { o with ambiguity := .packed } path id ∨
        ∃ ts, f.freshOutput { o with ambiguity := .packed } path id = .ok (some ts) ∧
          Several ts)
    (fun path id hpath hmem e h => ?_) (fun path id kind span hpath hnot hnode ih e h => ?_)
    hpath hid e h
  · -- on a path through itself nothing fails
    rw [freshOutput_of_mem hpath.length_le hmem] at h
    cases h
  rw [freshOutput_of_not_mem hpath.length_le hnot hnode] at h ⊢
  have hnext : f.IsPath (id :: path) :=
    hpath.cons (Array.getElem?_eq_some_iff.mp hnode).1 hnot
  have hlt := hf.part_lt id _ hnode
  -- tags do not fail
  have hfails : ∀ {α β : Type} {result : Except Error α} {k : α → β},
      result.map k = .error e → result = .error e := by
    intro α β result k hmap
    cases result with
    | error e' => exact congrArg Except.error (Except.error.inj hmap)
    | ok a => cases hmap
  cases kind with
  | symbol | omitted | lexical => cases h
  | choice tag alternatives =>
    rw [freshNode] at h ⊢
    rw [Kind.parts] at hlt ih
    refine (several_chosen hf hnext hlt ih (hfails h)).imp ?_ ?_
    · rintro ⟨part, hpart, hd⟩
      exact .choice hnot hnode hpart hd
    · rintro ⟨ts, hts, hseveral⟩
      exact ⟨_, by rw [hts]; rfl, hseveral.plainLabelled o span tag⟩
  | sequence tag children =>
    cases children with
    | nil => cases tag <;> cases h
    | cons child children =>
      rw [freshNode_sequence] at h ⊢
      refine (several_sequence hf hnext hnot hnode ih (hfails h)).imp_right ?_
      rintro ⟨ts, hts, hseveral⟩
      exact ⟨_, by rw [hts]; rfl, hseveral.plainLabelled o span tag⟩

end Forest

/-! ### Flourishes -/

namespace Grammar

/-- An `x` after any number of **flourishes**. There are two kinds of them, both empty. -/
def flourishes : Grammar where
  exprs := #[.token "x", .seq (some "p") [], .seq (some "q") [], .alt none [1, 2], .seq none [3, 5],
    .alt none [0, 4]]
  start := 5
  start_lt := by decide

theorem closed_flourishes : flourishes.Closed := by
  rw [Closed, flourishes]
  decide

end Grammar

namespace Forest

open Grammar

variable {f : Forest} {o : ParseOptions}

/-- The forest of an `x` with flourishes. Its root `4` is the `x`, or flourishes and the root. -/
def flourished : Forest where
  nodes := #[⟨.symbol "x", ⟨0, 1⟩⟩, ⟨.sequence (some "p") [], ⟨0, 0⟩⟩,
    ⟨.choice none [1, 3], ⟨0, 0⟩⟩, ⟨.sequence (some "q") [], ⟨0, 0⟩⟩,
    ⟨.choice none [0, 6], ⟨0, 1⟩⟩, ⟨.sequence none [2, 4], ⟨0, 1⟩⟩, ⟨.choice none [5], ⟨0, 1⟩⟩]
  roots := [4]
  tokens := 1

theorem parse_flourishes : parse flourishes ["x"] = .ok flourished := by cbv

/-- Of flourishes there are two kinds, and the error policy sees no more than that. It fails before
it has found out that one of them leads nowhere. -/
theorem extract_flourished_error :
    flourished.extract { ambiguity := .error, collapse := true, spans := false } =
      .error .ambiguous := by cbv

/-! ### The tree of a forest -/

/-- The tree of trees with several readings stands for **several trees**. The group around several
roots keeps their readings apart. -/
theorem two_le_length_trees_plainRoot {ts : List PlainTree} (h : Several ts) (o : ParseOptions) :
    2 ≤ (f.plainRoot o ts).trees.length := by
  rw [Tree.trees, List.length_map]
  unfold plainRoot
  split
  · rw [← Tree.readingsAll_singleton]
    exact h.two_le
  · rw [ParseOptions.readingsAt_plainSpanned_group, List.length_map]
    exact h.two_le

/-- Under the packed policy a closed forest **has a tree**. So it can be asked what the tree would
have been where another policy fails. -/
theorem exists_extract_packed (hf : f.Closed) (o : ParseOptions) :
    ∃ t n, f.extract { o with ambiguity := .packed } = .ok (t, n) := by
  obtain ⟨out, -, houts, -⟩ := exists_packed hf (isPath_nil f) hf.root_lt o
  have hfresh : ∃ t, f.freshTree { o with ambiguity := .packed } = .ok t := by
    rw [freshTree, houts, chosen_packed rfl]
    exact ⟨_, rfl⟩
  obtain ⟨t, htree⟩ := hfresh
  obtain ⟨t, n, hext, -⟩ := exists_extract htree
  exact ⟨t, n, hext⟩

/-- **Where the error policy finds ambiguity** the packed tree has a packed part and stands for
several trees, or packing discards several readings. -/
theorem packed_or_discards_of_ambiguous {g : Grammar} {w : List String} (hg : g.Closed)
    (hf : parse g w = .ok f)
    (h : f.extract { o with ambiguity := .error } = .error .ambiguous) :
    ∃ t n, f.extract { o with ambiguity := .packed } = .ok (t, n) ∧
      (¬ t.plain.Unpacked ∧ 2 ≤ t.plain.trees.length ∨
        ∃ root ∈ f.roots, f.Discards { o with ambiguity := .packed } [] root) := by
  have hclosed := closed_of_parse hg hf
  have hfresh := map_plain_extract f { o with ambiguity := .error }
  rw [h, freshTree] at hfresh
  -- the failure is that of the choice among the roots, since a tree is made of any output
  have hchosen : ∃ e, chosen { o with ambiguity := .error } f.wholeSpan
      (f.roots.map (f.freshOutput { o with ambiguity := .error } [])) = .error e := by
    cases hc : chosen { o with ambiguity := .error } f.wholeSpan
        (f.roots.map (f.freshOutput { o with ambiguity := .error } [])) with
    | error e => exact ⟨e, rfl⟩
    | ok output =>
      rw [hc] at hfresh
      cases hfresh
  obtain ⟨e, he⟩ := hchosen
  rcases several_chosen hclosed (isPath_nil f) hclosed.root_lt
    (fun root hroot e => several_freshOutput hclosed (isPath_nil f) (hclosed.root_lt root hroot))
    he with hd | ⟨ts, hts, hseveral⟩
  · obtain ⟨t, n, hext⟩ := exists_extract_packed hclosed o
    exact ⟨t, n, hext, .inr hd⟩
  · have htree : f.freshTree { o with ambiguity := .packed } =
        .ok (f.plainRoot { o with ambiguity := .packed } ts) := by
      rw [freshTree, hts]
      rfl
    obtain ⟨t, n, hext, hplain⟩ := exists_extract htree
    have htwo := two_le_length_trees_plainRoot (f := f) hseveral { o with ambiguity := .packed }
    rw [← hplain] at htwo
    refine ⟨t, n, hext, .inl ⟨fun hunpacked => ?_, htwo⟩⟩
    rw [hunpacked.trees_eq] at htwo
    exact absurd htwo (by simp)

/-- The alarm about flourishes is **no exception**. -/
theorem packed_or_discards_flourished : flourishes.Closed ∧
    parse flourishes ["x"] = .ok flourished ∧
    flourished.extract { ambiguity := .error, collapse := true, spans := false } =
      .error .ambiguous ∧
    ∃ t n, flourished.extract { ambiguity := .packed, collapse := true, spans := false } =
      .ok (t, n) ∧ (¬ t.plain.Unpacked ∧ 2 ≤ t.plain.trees.length ∨
        ∃ root ∈ flourished.roots, flourished.Discards
          { ambiguity := .packed, collapse := true, spans := false } [] root) :=
  ⟨closed_flourishes, parse_flourishes, extract_flourished_error,
    packed_or_discards_of_ambiguous
      (o := { ambiguity := .packed, collapse := true, spans := false }) closed_flourishes
      parse_flourishes extract_flourished_error⟩

/-- An `x` with flourishes has **one tree**, without them: with one it would be an `x` within
itself. The error policy rejects it all the same. -/
theorem extract_flourished : flourishes.Closed ∧ parse flourishes ["x"] = .ok flourished ∧
    flourished.extract { ambiguity := .error, collapse := true, spans := false } =
      .error .ambiguous ∧
    ∃ t n, flourished.extract { ambiguity := .packed, collapse := true, spans := false } =
      .ok (t, n) ∧ t.Unpacked ∧ t.plain.trees = [PlainTree.value "x"] := by
  have hx : (NumberedTree.value "x").plain.Unpacked := .leaf rfl
  exact ⟨closed_flourishes, parse_flourishes, extract_flourished_error, NumberedTree.value "x", 1,
    by cbv, Tree.unpacked_of_plain hx, hx.trees_eq⟩

end Forest

end GeneralParsing
