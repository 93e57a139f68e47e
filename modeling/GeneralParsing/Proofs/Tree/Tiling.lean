import GeneralParsing.Proofs.Tree.Readings

/-!
# Trees that tile the input

A list of trees **tiles** a stretch of the input when the spans of the trees lie end to end from
the one end of the stretch to the other, and the same holds below: the children of a node tile the
span of the node, each alternative of a packed tree tiles the span of that tree alone, and the
value of a leaf is the text of its span (`Tree.Tiles`).

Tiling is what makes texts come out right wherever one looks. Every part of a tree in a tiling
tiles its own span (`Tiles.of_part`), and whatever alternatives are chosen, the values of the leaves
are the text of the stretch (`Tiles.join_leafValues`).
-/

namespace GeneralParsing

/-! ### Texts of stretches -/

/-- The symbols **from a position up to another**, as one text. -/
def textBetween (w : List String) (start stop : Nat) : String :=
  String.join ((w.drop start).take (stop - start))

section

variable {w v : List String} {start middle stop : Nat}

@[simp] theorem textBetween_self : textBetween w start start = "" := by simp [textBetween]

/-- Texts of adjacent stretches **add up**. -/
theorem textBetween_append (h : start ≤ middle) (h' : middle ≤ stop) :
    textBetween w start middle ++ textBetween w middle stop = textBetween w start stop := by
  have hsplit : stop - start = (middle - start) + (stop - middle) := by omega
  have hmiddle : start + (middle - start) = middle := by omega
  rw [textBetween, textBetween, textBetween, hsplit, List.take_add, List.drop_drop, hmiddle,
    String.join_append]

theorem textBetween_eq_join (h : v <+: w.drop start) (hstop : start + v.length = stop) :
    textBetween w start stop = String.join v := by
  obtain rfl : start + v.length = stop := hstop
  rw [textBetween, Nat.add_sub_cancel_left, ← List.prefix_iff_eq_take.mp h]

end

namespace Tree

/-! ### Leaves and parts -/

mutual

/-- The **values of the leaves**, in order. -/
def leafValues : PlainTree → List String
  | leaf label => label.value.toList
  | branch _ _ children => leafValuesAll children

/-- The values of the leaves of siblings, **strung together**. -/
def leafValuesAll : List PlainTree → List String
  | [] => []
  | t :: ts => leafValues t ++ leafValuesAll ts

end

theorem leafValuesAll_append (ts us : List PlainTree) :
    leafValuesAll (ts ++ us) = leafValuesAll ts ++ leafValuesAll us := by
  induction ts with
  | nil => rfl
  | cons t ts ih => rw [List.cons_append, leafValuesAll, leafValuesAll, ih, List.append_assoc]

@[simp] theorem leafValuesAll_singleton (t : PlainTree) : leafValuesAll [t] = leafValues t := by
  simp [leafValuesAll]

/-- Siblings as one tree **have the same leaves**. -/
@[simp] theorem leafValues_single (ts : List PlainTree) :
    leafValues (PlainTree.single ts) = leafValuesAll ts := by
  match ts with
  | [t] => exact (leafValuesAll_singleton t).symm
  | [] | _ :: _ :: _ => rfl

/-- A tree is a **part of** another: it is that tree, or a part of one of its children. -/
inductive PartOf {ι : Type} : Tree ι → Tree ι → Prop
  | refl (t : Tree ι) : PartOf t t
  | child {u v t : Tree ι} (hv : v ∈ t.children) (h : PartOf u v) : PartOf u t

section

variable {ι : Type} {t u v : Tree ι}

theorem PartOf.trans (h : u.PartOf v) (h' : v.PartOf t) : u.PartOf t := by
  induction h' with
  | refl => exact h
  | child hv _ ih => exact .child hv ih

/-- What holds of all parts holds of the tree and of **all parts of its children**. -/
theorem forall_part_iff {P : Tree ι → Prop} : (∀ u, u.PartOf t → P u) ↔
    P t ∧ ∀ child ∈ t.children, ∀ u, u.PartOf child → P u := by
  constructor
  · exact fun h => ⟨h t (.refl t), fun child hchild u hu => h u (.child hchild hu)⟩
  · rintro ⟨ht, hchildren⟩ u hu
    cases hu with
    | refl => exact ht
    | child hchild hu => exact hchildren _ hchild u hu

theorem PartOf.plain (h : u.PartOf t) : u.plain.PartOf t.plain := by
  induction h with
  | refl => exact .refl _
  | child hv _ ih => exact .child (by rw [children_plain]; exact List.mem_map_of_mem hv) ih

/-- The parts of a tree without marks are **parts of the tree**, their marks forgotten. -/
theorem PartOf.exists_of_plain {u : PlainTree} (h : u.PartOf t.plain) :
    ∃ v : Tree ι, v.PartOf t ∧ v.plain = u := by
  generalize ht : t.plain = plain at h
  induction h generalizing t with
  | refl => exact ⟨t, .refl t, ht⟩
  | child hv _ ih =>
    rw [← ht, children_plain] at hv
    obtain ⟨child, hchild, rfl⟩ := List.mem_map.mp hv
    obtain ⟨v, hv, rfl⟩ := ih rfl
    exact ⟨v, .child hchild hv, rfl⟩

end

/-! ### Tilings -/

/-- Trees **tile** the input from a position up to another. -/
inductive Tiles (w : List String) : List PlainTree → Nat → Nat → Prop
  | nil (start : Nat) : Tiles w [] start start
  | leaf {label : Label} {ts : List PlainTree} {start middle stop : Nat}
      (hp : label.packed = false) (hspan : label.span = some ⟨start, middle⟩)
      (hle : start ≤ middle) (htext : String.join label.value.toList = textBetween w start middle)
      (hs : Tiles w ts middle stop) : Tiles w (.leaf label :: ts) start stop
  | branch {label : Label} {children ts : List PlainTree} {start middle stop : Nat}
      (hp : label.packed = false) (hspan : label.span = some ⟨start, middle⟩)
      (hv : label.value = none) (hc : Tiles w children start middle)
      (hs : Tiles w ts middle stop) : Tiles w (.branch label () children :: ts) start stop
  | packed {label : Label} {alternatives ts : List PlainTree} {start middle stop : Nat}
      (hp : label.packed = true) (hspan : label.span = some ⟨start, middle⟩)
      (hne : alternatives ≠ []) (ha : ∀ t ∈ alternatives, Tiles w [t] start middle)
      (hs : Tiles w ts middle stop) : Tiles w (.branch label () alternatives :: ts) start stop

variable {w : List String} {t u : PlainTree} {ts us r : List PlainTree} {start middle stop : Nat}

theorem Tiles.le (h : Tiles w ts start stop) : start ≤ stop := by
  induction h with
  | nil => exact Nat.le_refl _
  | leaf _ _ hle _ _ ih => exact Nat.le_trans hle ih
  | branch _ _ _ _ _ ihc ih => exact Nat.le_trans ihc ih
  | packed _ _ hne _ _ iha ih =>
    obtain ⟨t, ht⟩ := List.exists_mem_of_ne_nil _ hne
    exact Nat.le_trans (iha t ht) ih

/-- Tilings **go on** where the first one ends. -/
theorem Tiles.append (h : Tiles w ts start middle) (h' : Tiles w us middle stop) :
    Tiles w (ts ++ us) start stop := by
  induction h with
  | nil => exact h'
  | leaf hp hspan hle htext _ ih => exact .leaf hp hspan hle htext (ih h')
  | branch hp hspan hv hc _ _ ih => exact .branch hp hspan hv hc (ih h')
  | packed hp hspan hne ha _ _ ih => exact .packed hp hspan hne ha (ih h')

/-- A tiling **begins with a tile**. -/
theorem Tiles.exists_cons (h : Tiles w (t :: ts) start stop) :
    ∃ middle, Tiles w [t] start middle ∧ Tiles w ts middle stop := by
  cases h with
  | leaf hp hspan hle htext hs => exact ⟨_, .leaf hp hspan hle htext (.nil _), hs⟩
  | branch hp hspan hv hc hs => exact ⟨_, .branch hp hspan hv hc (.nil _), hs⟩
  | packed hp hspan hne ha hs => exact ⟨_, .packed hp hspan hne ha (.nil _), hs⟩

/-- A tile has **its stretch for a span**. -/
theorem Tiles.span_eq (h : Tiles w [t] start stop) : t.label.span = some ⟨start, stop⟩ := by
  cases h with
  | leaf _ hspan _ _ hs | branch _ hspan _ _ hs | packed _ hspan _ _ hs =>
    cases hs
    exact hspan

/-- The alternatives of a packed tile **are tiles**, and there are some. -/
theorem Tiles.alternatives (h : Tiles w [t] start stop) (hp : t.isPacked = true) :
    t.children ≠ [] ∧ ∀ u ∈ t.children, Tiles w [u] start stop := by
  cases h with
  | leaf hp' | branch hp' => cases hp.symm.trans hp'
  | packed _ _ hne ha hs =>
    cases hs
    exact ⟨hne, ha⟩

/-- The members of a tile that is a group **tile its stretch**. -/
theorem Tiles.members (h : Tiles w [t] start stop) (hg : t.isGroup = true) :
    Tiles w t.children start stop := by
  cases h with
  | leaf => simp [isGroup, isBranch] at hg
  | branch _ _ _ hc hs =>
    cases hs
    exact hc
  | packed hp => simp [isGroup, label, hp] at hg

/-- A tile that is an untagged value **has the text** of its stretch. -/
theorem Tiles.value_eq (h : Tiles w [t] start stop) (hv : t.isValueLeaf = true) :
    t.label.value.getD "" = textBetween w start stop := by
  cases h with
  | @leaf label _ _ middle _ _ _ _ htext hs =>
    cases hs
    obtain ⟨text, hvalue⟩ : ∃ text, label.value = some text := exists_value_of_isValueLeaf hv
    simpa [Tree.label, hvalue] using htext
  | branch _ _ hnone => simp [isValueLeaf, label, hnone] at hv
  | packed hp => simp [isValueLeaf, label, hp] at hv

/-! ### Parts of tiles -/

/-- Each tree in a tiling **is a tile** inside the stretch. -/
theorem Tiles.of_mem (h : Tiles w ts start stop) (ht : t ∈ ts) :
    ∃ a b, start ≤ a ∧ b ≤ stop ∧ Tiles w [t] a b := by
  induction ts generalizing start with
  | nil => cases ht
  | cons u us ih =>
    obtain ⟨middle, hu, hus⟩ := h.exists_cons
    rcases List.mem_cons.mp ht with rfl | ht
    · exact ⟨start, middle, Nat.le_refl _, hus.le, hu⟩
    · obtain ⟨a, b, ha, hb, htile⟩ := ih hus ht
      exact ⟨a, b, Nat.le_trans hu.le ha, hb, htile⟩

theorem Tiles.of_mem_children (h : Tiles w [t] start stop) (hu : u ∈ t.children) :
    ∃ a b, start ≤ a ∧ b ≤ stop ∧ Tiles w [u] a b := by
  cases h with
  | leaf => cases hu
  | branch _ _ _ hc hs =>
    cases hs
    exact hc.of_mem hu
  | packed _ _ _ ha hs =>
    cases hs
    exact ⟨start, stop, Nat.le_refl _, Nat.le_refl _, ha u hu⟩

/-- **Every part of a tile is a tile**, inside its stretch. -/
theorem Tiles.of_part (h : Tiles w [t] start stop) (hu : u.PartOf t) :
    ∃ a b, start ≤ a ∧ b ≤ stop ∧ Tiles w [u] a b := by
  induction hu generalizing start stop with
  | refl => exact ⟨start, stop, Nat.le_refl _, Nat.le_refl _, h⟩
  | child hv _ ih =>
    obtain ⟨a, b, ha, hb, hchild⟩ := h.of_mem_children hv
    obtain ⟨a', b', ha', hb', hpart⟩ := ih hchild
    exact ⟨a', b', Nat.le_trans ha ha', Nat.le_trans hb' hb, hpart⟩

/-! ### Readings of tilings -/

/-- In its place a group reads as **one tree** with the members that it reads as when it is an
alternative. -/
theorem readingsAt_group (hg : t.isGroup = true) :
    readingsAt false t = (readingsAt true t).map fun r => [branch t.label () r] := by
  cases t with
  | leaf label => simp [isGroup, isBranch] at hg
  | branch label family members =>
    have hp : label.packed = false := isPacked_of_isGroup hg
    rw [readingsAt_of_isGroup hg]
    simp [readingsAt, hp, children, Tree.label]

/-- As an alternative a tree has **the same texts** as in its place. -/
theorem exists_reading_of_alternative (hr : r ∈ readingsAt true t) :
    ∃ r' ∈ readingsAt false t, leafValuesAll r' = leafValuesAll r := by
  cases hg : t.isGroup with
  | false => exact ⟨r, readingsAt_of_not_isGroup hg true ▸ hr, rfl⟩
  | true =>
    refine ⟨[branch t.label () r], ?_, by rw [leafValuesAll_singleton, leafValues]⟩
    rw [readingsAt_group hg]
    exact List.mem_map_of_mem hr

/-- **Whatever alternatives are chosen in a tiling**, the values of the leaves are the text of the
stretch. -/
theorem Tiles.join_leafValues (h : Tiles w ts start stop) (hr : r ∈ readingsAll ts) :
    String.join (leafValuesAll r) = textBetween w start stop := by
  -- the reading of a tile, and that of the tiles after it
  have hcons : ∀ {t : PlainTree} {ts r : List PlainTree} {start middle stop : Nat},
      start ≤ middle → Tiles w ts middle stop →
      (∀ r ∈ readingsAt false t, String.join (leafValuesAll r) = textBetween w start middle) →
      (∀ r ∈ readingsAll ts, String.join (leafValuesAll r) = textBetween w middle stop) →
      r ∈ readingsAll (t :: ts) → String.join (leafValuesAll r) = textBetween w start stop := by
    intro t ts r start middle stop hle hs ht hts hr
    obtain ⟨a, ha, b, hb, rfl⟩ : ∃ a ∈ readingsAt false t, ∃ b ∈ readingsAll ts, a ++ b = r := by
      simpa [readingsAll] using hr
    rw [leafValuesAll_append, String.join_append, ht a ha, hts b hb, textBetween_append hle hs.le]
  induction h generalizing r with
  | nil =>
    obtain rfl : r = [] := by simpa using hr
    simp [leafValuesAll]
  | @leaf label _ _ _ _ hp _ hle htext hs ih =>
    refine hcons hle hs (fun r hr => ?_) (fun r => ih) hr
    obtain rfl : r = [Tree.leaf label] := by simpa [readingsAt, hp] using hr
    simpa [leafValues] using htext
  | @branch label children _ _ _ _ hp _ _ hc hs ihc ih =>
    refine hcons hc.le hs (fun r hr => ?_) (fun r => ih) hr
    obtain ⟨parts, hparts, rfl⟩ : ∃ parts ∈ readingsAll children,
        [Tree.branch label () parts] = r := by
      simpa [readingsAt, hp] using hr
    simpa [leafValues] using ihc hparts
  | @packed label alternatives _ _ _ _ hp _ hne ha hs iha ih =>
    obtain ⟨first, hfirst⟩ := List.exists_mem_of_ne_nil _ hne
    refine hcons (ha first hfirst).le hs (fun r hr => ?_) (fun r => ih) hr
    obtain ⟨t, ht, hr⟩ := (mem_readingsAt_packed hp).mp hr
    obtain ⟨r', hr', hvalues⟩ := exists_reading_of_alternative hr
    rw [← hvalues]
    exact iha t ht (by rwa [readingsAll_singleton])

/-- A tiling **reads in some way**. -/
theorem Tiles.readingsAll_ne_nil (h : Tiles w ts start stop) : readingsAll ts ≠ [] := by
  refine Tree.readingsAll_ne_nil fun t ht => ?_
  obtain ⟨a, b, -, -, htile⟩ := h.of_mem ht
  clear h ht
  induction t using Tree.induct generalizing a b with
  | leaf label =>
    cases htile with
    | leaf hp => simp [readingsAt, hp]
  | branch label family members ih =>
    have hmembers : ∀ {a b}, Tiles w members a b → readingsAll members ≠ [] := fun hc =>
      Tree.readingsAll_ne_nil fun u hu => by
        obtain ⟨a, b, -, -, hpart⟩ := hc.of_mem hu
        exact ih u hu a b hpart
    cases htile with
    | branch hp _ _ hc => simpa [readingsAt, hp] using hmembers hc
    | packed hp _ hne ha =>
      obtain ⟨first, hfirst⟩ := List.exists_mem_of_ne_nil _ hne
      have hplace := ih first hfirst a _ (ha first hfirst)
      have halternative : readingsAt true first ≠ [] := by
        cases hg : first.isGroup with
        | false => rwa [readingsAt_of_not_isGroup hg]
        | true => simpa [readingsAt_group hg] using hplace
      obtain ⟨r, hr⟩ := List.exists_mem_of_ne_nil _ halternative
      exact List.ne_nil_of_mem ((mem_readingsAt_packed hp).mpr ⟨first, hfirst, hr⟩)

/-- A tile **stands for some tree**. -/
theorem Tiles.trees_ne_nil (h : Tiles w [t] start stop) : t.trees ≠ [] := by
  have hread := h.readingsAll_ne_nil
  rw [readingsAll_singleton] at hread
  simpa [trees] using hread

/-- Each tree that a tile stands for **has the text** of its stretch. -/
theorem Tiles.join_leafValues_of_mem_trees (h : Tiles w [t] start stop) (hu : u ∈ t.trees) :
    String.join u.leafValues = textBetween w start stop := by
  obtain ⟨r, hr, rfl⟩ := List.mem_map.mp hu
  rw [leafValues_single]
  exact h.join_leafValues (by rwa [readingsAll_singleton])

end Tree

end GeneralParsing
