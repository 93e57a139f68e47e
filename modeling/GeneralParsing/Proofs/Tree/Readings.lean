import GeneralParsing.Tree.Build
import Mathlib

/-!
# The readings of a tree

A tree with packed parts stands for several trees. A **reading** of it takes one alternative at
every packed part and puts it into the place of that part; an alternative that is a group gives
way to its members. In its place among siblings a tree therefore reads as a *list* of trees, and
`Tree.trees` makes a single tree of that list where the tree stands alone.

Readings are listed in order, the first alternatives first, and with their multiplicity. `Normal`
describes the trees that occur among the outputs of a forest: a packed tree has alternatives, none
of them packed, and its groups have at least two members. The readings of such a tree are never
empty, and there is at least one.
-/

namespace GeneralParsing

/-- A tree **with no regard to sharing**. -/
abbrev PlainTree := Tree Unit

namespace PlainTree

/-- An **untagged value**. -/
def value (text : String) : PlainTree := .leaf { value := some text }

/-- A **tagged value**. -/
def taggedValue (tag text : String) : PlainTree := .leaf { tag := some tag, value := some text }

/-- A **tagged node**. -/
def node (tag : String) (children : List PlainTree) : PlainTree :=
  .branch { tag := some tag } () children

/-- A **group** of siblings. -/
def group (children : List PlainTree) : PlainTree := .branch {} () children

/-- A **packed** tree with these alternatives. -/
def packed (alternatives : List PlainTree) : PlainTree :=
  .branch { packed := true } () alternatives

/-- The trees under a **tag**. Where collapsing is on, the tag joins a lone untagged value. -/
def tagged (collapse : Bool) (tag : String) : List PlainTree → PlainTree
  | [only] =>
    if collapse && only.isValueLeaf then taggedValue tag (only.label.value.getD "")
    else node tag [only]
  | ts => node tag ts

/-- The trees of a result, **tagged if it has a tag**. -/
def labelled (collapse : Bool) (tag : Option String) (ts : List PlainTree) : List PlainTree :=
  match tag with
  | some tag => [tagged collapse tag ts]
  | none => ts

section

variable (tag text : String) (ts : List PlainTree)

@[simp] theorem isPacked_value : (value text).isPacked = false := rfl
@[simp] theorem isPacked_taggedValue : (taggedValue tag text).isPacked = false := rfl
@[simp] theorem isPacked_node : (node tag ts).isPacked = false := rfl
@[simp] theorem isPacked_group : (group ts).isPacked = false := rfl
@[simp] theorem isPacked_packed : (packed ts).isPacked = true := rfl
@[simp] theorem isGroup_value : (value text).isGroup = false := rfl
@[simp] theorem isGroup_taggedValue : (taggedValue tag text).isGroup = false := rfl
@[simp] theorem isGroup_node : (node tag ts).isGroup = false := rfl
@[simp] theorem isGroup_group : (group ts).isGroup = true := rfl
@[simp] theorem isValueLeaf_value : (value text).isValueLeaf = true := rfl
@[simp] theorem isValueLeaf_taggedValue : (taggedValue tag text).isValueLeaf = false := rfl
@[simp] theorem isValueLeaf_node : (node tag ts).isValueLeaf = false := rfl
@[simp] theorem isBranch_value : (value text).isBranch = false := rfl
@[simp] theorem children_node : (node tag ts).children = ts := rfl
@[simp] theorem children_value : (value text).children = [] := rfl
@[simp] theorem children_taggedValue : (taggedValue tag text).children = [] := rfl
@[simp] theorem children_group : (group ts).children = ts := rfl
@[simp] theorem children_packed : (packed ts).children = ts := rfl

end

/-- The trees as **one tree**, in a group unless there is just one. -/
def single : List PlainTree → PlainTree
  | [t] => t
  | ts => group ts

/-- Trees that are not one make **a group**, none at all included. -/
theorem single_of_length_ne {ts : List PlainTree} (h : ts.length ≠ 1) : single ts = group ts := by
  match ts with
  | [] => rfl
  | [t] => simp at h
  | t :: u :: ts => rfl

end PlainTree

namespace Tree

/-- Induction over a tree with a hypothesis for **every child**. -/
@[elab_as_elim]
theorem induct {ι : Type} {motive : Tree ι → Prop} (leaf : ∀ label, motive (.leaf label))
    (branch : ∀ label family children, (∀ t ∈ children, motive t) →
      motive (.branch label family children)) (t : Tree ι) : motive t :=
  @Tree.rec ι motive (fun ts => ∀ t ∈ ts, motive t) leaf
    (fun label family children ih => branch label family children ih)
    (by simp) (fun _ _ ht hts => List.forall_mem_cons.mpr ⟨ht, hts⟩) t

/-! ### Forgetting the marks -/

section

variable {ι : Type}

@[simp] theorem isPacked_plain (t : Tree ι) : t.plain.isPacked = t.isPacked := by
  simp [isPacked]

@[simp] theorem isValueLeaf_plain (t : Tree ι) : t.plain.isValueLeaf = t.isValueLeaf := by
  simp [isValueLeaf]

@[simp] theorem isBranch_plain (t : Tree ι) : t.plain.isBranch = t.isBranch := by
  cases t <;> rfl

@[simp] theorem isGroup_plain (t : Tree ι) : t.plain.isGroup = t.isGroup := by
  simp [isGroup]

@[simp] theorem plain_leaf (label : Label) : (leaf label : Tree ι).plain = leaf label := rfl

@[simp] theorem plain_branch (label : Label) (family : ι) (ts : List (Tree ι)) :
    (branch label family ts).plain = branch label () (ts.map plain) := by
  rw [plain, plainList_eq_map]

@[simp] theorem plain_withSpan (span : Span) (t : Tree ι) :
    (t.withSpan span).plain = t.plain.withSpan span := by
  cases t <;> simp [withSpan, withLabel, label]

end

/-! ### What a tree is -/

section

variable {ι : Type} {t : Tree ι}

/-- A group is **never packed**, because packed trees are marked and groups have no mark. -/
theorem isPacked_of_isGroup (h : t.isGroup = true) : t.isPacked = false := by
  simp only [isGroup, Bool.and_eq_true, Bool.not_eq_true'] at h
  exact h.1.1.1

theorem isPacked_of_isValueLeaf (h : t.isValueLeaf = true) : t.isPacked = false := by
  simp only [isValueLeaf, Bool.and_eq_true, Bool.not_eq_true'] at h
  exact h.1.1

/-- What looks like an untagged value **has a value**. -/
theorem exists_value_of_isValueLeaf (h : t.isValueLeaf = true) :
    ∃ text, t.label.value = some text := by
  simp only [isValueLeaf, Bool.and_eq_true] at h
  exact Option.isSome_iff_exists.mp h.2

end

/-! ### Readings -/

mutual

/-- The readings of a tree **in its place**. A group that is an alternative gives way to its
members. -/
def readingsAt (alternative : Bool) : PlainTree → List (List PlainTree)
  | leaf label => if label.packed then [] else [[leaf label]]
  | branch label _ children =>
    if label.packed then readingsAny children
    else if alternative && isGroup (branch label () children) then readingsAll children
    else (readingsAll children).map fun parts => [branch label () parts]

/-- The readings of **siblings**, strung together. -/
def readingsAll : List PlainTree → List (List PlainTree)
  | [] => [[]]
  | t :: ts => (readingsAt false t).flatMap fun parts => (readingsAll ts).map (parts ++ ·)

/-- The readings of **alternatives**, one after another. -/
def readingsAny : List PlainTree → List (List PlainTree)
  | [] => []
  | t :: ts => readingsAt true t ++ readingsAny ts

end

/-- The **trees a tree stands for**. -/
def trees (t : PlainTree) : List PlainTree := (readingsAt false t).map PlainTree.single

/-- The readings of alternatives are **those of each one**, in order. -/
theorem readingsAny_eq_flatMap (ts : List PlainTree) :
    readingsAny ts = ts.flatMap (readingsAt true) := by
  induction ts with
  | nil => rfl
  | cons t ts ih => rw [readingsAny, ih, List.flatMap_cons]

@[simp] theorem readingsAll_nil : readingsAll [] = [[]] := rfl

@[simp] theorem readingsAll_singleton (t : PlainTree) : readingsAll [t] = readingsAt false t := by
  simp [readingsAll]

/-- Readings of siblings **multiply**. -/
theorem readingsAll_append (ts us : List PlainTree) :
    readingsAll (ts ++ us) =
      (readingsAll ts).flatMap fun parts => (readingsAll us).map (parts ++ ·) := by
  induction ts with
  | nil => simp
  | cons t ts ih =>
    simp [readingsAll, ih, List.map_flatMap, List.flatMap_map, List.flatMap_assoc,
      Function.comp_def]

/-- Numbers of readings **multiply** where siblings are put together. -/
theorem length_readingsAll_append (ts us : List PlainTree) :
    (readingsAll (ts ++ us)).length = (readingsAll ts).length * (readingsAll us).length := by
  rw [readingsAll_append, List.length_flatMap]
  simp

/-- A reading of siblings **comes apart** where the siblings do. -/
theorem mem_readingsAll_append {ts us r : List PlainTree} :
    r ∈ readingsAll (ts ++ us) ↔ ∃ a ∈ readingsAll ts, ∃ b ∈ readingsAll us, r = a ++ b := by
  simp [readingsAll_append, eq_comm]

/-- A packed tree reads as **any of its alternatives** does, wherever it stands. -/
theorem readingsAt_of_isPacked {t : PlainTree} (h : t.isPacked = true) (b : Bool) :
    readingsAt b t = t.children.flatMap (readingsAt true) := by
  cases t with
  | leaf label => simp [readingsAt, children, show label.packed = true from h]
  | branch label family members =>
    simp [readingsAt, children, show label.packed = true from h, readingsAny_eq_flatMap]

/-- Only for groups does it matter whether the tree stands **in the place of an alternative**. -/
theorem readingsAt_of_not_isGroup {t : PlainTree} (h : t.isGroup = false) (b : Bool) :
    readingsAt b t = readingsAt false t := by
  cases t with
  | leaf label => rfl
  | branch label family children => simp [readingsAt, show isGroup _ = false from h]

/-- A tree that is neither packed nor a group reads **as one tree** with the same label. -/
theorem exists_of_mem_readingsAt {t : PlainTree} (h : t.isPacked = false) {r : List PlainTree}
    (hr : r ∈ readingsAt false t) :
    ∃ u : PlainTree, r = [u] ∧ u.label = t.label ∧ u.isBranch = t.isBranch := by
  cases t with
  | leaf label =>
    have hl : label.packed = false := h
    obtain rfl : r = [leaf label] := by simpa [readingsAt, hl] using hr
    exact ⟨leaf label, rfl, rfl, rfl⟩
  | branch label family children =>
    have hl : label.packed = false := h
    obtain ⟨parts, -, rfl⟩ : ∃ parts ∈ readingsAll children, [branch label () parts] = r := by
      simpa [readingsAt, hl] using hr
    exact ⟨branch label () parts, rfl, rfl, rfl⟩

/-! ### Normal trees -/

/-- A tree as it occurs **among outputs**: no group, and if packed then with alternatives, which
are not packed themselves; a group among these has at least two members. An untagged value has no
children. The same holds of the parts of the tree. -/
inductive Normal : PlainTree → Prop
  | solid {t : PlainTree} (hp : t.isPacked = false) (hg : t.isGroup = false)
      (hv : t.isValueLeaf = true → t.isBranch = false) (hsub : ∀ u ∈ t.children, Normal u) :
      Normal t
  | packed {label : Label} {alternatives : List PlainTree} (hp : label.packed = true)
      (hne : alternatives ≠ []) (hflat : ∀ t ∈ alternatives, t.isPacked = false)
      (hsolid : ∀ t ∈ alternatives, t.isGroup = false → Normal t)
      (hlen : ∀ t ∈ alternatives, t.isGroup = true → 2 ≤ t.children.length)
      (hmember : ∀ t ∈ alternatives, t.isGroup = true → ∀ u ∈ t.children, Normal u) :
      Normal (.branch label () alternatives)

/-- No group occurs among outputs: groups are made **for alternatives** and for the whole input. -/
theorem Normal.not_isGroup {t : PlainTree} (h : t.Normal) : t.isGroup = false := by
  cases h with
  | solid _ hg => exact hg
  | packed hp => simp [isGroup, label, hp]

/-- The readings of an alternative group are those of **its members**. -/
theorem readingsAt_of_isGroup {t : PlainTree} (h : t.isGroup = true) :
    readingsAt true t = readingsAll t.children := by
  cases t with
  | leaf label => simp [isGroup, isBranch] at h
  | branch label family members =>
    have hp : label.packed = false := isPacked_of_isGroup h
    simp [readingsAt, hp, show isGroup _ = true from h, children]

/-- A packed tree reads as **some alternative** does. -/
theorem mem_readingsAt_packed {label : Label} {alternatives : List PlainTree} {r : List PlainTree}
    (hp : label.packed = true) : r ∈ readingsAt false (branch label () alternatives) ↔
      ∃ t ∈ alternatives, r ∈ readingsAt true t := by
  have htree : isPacked (branch label () alternatives) = true := hp
  rw [readingsAt_of_isPacked htree, List.mem_flatMap, children]

/-- An alternative reads **as its members** if it is a group, and as it does in any place if it is
not. -/
theorem mem_readingsAt_alternative {t : PlainTree} {r : List PlainTree}
    (hr : r ∈ readingsAt true t) : t.isGroup = false ∧ r ∈ readingsAt false t ∨
      t.isGroup = true ∧ r ∈ readingsAll t.children := by
  cases hg : t.isGroup with
  | false => exact .inl ⟨rfl, readingsAt_of_not_isGroup hg true ▸ hr⟩
  | true => exact .inr ⟨rfl, readingsAt_of_isGroup hg ▸ hr⟩

/-- Siblings that all read as something read as **at least as many trees**. -/
theorem length_le_of_mem_readingsAll {ts r : List PlainTree}
    (h : ∀ t ∈ ts, ∀ r ∈ readingsAt false t, r ≠ []) (hr : r ∈ readingsAll ts) :
    ts.length ≤ r.length := by
  induction ts generalizing r with
  | nil => simp
  | cons t ts ih =>
    obtain ⟨a, ha, b, hb, rfl⟩ : ∃ a ∈ readingsAt false t, ∃ b ∈ readingsAll ts, a ++ b = r := by
      simpa [readingsAll] using hr
    have hpos := List.length_pos_iff.mpr (h t (by simp) a ha)
    have hle := ih (fun u hu => h u (by simp [hu])) hb
    simp only [List.length_cons, List.length_append]
    omega

/-- A normal tree never reads **as nothing**. -/
theorem Normal.ne_nil_of_mem {t : PlainTree} (ht : Normal t) :
    ∀ r ∈ readingsAt false t, r ≠ [] := by
  induction ht with
  | solid hp hg _ _ _ =>
    intro r hr
    obtain ⟨u, rfl, -, -⟩ := exists_of_mem_readingsAt hp hr
    simp
  | @packed label alternatives hp hne hflat _ hlen _ ihsolid ihmember =>
    intro r hr
    obtain ⟨t, ht, hr⟩ := (mem_readingsAt_packed hp).mp hr
    rcases mem_readingsAt_alternative hr with ⟨hg, hr⟩ | ⟨hg, hr⟩
    · exact ihsolid t ht hg r hr
    · have hle := length_le_of_mem_readingsAll (ihmember t ht hg) hr
      have htwo := hlen t ht hg
      exact List.length_pos_iff.mp (by omega)

/-- Siblings read in some way **if each of them does**. -/
theorem readingsAll_ne_nil {ts : List PlainTree} (h : ∀ t ∈ ts, readingsAt false t ≠ []) :
    readingsAll ts ≠ [] := by
  induction ts with
  | nil => simp
  | cons t ts ih =>
    obtain ⟨a, ha⟩ := List.exists_mem_of_ne_nil _ (h t (by simp))
    obtain ⟨b, hb⟩ := List.exists_mem_of_ne_nil _ (ih fun u hu => h u (by simp [hu]))
    refine List.ne_nil_of_mem (a := a ++ b) ?_
    simp only [readingsAll, List.mem_flatMap, List.mem_map]
    exact ⟨a, ha, b, hb, rfl⟩

/-- A normal tree reads **in some way**. -/
theorem Normal.readingsAt_ne_nil {t : PlainTree} (ht : Normal t) : readingsAt false t ≠ [] := by
  induction ht with
  | @solid t hp hg _ _ ih =>
    cases t with
    | leaf label => simp [readingsAt, show label.packed = false from hp]
    | branch label family members =>
      have hall : readingsAll members ≠ [] := readingsAll_ne_nil ih
      simpa [readingsAt, show label.packed = false from hp] using hall
  | @packed label alternatives hp hne _ _ _ _ ihsolid ihmember =>
    obtain ⟨t, ht⟩ := List.exists_mem_of_ne_nil _ hne
    have hread : readingsAt true t ≠ [] := by
      cases hg : t.isGroup with
      | false => rw [readingsAt_of_not_isGroup hg]; exact ihsolid t ht hg
      | true => rw [readingsAt_of_isGroup hg]; exact readingsAll_ne_nil (ihmember t ht hg)
    obtain ⟨r, hr⟩ := List.exists_mem_of_ne_nil _ hread
    exact List.ne_nil_of_mem ((mem_readingsAt_packed hp).mpr ⟨t, ht, hr⟩)

/-- Normal siblings read as **at least as many trees**, since each of them reads as one or more. -/
theorem length_le_of_normal {ts r : List PlainTree} (h : ∀ t ∈ ts, Normal t)
    (hr : r ∈ readingsAll ts) : ts.length ≤ r.length :=
  length_le_of_mem_readingsAll (fun t ht => (h t ht).ne_nil_of_mem) hr

/-! ### Trees without packed parts -/

/-- A tree in which **nothing is packed**. -/
inductive Unpacked {ι : Type} : Tree ι → Prop
  | leaf {label : Label} (h : label.packed = false) : Unpacked (.leaf label)
  | branch {label : Label} {family : ι} {children : List (Tree ι)} (h : label.packed = false)
      (hchildren : ∀ t ∈ children, Unpacked t) : Unpacked (.branch label family children)

section

variable {ι : Type}

theorem Unpacked.isPacked_eq_false {t : Tree ι} (h : t.Unpacked) : t.isPacked = false := by
  cases h with
  | leaf h | branch h => exact h

theorem Unpacked.withSpan {t : Tree ι} (h : t.Unpacked) (span : Span) :
    (t.withSpan span).Unpacked := by
  cases h with
  | leaf h => exact .leaf h
  | branch h hchildren => exact .branch h hchildren

/-- A tree without packed parts stands **for itself**. -/
theorem Unpacked.readingsAt_eq {t : PlainTree} (h : t.Unpacked) : readingsAt false t = [[t]] := by
  induction h with
  | leaf h => simp [readingsAt, h]
  | @branch label family children h _ ih =>
    have hall : ∀ ts : List PlainTree, (∀ t ∈ ts, readingsAt false t = [[t]]) →
        readingsAll ts = [ts] := by
      intro ts hts
      induction ts with
      | nil => rfl
      | cons t ts ihts =>
        obtain ⟨ht, hts⟩ := List.forall_mem_cons.mp hts
        rw [readingsAll, ht, ihts hts]
        rfl
    simp [readingsAt, h, hall children ih]

/-- A tree without packed parts stands for **itself and nothing else**. -/
theorem Unpacked.trees_eq {t : PlainTree} (h : t.Unpacked) : t.trees = [t] := by
  rw [trees, h.readingsAt_eq]
  rfl

/-- Marks have nothing to do with **what is packed**. -/
theorem unpacked_of_plain {t : Tree ι} (h : t.plain.Unpacked) : t.Unpacked := by
  induction t using Tree.induct with
  | leaf label =>
    cases h with
    | leaf h => exact .leaf h
  | branch label family children ih =>
    rw [plain_branch] at h
    cases h with
    | branch h hchildren =>
      exact .branch h fun t ht => ih t ht (hchildren t.plain (List.mem_map_of_mem ht))

theorem Unpacked.plain {t : Tree ι} (h : t.Unpacked) : t.plain.Unpacked := by
  induction h with
  | leaf h => exact .leaf h
  | branch h _ ih =>
    rw [plain_branch]
    exact .branch h (List.forall_mem_map.mpr ih)

end

end Tree

end GeneralParsing
