import GeneralParsing.Proofs.Tree.First
import GeneralParsing.Proofs.Tree.Ledger
import GeneralParsing.Proofs.Tree.Sharing

/-!
# The first tree is one of the trees

Picking the first tree is defined for all trees, however their parts are shared and whether or not
packed parts have alternatives. It goes through what it needs only, and still whatever it looks up
is there (`Tree.foldsThrough`). Nothing in the tree that it gives is packed. A tree without packed
parts is its own first tree, so picking again changes nothing. What is picked is what the plain
recursion picks, and where packed parts have alternatives that is the first of the trees that are
counted (`Tree.first_exact`).

The families of the first tree are new, and their marks are sound again (`keeps_first`).
-/

namespace GeneralParsing

namespace Tree

/-! ### No lookup fails -/

/-- Folding a tree **looks up nothing that has not been computed**, neither on the way nor for the
root at the end: with lookups that may fail, counting its trees and picking the first of them come
to the count and to the first tree. -/
structure FoldsThrough (t : NumberedTree) : Prop where
  counts : countTrees t () = .ok (t.count, ())
  picks : ∀ n, firstTree t n = .ok (t.first.run n)

/-- **Every tree is folded through**, whatever its marks are and whatever is shared. It does not
even matter whether the numbers of families are right. -/
theorem foldsThrough (t : NumberedTree) : t.FoldsThrough where
  counts := by
    obtain ⟨result, hresult⟩ := exists_countTrees t
    rw [count, faultless_eq hresult, hresult]
  picks n := by
    obtain ⟨result, hresult⟩ := exists_firstTree t n
    have hfirst : t.first.run n = result := faultless_eq hresult _
    rw [hfirst, hresult]

/-! ### The families that are made -/

section

open GeneralParsing.Numbering

variable {ledger ledger' : List (List NumberedTree)} {known : Picked} {p : Placed}

/-- What is known of places **stands in the ledger**. -/
def EnteredPicks (ledger : List (List NumberedTree)) (known : Picked) : Prop :=
  ∀ (place : Place) parts, known[place]? = some parts → ∀ t ∈ parts, t.Entered ledger

/-- What has been picked **stays entered** when the ledger grows. -/
theorem EnteredPicks.mono (hle : ledger <+: ledger') (h : EnteredPicks ledger known) :
    EnteredPicks ledger' known :=
  fun place parts hparts t ht => (h place parts hparts t ht).mono hle

/-- A pick may be added **if its trees have been entered**. -/
theorem EnteredPicks.insert (h : EnteredPicks ledger known) {place : Place}
    {parts : List NumberedTree} (hparts : ∀ t ∈ parts, t.Entered ledger) :
    EnteredPicks ledger (known.insert place parts) := by
  intro place' parts' hparts'
  rw [Std.HashMap.getElem?_insert] at hparts'
  split at hparts'
  · obtain rfl := Option.some.inj hparts'
    exact hparts
  · exact h place' parts' hparts'

/-- What is looked up **stands in the ledger**. -/
theorem EnteredPicks.flatten (h : EnteredPicks ledger known) {ps : List Placed}
    {picks : List (List NumberedTree)} (hpicks : picks.map some = ps.map fun p => known[p.place]?) :
    ∀ t ∈ picks.flatten, t.Entered ledger := by
  intro t ht
  obtain ⟨parts, hparts, ht⟩ := List.mem_flatten.mp ht
  have hmem : some parts ∈ ps.map fun p => known[p.place]? := hpicks ▸ List.mem_map_of_mem hparts
  obtain ⟨p, -, hp⟩ := List.mem_map.mp hmem
  exact h p.place parts hp t ht

/-- What a tree gives **stands in the ledger** if what is known does. What it makes anew gets the
next number. -/
theorem exists_entered_pick (h : EnteredPicks ledger known)
    (hneeds : ∀ q ∈ p.firstNeeds, q.place ∈ known) :
    ∃ parts ledger', pick known p ledger.length = .ok (parts, ledger'.length) ∧
      ledger <+: ledger' ∧ ∀ t ∈ parts, t.Entered ledger' := by
  cases hpacked : p.tree.isPacked with
  | true =>
    rw [Placed.firstNeeds, if_pos hpacked] at hneeds
    obtain ⟨picks, hpicks, hmap⟩ := exists_splice hneeds ledger.length
    exact ⟨_, ledger, by rw [pick_of_isPacked hpacked, hpicks], List.prefix_rfl, h.flatten hmap⟩
  | false =>
    rw [Placed.firstNeeds, if_neg (by simp [hpacked])] at hneeds
    obtain ⟨place, label | ⟨label, family, ts⟩⟩ := p
    · refine ⟨[leaf label], ledger, pick_leaf hpacked _, List.prefix_rfl, ?_⟩
      simpa using Entered.leaf label
    · obtain ⟨picks, hpicks, hmap⟩ := exists_splice hneeds ledger.length
      have hp : label.packed = false := hpacked
      have hle := List.prefix_append ledger [picks.flatten]
      refine ⟨[branch label ledger.length picks.flatten], ledger ++ [picks.flatten], ?_, hle, ?_⟩
      · rw [pick_branch hp hpicks, List.length_append, List.length_singleton]
      · rw [List.forall_mem_singleton]
        exact .branch label (by simp) fun t ht => (h.flatten hmap t ht).mono hle

/-- The families of the first tree **are new**, and stand in the ledger. -/
theorem keeps_first (t : NumberedTree) : Keeps ledger t.first Entered := by
  have hcomputes : Computes .first pick (fun _ => True) fun known n =>
      ∃ ledger', ledger <+: ledger' ∧ ledger'.length = n ∧ EnteredPicks ledger' known := by
    refine ⟨fun _ _ _ _ => trivial, fun known p n _ hinv hneeds => ?_⟩
    obtain ⟨ledger₁, hle₁, rfl, hknown⟩ := hinv
    obtain ⟨parts, ledger₂, hpick, hle₂, hparts⟩ := exists_entered_pick hknown hneeds
    exact ⟨parts, _, hpick, ledger₂, hle₁.trans hle₂, rfl, (hknown.mono hle₂).insert hparts⟩
  obtain ⟨known, parts, n, hfold, ⟨ledger', hle, rfl, hknown⟩, hroot⟩ :=
    hcomputes.exists_fold (t := t) trivial (s := ledger.length)
      ⟨ledger, List.prefix_rfl, rfl, fun place parts hparts => by simp at hparts⟩
  have hparts := hknown .root parts hroot
  obtain ⟨rfl, hafter⟩ | ⟨-, hfirst, hafter⟩ := first_cases hfold
  · exact ⟨ledger', hle, hafter.symm, hparts _ (List.mem_singleton_self _)⟩
  · have hlonger := List.prefix_append ledger' [parts]
    refine ⟨ledger' ++ [parts], hle.trans hlonger, ?_, ?_⟩
    · rw [hafter, List.length_append, List.length_singleton]
    · rw [hfirst]
      exact .branch _ (by simp) fun t ht => (hparts t ht).mono hlonger

/-- The marks of the first tree **are sound**. So the first tree can be counted and compared like
any other. -/
theorem soundlyMarked_first (t : NumberedTree) (n : Nat) : SoundlyMarked (t.first.result n) := by
  have hkeeps : Keeps (List.replicate n []) t.first Entered := keeps_first t
  obtain ⟨ledger, -, -, hentered⟩ := hkeeps
  rw [List.length_replicate] at hentered
  exact soundlyMarked_iff.mpr ⟨_, hentered.filed⟩

end

/-! ### What the plain recursion picks -/

/-- Trees in their place **as one tree**: a group with the span unless there is just one. -/
def inPlace (span : Option Span) : List PlainTree → PlainTree
  | [only] => only
  | parts => branch { span } () parts

/-- The trees that a tree **stands for**, one for each of its readings. -/
def standsFor (t : PlainTree) : List PlainTree := (readingsAt false t).map (inPlace t.label.span)

/-- A tree stands for **as many trees as it has readings**, the same ones counted as often as they
occur. -/
theorem length_standsFor (t : PlainTree) : t.standsFor.length = t.number := by
  rw [standsFor, List.length_map, length_readingsAt]

/-- What is picked from a tree is **its first reading**, put in its place. The reading may be
several trees, and those are put into a group. -/
theorem firstPlain_eq (t : PlainTree) : t.firstPlain = inPlace t.label.span (firstAt false t) := rfl

/-- What is picked **is not packed** anywhere. A packed tree is replaced by what its first
alternative gives, and so on down. -/
theorem unpacked_of_mem_firstAt {t : PlainTree} : ∀ b, ∀ u ∈ firstAt b t, u.Unpacked := by
  induction t using Tree.induct with
  | leaf label =>
    intro b u hu
    rw [firstAt] at hu
    split at hu
    · cases hu
    · next hp =>
      rw [List.mem_singleton.mp hu]
      exact .leaf (by simpa using hp)
  | branch label family members ih =>
    intro b u hu
    have hall : ∀ v ∈ firstAll members, v.Unpacked := by
      intro v hv
      rw [firstAll_eq_flatMap] at hv
      obtain ⟨t, ht, hv⟩ := List.mem_flatMap.mp hv
      exact ih t ht false v hv
    rw [firstAt] at hu
    split at hu
    · cases members with
      | nil => cases hu
      | cons t ts => exact ih t List.mem_cons_self true u hu
    · next hp =>
      split at hu
      · exact hall u hu
      · rw [List.mem_singleton.mp hu]
        exact .branch (by simpa using hp) hall

theorem unpacked_inPlace {span : Option Span} {ts : List PlainTree} (h : ∀ t ∈ ts, t.Unpacked) :
    (inPlace span ts).Unpacked := by
  unfold inPlace
  split
  · exact h _ (List.mem_singleton_self _)
  · exact .branch rfl h

/-- In what is picked **nothing is packed**. -/
theorem unpacked_firstPlain (t : PlainTree) : t.firstPlain.Unpacked :=
  unpacked_inPlace (unpacked_of_mem_firstAt false)

/-- Where packed parts have alternatives, the **first of the trees** is picked. -/
theorem Offers.head?_standsFor {t : PlainTree} (h : t.Offers) :
    t.standsFor.head? = some t.firstPlain := by
  rw [standsFor, List.head?_map, h.head?_readingsAt false, Option.map_some, firstPlain_eq]

theorem offers_leaf {ι : Type} {label : Label} :
    (leaf label : Tree ι).Offers ↔ label.packed = false := by
  refine forall_part_iff.trans ?_
  simp [isPacked, Tree.label, children]

/-- A tree with children has something to offer if **its children have**, and if it is packed only
if it has some. -/
theorem offers_branch {ι : Type} {label : Label} {family : ι} {ts : List (Tree ι)} :
    (branch label family ts).Offers ↔ (label.packed = true → ts ≠ []) ∧ ∀ t ∈ ts, t.Offers :=
  forall_part_iff

/-- A tree without packed parts **offers itself**. -/
theorem Unpacked.offers {ι : Type} {t : Tree ι} (h : t.Unpacked) : t.Offers := by
  induction h with
  | leaf h => exact offers_leaf.mpr h
  | branch h _ ih => exact offers_branch.mpr ⟨by simp [h], ih⟩

/-- A tree without packed parts is **its own first tree**. Hence picking again changes nothing. -/
theorem Unpacked.firstPlain_eq_self {t : PlainTree} (h : t.Unpacked) : t.firstPlain = t := by
  have hhead := h.offers.head?_standsFor
  rw [standsFor, h.readingsAt_eq] at hhead
  exact (Option.some.inj hhead).symm

theorem Offers.plain {ι : Type} {t : Tree ι} (h : t.Offers) : t.plain.Offers := by
  intro u hu hp
  obtain ⟨v, hv, rfl⟩ := hu.exists_of_plain
  rw [children_plain, ne_eq, List.map_eq_nil_iff]
  exact h v hv (by simpa using hp)

/-! ### The first tree -/

/-- **The first tree is one of the trees.** Picking it, with lookups that may fail, comes to it
without a fault, whatever number the next family has; it is a tree with sound marks and without
packed parts, and the one that the plain recursion picks. A tree without packed parts is left as it
is, so picking again changes nothing. Where packed parts have alternatives, the first of the trees
that are counted is picked. -/
theorem first_exact {t : NumberedTree} (ht : SoundlyMarked t) : t.FoldsThrough ∧
    ∀ n, SoundlyMarked (t.first.result n) ∧ (t.first.result n).Unpacked ∧
      (t.first.result n).plain = t.plain.firstPlain ∧
      (t.Unpacked → (t.first.result n).plain = t.plain) ∧
      (∀ k, ((t.first.result n).first.result k).plain = (t.first.result n).plain) ∧
      (t.Offers → t.plain.standsFor.head? = some (t.first.result n).plain) ∧
      t.count = min (2 ^ 128 - 1) t.plain.standsFor.length := by
  obtain ⟨members, hfiled⟩ := soundlyMarked_iff.mp ht
  refine ⟨foldsThrough t, fun n => ?_⟩
  have hfirst : (t.first.result n).plain = t.plain.firstPlain := plain_result_first hfiled n
  have hunpacked : (t.first.result n).plain.Unpacked := hfirst ▸ unpacked_firstPlain t.plain
  have hmarked := soundlyMarked_first t n
  refine ⟨hmarked, unpacked_of_plain hunpacked, hfirst, fun h => ?_, fun k => ?_, fun h => ?_, ?_⟩
  · rw [hfirst, h.plain.firstPlain_eq_self]
  · obtain ⟨members', hfiled'⟩ := soundlyMarked_iff.mp hmarked
    rw [plain_result_first hfiled' k, hunpacked.firstPlain_eq_self]
  · rw [hfirst, h.plain.head?_standsFor]
  · rw [length_standsFor]
    exact count_eq hfiled

/-! ### A packed part in two places -/

/-- A **choice** between a group of two leaves and a single leaf. -/
def pairOrSingle : NumberedTree :=
  branch { packed := true } 1
    [branch {} 0 [leaf { value := some "a" }, leaf { value := some "b" }],
      leaf { value := some "ab" }]

/-- A node that has **one packed part twice**, on both sides of a leaf. -/
def twoPlaces : NumberedTree :=
  branch { tag := some "S" } 2 [pairOrSingle, leaf { value := some "x" }, pairOrSingle]

/-- The families of `Tree.twoPlaces`, by their numbers. -/
def twoPlacesFamilies : Nat → List NumberedTree
  | 0 => [leaf { value := some "a" }, leaf { value := some "b" }]
  | 1 => pairOrSingle.children
  | _ => twoPlaces.children

theorem soundlyMarked_twoPlaces : SoundlyMarked twoPlaces := by
  have hleaf (text : String) : Filed twoPlacesFamilies (leaf { value := some text }) := .leaf _
  have hgroup : Filed twoPlacesFamilies (branch {} 0 (twoPlacesFamilies 0)) :=
    .branch _ 0 (List.forall_mem_cons.mpr ⟨hleaf "a", by simpa using hleaf "b"⟩)
  have hpair : Filed twoPlacesFamilies pairOrSingle :=
    .branch _ 1 (List.forall_mem_cons.mpr ⟨hgroup, by simpa using hleaf "ab"⟩)
  have htwo : Filed twoPlacesFamilies twoPlaces :=
    .branch _ 2 (List.forall_mem_cons.mpr ⟨hpair, by simpa using ⟨hleaf "x", hpair⟩⟩)
  exact soundlyMarked_iff.mpr ⟨_, htwo⟩

/-- The group is opened **in both places**, and what results is the first of four trees. -/
theorem first_exact_twoPlaces : SoundlyMarked twoPlaces ∧
    (twoPlaces.first.result 3).plain = branch { tag := some "S" } ()
      (["a", "b", "x", "a", "b"].map fun text => leaf { value := some text }) ∧
    twoPlaces.plain.standsFor.head? = some (twoPlaces.first.result 3).plain ∧
    twoPlaces.count = 4 := by
  obtain ⟨-, hfirst⟩ := first_exact soundlyMarked_twoPlaces
  obtain ⟨-, -, hplain, -, -, hhead, hcount⟩ := hfirst 3
  have htwo : twoPlaces.Offers := by
    simp [twoPlaces, pairOrSingle, offers_branch, offers_leaf]
  exact ⟨soundlyMarked_twoPlaces, hplain.trans rfl, hhead htwo, hcount.trans rfl⟩

end Tree

end GeneralParsing
