import GeneralParsing.Proofs.Tree.Numbering
import GeneralParsing.Proofs.Tree.Places
import GeneralParsing.Tree.First

/-!
# The first tree is the first reading

`Tree.first` folds a tree. With no regard to sharing it is a plain recursion, `firstAt`: a packed
tree gives what its first alternative gives, and an alternative that is a group gives way to its
members. `plain_result_first` says so for every tree whose families are filed under their numbers.
Where packed parts have alternatives, as they have in normal trees, the recursion picks the first
of the readings (`Offers.head?_readingsAt`).
-/

namespace GeneralParsing

namespace Tree

/-! ### Picking with no regard to sharing -/

mutual

/-- What a tree gives **in its place** when the first alternative is taken everywhere. -/
def firstAt (alternative : Bool) : PlainTree → List PlainTree
  | leaf label => if label.packed then [] else [leaf label]
  | branch label _ children =>
    if label.packed then firstAny children
    else if alternative && isGroup (branch label () children) then firstAll children
    else [branch label () (firstAll children)]

/-- What **siblings** give, strung together. -/
def firstAll : List PlainTree → List PlainTree
  | [] => []
  | t :: ts => firstAt false t ++ firstAll ts

/-- What **alternatives** give: what the first of them gives. -/
def firstAny : List PlainTree → List PlainTree
  | [] => []
  | t :: _ => firstAt true t

end

theorem firstAll_eq_flatMap (ts : List PlainTree) : firstAll ts = ts.flatMap (firstAt false) := by
  induction ts with
  | nil => rfl
  | cons t ts ih => rw [firstAll, ih, List.flatMap_cons]

theorem firstAt_of_not_isGroup {t : PlainTree} (h : t.isGroup = false) (b : Bool) :
    firstAt b t = firstAt false t := by
  cases t with
  | leaf label => rfl
  | branch label family members => simp [firstAt, show isGroup _ = false from h]

theorem firstAt_of_isGroup {t : PlainTree} (h : t.isGroup = true) :
    firstAt true t = firstAll t.children := by
  cases t with
  | leaf label => simp [isGroup, isBranch] at h
  | branch label family members =>
    have hp : label.packed = false := isPacked_of_isGroup h
    simp [firstAt, hp, show isGroup _ = true from h, children]

theorem firstAt_of_isPacked {t : PlainTree} (h : t.isPacked = true) (b : Bool) :
    firstAt b t = firstAny t.children := by
  cases t with
  | leaf label => exact if_pos h
  | branch label family members => exact if_pos h

/-! ### The first reading -/

theorem head?_flatMap_of_ne_nil {α β : Type} {f : α → List β} {a : α} {as : List α}
    (h : f a ≠ []) : ((a :: as).flatMap f).head? = (f a).head? := by
  rw [List.flatMap_cons, List.head?_append_of_ne_nil _ h]

theorem head?_readingsAll {ts : List PlainTree}
    (h : ∀ t ∈ ts, (readingsAt false t).head? = some (firstAt false t)) :
    (readingsAll ts).head? = some (firstAll ts) := by
  induction ts with
  | nil => rfl
  | cons t ts ih =>
    obtain ⟨rest, hrest⟩ := List.head?_eq_some_iff.mp (h t (by simp))
    obtain ⟨more, hmore⟩ := List.head?_eq_some_iff.mp (ih fun u hu => h u (by simp [hu]))
    rw [readingsAll, hrest, hmore, head?_flatMap_of_ne_nil (by simp)]
    simp [firstAll]

/-- A tree whose packed parts **have alternatives**. -/
def Offers {ι : Type} (t : Tree ι) : Prop :=
  ∀ u : Tree ι, u.PartOf t → u.isPacked = true → u.children ≠ []

/-- Where packed parts have alternatives the plain recursion **picks the first reading**, in its
place or as an alternative. -/
theorem Offers.head?_readingsAt {t : PlainTree} (h : t.Offers) :
    ∀ b, (readingsAt b t).head? = some (firstAt b t) := by
  induction t using Tree.induct with
  | leaf label =>
    intro b
    have hp : label.packed = false := by
      by_contra hp
      exact h _ (.refl _) (by simpa [isPacked, Tree.label] using hp) rfl
    simp [readingsAt, firstAt, hp]
  | branch label family members ih =>
    intro b
    obtain ⟨hroot, hmembers⟩ := forall_part_iff.mp h
    have hall := head?_readingsAll fun t ht => ih t ht (hmembers t ht) false
    rw [readingsAt, firstAt]
    split
    · next hp =>
      -- the first alternative has a reading, so that reading comes first
      obtain ⟨t, ts, rfl⟩ := List.exists_cons_of_ne_nil (hroot hp)
      have hfirst := ih t (by simp) (hmembers t (by simp [children])) true
      have hread : readingsAt true t ≠ [] := by
        intro hnil
        simp [hnil] at hfirst
      rw [readingsAny_eq_flatMap, head?_flatMap_of_ne_nil hread, hfirst, firstAny]
    · split
      · exact hall
      · rw [List.head?_map, hall, Option.map_some]

theorem Normal.offers {t : PlainTree} (ht : t.Normal) : t.Offers := by
  induction ht with
  | solid hp _ _ _ ih => exact forall_part_iff.mpr ⟨fun h => absurd h (by simp [hp]), ih⟩
  | @packed label alternatives _ hne hflat _ _ _ ihsolid ihmember =>
    refine forall_part_iff.mpr ⟨fun _ => hne, fun t ht => ?_⟩
    cases hg : t.isGroup with
    | false => exact ihsolid t ht hg
    | true => exact forall_part_iff.mpr ⟨fun h => absurd h (by simp [hflat t ht]), ihmember t ht hg⟩

/-- On a normal tree the plain recursion **picks the first reading**. -/
theorem head?_readingsAt {t : PlainTree} (ht : t.Normal) :
    (readingsAt false t).head? = some (firstAt false t) := ht.offers.head?_readingsAt false

/-! ### Picking by a fold -/

variable {members : Nat → List NumberedTree} {known : Picked} {t : NumberedTree} {p : Placed}

/-- Trees that are **what a tree gives** in its place. -/
def PicksRight (t : NumberedTree) (parts : List NumberedTree) : Prop :=
  parts.map plain = firstAt false t.plain

/-- What is spliced is **what the trees give**, strung together. -/
theorem plain_flatten_picks {ps : List Placed} {picks : List (List NumberedTree)}
    (h : List.Forall₂ (fun q parts => PicksRight q.tree parts) ps picks) :
    picks.flatten.map plain = firstAll ((ps.map Placed.tree).map plain) := by
  induction h with
  | nil => rfl
  | cons hparts _ ih =>
    rw [List.flatten_cons, List.map_append, ih, hparts, List.map_cons, List.map_cons, firstAll]

/-- The parts that are put in the place of a packed tree give **what its first alternative
gives**. -/
theorem firstAll_firstParts (p : Placed) :
    firstAll ((p.firstParts.map Placed.tree).map plain) = firstAny (p.tree.children.map plain) := by
  rw [Placed.firstParts, ← Placed.map_tree_children]
  rcases p.children with _ | ⟨alternative, rest⟩
  · rfl
  · rw [List.map_cons, List.map_cons, firstAny]
    dsimp only
    split
    · next hg =>
      rw [Placed.map_tree_children, ← children_plain,
        firstAt_of_isGroup ((isGroup_plain _).trans hg)]
    · next hg =>
      have hg : alternative.tree.isGroup = false := by simpa using hg
      rw [firstAt_of_not_isGroup ((isGroup_plain _).trans hg), List.map_singleton,
        List.map_singleton, firstAll, firstAll, List.append_nil]

/-- **Picking with what is known** of the trees that are needed. Either what it needs is spliced, or
the tree itself is rebuilt around that. -/
theorem picksRight_pick (hp : Stands members t p) (hknown : KnowsRight members t PicksRight known)
    (h : ∀ q ∈ p.firstNeeds, q.place ∈ known) (n : Nat) :
    ∃ parts n', pick known p n = .ok (parts, n') ∧ PicksRight p.tree parts := by
  have hneeds := hp.firstNeeds
  cases hpacked : p.tree.isPacked with
  | true =>
    rw [Placed.firstNeeds, if_pos hpacked] at h hneeds
    obtain ⟨picks, hpicks, hmap⟩ := exists_splice h n
    refine ⟨_, _, by rw [pick_of_isPacked hpacked, hpicks], ?_⟩
    rw [PicksRight, plain_flatten_picks (hknown.forall₂ hneeds hmap), firstAll_firstParts,
      firstAt_of_isPacked ((isPacked_plain _).trans hpacked), children_plain]
  | false =>
    rw [Placed.firstNeeds, if_neg (by simp [hpacked])] at h hneeds
    obtain ⟨place, label | ⟨label, family, ts⟩⟩ := p
    · have hp' : label.packed = false := hpacked
      refine ⟨_, _, pick_leaf hp' n, ?_⟩
      simp [PicksRight, firstAt, hp']
    · have hp' : label.packed = false := hpacked
      obtain ⟨picks, hpicks, hmap⟩ := exists_splice h n
      refine ⟨_, _, pick_branch hp' hpicks, ?_⟩
      have hall := plain_flatten_picks (hknown.forall₂ hneeds hmap)
      rw [Placed.map_tree_children] at hall
      rw [PicksRight, List.map_singleton, plain_branch, hall]
      simp [firstAt, hp', children]

/-- The first tree **with no regard to sharing**. -/
def firstPlain (t : PlainTree) : PlainTree :=
  match firstAt false t with
  | [only] => only
  | parts => branch { span := t.label.span } () parts

/-- Picking with lookups that may fail **comes to the first tree**. So the fold has no fault, and
taking its value is safe. -/
theorem firstTree_eq_first (t : NumberedTree) (n : Nat) :
    firstTree t n = .ok (t.first.result n, t.first.after n) := by
  obtain ⟨result, hresult⟩ := exists_firstTree t n
  have hfirst : t.first.run n = result := faultless_eq hresult _
  rw [hresult, ← hfirst]
  rfl

/-- What the fold comes to for the root **makes the first tree**. -/
theorem first_cases {n n' : Nat} {parts : List NumberedTree}
    (h : fold .first pick t n = .ok (parts, n')) :
    (parts = [t.first.result n] ∧ t.first.after n = n') ∨ (parts.length ≠ 1 ∧
      t.first.result n = .branch { span := t.label.span } n' parts ∧
      t.first.after n = n' + 1) := by
  obtain ⟨u, hu, hfirst⟩ | ⟨hlength, hfirst⟩ := firstTree_cases h
  all_goals obtain ⟨hresult, hafter⟩ :=
    Prod.mk.inj (Except.ok.inj ((firstTree_eq_first t n).symm.trans hfirst))
  · exact .inl ⟨hu.trans (congrArg (fun u => [u]) hresult.symm), hafter⟩
  · exact .inr ⟨hlength, hresult, hafter⟩

/-- **`Tree.first` is the plain recursion**, whatever the number of the next family. Places are left
alone where no packed tree is below them, as far as the value shows. -/
theorem plain_result_first {t : NumberedTree} (ht : Filed members t) (n : Nat) :
    (t.first.result n).plain = t.plain.firstPlain := by
  have hcomputes : ComputesRight members t .first pick PicksRight :=
    ⟨fun _ hp => hp.firstNeeds, fun _ _ n hp hknown h => picksRight_pick hp hknown h n⟩
  obtain ⟨parts, n', hfold, hright⟩ := hcomputes.exists_fold ht n
  have hplain : firstAt false t.plain = parts.map plain := hright.symm
  rw [firstPlain, hplain]
  obtain ⟨rfl, -⟩ | ⟨hlength, hfirst, -⟩ := first_cases hfold
  · rfl
  · rw [hfirst, plain_branch, label_plain]
    split
    · next only honly => exact (hlength (by simpa using congrArg List.length honly)).elim
    · rfl

end Tree

end GeneralParsing
