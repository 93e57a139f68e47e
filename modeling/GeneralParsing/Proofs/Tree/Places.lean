import GeneralParsing.Proofs.Tree.Tiling
import GeneralParsing.Tree.Fold

/-!
# Trees at their places

Marks are sound when one number always means one list: `Filed members t` says that every family in
`t` has the members that `members` files under its number. Then a place stands for one tree, and a
value that is filed under a place belongs to that tree, wherever the tree is used
(`Stands.eq`).

So what a fold comes to can be read off the tree. When a value that is computed for a tree is right
as soon as those that it needs have right values, the fold ends and comes to a right value
(`Tree.ComputesRight.exists_fold`).
-/

namespace GeneralParsing

namespace Tree

/-- A tree whose families are **filed** under their numbers. -/
inductive Filed (members : Nat → List NumberedTree) : NumberedTree → Prop
  | leaf (label : Label) : Filed members (.leaf label)
  | branch (label : Label) (number : Nat) (h : ∀ t ∈ members number, Filed members t) :
      Filed members (.branch label number (members number))

variable {members : Nat → List NumberedTree} {t u : NumberedTree}

/-- The parts of a tree whose families are filed **have their families filed**. -/
theorem Filed.part (ht : Filed members t) (hu : u.PartOf t) : Filed members u := by
  induction hu with
  | refl => exact ht
  | child hv _ ih =>
    cases ht with
    | leaf => cases hv
    | branch label number hfiled => exact ih (hfiled _ hv)

/-! ### What stands at a place -/

/-- The tree that **stands at a place** of a tree with these members on file. -/
def treeAt (members : Nat → List NumberedTree) (t : NumberedTree) : Place → Option NumberedTree
  | .root => some t
  | .member family index => (members family)[index]?

/-- A part of a tree, with its families filed, **at its place**. -/
structure Stands (members : Nat → List NumberedTree) (t : NumberedTree) (p : Placed) : Prop where
  part : p.tree.PartOf t
  filed : Filed members p.tree
  tree : treeAt members t p.place = some p.tree

variable {p q : Placed} {ps : List Placed}

theorem stands_root (ht : Filed members t) : Stands members t ⟨.root, t⟩ := ⟨.refl t, ht, rfl⟩

/-- **One tree stands at a place.** A place is a member of a family, and the file says which tree
that is. -/
theorem Stands.eq (hp : Stands members t p) (hq : Stands members t q) (h : p.place = q.place) :
    p = q := by
  obtain ⟨place, u⟩ := p
  obtain ⟨place', v⟩ := q
  obtain rfl : place = place' := h
  obtain rfl : u = v := Option.some.inj (hp.tree.symm.trans hq.tree)
  rfl

/-- The children of what stands at its place **stand at theirs**. -/
theorem Stands.children (hp : Stands members t p) : ∀ q ∈ p.children, Stands members t q := by
  obtain ⟨place, u⟩ := p
  intro q hq
  cases hp.filed with
  | leaf => cases hq
  | branch label number hfiled =>
    obtain ⟨index, hindex, rfl⟩ := List.mem_mapIdx.mp hq
    have hmem : (members number)[index] ∈ members number := List.getElem_mem hindex
    exact ⟨.trans (.child hmem (.refl _)) hp.part, hfiled _ hmem,
      List.getElem?_eq_getElem hindex⟩

theorem Stands.firstNeeds (hp : Stands members t p) : ∀ q ∈ p.firstNeeds, Stands members t q := by
  intro q hq
  rcases Placed.mem_firstNeeds hq with hq | ⟨r, hr, hq⟩
  · exact hp.children q hq
  · exact (hp.children r hr).children q hq

/-! ### What is known of places -/

section

variable {σ α : Type} {right : NumberedTree → α → Prop} {known : Std.HashMap Place α}

/-- The values that are known **are right**, each of the tree at its place. -/
def KnowsRight (members : Nat → List NumberedTree) (t : NumberedTree)
    (right : NumberedTree → α → Prop) (known : Std.HashMap Place α) : Prop :=
  ∀ p, Stands members t p → ∀ value, known[p.place]? = some value → right p.tree value

theorem KnowsRight.insert (h : KnowsRight members t right known) (hp : Stands members t p)
    {value : α} (hvalue : right p.tree value) :
    KnowsRight members t right (known.insert p.place value) := by
  intro q hq value' hvalue'
  rw [Std.HashMap.getElem?_insert] at hvalue'
  split at hvalue'
  · next hplace =>
    rw [← Option.some.inj hvalue', ← hp.eq hq (eq_of_beq hplace)]
    exact hvalue
  · exact h q hq value' hvalue'

/-- What is looked up is right, **value by value**. The order is that of what was looked up. -/
theorem KnowsRight.forall₂ (h : KnowsRight members t right known)
    (hps : ∀ p ∈ ps, Stands members t p) {values : List α}
    (hvalues : values.map some = ps.map fun p => known[p.place]?) :
    List.Forall₂ (fun p value => right p.tree value) ps values := by
  induction ps generalizing values with
  | nil =>
    obtain rfl := List.map_eq_nil_iff.mp hvalues
    exact .nil
  | cons p ps ih =>
    obtain ⟨value, values, rfl, hvalue, hvalues⟩ := List.map_eq_cons_iff.mp hvalues
    obtain ⟨hp, hps⟩ := List.forall_mem_cons.mp hps
    exact .cons (h p hp value hvalue.symm) (ih hps hvalues)

/-- **What makes a fold right**: the trees that are needed stand at their places, and the value of a
tree is right when those of the trees that it needs are. -/
structure ComputesRight (members : Nat → List NumberedTree) (t : NumberedTree) (needs : Needs)
    (compute : Std.HashMap Place α → Placed → Folding σ α) (right : NumberedTree → α → Prop) :
    Prop where
  stands : ∀ p, Stands members t p → ∀ q ∈ needs.of p, Stands members t q
  exists_right : ∀ known p s, Stands members t p → KnowsRight members t right known →
    (∀ q ∈ needs.of p, q.place ∈ known) →
    ∃ value s', compute known p s = .ok (value, s') ∧ right p.tree value

/-- **The rule for the value of a fold**: it is right for the tree. One has to show it for a tree
whose children, or those that it needs, are right. -/
theorem ComputesRight.exists_fold {needs : Needs}
    {compute : Std.HashMap Place α → Placed → Folding σ α}
    (h : ComputesRight members t needs compute right) (ht : Filed members t) (s : σ) :
    ∃ value s', fold needs compute t s = .ok (value, s') ∧ right t value := by
  have hcomputes : Computes needs compute (Stands members t)
      fun known _ => KnowsRight members t right known := by
    refine ⟨h.stands, fun known p s hp hknown hneeds => ?_⟩
    obtain ⟨value, s', hvalue, hright⟩ := h.exists_right known p s hp hknown hneeds
    exact ⟨value, s', hvalue, hknown.insert hp hright⟩
  have hnone : KnowsRight members t right ∅ := fun p _ value hvalue => by simp at hvalue
  obtain ⟨known, value, s', hfold, hright, hvalue⟩ :=
    hcomputes.exists_fold (stands_root ht) hnone
  exact ⟨value, s', hfold, hright _ (stands_root ht) value hvalue⟩

end

end Tree

end GeneralParsing
