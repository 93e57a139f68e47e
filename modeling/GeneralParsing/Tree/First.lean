import GeneralParsing.Tree.Fold

/-!
# The first tree

`Tree.first` picks one of the trees that a tree stands for: at every packed tree the first
alternative is put into the place of the packed tree, and if that alternative is a group, its
members are.

Picking is a fold, so that shared parts are picked from once, and of a packed tree only what is
put in its place is gone through. Each of the trees that result has a family of its own. That
nothing is looked up that has not been gone through is `Tree.exists_firstTree`.
-/

namespace GeneralParsing

namespace Tree

/-- What each tree gives **in the place where it stands**. -/
abbrev Picked := Std.HashMap Place (List NumberedTree)

/-- A computation that numbers families, **as a part of a fold**. -/
def numbered {α : Type} (x : Numbering α) : Folding Nat α := fun n => .ok (x.run n)

/-- What trees give, **strung together**. -/
def splice (known : Picked) (ps : List Placed) : Folding Nat (List NumberedTree) := do
  return (← ps.mapM (lookup known)).flatten

/-- What a tree gives **in its place**, from what those that it needs give. -/
def pick (known : Picked) (p : Placed) : Folding Nat (List NumberedTree) :=
  if p.tree.isPacked then splice known p.firstParts
  else match p.tree with
    | .leaf label => return [.leaf label]
    | .branch label _ _ => do
      let parts ← splice known p.children
      return [← numbered (NumberedTree.inner label parts)]

/-- What the root gives **as one tree**: where a packed root gives another number of trees than
one, they are put into a group with its span. -/
def joined (root : NumberedTree) (parts : List NumberedTree) : Folding Nat NumberedTree :=
  if root.isPacked && parts.length != 1 then
    numbered (NumberedTree.inner { span := root.label.span } parts)
  else match parts with
    | first :: _ => return first
    | [] => throw .nothingPicked

/-- Picks the **first tree**, and may look up what is not there. -/
def firstTree (t : NumberedTree) : Folding Nat NumberedTree := do
  joined t (← fold .first pick t)

/-! ### No fault -/

variable {known : Picked} {p : Placed}

/-- What is spliced **is there** when all these places have been gone through. -/
theorem exists_splice {ps : List Placed} (h : ∀ p ∈ ps, p.place ∈ known) (n : Nat) :
    ∃ picks : List (List NumberedTree), splice known ps n = .ok (picks.flatten, n) ∧
      picks.map some = ps.map fun p => known[p.place]? := by
  obtain ⟨picks, hpicks, hmap⟩ := exists_lookups h n
  refine ⟨picks, ?_, hmap⟩
  change (ps.mapM (lookup known) n >>= _) = _
  rw [hpicks]
  rfl

/-- A packed tree gives **what its first alternative gives**. -/
theorem pick_of_isPacked (hp : p.tree.isPacked = true) : pick known p = splice known p.firstParts :=
  if_pos hp

/-- A leaf **gives itself**. -/
theorem pick_leaf {place : Place} {label : Label} (hp : label.packed = false) (n : Nat) :
    pick known ⟨place, .leaf label⟩ n = .ok ([.leaf label], n) := by
  rw [pick, if_neg (by simp [isPacked, Tree.label, hp])]
  rfl

/-- A tree with children gives a tree with **what they give** in a new family. -/
theorem pick_branch {place : Place} {label : Label} {family : Nat} {ts parts : List NumberedTree}
    (hp : label.packed = false) {n : Nat}
    (h : splice known (Placed.children ⟨place, .branch label family ts⟩) n = .ok (parts, n)) :
    pick known ⟨place, .branch label family ts⟩ n = .ok ([.branch label n parts], n + 1) := by
  rw [pick, if_neg (by simp [isPacked, Tree.label, hp])]
  change (splice known _ n >>= _) = _
  rw [h]
  rfl

/-- Where what a tree needs has been gone through, it **gives something**, and just one tree unless
it is packed. -/
theorem exists_pick (h : ∀ q ∈ p.firstNeeds, q.place ∈ known) (n : Nat) :
    ∃ parts n', pick known p n = .ok (parts, n') ∧
      (p.tree.isPacked = false → parts.length = 1) := by
  cases hp : p.tree.isPacked with
  | true =>
    rw [Placed.firstNeeds, if_pos hp] at h
    obtain ⟨picks, hpicks, -⟩ := exists_splice h n
    exact ⟨_, _, by rw [pick_of_isPacked hp, hpicks], nofun⟩
  | false =>
    rw [Placed.firstNeeds, if_neg (by simp [hp])] at h
    obtain ⟨place, _ | _⟩ := p
    · exact ⟨_, _, pick_leaf hp n, fun _ => rfl⟩
    · obtain ⟨picks, hpicks, -⟩ := exists_splice h n
      exact ⟨_, _, pick_branch hp hpicks, fun _ => rfl⟩

/-- What is known of the root is **one tree**, unless the root is packed. -/
def RootPicked (t : NumberedTree) (known : Picked) : Prop :=
  ∀ parts, known[Place.root]? = some parts → t.isPacked = false → parts.length = 1

theorem RootPicked.insert {t : NumberedTree} (h : RootPicked t known) {parts : List NumberedTree}
    (hp : p.place = .root → t.isPacked = false → parts.length = 1) :
    RootPicked t (known.insert p.place parts) := by
  intro parts' hparts'
  rw [Std.HashMap.getElem?_insert] at hparts'
  split at hparts'
  · next hplace =>
    rw [← Option.some.inj hparts']
    exact hp (eq_of_beq hplace)
  · exact h parts' hparts'

/-- One tree **is left as it is**, and so is one that a packed root gives. -/
theorem joined_singleton (root first : NumberedTree) (n : Nat) :
    joined root [first] n = .ok (first, n) := by
  unfold joined
  rw [if_neg (by simp)]
  rfl

/-- Another number of trees is **put into a group**. -/
theorem joined_of_length_ne {root : NumberedTree} (hp : root.isPacked = true)
    {parts : List NumberedTree} (h : parts.length ≠ 1) (n : Nat) :
    joined root parts n = .ok (.branch { span := root.label.span } n parts, n + 1) := by
  unfold joined
  rw [if_pos (by simp [hp, h])]
  rfl

/-- Where all that a tree needs is gone through, the root **gives something**, and just one tree
unless it is packed. -/
theorem exists_fold_pick (t : NumberedTree) (n : Nat) : ∃ parts n',
    fold .first pick t n = .ok (parts, n') ∧ (t.isPacked = false → parts.length = 1) := by
  have hcomputes : Computes .first pick (fun p => p.place = .root → p.tree = t)
      fun known _ => RootPicked t known := by
    refine ⟨fun p _ q hq hplace => ?_, fun known p n hp hknown hneeds => ?_⟩
    · exact absurd hplace (Placed.place_ne_root_of_mem_firstNeeds hq)
    · obtain ⟨parts, n', hparts, hlength⟩ := exists_pick hneeds n
      exact ⟨parts, n', hparts, hknown.insert fun hplace => hp hplace ▸ hlength⟩
  obtain ⟨known, parts, n', hfold, hknown, hroot⟩ :=
    hcomputes.exists_fold (fun _ => rfl) (s := n) fun parts h => by simp at h
  exact ⟨parts, n', hfold, hknown parts hroot⟩

/-- What the root gives **is picked** if it is one tree, and put into a group if it is not. -/
theorem firstTree_cases {t : NumberedTree} {n n' : Nat} {parts : List NumberedTree}
    (h : fold .first pick t n = .ok (parts, n')) :
    (∃ u, parts = [u] ∧ firstTree t n = .ok (u, n')) ∨ (parts.length ≠ 1 ∧
      firstTree t n = .ok (.branch { span := t.label.span } n' parts, n' + 1)) := by
  have hfirst : firstTree t n = joined t parts n' := by
    change (fold .first pick t n >>= _) = _
    rw [h]
    rfl
  by_cases hlength : parts.length = 1
  · obtain ⟨u, rfl⟩ := List.length_eq_one_iff.mp hlength
    exact .inl ⟨u, rfl, hfirst.trans (joined_singleton t u n')⟩
  · have hpacked : t.isPacked = true := by
      obtain ⟨parts', _, hfold, hone⟩ := exists_fold_pick t n
      obtain ⟨rfl, -⟩ := Prod.mk.inj (Except.ok.inj (h.symm.trans hfold))
      exact (Bool.not_eq_false _).mp fun hp => hlength (hone hp)
    exact .inr ⟨hlength, hfirst.trans (joined_of_length_ne hpacked hlength n')⟩

/-- Picking **ends without a fault**, whatever the marks of the tree and the number of the next
family. -/
theorem exists_firstTree (t : NumberedTree) (n : Nat) : ∃ result, firstTree t n = .ok result := by
  obtain ⟨parts, n', hfold, -⟩ := exists_fold_pick t n
  obtain ⟨_, -, hfirst⟩ | ⟨-, hfirst⟩ := firstTree_cases hfold
  · exact ⟨_, hfirst⟩
  · exact ⟨_, hfirst⟩

/-- The **first tree**. -/
def first (t : NumberedTree) : Numbering NumberedTree :=
  modifyGet fun n => faultless (firstTree t n) (exists_firstTree t n)

end Tree

end GeneralParsing
