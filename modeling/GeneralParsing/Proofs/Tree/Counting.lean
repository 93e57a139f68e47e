import GeneralParsing.Proofs.Tree.Places
import GeneralParsing.Tree.Count

/-!
# How many trees a tree stands for

`Tree.number` counts the readings of a tree by plain recursion and without a limit: the numbers of
alternatives add up, those of siblings multiply (`length_readingsAt`). `Tree.count` folds the tree
and stops at a limit. On a tree whose families are filed it gives the number, or the limit if the
number is larger (`count_eq`): sums and products that are cut off on the way and used further are
cut off as they would be at the end.

`Tree.distinct` has the parts of a tree, each place once (`mem_distinct`). So a tree in which every
packed part has two alternatives or more stands for one tree just when none of its parts is packed
(`trees_eq_one_iff`).
-/

namespace GeneralParsing

namespace Tree

/-! ### Numbers of readings -/

mutual

/-- **How many trees** a tree stands for, without a limit. -/
def number : PlainTree → Nat
  | leaf label => if label.packed then 0 else 1
  | branch label _ children => if label.packed then numberAny children else numberAll children

/-- How many choices there are for **siblings**. -/
def numberAll : List PlainTree → Nat
  | [] => 1
  | t :: ts => number t * numberAll ts

/-- How many trees there are among **alternatives**. -/
def numberAny : List PlainTree → Nat
  | [] => 0
  | t :: ts => number t + numberAny ts

end

/-- For siblings the numbers of readings **are multiplied**. -/
theorem numberAll_eq_prod (ts : List PlainTree) : numberAll ts = (ts.map number).prod := by
  induction ts with
  | nil => rfl
  | cons t ts ih => rw [numberAll, ih, List.map_cons, List.prod_cons]

/-- For alternatives the numbers of readings **are added up**. -/
theorem numberAny_eq_sum (ts : List PlainTree) : numberAny ts = (ts.map number).sum := by
  induction ts with
  | nil => rfl
  | cons t ts ih => rw [numberAny, ih, List.map_cons, List.sum_cons]

/-- Siblings read in one way just when **each of them does**. -/
theorem numberAll_eq_one_iff {ts : List PlainTree} :
    numberAll ts = 1 ↔ ∀ t ∈ ts, number t = 1 := by
  induction ts with
  | nil => simp [numberAll]
  | cons t ts ih => rw [numberAll, mul_eq_one, ih, List.forall_mem_cons]

/-- Numbers of readings count **the readings** of siblings, if they count those of each. -/
theorem length_readingsAll {ts : List PlainTree}
    (h : ∀ t ∈ ts, (readingsAt false t).length = number t) :
    (readingsAll ts).length = numberAll ts := by
  induction ts with
  | nil => rfl
  | cons t ts ih =>
    obtain ⟨ht, hts⟩ := List.forall_mem_cons.mp h
    rw [readingsAll, numberAll, List.length_flatMap, ← ht, ← ih hts]
    simp

/-- The number of a tree is **the number of its readings**, in its place or as an alternative. So
the number can be computed without listing the readings, which may be very many. -/
theorem length_readingsAt (t : PlainTree) : ∀ b, (readingsAt b t).length = number t := by
  induction t using Tree.induct with
  | leaf label =>
    intro b
    rw [readingsAt, number]
    split <;> rfl
  | branch label family children ih =>
    intro b
    have hall := length_readingsAll fun t ht => ih t ht false
    rw [readingsAt, number]
    split
    · rw [readingsAny_eq_flatMap, numberAny_eq_sum, List.length_flatMap]
      exact congrArg List.sum (List.map_congr_left fun t ht => ih t ht true)
    · split
      · exact hall
      · rw [List.length_map, hall]

/-! ### Counting up to the limit -/

/-- The limit leaves room **to tell one from several**. -/
theorem two_le_countLimit : 2 ≤ countLimit := by
  rw [countLimit]
  decide

/-- Adding up to the limit is **adding, and then cutting off**. -/
theorem addCount_min (a b : Nat) :
    addCount (min countLimit a) (min countLimit b) = min countLimit (a + b) := by
  rw [addCount]
  omega

/-- A factor that is cut off at a limit makes the product **reach the limit**, unless the other
factor is zero. -/
theorem min_mul_min (limit a b : Nat) : min limit (a * min limit b) = min limit (a * b) := by
  rcases Nat.le_total b limit with hle | hle
  · rw [Nat.min_eq_right hle]
  rcases Nat.eq_zero_or_pos a with rfl | hpos
  · simp
  have hcut : limit ≤ a * limit := Nat.le_mul_of_pos_left limit hpos
  have hwhole : a * limit ≤ a * b := Nat.mul_le_mul_left a hle
  rw [Nat.min_eq_left hle]
  omega

/-- Multiplying up to the limit is **multiplying, and then cutting off**, even where a factor is
zero. -/
theorem mulCount_min (a b : Nat) :
    mulCount (min countLimit a) (min countLimit b) = min countLimit (a * b) := by
  rw [mulCount, min_mul_min, Nat.mul_comm, min_mul_min, Nat.mul_comm]

/-- Sums may be cut off **at every step** or once at the end. So saturating as one goes is as good
as saturating at the end. -/
theorem foldl_addCount (ns : List Nat) (a : Nat) :
    (ns.map (min countLimit)).foldl addCount (min countLimit a) =
      min countLimit (a + ns.sum) := by
  induction ns generalizing a with
  | nil => rfl
  | cons n ns ih =>
    rw [List.map_cons, List.foldl_cons, addCount_min, ih, List.sum_cons, Nat.add_assoc]

/-- Products may be cut off **at every step** or once at the end. -/
theorem foldl_mulCount (ns : List Nat) (a : Nat) :
    (ns.map (min countLimit)).foldl mulCount (min countLimit a) =
      min countLimit (a * ns.prod) := by
  induction ns generalizing a with
  | nil => simp
  | cons n ns ih =>
    rw [List.map_cons, List.foldl_cons, mulCount_min, ih, List.prod_cons, Nat.mul_assoc]

variable {members : Nat → List NumberedTree} {known : Std.HashMap Place Nat}
variable {p : Placed} {t u : NumberedTree}

/-- A value that is the **number of trees, up to the limit**. -/
def CountsRight (t : NumberedTree) (n : Nat) : Prop := n = min countLimit t.plain.number

/-- Counts that are right are **the numbers of the children**, up to the limit. They are looked up
in a table, where each place has one. -/
theorem counts_eq {counts : List Nat}
    (h : List.Forall₂ (fun q n => CountsRight q.tree n) p.children counts) :
    counts = ((p.tree.children.map plain).map number).map (min countLimit) := by
  rw [← Placed.map_tree_children, List.map_map, List.map_map, List.map_map]
  generalize p.children = qs at h
  induction h with
  | nil => rfl
  | cons hn _ ih => rw [List.map_cons, ih, hn, Function.comp_apply, Function.comp_apply,
      Function.comp_apply]

/-- A tree is **counted right** when its children are. A packed tree adds up the numbers of its
alternatives, and any other multiplies those of its children. -/
theorem countsRight_countAt (hp : Stands members t p)
    (hknown : KnowsRight members t CountsRight known) (h : ∀ q ∈ p.children, q.place ∈ known) :
    ∃ n, countAt known p () = .ok (n, ()) ∧ CountsRight p.tree n := by
  have hlimit := two_le_countLimit
  obtain ⟨counts, hcount, hmap⟩ := exists_countAt h
  refine ⟨_, hcount, ?_⟩
  have hcounts := counts_eq (hknown.forall₂ hp.children hmap)
  have hsum := foldl_addCount ((p.tree.children.map plain).map number) 0
  have hprod := foldl_mulCount ((p.tree.children.map plain).map number) 1
  rw [Nat.min_eq_right (by omega), Nat.zero_add] at hsum
  rw [Nat.min_eq_right (by omega), Nat.one_mul] at hprod
  rw [CountsRight, hcounts, hsum, hprod]
  cases p.tree with
  | leaf label =>
    rw [plain_leaf, number]
    change (if label.packed = true then _ else _) = _
    split <;> rfl
  | branch label family ts =>
    rw [plain_branch, number, numberAny_eq_sum, numberAll_eq_prod]
    change (if label.packed = true then _ else _) = _
    split <;> rfl

/-- **Counting gives the number of trees, up to the limit.** A subtree that is shared is counted
where it first occurs, and looked up elsewhere. -/
theorem count_eq (ht : Filed members t) : t.count = min countLimit t.plain.number := by
  have hcomputes : ComputesRight members t .children countAt CountsRight := by
    refine ⟨fun _ hp => hp.children, fun known p _ hp hknown h => ?_⟩
    obtain ⟨n, hn, hright⟩ := countsRight_countAt hp hknown h
    exact ⟨n, _, hn, hright⟩
  obtain ⟨n, _, hfold, hright⟩ := hcomputes.exists_fold ht ()
  have hcount : countTrees t () = .ok (n, ()) := hfold
  rw [count, faultless_eq hcount]
  exact hright

/-! ### Distinct parts -/

/-- What has been seen **is found**, and its children have been seen or are still to be gone
through. -/
def Seen (members : Nat → List NumberedTree) (t : NumberedTree) (seen : Std.HashSet Place)
    (found : List NumberedTree) (pending : List Placed) : Prop :=
  ∀ p, Stands members t p → p.place ∈ seen →
    p.tree ∈ found ∧ ∀ q ∈ p.children, q.place ∈ seen ∨ q ∈ pending

section

variable {seen : Std.HashSet Place} {found : List NumberedTree} {pending : List Placed}

/-- A place that has been seen **is not counted again**. -/
theorem Seen.skip (h : Seen members t seen found (p :: pending)) (hp : p.place ∈ seen) :
    Seen members t seen found pending := by
  intro q hq hseen
  obtain ⟨hfound, hchildren⟩ := h q hq hseen
  refine ⟨hfound, fun r hr => ?_⟩
  rcases hchildren r hr with hr | hr
  · exact .inl hr
  · rcases List.mem_cons.mp hr with rfl | hr
    · exact .inl hp
    · exact .inr hr

/-- A tree is seen, and **its children come next**. This is the one step of the walk; what is left
of it is in the list. -/
theorem Seen.step (h : Seen members t seen found (p :: pending)) (hp : Stands members t p) :
    Seen members t (seen.insert p.place) (p.tree :: found) (p.children.reverse ++ pending) := by
  intro q hq hseen
  rcases Std.HashSet.mem_insert.mp hseen with hplace | hseen
  · obtain rfl := hp.eq hq (eq_of_beq hplace)
    exact ⟨List.mem_cons_self, fun r hr =>
      .inr (List.mem_append_left _ (List.mem_reverse.mpr hr))⟩
  · obtain ⟨hfound, hchildren⟩ := h q hq hseen
    refine ⟨List.mem_cons_of_mem _ hfound, fun r hr => ?_⟩
    rcases hchildren r hr with hr | hr
    · exact .inl (Std.HashSet.mem_insert.mpr (.inr hr))
    · rcases List.mem_cons.mp hr with rfl | hr
      · exact .inl Std.HashSet.mem_insert_self
      · exact .inr (List.mem_append_right _ hr)

/-- Going through what is left sees **all that is left** and, with a tree, its children. It finds
parts only. -/
theorem walkParts_spec (hpending : ∀ p ∈ pending, Stands members t p)
    (hfound : ∀ u ∈ found, u.PartOf t) (hseen : Seen members t seen found pending) :
    ∃ seen', Seen members t seen' (walkParts seen found pending) [] ∧
      (∀ place ∈ seen, place ∈ seen') ∧ (∀ p ∈ pending, p.place ∈ seen') ∧
      ∀ u ∈ walkParts seen found pending, u.PartOf t := by
  fun_induction walkParts seen found pending with
  | case1 seen found => exact ⟨seen, hseen, fun _ h => h, nofun, hfound⟩
  | case2 seen found p rest hp ih =>
    have hmem : p.place ∈ seen := Std.HashSet.mem_iff_contains.mpr hp
    obtain ⟨-, hrest⟩ := List.forall_mem_cons.mp hpending
    obtain ⟨seen', hseen', hle, hall, hparts⟩ := ih hrest hfound (hseen.skip hmem)
    exact ⟨seen', hseen', hle, List.forall_mem_cons.mpr ⟨hle _ hmem, hall⟩, hparts⟩
  | case3 seen found p rest hp ih =>
    obtain ⟨hstands, hrest⟩ := List.forall_mem_cons.mp hpending
    have hnext : ∀ q ∈ p.children.reverse ++ rest, Stands members t q := fun q hq =>
      (List.mem_append.mp hq).elim (fun hq => hstands.children q (List.mem_reverse.mp hq))
        (hrest q)
    obtain ⟨seen', hseen', hle, hall, hparts⟩ := ih hnext
      (List.forall_mem_cons.mpr ⟨hstands.part, hfound⟩) (hseen.step hstands)
    exact ⟨seen', hseen', fun place h => hle place (Std.HashSet.mem_insert.mpr (.inr h)),
      List.forall_mem_cons.mpr ⟨hle _ Std.HashSet.mem_insert_self,
        fun q hq => hall q (List.mem_append_right _ hq)⟩, hparts⟩

/-- Where nothing is left, **the parts of what has been seen** are found. -/
theorem Seen.mem_of_partOf (h : Seen members t seen found []) (hp : Stands members t p)
    (hmem : p.place ∈ seen) (hu : u.PartOf p.tree) : u ∈ found := by
  generalize hv : p.tree = v at hu
  induction hu generalizing p with
  | refl => exact hv ▸ (h p hp hmem).1
  | child hw _ ih =>
    subst hv
    rw [← Placed.map_tree_children] at hw
    obtain ⟨q, hq, rfl⟩ := List.mem_map.mp hw
    exact ih (hp.children q hq) (((h p hp hmem).2 q hq).resolve_right (by simp)) rfl

end

/-- The distinct trees in a tree are **its parts**. Parts that are shared occur once, and equal ones
that are not shared occur as often as there are places. -/
theorem mem_distinct (ht : Filed members t) : u ∈ t.distinct ↔ u.PartOf t := by
  have hroot := stands_root ht
  have hnone : Seen members t ∅ [] [⟨.root, t⟩] := fun p _ h => by simp at h
  obtain ⟨seen, hseen, -, hall, hparts⟩ :=
    walkParts_spec (by simpa using hroot) (by simp) hnone
  exact ⟨hparts u, hseen.mem_of_partOf hroot (hall _ (List.mem_singleton_self _))⟩

/-- No part is counted as ambiguous just when **none is packed**. -/
theorem ambiguous_eq_zero_iff (ht : Filed members t) :
    t.stats.ambiguous = 0 ↔ ∀ u : NumberedTree, u.PartOf t → u.isPacked = false := by
  simp only [stats, List.countP_eq_zero, mem_distinct ht, Bool.not_eq_true]

/-! ### One tree -/

/-- When packed parts have **two alternatives or more**, there is a tree, and just one only where
nothing is packed. -/
theorem number_eq_one_iff {t : PlainTree}
    (h : ∀ u : PlainTree, u.PartOf t → u.isPacked = true → 2 ≤ u.children.length) :
    1 ≤ t.number ∧ (t.number = 1 ↔ ∀ u : PlainTree, u.PartOf t → u.isPacked = false) := by
  induction t using Tree.induct with
  | leaf label =>
    have hp : label.packed = false := by
      by_contra hp
      have hlen := h _ (.refl _) (by simpa [isPacked, Tree.label] using hp)
      simp [children] at hlen
    rw [number, if_neg (by simp [hp])]
    refine ⟨Nat.le_refl 1, iff_of_true rfl ?_⟩
    rw [forall_part_iff]
    simpa [isPacked, Tree.label, children] using hp
  | branch label family members ih =>
    have ih := fun u hu => ih u hu fun v hv => h v (.child hu hv)
    rw [number, forall_part_iff]
    by_cases hp : label.packed = true
    · -- two alternatives, each of which stands for a tree at least
      have hlen : 2 ≤ members.length := h _ (.refl _) hp
      have hsum : members.length ≤ numberAny members := by
        rw [numberAny_eq_sum, ← List.length_map number]
        exact List.length_le_sum_of_one_le _ (List.forall_mem_map.mpr fun u hu => (ih u hu).1)
      rw [if_pos hp]
      refine ⟨by omega, iff_of_false (by omega) fun hnone => ?_⟩
      exact absurd hnone.1 (by simp [isPacked, Tree.label, hp])
    · rw [if_neg hp]
      refine ⟨?_, ?_⟩
      · rw [numberAll_eq_prod]
        exact List.one_le_prod (List.forall_mem_map.mpr fun u hu => (ih u hu).1)
      rw [numberAll_eq_one_iff]
      constructor
      · exact fun hone => ⟨by simpa [isPacked, Tree.label] using hp,
          fun u hu => (ih u hu).2.mp (hone u hu)⟩
      · exact fun hnone u hu => (ih u hu).2.mpr (hnone.2 u hu)

/-- A tree whose packed parts have two alternatives or more stands for **one tree just when none of
its parts is packed**. -/
theorem trees_eq_one_iff (ht : Filed members t)
    (h : ∀ u : NumberedTree, u.PartOf t → u.isPacked = true → 2 ≤ u.children.length) :
    t.stats.trees = 1 ↔ t.stats.ambiguous = 0 := by
  have hlimit := two_le_countLimit
  have hplain : ∀ u : PlainTree, u.PartOf t.plain → u.isPacked = true →
      2 ≤ u.children.length := by
    intro u hu hp
    obtain ⟨v, hv, rfl⟩ := hu.exists_of_plain
    rw [children_plain, List.length_map]
    exact h v hv (by simpa using hp)
  have hnumber : t.stats.trees = min countLimit t.plain.number := count_eq ht
  obtain ⟨hone, hiff⟩ := number_eq_one_iff hplain
  have hmin : min countLimit t.plain.number = 1 ↔ t.plain.number = 1 := by omega
  rw [hnumber, hmin, hiff, ambiguous_eq_zero_iff ht]
  constructor
  · exact fun hnone u hu => by simpa using hnone u.plain hu.plain
  · intro hnone u hu
    obtain ⟨v, hv, rfl⟩ := hu.exists_of_plain
    rw [isPacked_plain]
    exact hnone v hv

end Tree

end GeneralParsing
