import GeneralParsing.Proofs.Tree.Counting

/-!
# Counting with any sharing

A mark stands for one list of trees that is used in one place or in many. So the marks of a tree are
sound when the parts that carry one number have one list of children (`Tree.SoundlyMarked`), however
many of them there are and wherever they stand. Nothing else is asked of a tree: not that it comes
from a parse, that equal lists are shared, or that packed parts have alternatives.

This is enough to file the families (`Tree.soundlyMarked_iff`), and `Tree.count_exact` has the
number of trees for every tree with sound marks. The number can be exponential in what is there to
be counted: each level of `Tree.doubling` is packed and has the level below for both of its
alternatives, and at level 128 the count stops.
-/

namespace GeneralParsing

namespace Tree

variable {t u : NumberedTree} {members : Nat → List NumberedTree}

/-- Parts of the tree that carry **one number have one list** of children. -/
def SoundlyMarked (t : NumberedTree) : Prop :=
  ∀ ⦃label label' : Label⦄ ⦃number : Nat⦄ ⦃ts us : List NumberedTree⦄,
    (branch label number ts).PartOf t → (branch label' number us).PartOf t → ts = us

/-- A tree is filed when **each of its parts with children** has those filed under its number. -/
theorem filed_of_parts
    (h : ∀ label number ts, (branch label number ts).PartOf t → members number = ts) :
    Filed members t := by
  induction t using Tree.induct with
  | leaf label => exact .leaf label
  | branch label number ts ih =>
    obtain rfl := h label number ts (.refl _)
    exact .branch label number fun u hu => ih u hu fun label' number' us hus =>
      h label' number' us (.child hu hus)

open Classical in
/-- Marks are sound **exactly when the families can be filed** under their numbers. -/
theorem soundlyMarked_iff : SoundlyMarked t ↔ ∃ members, Filed members t := by
  constructor
  · intro ht
    refine ⟨fun number => if h : ∃ label ts, (branch label number ts).PartOf t then
      h.choose_spec.choose else [], filed_of_parts fun label number ts hpart => ?_⟩
    have hsome : ∃ label ts, (branch label number ts).PartOf t := ⟨label, ts, hpart⟩
    rw [dif_pos hsome]
    exact ht hsome.choose_spec.choose_spec hpart
  · rintro ⟨members, ht⟩ label label' number ts us hts hus
    have hfiled := ht.part hts
    have hfiled' := ht.part hus
    cases hfiled
    cases hfiled'
    rfl

/-- **Counting is exact up to the limit**: with any sharing, the count is the number of trees by
plain recursion, or the limit if the number is larger. -/
theorem count_exact (ht : SoundlyMarked t) : t.count = min (2 ^ 128 - 1) t.plain.number := by
  obtain ⟨members, hfiled⟩ := soundlyMarked_iff.mp ht
  exact count_eq hfiled

/-! ### Doubling -/

/-- A tower of packed trees, each with **the tree below it twice**. -/
def doubling : Nat → NumberedTree
  | 0 => leaf { value := some "1" }
  | n + 1 => branch { packed := true } n [doubling n, doubling n]

theorem filed_doubling (n : Nat) : Filed (fun k => [doubling k, doubling k]) (doubling n) := by
  induction n with
  | zero => exact .leaf _
  | succ n ih => exact .branch _ n (by simpa using ih)

theorem number_doubling (n : Nat) : (doubling n).plain.number = 2 ^ n := by
  induction n with
  | zero => rfl
  | succ n ih =>
    simp only [doubling, plain_branch, number, List.map_cons, List.map_nil, numberAny, ih]
    simp only [if_pos, pow_succ]
    omega

/-- The count of a tower of 130 levels **stops at the limit**. -/
theorem count_exact_doubling :
    SoundlyMarked (doubling 130) ∧ (doubling 130).count = 2 ^ 128 - 1 := by
  have hmarked : SoundlyMarked (doubling 130) := soundlyMarked_iff.mpr ⟨_, filed_doubling 130⟩
  refine ⟨hmarked, ?_⟩
  rw [count_exact hmarked, number_doubling]
  exact Nat.min_eq_left (by norm_num)

end Tree

end GeneralParsing
