import GeneralParsing.Proofs.Tree.Places
import GeneralParsing.Tree.Equality

/-!
# Comparing trees

Trees are compared part by part, except that two families with one number are not gone through.
Where one number means one list in both trees, this finds out whether they are equal apart from
sharing (`Tree.same_iff`).
-/

namespace GeneralParsing

namespace Tree

variable {members : Nat → List NumberedTree} {t u : NumberedTree}

/-- Lists are equal apart from sharing if they are **as long, and equal in pairs**. -/
theorem map_plain_eq_iff {ts us : List NumberedTree} : ts.map plain = us.map plain ↔
    ts.length = us.length ∧ ∀ p ∈ ts.zip us, p.1.plain = p.2.plain := by
  rw [← List.forall₂_eq_eq_eq, List.forall₂_map_left_iff, List.forall₂_map_right_iff,
    List.forall₂_iff_zip, Prod.forall]

theorem samePairs_iff {pairs : List (NumberedTree × NumberedTree)}
    (h : ∀ p ∈ pairs, Filed members p.1 ∧ Filed members p.2) :
    samePairs pairs = true ↔ ∀ p ∈ pairs, p.1.plain = p.2.plain := by
  induction pairs using samePairs.induct with
  | case1 => simp [samePairs]
  | case2 l m rest ih =>
    obtain ⟨-, hrest⟩ := List.forall_mem_cons.mp h
    rw [samePairs, Bool.and_eq_true, beq_iff_eq, ih hrest, List.forall_mem_cons, plain_leaf,
      plain_leaf, leaf.injEq]
  | case3 l f ts m g us rest ih ihall =>
    obtain ⟨⟨ht, hu⟩, hrest⟩ := List.forall_mem_cons.mp h
    cases ht with | branch _ _ hts =>
    cases hu with | branch _ _ hus =>
    have hall : ∀ p ∈ (members f).zip (members g) ++ rest,
        Filed members p.1 ∧ Filed members p.2 := by
      intro p hp
      rcases List.mem_append.mp hp with hp | hp
      · exact ⟨hts _ (List.of_mem_zip hp).1, hus _ (List.of_mem_zip hp).2⟩
      · exact hrest p hp
    rw [samePairs, Bool.and_eq_true, beq_iff_eq, List.forall_mem_cons, plain_branch, plain_branch,
      branch.injEq]
    split
    · next hsame => simp [hsame, ih hrest]
    · rw [Bool.and_eq_true, beq_iff_eq, ihall hall, List.forall_mem_append, map_plain_eq_iff]
      tauto
  | case4 pairs hnil hleaf hbranch =>
    match pairs with
    | [] => exact absurd rfl hnil
    | (.leaf l, .leaf m) :: rest => exact absurd rfl (hleaf l m rest)
    | (.branch l f ts, .branch m g us) :: rest => exact absurd rfl (hbranch l f ts m g us rest)
    | (.leaf l, .branch m g us) :: rest | (.branch l f ts, .leaf m) :: rest => simp [samePairs]

/-- **Trees compare as equal just if they are**, where one number means one list in both. What is
shared is compared once, by its number, and that is right because of the file. -/
theorem same_iff (ht : Filed members t) (hu : Filed members u) :
    t.same u = true ↔ t.plain = u.plain := by
  rw [same, samePairs_iff (List.forall_mem_singleton.mpr ⟨ht, hu⟩), List.forall_mem_singleton]

end Tree

end GeneralParsing
