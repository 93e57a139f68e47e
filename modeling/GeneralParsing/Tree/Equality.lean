import GeneralParsing.Tree.Build

/-!
# Equal trees

`Tree.same` compares two trees without regard to their marks, except that two families with one
number are not gone through: they are the same list. The comparison keeps its own list of what is
left to do, so that depth costs nothing.
-/

namespace GeneralParsing

namespace Tree

/-- The total size of the left sides of a list of pairs. -/
def pairsSize (pairs : List (NumberedTree × NumberedTree)) : Nat := sizeList (pairs.map (·.1))

theorem pairsSize_zip_le (ts us : List NumberedTree) : pairsSize (ts.zip us) ≤ sizeList ts := by
  induction ts generalizing us with
  | nil => simp [pairsSize, sizeList]
  | cons t ts ih =>
    cases us with
    | nil => simp [pairsSize, sizeList]
    | cons u us =>
      have h := ih us
      simp only [pairsSize, List.zip_cons_cons, List.map_cons, sizeList] at h ⊢
      omega

/-- Whether the trees of **each pair** are equal. -/
def samePairs : List (NumberedTree × NumberedTree) → Bool
  | [] => true
  | (leaf l, leaf m) :: rest => l == m && samePairs rest
  | (branch l f ts, branch m g us) :: rest =>
    l == m &&
      if f = g then samePairs rest
      else ts.length == us.length && samePairs (ts.zip us ++ rest)
  | _ => false
termination_by pairs => pairsSize pairs
decreasing_by
  · simp only [pairsSize, List.map_cons, sizeList, size]
    omega
  · simp only [pairsSize, List.map_cons, sizeList, size]
    omega
  · have h := pairsSize_zip_le ts us
    simp only [pairsSize, List.map_append, sizeList_append, List.map_cons, sizeList, size] at h ⊢
    omega

/-- Whether two trees are **equal** but for the marks. -/
def same (t u : NumberedTree) : Bool := samePairs [(t, u)]

end Tree

end GeneralParsing
