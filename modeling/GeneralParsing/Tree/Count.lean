import GeneralParsing.Tree.Fold
import Std.Data.HashSet

/-!
# Counting trees

A tree with packed parts stands for many: the alternatives of a packed tree add up, and the
choices for siblings multiply. The count stops at `2 ^ 128 - 1`. Counting is a fold, so parts that
are shared are counted once, and it never looks up a count that is not there
(`Tree.exists_countTrees`). `Tree.stats` also counts the distinct packed trees and groups.
-/

namespace GeneralParsing

namespace Tree

/-! ### Counts -/

/-- Where counts **stop**. -/
def countLimit : Nat := Nat.pow 2 128 - 1

/-- Addition that stops at the limit. -/
def addCount (a b : Nat) : Nat := min countLimit (a + b)

/-- Multiplication that stops at the limit. -/
def mulCount (a b : Nat) : Nat := min countLimit (a * b)

/-- The count of a tree, from **the counts of its children**. -/
def countAt (known : Std.HashMap Place Nat) (p : Placed) : Folding Unit Nat := do
  let counts ← p.children.mapM (lookup known)
  return if p.tree.isPacked then counts.foldl addCount 0 else counts.foldl mulCount 1

/-- Where the children have been counted, a tree **is counted**. -/
theorem exists_countAt {known : Std.HashMap Place Nat} {p : Placed}
    (h : ∀ q ∈ p.children, q.place ∈ known) : ∃ counts : List Nat,
      countAt known p () = .ok
        (if p.tree.isPacked then counts.foldl addCount 0 else counts.foldl mulCount 1, ()) ∧
      counts.map some = p.children.map fun q => known[q.place]? := by
  obtain ⟨counts, hcounts, hmap⟩ := exists_lookups h ()
  refine ⟨counts, ?_, hmap⟩
  change (p.children.mapM (lookup known) () >>= _) = _
  rw [hcounts]
  rfl

/-- **Counts** the trees that a tree stands for, and may look up what is not there. -/
def countTrees (t : NumberedTree) : Folding Unit Nat := fold .children countAt t

/-- Counting **ends without a fault**, however the parts are shared. -/
theorem exists_countTrees (t : NumberedTree) : ∃ result, countTrees t () = .ok result := by
  have hcomputes : Computes .children countAt (fun _ => True) fun _ _ => True :=
    ⟨fun _ _ _ _ => trivial, fun known p _ _ _ h =>
      have ⟨_, hcount, _⟩ := exists_countAt h
      ⟨_, _, hcount, trivial⟩⟩
  obtain ⟨_, n, _, hfold, -⟩ := hcomputes.exists_fold (t := t) trivial (s := ()) trivial
  exact ⟨_, hfold⟩

/-- **How many trees** a tree stands for, up to the limit. -/
def count (t : NumberedTree) : Nat := (faultless (countTrees t ()) (exists_countTrees t)).1

/-! ### Figures -/

/-- **Figures** about a tree. -/
structure Stats where
  /-- How many trees it stands for. -/
  trees : Nat
  /-- How many distinct packed trees it has. -/
  ambiguous : Nat
  /-- How many distinct groups it has. -/
  groups : Nat
  deriving Repr, DecidableEq

theorem totalSize_reverse_append (ps qs : List Placed) :
    totalSize (ps.reverse ++ qs) = totalSize ps + totalSize qs := by
  induction ps generalizing qs with
  | nil => exact (Nat.zero_add _).symm
  | cons p ps ih =>
    have hcons (p : Placed) (ps : List Placed) :
        totalSize (p :: ps) = p.tree.size + totalSize ps := rfl
    rw [List.reverse_cons, List.append_assoc, List.singleton_append, ih, hcons, hcons]
    omega

/-- **Goes through the parts** that are left, each place once. -/
def walkParts (seen : Std.HashSet Place) (found : List NumberedTree) :
    List Placed → List NumberedTree
  | [] => found
  | p :: rest =>
    if seen.contains p.place then walkParts seen found rest
    else walkParts (seen.insert p.place) (p.tree :: found) (p.children.reverse ++ rest)
termination_by pending => totalSize pending
decreasing_by
  · have := size_pos p.tree
    change totalSize rest < p.tree.size + totalSize rest
    omega
  · have := totalSize_children_lt p
    rw [totalSize_reverse_append]
    change _ < p.tree.size + totalSize rest
    omega

/-- The **distinct trees** in a tree, itself among them. -/
def distinct (t : NumberedTree) : List NumberedTree := walkParts ∅ [] [⟨.root, t⟩]

/-- The **figures** about a tree. -/
def stats (t : NumberedTree) : Stats :=
  let parts := t.distinct
  ⟨t.count, parts.countP isPacked, parts.countP isGroup⟩

end Tree

end GeneralParsing
