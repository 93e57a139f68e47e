import GeneralParsing.Proofs.Parsing.Termination

/-!
# Extraction is a recursion over paths

`Forest.Recursion f o out` says, with neither a memory nor a bound on the depth, what the outputs of
nodes on paths are: a node on the path to itself has none, and any other node has what its kind
makes of the outputs of its parts, each on the path that goes on through the node. Every forest has
exactly one such function (`Forest.existsUnique_recursion`), because a path can go on through a node
of the forest only if it has not been there, so that fewer nodes are left (`Forest.unvisited`).

The walk remembers outputs, and what it extracts is what this recursion comes to
(`Forest.extract_eq_recursion`).
-/

namespace GeneralParsing

namespace Forest

variable {f : Forest} {o : ParseOptions} {path : List NodeId} {id : NodeId}
variable {out out' : List NodeId → NodeId → Except Error PlainOutput}

/-- Outputs **recomputed wherever a node is met**, from the path by which it is reached, which comes
nearest first. -/
structure Recursion (f : Forest) (o : ParseOptions)
    (out : List NodeId → NodeId → Except Error PlainOutput) : Prop where
  cut : ∀ path id, id ∈ path → out path id = .ok none
  absent : ∀ path id, id ∉ path → f.node? id = none → out path id = .error (.broken (.noNode id))
  node : ∀ path id kind span, id ∉ path → f.node? id = some ⟨kind, span⟩ →
    out path id = f.freshNode o (out (id :: path)) span kind

/-- The **tree of a forest** from the outputs of its roots. -/
def treeOf (f : Forest) (o : ParseOptions) (out : NodeId → Except Error PlainOutput) :
    Except Error PlainTree := do
  let output ← chosen o f.wholeSpan (f.roots.map out)
  return f.plainRoot o (output.getD [])

/-- The nodes that a path **has not been to**. -/
def unvisited (f : Forest) (path : List NodeId) : Finset NodeId :=
  Finset.range f.size \ path.toFinset

/-- A path that goes on through a new node leaves **one node less**. That number bounds how deep a
walk can still go. -/
theorem card_unvisited_cons (hid : id < f.size) (hpath : id ∉ path) :
    (f.unvisited (id :: path)).card + 1 = (f.unvisited path).card := by
  have hmem : id ∈ f.unvisited path := by simp [unvisited, hid, hpath]
  have herase : f.unvisited (id :: path) = (f.unvisited path).erase id := by
    rw [unvisited, List.toFinset_cons, Finset.sdiff_insert, unvisited]
  rw [herase, Finset.card_erase_add_one hmem]

theorem card_unvisited_nil (f : Forest) : (f.unvisited []).card = f.size := by
  simp [unvisited]

/-- The recursion determines **every output**. The equations refer to longer paths only, and a path
cannot grow forever. -/
theorem Recursion.unique (h : f.Recursion o out) (h' : f.Recursion o out') : out = out' := by
  funext path
  induction hleft : (f.unvisited path).card using Nat.strong_induction_on generalizing path with
  | h left ih =>
    funext id
    by_cases hpath : id ∈ path
    · rw [h.cut path id hpath, h'.cut path id hpath]
    · cases hnode : f.node? id with
      | none => rw [h.absent path id hpath hnode, h'.absent path id hpath hnode]
      | some node =>
        have hid : id < f.size := (Array.getElem?_eq_some_iff.mp hnode).1
        have hless := card_unvisited_cons hid hpath
        rw [h.node path id _ _ hpath hnode, h'.node path id _ _ hpath hnode,
          ih _ (by omega) (id :: path) rfl]

/-- With a depth for every node that is left, the bounded visit **is the recursion**. The depth is
therefore a matter of form, and the equations are those without it. -/
theorem recursion_freshVisit (f : Forest) (o : ParseOptions) :
    f.Recursion o fun path id => f.freshVisit o ((f.unvisited path).card + 1) path id where
  cut path id hpath := by rw [freshVisit, if_pos (by simpa using hpath)]
  absent path id hpath hnode := by rw [freshVisit, if_neg (by simpa using hpath), hnode]
  node path id kind span hpath hnode := by
    have hid : id < f.size := (Array.getElem?_eq_some_iff.mp hnode).1
    rw [freshVisit, if_neg (by simpa using hpath), hnode, ← card_unvisited_cons hid hpath]

theorem existsUnique_recursion (f : Forest) (o : ParseOptions) : ∃! out, f.Recursion o out :=
  ⟨_, recursion_freshVisit f o, fun _ h => h.unique (recursion_freshVisit f o)⟩

theorem Recursion.eq_freshOutput (h : f.Recursion o out) : out [] = f.freshOutput o [] := by
  funext id
  rw [h.unique (recursion_freshVisit f o), freshOutput, List.length_nil, ← card_unvisited_nil f,
    Nat.sub_zero]

variable {g : Grammar} {w : List String}

/-- **The walk's memory is invisible**: what is extracted from the forest of an input, a tree or
that it is ambiguous, is what the recursion without a memory comes to, under all options. -/
theorem extract_eq_recursion (hg : g.Closed) (hf : parse g w = .ok f) (o : ParseOptions) :
    (∃! out, f.Recursion o out) ∧
    (∀ out, f.Recursion o out →
      (f.extract o).map (fun result => result.1.plain) = f.treeOf o (out [])) ∧
    ((∃ t n, f.extract o = .ok (t, n)) ∨ f.extract o = .error .ambiguous) := by
  refine ⟨existsUnique_recursion f o, fun out hout => ?_, extract_cases (closed_of_parse hg hf) o⟩
  rw [hout.eq_freshOutput, map_plain_extract, freshTree, treeOf]

open Grammar in
/-- What is extracted from the forest of a sum of three, of which there are two, **is what the
recursion comes to**. -/
theorem extract_sums_eq_recursion : sums.Closed ∧
    ∃ f, parse sums ["n", "+", "n", "+", "n"] = .ok f ∧
      (∃! out, f.Recursion { ambiguity := .packed } out) ∧
      (∀ out, f.Recursion { ambiguity := .packed } out →
        (f.extract { ambiguity := .packed }).map (fun result => result.1.plain) =
          f.treeOf { ambiguity := .packed } (out [])) ∧
      ((∃ t n, f.extract { ambiguity := .packed } = .ok (t, n)) ∨
        f.extract { ambiguity := .packed } = .error .ambiguous) := by
  obtain ⟨f, hf⟩ := exists_parse_of_derives closed_sums
    (derives_sum derives_summand (derives_sum derives_summand derives_summand))
  exact ⟨closed_sums, f, hf, extract_eq_recursion closed_sums hf _⟩

end Forest

end GeneralParsing
