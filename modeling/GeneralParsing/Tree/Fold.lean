import GeneralParsing.Error
import GeneralParsing.Tree.Build
import Std.Data.HashMap

/-!
# Folding a tree from below

What a tree comes to can be computed from what some of the trees below it come to. `Tree.fold` does
so without recursion: it keeps its own list of what is left to do, and a table of the values it has
computed, filed under the **places** of trees. A place is visited before the places it needs and
computed after them, and a place that is shared is computed once.

A value that is wanted and not in the table is a fault, and so is a table without a value for the
root. Neither ever happens (`Tree.Computes.exists_fold`): by the time a place is computed, each
place that it needs has been computed, or a visit to it would still be further up in the list of
what is left.
-/

namespace GeneralParsing

/-- **Where a tree stands** in another one. -/
inductive Place where
  /-- It is the whole tree. -/
  | root
  /-- It is a member of a family, by the number of the family and the index in it. -/
  | member (family index : Nat)
  deriving Repr, DecidableEq, Hashable

/-- A tree **at its place**. -/
structure Placed where
  /-- The place. -/
  place : Place
  /-- The tree. -/
  tree : NumberedTree

namespace Placed

/-- The members of a family **at their places**. -/
def members (family : Nat) (ts : List NumberedTree) : List Placed :=
  ts.mapIdx fun index t => ⟨.member family index, t⟩

/-- The **children** at their places. -/
def children (p : Placed) : List Placed :=
  match p.tree with
  | .leaf _ => []
  | .branch _ family ts => members family ts

/-- The first alternative, or its members **if it is a group**. -/
def firstParts (p : Placed) : List Placed :=
  match p.children with
  | [] => []
  | alternative :: _ =>
    if alternative.tree.isGroup then alternative.children else [alternative]

/-- What the **first tree is put together from**: of a packed tree, what its first alternative
gives. -/
def firstNeeds (p : Placed) : List Placed :=
  if p.tree.isPacked then p.firstParts else p.children

theorem map_tree_members (family : Nat) (ts : List NumberedTree) :
    (members family ts).map tree = ts := by
  refine List.ext_getElem? fun index => ?_
  rw [members, List.getElem?_map, List.getElem?_mapIdx]
  cases ts[index]? <;> rfl

theorem map_tree_children (p : Placed) : p.children.map tree = p.tree.children := by
  rw [children]
  split
  · next h => rw [h, Tree.children, List.map_nil]
  · next h => rw [h, Tree.children, map_tree_members]

/-- No child **is the root**. -/
theorem place_ne_root_of_mem_children {p q : Placed} (h : q ∈ p.children) : q.place ≠ .root := by
  rw [children] at h
  split at h
  · cases h
  · obtain ⟨index, _, rfl⟩ := List.mem_mapIdx.mp h
    exact nofun

/-- What the first tree is put together from are **children, or children of a child**. -/
theorem mem_firstNeeds {p q : Placed} (h : q ∈ p.firstNeeds) :
    q ∈ p.children ∨ ∃ r ∈ p.children, q ∈ r.children := by
  rw [firstNeeds] at h
  split at h
  · rw [firstParts] at h
    split at h
    · cases h
    · next alternative rest heq =>
      have hmem : alternative ∈ p.children := heq ▸ List.mem_cons_self
      split at h
      · exact .inr ⟨alternative, hmem, h⟩
      · rw [List.mem_singleton.mp h]
        exact .inl hmem
  · exact .inl h

/-- Nothing needs **the whole tree**: what a tree needs stands inside it. -/
theorem place_ne_root_of_mem_firstNeeds {p q : Placed} (h : q ∈ p.firstNeeds) :
    q.place ≠ .root := by
  rcases mem_firstNeeds h with h | ⟨_, _, h⟩
  · exact place_ne_root_of_mem_children h
  · exact place_ne_root_of_mem_children h

end Placed

namespace Tree

/-! ### What is needed -/

/-- The size of all these trees **together**. -/
def totalSize (ps : List Placed) : Nat := sizeList (ps.map Placed.tree)

/-- The children of a tree are **smaller together** than the tree, which is why the walk ends. -/
theorem totalSize_children_lt (p : Placed) : totalSize p.children < p.tree.size := by
  rw [totalSize, Placed.map_tree_children]
  cases p.tree with
  | leaf label => exact Nat.zero_lt_one
  | branch label family ts =>
    rw [children, size]
    omega

/-- Which trees must have been computed **before a tree**. They are smaller, all together. -/
structure Needs where
  /-- The trees that are needed. -/
  of : Placed → List Placed
  /-- They are smaller. -/
  lt : ∀ p, totalSize (of p) < p.tree.size

/-- All **children** are needed. -/
def Needs.children : Needs := ⟨Placed.children, totalSize_children_lt⟩

/-- What the **first tree** is put together from is needed. -/
def Needs.first : Needs where
  of := Placed.firstNeeds
  lt p := by
    have hlt := totalSize_children_lt p
    rw [Placed.firstNeeds]
    split
    · rw [Placed.firstParts]
      split
      · exact size_pos p.tree
      · next alternative rest heq =>
        have hle : alternative.tree.size ≤ totalSize p.children := by
          rw [heq, totalSize, List.map_cons, sizeList]
          exact Nat.le_add_right _ _
        split
        · have := totalSize_children_lt alternative
          omega
        · rw [totalSize, List.map_cons, List.map_nil, sizeList, sizeList]
          omega
    · exact hlt

/-! ### The walk -/

/-- What is **left to do** at a place. -/
inductive Pending where
  /-- What the tree needs comes first. -/
  | visit (p : Placed)
  /-- The tree itself is computed. -/
  | compute (p : Placed)

namespace Pending

/-- The tree that there is **something to do at**. -/
def placed : Pending → Placed
  | visit p => p
  | compute p => p

/-- How much **is left to do**. -/
def weight : Pending → Nat
  | visit p => 2 * p.tree.size
  | compute _ => 1

/-- How much is left to do **altogether**. -/
def totalWeight : List Pending → Nat
  | [] => 0
  | e :: rest => e.weight + totalWeight rest

theorem totalWeight_append (es es' : List Pending) :
    totalWeight (es ++ es') = totalWeight es + totalWeight es' := by
  induction es with
  | nil => exact (Nat.zero_add _).symm
  | cons e es ih => rw [List.cons_append, totalWeight, totalWeight, ih, Nat.add_assoc]

/-- The visits to **what has not been computed** of these trees, the last of them first. -/
def visits {α : Type} (known : Std.HashMap Place α) (ps : List Placed) : List Pending :=
  ((ps.filter fun p => !known.contains p.place).map visit).reverse

theorem mem_visits {α : Type} {known : Std.HashMap Place α} {ps : List Placed} {e : Pending} :
    e ∈ visits known ps ↔ ∃ p ∈ ps, p.place ∉ known ∧ e = visit p := by
  have hfilter (p : Placed) : p ∈ ps.filter (fun p => !known.contains p.place) ↔
      p ∈ ps ∧ p.place ∉ known := by
    rw [List.mem_filter, Bool.not_eq_true', Std.HashMap.contains_eq_false_iff_not_mem]
  simp only [visits, List.mem_reverse, List.mem_map, hfilter, and_assoc, eq_comm]

/-- What is left to visit weighs **no more than twice** the size of the trees, since each is visited
and computed once. -/
theorem totalWeight_visits_le {α : Type} (known : Std.HashMap Place α) (ps : List Placed) :
    totalWeight (visits known ps) ≤ 2 * totalSize ps := by
  rw [visits]
  induction ps with
  | nil => exact Nat.le_refl 0
  | cons p ps ih =>
    have hsize : totalSize (p :: ps) = p.tree.size + totalSize ps := rfl
    rw [List.filter_cons, hsize]
    split
    · rw [List.map_cons, List.reverse_cons, totalWeight_append, totalWeight, totalWeight, weight]
      omega
    · omega

end Pending

/-- A part of a fold, which may **look up what is not there**. -/
abbrev Folding (σ : Type) := StateT σ (Except Fault)

section

variable {σ α : Type}

/-- The **value of a tree** that has been computed. -/
def lookup (known : Std.HashMap Place α) (p : Placed) : Folding σ α :=
  match known[p.place]? with
  | some value => return value
  | none => throw .notComputed

/-- What is looked up **is there** when all these places have been computed, and it is found in
their order. -/
theorem exists_lookups {known : Std.HashMap Place α} {ps : List Placed}
    (h : ∀ p ∈ ps, p.place ∈ known) (s : σ) : ∃ values : List α,
      ps.mapM (lookup known) s = .ok (values, s) ∧
        values.map some = ps.map fun p => known[p.place]? := by
  induction ps with
  | nil => exact ⟨[], rfl, rfl⟩
  | cons p ps ih =>
    obtain ⟨hp, hps⟩ := List.forall_mem_cons.mp h
    obtain ⟨values, hvalues, hmap⟩ := ih hps
    have hvalue := Std.HashMap.getElem?_eq_some_getElem hp
    have hlookup : (lookup known p : Folding σ α) s = .ok (known[p.place], s) := by
      rw [lookup, hvalue]
      rfl
    refine ⟨known[p.place] :: values, ?_, by rw [List.map_cons, List.map_cons, hvalue, hmap]⟩
    rw [List.mapM_cons]
    change (lookup known p s >>= _) = _
    rw [hlookup]
    change (ps.mapM (lookup known) s >>= _) = _
    rw [hvalues]
    rfl

/-- **Walks** over what is left to do. A place that has been computed is passed over. -/
def walk (needs : Needs) (compute : Std.HashMap Place α → Placed → Folding σ α)
    (known : Std.HashMap Place α) : List Pending → Folding σ (Std.HashMap Place α)
  | [] => return known
  | .compute p :: rest =>
    if known.contains p.place then walk needs compute known rest
    else do
      let value ← compute known p
      walk needs compute (known.insert p.place value) rest
  | .visit p :: rest =>
    if known.contains p.place then walk needs compute known rest
    else walk needs compute known (Pending.visits known (needs.of p) ++ .compute p :: rest)
termination_by pending => Pending.totalWeight pending
decreasing_by
  · simp only [Pending.totalWeight, Pending.weight]
    omega
  · simp only [Pending.totalWeight, Pending.weight]
    omega
  · have := size_pos p.tree
    simp only [Pending.totalWeight, Pending.weight]
    omega
  · have hle := Pending.totalWeight_visits_le known (needs.of p)
    have hlt := needs.lt p
    simp only [Pending.totalWeight_append, Pending.totalWeight, Pending.weight]
    omega

/-- **Folds** a tree: the value of the root, computed from the values of what it needs. -/
def fold (needs : Needs) (compute : Std.HashMap Place α → Placed → Folding σ α)
    (t : NumberedTree) : Folding σ α := do
  let known ← walk needs compute ∅ [.visit ⟨.root, t⟩]
  match known[Place.root]? with
  | some value => return value
  | none => throw .rootSkipped

/-- What is computed **without a fault**. -/
def faultless (x : Except Fault α) (h : ∃ a, x = .ok a) : α :=
  match x, h with
  | .ok a, _ => a
  | .error _, h => False.elim (h.elim fun _ => nofun)

theorem faultless_eq {x : Except Fault α} {a : α} (h : x = .ok a) (h' : ∃ a, x = .ok a) :
    faultless x h' = a := by
  subst h
  rfl

/-! ### Nothing is missing -/

/-- Where a tree is to be computed, each place that it needs **is among these**, or something is
left to do there first. -/
def Covered (needs : Needs) : (Place → Prop) → List Pending → Prop
  | _, [] => True
  | done, e :: rest =>
    (∀ p, e = .compute p → ∀ q ∈ needs.of p, done q.place) ∧
      Covered needs (fun place => place = e.placed.place ∨ done place) rest

variable {needs : Needs} {compute : Std.HashMap Place α → Placed → Folding σ α}
variable {known : Std.HashMap Place α} {done done' : Place → Prop} {pending : List Pending}

/-- What is covered stays so **when more has been done**. -/
theorem Covered.mono (h : Covered needs done pending) (hle : ∀ place, done place → done' place) :
    Covered needs done' pending := by
  induction pending generalizing done done' with
  | nil => trivial
  | cons e rest ih =>
    exact ⟨fun p hp q hq => hle _ (h.1 p hp q hq), ih h.2 fun place => Or.imp_right (hle place)⟩

/-- Visits may be put **in front**; the places they go to are seen to first. -/
theorem Covered.append {es : List Pending} (hes : ∀ e ∈ es, ∃ p, e = .visit p)
    (h : Covered needs (fun place => (∃ e ∈ es, e.placed.place = place) ∨ done place) pending) :
    Covered needs done (es ++ pending) := by
  induction es generalizing done with
  | nil => exact h.mono fun place hplace => hplace.resolve_left (by simp)
  | cons e es ih =>
    obtain ⟨⟨p, rfl⟩, hrest⟩ := List.forall_mem_cons.mp hes
    refine ⟨nofun, ih hrest (h.mono fun place hplace => ?_)⟩
    rcases hplace with ⟨e, he, rfl⟩ | hdone
    · rcases List.mem_cons.mp he with rfl | he
      · exact .inr (.inl rfl)
      · exact .inl ⟨e, he, rfl⟩
    · exact .inr (.inr hdone)

/-- **What keeps a fold going**: the trees that are needed belong to it, and where all that a tree
needs is in the table, the tree is computed without a fault and an invariant of table and state is
kept. -/
structure Computes (needs : Needs) (compute : Std.HashMap Place α → Placed → Folding σ α)
    (within : Placed → Prop) (inv : Std.HashMap Place α → σ → Prop) : Prop where
  needs_within : ∀ p, within p → ∀ q ∈ needs.of p, within q
  exists_value : ∀ known p s, within p → inv known s → (∀ q ∈ needs.of p, q.place ∈ known) →
    ∃ value s', compute known p s = .ok (value, s') ∧ inv (known.insert p.place value) s'

variable {within : Placed → Prop} {inv : Std.HashMap Place α → σ → Prop}

/-- **The rule for walks.** The walk ends without a fault and keeps the invariant, and every place
that something was left to do at is in the table. -/
theorem Computes.exists_walk (h : Computes needs compute within inv)
    (hwithin : ∀ e ∈ pending, within e.placed) (hcovered : Covered needs (· ∈ known) pending)
    {s : σ} (hinv : inv known s) :
    ∃ known' s', walk needs compute known pending s = .ok (known', s') ∧ inv known' s' ∧
      (∀ place ∈ known, place ∈ known') ∧ ∀ e ∈ pending, e.placed.place ∈ known' := by
  induction known, pending using walk.induct needs generalizing s with
  | case1 known => exact ⟨known, s, by rw [walk]; rfl, hinv, fun _ h => h, nofun⟩
  | case2 known p rest hknown ih | case4 known p rest hknown ih =>
    have hmem : p.place ∈ known := Std.HashMap.mem_iff_contains.mpr hknown
    have hrest := hcovered.2.mono fun place h => h.elim (fun h => h ▸ hmem) id
    obtain ⟨known', s', hwalk, hinv', hle, hall⟩ :=
      ih (fun e he => hwithin e (List.mem_cons_of_mem _ he)) hrest hinv
    refine ⟨known', s', ?_, hinv', hle, List.forall_mem_cons.mpr ⟨hle _ hmem, hall⟩⟩
    rw [walk, if_pos hknown, hwalk]
  | case3 known p rest hknown ih =>
    obtain ⟨value, s₁, hvalue, hinv₁⟩ :=
      h.exists_value known p s (hwithin _ List.mem_cons_self) hinv fun q hq => hcovered.1 p rfl q hq
    have hrest : Covered needs (· ∈ known.insert p.place value) rest := by
      refine hcovered.2.mono fun place h => Std.HashMap.mem_insert.mpr ?_
      exact h.imp_left fun h => by rw [h]; exact beq_self_eq_true _
    obtain ⟨known', s', hwalk, hinv', hle, hall⟩ :=
      ih value (fun e he => hwithin e (List.mem_cons_of_mem _ he)) hrest hinv₁
    refine ⟨known', s', ?_, hinv', fun place h => hle place (Std.HashMap.mem_insert.mpr (.inr h)),
      List.forall_mem_cons.mpr ⟨hle _ Std.HashMap.mem_insert_self, hall⟩⟩
    rw [walk, if_neg hknown, ← hwalk]
    change (compute known p s >>= _) = _
    rw [hvalue]
    rfl
  | case5 known p rest hknown ih =>
    have hpending : ∀ e ∈ Pending.visits known (needs.of p) ++ .compute p :: rest,
        within e.placed := by
      have hp := hwithin _ List.mem_cons_self
      intro e he
      rcases List.mem_append.mp he with he | he
      · obtain ⟨q, hq, -, rfl⟩ := Pending.mem_visits.mp he
        exact h.needs_within p hp q hq
      · rcases List.mem_cons.mp he with rfl | he
        · exact hp
        · exact hwithin e (List.mem_cons_of_mem _ he)
    have hvisits : ∀ e ∈ Pending.visits known (needs.of p), ∃ q, e = .visit q := fun e he =>
      have ⟨q, _, _, h⟩ := Pending.mem_visits.mp he
      ⟨q, h⟩
    have hnext : Covered needs (· ∈ known)
        (Pending.visits known (needs.of p) ++ .compute p :: rest) := by
      refine Covered.append hvisits
        ⟨fun q hq r hr => ?_, hcovered.2.mono fun place => Or.imp_right .inr⟩
      -- what is needed is in the table, or it is visited now
      obtain rfl := Pending.compute.inj hq
      by_cases hr' : r.place ∈ known
      · exact .inr hr'
      · exact .inl ⟨.visit r, Pending.mem_visits.mpr ⟨r, hr, hr', rfl⟩, rfl⟩
    obtain ⟨known', s', hwalk, hinv', hle, hall⟩ := ih hpending hnext hinv
    refine ⟨known', s', by rw [walk, if_neg hknown, hwalk], hinv', hle,
      List.forall_mem_cons.mpr ⟨?_, fun e he => ?_⟩⟩
    · exact hall (.compute p) (List.mem_append_right _ List.mem_cons_self)
    · exact hall e (List.mem_append_right _ (List.mem_cons_of_mem _ he))

/-- **The rule for folds.** A fold comes to the value of the root, without a fault. -/
theorem Computes.exists_fold (h : Computes needs compute within inv) {t : NumberedTree}
    (hroot : within ⟨.root, t⟩) {s : σ} (hinv : inv ∅ s) :
    ∃ known value s', fold needs compute t s = .ok (value, s') ∧ inv known s' ∧
      known[Place.root]? = some value := by
  have hcovered : Covered needs (· ∈ (∅ : Std.HashMap Place α)) [.visit ⟨.root, t⟩] :=
    ⟨nofun, trivial⟩
  obtain ⟨known, s', hwalk, hinv', -, hall⟩ :=
    h.exists_walk (by simpa [Pending.placed] using hroot) hcovered hinv
  have hmem : Place.root ∈ known := hall _ (List.mem_singleton_self _)
  have hvalue := Std.HashMap.getElem?_eq_some_getElem hmem
  refine ⟨known, known[Place.root], s', ?_, hinv', hvalue⟩
  change (walk needs compute ∅ _ s >>= _) = _
  rw [hwalk]
  change (match known[Place.root]? with
    | some value => (pure value : Folding σ α)
    | none => throw Fault.rootSkipped) s' = _
  rw [hvalue]
  rfl

end

end Tree

end GeneralParsing
