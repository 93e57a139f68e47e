import GeneralParsing.Proofs.Extraction.Plain
import Mathlib

/-!
# What the policies make of alternatives

A forest is `Closed` when every node refers to nodes it has. In such a forest the policies that
pick the first output and that pack all outputs never fail, and `chosen` has a short form: only
outputs with trees count, of which the one takes the first and the other packs all.

Paths through a closed forest go through distinct nodes, so they end. `path_induct` is the
induction that comes of it: what holds where a node is cut, and passes from the parts of a node on
the longer path to the node, holds of every node on every path.
-/

namespace GeneralParsing

namespace Forest

/-! ### Closed forests -/

/-- The nodes that a node **refers to**. -/
def Kind.parts : Kind → List NodeId
  | symbol _ => []
  | sequence _ children => children
  | choice _ alternatives => alternatives
  | omitted => []
  | lexical child => [child]

/-- A forest is **closed** when every reference in it leads to one of its nodes. -/
structure Closed (f : Forest) : Prop where
  part_lt : ∀ id node, f.node? id = some node → ∀ part ∈ node.kind.parts, part < f.size
  root_lt : ∀ root ∈ f.roots, root < f.size

/-- A **path** goes through distinct nodes. -/
structure IsPath (f : Forest) (path : List NodeId) : Prop where
  nodup : path.Nodup
  lt : ∀ id ∈ path, id < f.size

variable {f : Forest} {path : List NodeId} {id : NodeId}

theorem isPath_nil (f : Forest) : f.IsPath [] := ⟨.nil, by simp⟩

theorem IsPath.cons (h : f.IsPath path) (hid : id < f.size) (hpath : id ∉ path) :
    f.IsPath (id :: path) :=
  ⟨List.nodup_cons.mpr ⟨hpath, h.nodup⟩, List.forall_mem_cons.mpr ⟨hid, h.lt⟩⟩

/-- A path is **no longer than the forest has nodes**, which bounds the depth of the walk. -/
theorem IsPath.length_le (h : f.IsPath path) : path.length ≤ f.size := by
  have hsub : path ⊆ List.range f.size := fun id hid => List.mem_range.mpr (h.lt id hid)
  simpa using (List.Nodup.subperm h.nodup hsub).length_le

/-- Induction **along paths**. A node is on the path, where the walk is cut, or it is visited, and
its parts are walked on a longer path. -/
theorem path_induct (hf : f.Closed) {motive : List NodeId → NodeId → Prop}
    (cut : ∀ path id, f.IsPath path → id ∈ path → motive path id)
    (visit : ∀ path id kind span, f.IsPath path → id ∉ path → f.node? id = some ⟨kind, span⟩ →
      (∀ part ∈ kind.parts, motive (id :: path) part) → motive path id)
    (hpath : f.IsPath path) (hid : id < f.size) : motive path id := by
  obtain ⟨depth, hdepth⟩ : ∃ depth, depth + path.length = f.size := by
    have hle := hpath.length_le
    exact ⟨f.size - path.length, by omega⟩
  induction depth generalizing path id with
  | zero =>
    -- a path of this length goes through all nodes
    refine cut path id hpath (by_contra fun hnot => ?_)
    have hle := (hpath.cons hid hnot).length_le
    simp only [List.length_cons] at hle
    omega
  | succ depth ih =>
    by_cases hmem : id ∈ path
    · exact cut path id hpath hmem
    · obtain ⟨⟨kind, span⟩, hnode⟩ : ∃ node, f.node? id = some node :=
        ⟨_, Array.getElem?_eq_getElem hid⟩
      refine visit path id kind span hpath hmem hnode fun part hpart => ?_
      exact ih (hpath.cons hid hmem) (hf.part_lt id _ hnode part hpart) (by simp; omega)

/-! ### Outputs strung together -/

/-- Outputs **joined**: nothing if one of them is missing. -/
def joined : List PlainOutput → PlainOutput
  | [] => some []
  | none :: _ => none
  | some ts :: rest => (joined rest).map (ts ++ ·)

@[simp] theorem ok_bind {α β : Type} (a : α) (k : α → Except Error β) :
    (Except.ok a >>= k) = k a := rfl

@[simp] theorem map_ok {α β : Type} (a : α) (f : α → β) :
    (Except.ok a : Except Error α).map f = .ok (f a) := rfl

/-- Outputs without errors are **strung together** without one. -/
theorem strung_ok (outs : List PlainOutput) : strung (outs.map .ok) = .ok (joined outs) := by
  induction outs with
  | nil => rfl
  | cons out outs ih =>
    cases out with
    | none => rfl
    | some ts =>
      rw [List.map_cons, strung, ok_bind, ih, joined]
      cases joined outs <;> rfl

/-- Outputs are joined when **all of them are there**. One that is missing makes the whole missing.
-/
theorem joined_eq_some {outs : List PlainOutput} {ts : List PlainTree} :
    joined outs = some ts ↔ ∃ tss : List (List PlainTree), outs = tss.map some ∧
      tss.flatten = ts := by
  induction outs generalizing ts with
  | nil =>
    refine ⟨fun h => ⟨[], rfl, Option.some.inj h⟩, ?_⟩
    rintro ⟨tss, htss, rfl⟩
    rw [List.map_eq_nil_iff.mp htss.symm]
    rfl
  | cons out outs ih =>
    cases out with
    | none =>
      simp only [joined, false_iff, not_exists, not_and, reduceCtorEq]
      rintro tss htss
      cases tss <;> simp at htss
    | some us =>
      simp only [joined, Option.map_eq_some_iff, ih]
      constructor
      · rintro ⟨_, ⟨tss, rfl, rfl⟩, rfl⟩
        exact ⟨us :: tss, rfl, rfl⟩
      · rintro ⟨tss, htss, rfl⟩
        cases tss with
        | nil => simp at htss
        | cons vs tss =>
          simp only [List.map_cons, List.cons.injEq, Option.some.injEq] at htss
          obtain ⟨rfl, rfl⟩ := htss
          exact ⟨tss.flatten, ⟨tss, rfl, rfl⟩, rfl⟩

/-- Outputs that are there are **strung together**. -/
theorem strung_of_map {visit : NodeId → Except Error PlainOutput} {ids : List NodeId}
    {tss : List (List PlainTree)} (h : ids.map visit = tss.map fun ts => .ok (some ts)) :
    strung (ids.map visit) = .ok (some tss.flatten) := by
  have hjoined : joined (tss.map some) = some tss.flatten := joined_eq_some.mpr ⟨tss, rfl, rfl⟩
  rw [h, ← hjoined, ← strung_ok, List.map_map]
  rfl

/-! ### Outputs with trees -/

/-- The outputs that **have trees**, in order. -/
def withTrees (outs : List PlainOutput) : List (List PlainTree) :=
  outs.filterMap fun out => out.filter fun ts => !ts.isEmpty

/-- Outputs **packed** into one, unless there is just one. -/
def packAll (o : ParseOptions) (span : Span) : List (List PlainTree) → List PlainTree
  | [] => []
  | [only] => only
  | found => [o.plainPack span found]

section

variable {outs : List PlainOutput} {ts : List PlainTree}

@[simp] theorem withTrees_nil : withTrees [] = [] := rfl

@[simp] theorem withTrees_none : withTrees (none :: outs) = withTrees outs := rfl

@[simp] theorem withTrees_empty : withTrees (some [] :: outs) = withTrees outs := rfl

@[simp] theorem withTrees_cons (t : PlainTree) (ts : List PlainTree) :
    withTrees (some (t :: ts) :: outs) = (t :: ts) :: withTrees outs := rfl

/-- An output with trees is one of the outputs **that are there and not empty**. -/
theorem mem_withTrees : ts ∈ withTrees outs ↔ some ts ∈ outs ∧ ts ≠ [] := by
  simp [withTrees, Option.filter_eq_some_iff]

/-- The packed policy gathers **all outputs with trees**, the latest first. Those without trees
leave a trace in the flag only. -/
theorem gathered_packed {viable : Bool} {found : List (List PlainTree)} :
    gathered .packed viable found (outs.map .ok) =
      .ok (viable || outs.any Option.isSome, (withTrees outs).reverse ++ found) := by
  induction outs generalizing viable found with
  | nil => simp [gathered]
  | cons out outs ih =>
    match out with
    | none => simpa [gathered] using ih
    | some [] => simpa [gathered] using @ih true found
    | some (t :: ts) => simpa [gathered] using @ih true ((t :: ts) :: found)

/-- The first policy gathers **the first output with trees**, if there is one. After that nothing
more is looked at. -/
theorem gathered_first {viable : Bool} :
    gathered .first viable [] (outs.map .ok) =
      .ok (viable || outs.any Option.isSome, (withTrees outs).head?.toList) := by
  induction outs generalizing viable with
  | nil => simp [gathered]
  | cons out outs ih =>
    match out with
    | none => simpa [gathered] using ih
    | some [] => simpa [gathered] using @ih true
    | some (t :: ts) => simp [gathered]

/-- Packing takes **all outputs that have trees**. If none has trees the output is empty, and if
none is there it is missing. -/
theorem chosen_packed {o : ParseOptions} (ho : o.ambiguity = .packed) (span : Span) :
    chosen o span (outs.map .ok) =
      .ok (if outs.any Option.isSome then some (packAll o span (withTrees outs)) else none) := by
  rw [chosen, ho, gathered_packed]
  cases outs.any Option.isSome with
  | false => rfl
  | true =>
    match h : withTrees outs with
    | [] => rfl
    | [only] => rfl
    | ts :: us :: found =>
      have hlen : (ts :: us :: found).reverse.length = found.length + 2 := by simp
      match hrev : (ts :: us :: found).reverse with
      | [] | [_] => simp [hrev] at hlen
      | vs :: ws :: rest =>
        have hback : (vs :: ws :: rest).reverse = ts :: us :: found := by
          rw [← hrev, List.reverse_reverse]
        simp [packAll, ← hback]

/-- Among **one alternative** there is nothing to choose. It is not even packed, whatever the
policy. -/
theorem chosen_singleton (o : ParseOptions) (span : Span) (ts : List PlainTree) :
    chosen o span [.ok (some ts)] = .ok (some ts) := by
  cases ts with
  | nil => rfl
  | cons t ts => cases h : o.ambiguity <;> simp [chosen, gathered, h]

/-- Outputs packed read as **any of them**. They are the readings of one output after those of
another, in order. -/
theorem readingsAll_packAll {o : ParseOptions} {span : Span} {found : List (List PlainTree)}
    (hne : found ≠ []) (hn : ∀ ts ∈ found, ∀ t ∈ ts, t.Normal) :
    Tree.readingsAll (packAll o span found) = found.flatMap Tree.readingsAll := by
  match found, hne with
  | [only], _ => simp [packAll]
  | ts :: us :: found, _ => exact ParseOptions.readingsAll_plainPack hn

/-- Packing normal trees **gives normal trees**. -/
theorem normal_packAll {o : ParseOptions} {span : Span} {found : List (List PlainTree)}
    (hne : ∀ ts ∈ found, ts ≠ []) (hn : ∀ ts ∈ found, ∀ t ∈ ts, t.Normal) :
    ∀ t ∈ packAll o span found, t.Normal := by
  match found with
  | [] => simp [packAll]
  | [only] => simpa [packAll] using hn only (by simp)
  | ts :: us :: found =>
    simpa [packAll] using ParseOptions.normal_plainPack (by simp) hne hn

/-- Picking takes **the first output that has trees**. If there is none with trees the output is
empty, or missing. -/
theorem chosen_first {o : ParseOptions} (ho : o.ambiguity = .first) (span : Span) :
    chosen o span (outs.map .ok) =
      .ok (if outs.any Option.isSome then some ((withTrees outs).headD []) else none) := by
  rw [chosen, ho, gathered_first]
  cases outs.any Option.isSome with
  | false => rfl
  | true => cases withTrees outs <;> rfl

end

/-! ### What holds of all outputs -/

/-- An output that was changed **comes from an output**. -/
theorem exists_of_map_eq_ok {result : Except Error PlainOutput}
    {g : List PlainTree → List PlainTree} {ts : List PlainTree}
    (h : result.map (Option.map g) = .ok (some ts)) :
    ∃ us, result = .ok (some us) ∧ g us = ts := by
  match result, h with
  | .ok (some us), h => exact ⟨us, rfl, Option.some.inj (Except.ok.inj h)⟩

/-- A tree among outputs that were strung together is **in one of them**. Stringing together makes
no trees of its own. -/
theorem exists_mem_of_strung {results : List (Except Error PlainOutput)} {ts : List PlainTree}
    (h : strung results = .ok (some ts)) {t : PlainTree} (ht : t ∈ ts) :
    ∃ us, .ok (some us) ∈ results ∧ t ∈ us := by
  induction results generalizing ts with
  | nil =>
    obtain rfl : [] = ts := by simpa [strung] using h
    simp at ht
  | cons result results ih =>
    match result with
    | .error e => cases h
    | .ok none => cases h
    | .ok (some us) =>
      rw [strung, ok_bind] at h
      match hrest : strung results with
      | .error e => simp [hrest, bind, Except.bind] at h
      | .ok none => simp [hrest] at h
      | .ok (some vs) =>
        obtain rfl : us ++ vs = ts := by simpa [hrest] using h
        rcases List.mem_append.mp ht with ht | ht
        · exact ⟨us, by simp, ht⟩
        · obtain ⟨ws, hws, ht⟩ := ih hrest ht
          exact ⟨ws, by simp [hws], ht⟩

/-- **The output that is gathered first** decides how gathering goes on. Without trees it changes
nothing, but for an alternative being viable. With trees the first policy stops, the error policy
must not have found any before, and packing adds them to what was found. -/
theorem gathered_cons_cases {policy : Ambiguity} {viable : Bool} {found : List (List PlainTree)}
    {result : Except Error PlainOutput} {results : List (Except Error PlainOutput)}
    {all : Bool × List (List PlainTree)}
    (h : gathered policy viable found (result :: results) = .ok all) :
    result = .ok none ∧ gathered policy viable found results = .ok all ∨
      result = .ok (some []) ∧ gathered policy true found results = .ok all ∨
        ∃ t ts, result = .ok (some (t :: ts)) ∧
          (policy = .first ∧ all = (true, (t :: ts) :: found) ∨
            policy = .error ∧ found = [] ∧ gathered policy true [t :: ts] results = .ok all ∨
              policy = .packed ∧ gathered policy true ((t :: ts) :: found) results = .ok all) := by
  rw [gathered] at h
  rcases result with e | _ | _ | ⟨t, ts⟩
  · cases h
  · exact .inl ⟨rfl, h⟩
  · exact .inr (.inl ⟨rfl, h⟩)
  · rw [ok_bind] at h
    refine .inr (.inr ⟨t, ts, rfl, ?_⟩)
    cases policy with
    | first => exact .inl ⟨rfl, (Except.ok.inj h).symm⟩
    | packed => exact .inr (.inr ⟨rfl, h⟩)
    | error =>
      cases found with
      | nil => exact .inr (.inl ⟨rfl, rfl, h⟩)
      | cons us found => cases h

/-- What has been gathered was there before, or is **an output with trees**. Those without trees are
left out. -/
theorem mem_of_mem_gathered {policy : Ambiguity} {viable viable' : Bool}
    {found found' : List (List PlainTree)} {results : List (Except Error PlainOutput)}
    (h : gathered policy viable found results = .ok (viable', found')) {us : List PlainTree}
    (hus : us ∈ found') : us ∈ found ∨ us ≠ [] ∧ .ok (some us) ∈ results := by
  induction results generalizing viable found with
  | nil =>
    obtain ⟨-, rfl⟩ : viable = viable' ∧ found = found' := by simpa [gathered] using h
    exact .inl hus
  | cons result results ih =>
    have hlater : ∀ {found : List (List PlainTree)},
        us ∈ found ∨ us ≠ [] ∧ .ok (some us) ∈ results →
        us ∈ found ∨ us ≠ [] ∧ .ok (some us) ∈ result :: results :=
      fun h => h.imp id fun ⟨hne, hmem⟩ => ⟨hne, List.mem_cons_of_mem _ hmem⟩
    have hnow : ∀ {t ts}, result = .ok (some (t :: ts)) →
        us ∈ (t :: ts) :: found ∨ us ≠ [] ∧ .ok (some us) ∈ results →
        us ∈ found ∨ us ≠ [] ∧ .ok (some us) ∈ result :: results := by
      rintro t ts rfl (hmem | hmem)
      · rcases List.mem_cons.mp hmem with rfl | hmem
        · exact .inr (by simp)
        · exact .inl hmem
      · exact hlater (.inr hmem)
    rcases gathered_cons_cases h with
      ⟨-, hrest⟩ | ⟨-, hrest⟩ | ⟨t, ts, hresult, ⟨-, hall⟩ | ⟨-, rfl, hrest⟩ | ⟨-, hrest⟩⟩
    · exact hlater (ih hrest)
    · exact hlater (ih hrest)
    · obtain ⟨-, rfl⟩ := Prod.mk.inj hall
      exact hnow hresult (.inl hus)
    · exact hnow hresult (ih hrest)
    · exact hnow hresult (ih hrest)

/-- Only packing **gathers several outputs**. The first policy stops at the first, and the error
policy fails at the second. -/
theorem length_le_one_of_gathered {policy : Ambiguity} (hpolicy : policy ≠ .packed)
    {viable viable' : Bool} {found found' : List (List PlainTree)}
    {results : List (Except Error PlainOutput)} (hfound : found.length ≤ 1)
    (hfirst : policy = .first → found = [])
    (h : gathered policy viable found results = .ok (viable', found')) : found'.length ≤ 1 := by
  induction results generalizing viable found with
  | nil =>
    obtain ⟨-, rfl⟩ : viable = viable' ∧ found = found' := by simpa [gathered] using h
    exact hfound
  | cons result results ih =>
    rcases gathered_cons_cases h with
      ⟨-, h⟩ | ⟨-, h⟩ | ⟨t, ts, -, ⟨hp, hall⟩ | ⟨hp, -, h⟩ | ⟨hp, -⟩⟩
    · exact ih hfound hfirst h
    · exact ih hfound hfirst h
    · obtain ⟨-, rfl⟩ := Prod.mk.inj hall
      simp [hfirst hp]
    · have hone : [t :: ts].length ≤ 1 := Nat.le_refl 1
      exact ih hone (fun hp' => by cases hp.symm.trans hp') h
    · exact absurd hp hpolicy

/-- Whether an alternative is viable is **never unlearnt**. -/
theorem gathered_viable {policy : Ambiguity} {results : List (Except Error PlainOutput)}
    {found : List (List PlainTree)} {all : Bool × List (List PlainTree)}
    (h : gathered policy true found results = .ok all) : all.1 = true := by
  induction results generalizing found with
  | nil => rw [← Except.ok.inj h]
  | cons result results ih =>
    rcases gathered_cons_cases h with
      ⟨-, h⟩ | ⟨-, h⟩ | ⟨t, ts, -, ⟨-, rfl⟩ | ⟨-, -, h⟩ | ⟨-, h⟩⟩
    · exact ih h
    · exact ih h
    · rfl
    · exact ih h
    · exact ih h

/-- When no trees are gathered but there is an output, **an alternative has the empty one**. -/
theorem mem_of_gathered_nil {policy : Ambiguity} {viable : Bool} {found : List (List PlainTree)}
    {results : List (Except Error PlainOutput)}
    (h : gathered policy viable found results = .ok (true, [])) :
    found = [] ∧ (viable = true ∨ .ok (some []) ∈ results) := by
  induction results generalizing viable found with
  | nil =>
    obtain ⟨hviable, hfound⟩ : viable = true ∧ found = [] := by simpa [gathered] using h
    exact ⟨hfound, .inl hviable⟩
  | cons result results ih =>
    rcases gathered_cons_cases h with
      ⟨-, h⟩ | ⟨rfl, h⟩ | ⟨t, ts, -, ⟨-, hall⟩ | ⟨-, -, h⟩ | ⟨-, h⟩⟩
    · obtain ⟨hfound, hviable⟩ := ih h
      exact ⟨hfound, hviable.imp id (List.mem_cons_of_mem _)⟩
    · exact ⟨(ih h).1, .inr List.mem_cons_self⟩
    · cases hall
    · cases (ih h).1
    · cases (ih h).1

/-- A choice gives **nothing new** but packed trees of several outputs, and those only under the
packed policy. -/
theorem chosen_cases {o : ParseOptions} {span : Span} {results : List (Except Error PlainOutput)}
    {ts : List PlainTree} (h : chosen o span results = .ok (some ts)) :
    ts = [] ∨ .ok (some ts) ∈ results ∨ o.ambiguity = .packed ∧ ∃ found, 2 ≤ found.length ∧
      (∀ us ∈ found, us ≠ [] ∧ .ok (some us) ∈ results) ∧ ts = [o.plainPack span found] := by
  rw [chosen] at h
  match hg : gathered o.ambiguity false [] results with
  | .error e => simp [hg, bind, Except.bind] at h
  | .ok (false, _) => simp [hg] at h
  | .ok (true, []) =>
    exact .inl (by simpa [hg, eq_comm] using h)
  | .ok (true, [only]) =>
    obtain rfl : only = ts := by simpa [hg] using h
    obtain ⟨-, hmem⟩ := (mem_of_mem_gathered hg (List.mem_singleton_self only)).resolve_left
      (by simp)
    exact .inr (.inl hmem)
  | .ok (true, us :: vs :: found) =>
    have hpacked : o.ambiguity = .packed := by_contra fun hnot => by
      simpa using length_le_one_of_gathered hnot (by simp) (fun _ => rfl) hg
    refine .inr (.inr ⟨hpacked, (us :: vs :: found).reverse, by simp, fun ws hws => ?_, ?_⟩)
    · exact (mem_of_mem_gathered hg (List.mem_reverse.mp hws)).resolve_left (by simp)
    · simpa [hg, eq_comm] using h

/-- A choice has no trees to show only if **an alternative has none** either. So a node without
trees comes from a part without trees, down to something that is omitted or empty. -/
theorem mem_of_chosen_nil {o : ParseOptions} {span : Span}
    {results : List (Except Error PlainOutput)} (h : chosen o span results = .ok (some [])) :
    .ok (some []) ∈ results := by
  rw [chosen] at h
  match hg : gathered o.ambiguity false [] results with
  | .error e => simp [hg, bind, Except.bind] at h
  | .ok (false, _) => simp [hg] at h
  | .ok (true, []) => exact (mem_of_gathered_nil hg).2.resolve_left (by simp)
  | .ok (true, [only]) =>
    obtain rfl : only = [] := by simpa [hg] using h
    exact ((mem_of_mem_gathered hg (List.mem_singleton_self _)).resolve_left (by simp)).2
  | .ok (true, us :: vs :: found) => simp [hg] at h

/-- What has an output comes to an output **in a sequence**. It may still fail, which is another
matter. -/
theorem strung_ne_none {results : List (Except Error PlainOutput)}
    (h : ∀ result ∈ results, result ≠ .ok none) : strung results ≠ .ok none := by
  induction results with
  | nil => nofun
  | cons result results ih =>
    obtain ⟨hfirst, hothers⟩ := List.forall_mem_cons.mp h
    rw [strung]
    rcases result with e | _ | ts
    · nofun
    · exact absurd rfl hfirst
    · rw [ok_bind]
      rcases hrest : strung results with e | _ | us
      · nofun
      · exact absurd hrest (ih hothers)
      · nofun

/-- A choice has an output when **its first alternative has one**. What the others give can only add
to that. -/
theorem chosen_ne_none {o : ParseOptions} {span : Span} {result : Except Error PlainOutput}
    {results : List (Except Error PlainOutput)} (h : result ≠ .ok none) :
    chosen o span (result :: results) ≠ .ok none := by
  have hviable : ∀ all, gathered o.ambiguity false [] (result :: results) = .ok all →
      all.1 = true := by
    intro all hall
    rcases gathered_cons_cases hall with
      ⟨hresult, -⟩ | ⟨-, hall⟩ | ⟨t, ts, -, ⟨-, rfl⟩ | ⟨-, -, hall⟩ | ⟨-, hall⟩⟩
    · exact absurd hresult h
    · exact gathered_viable hall
    · rfl
    · exact gathered_viable hall
    · exact gathered_viable hall
  rw [chosen]
  match hall : gathered o.ambiguity false [] (result :: results) with
  | .error e => nofun
  | .ok (false, _) => cases hviable _ hall
  | .ok (true, []) => nofun
  | .ok (true, [only]) => nofun
  | .ok (true, us :: vs :: found) => nofun

/-- The **tag** of what a node stands for. -/
def Kind.tag? : Kind → Option String
  | sequence tag _ => tag
  | choice tag _ => tag
  | _ => none

/-- A node of the forest **carries the tag**. -/
def HasTag (f : Forest) (tag : String) : Prop :=
  ∃ id node, f.node? id = some node ∧ node.kind.tag? = some tag

/-- **What holds of leaves and passes to packed trees and to trees under tags of the forest** holds
of all trees in outputs, whatever the policy. -/
theorem forall_mem_freshOutput_of_hasTag {o : ParseOptions} {motive : PlainTree → Prop}
    (value : ∀ span text, motive (o.plainSpanned span (PlainTree.value text)))
    (taggedValue : ∀ span tag text, f.HasTag tag →
      motive (o.plainSpanned span (PlainTree.taggedValue tag text)))
    (pack : o.ambiguity = .packed → ∀ span found, 2 ≤ found.length → (∀ us ∈ found, us ≠ []) →
      (∀ us ∈ found, ∀ t ∈ us, motive t) → motive (o.plainPack span found))
    (tagged : ∀ span tag ts, f.HasTag tag → (∀ t ∈ ts, motive t) →
      motive (o.plainTagged span tag ts))
    {ts : List PlainTree} (h : f.freshOutput o path id = .ok (some ts)) : ∀ t ∈ ts, motive t := by
  rw [freshOutput] at h
  -- the walk is by recursion on the depth that is left for the path
  generalize f.size + 1 - path.length = depth at h
  induction depth generalizing path id ts with
  | zero => cases h
  | succ depth ih =>
    have hlabelled : ∀ span kind (us : List PlainTree), f.node? id = some ⟨kind, span⟩ →
        (∀ t ∈ us, motive t) → ∀ t ∈ o.plainLabelled span kind.tag? us, motive t := by
      intro span kind us hnode hus
      cases htag : kind.tag? with
      | none => exact hus
      | some tag =>
        simpa [ParseOptions.plainLabelled] using tagged span tag us ⟨id, _, hnode, htag⟩ hus
    have hparts : ∀ {parts : List NodeId} {us : List PlainTree},
        .ok (some us) ∈ parts.map (f.freshVisit o depth (id :: path)) →
        ∀ t ∈ us, motive t := by
      intro parts us hus
      obtain ⟨part, -, hpart⟩ := List.mem_map.mp hus
      exact ih hpart
    rw [freshVisit] at h
    split at h
    · cases h
    · split at h
      · cases h
      · next kind span hnode =>
        cases kind with
        | symbol | lexical =>
          obtain rfl := Option.some.inj (Except.ok.inj h)
          simpa using value span _
        | omitted =>
          obtain rfl := Option.some.inj (Except.ok.inj h)
          simp
        | sequence tag children =>
          cases children with
          | nil =>
            cases tag with
            | none =>
              obtain rfl := Option.some.inj (Except.ok.inj h)
              simp
            | some tag =>
              obtain rfl := Option.some.inj (Except.ok.inj h)
              simpa using taggedValue span tag "" ⟨id, _, hnode, rfl⟩
          | cons child children =>
            rw [freshNode_sequence] at h
            obtain ⟨us, hs, rfl⟩ := exists_of_map_eq_ok h
            refine hlabelled span _ us hnode fun t ht => ?_
            obtain ⟨vs, hvs, ht⟩ := exists_mem_of_strung hs ht
            exact hparts hvs t ht
        | choice tag alternatives =>
          rw [freshNode] at h
          obtain ⟨us, hc, rfl⟩ := exists_of_map_eq_ok h
          refine hlabelled span _ us hnode ?_
          -- what was chosen is empty, one of the outputs, or several of them packed
          rcases chosen_cases hc with rfl | hmem | ⟨hpacked, found, hlen, hfound, rfl⟩
          · simp
          · exact hparts hmem
          · rw [List.forall_mem_singleton]
            exact pack hpacked span found hlen (fun vs hvs => (hfound vs hvs).1)
              fun vs hvs => hparts (hfound vs hvs).2

/-- **What holds of leaves and passes to packed and tagged trees** holds of all trees in outputs,
whatever the policy. -/
theorem forall_mem_freshOutput {o : ParseOptions} {motive : PlainTree → Prop}
    (value : ∀ span text, motive (o.plainSpanned span (PlainTree.value text)))
    (taggedValue : ∀ span tag text,
      motive (o.plainSpanned span (PlainTree.taggedValue tag text)))
    (pack : o.ambiguity = .packed → ∀ span found, 2 ≤ found.length → (∀ us ∈ found, us ≠ []) →
      (∀ us ∈ found, ∀ t ∈ us, motive t) → motive (o.plainPack span found))
    (tagged : ∀ span tag ts, (∀ t ∈ ts, motive t) → motive (o.plainTagged span tag ts))
    {ts : List PlainTree} (h : f.freshOutput o path id = .ok (some ts)) : ∀ t ∈ ts, motive t :=
  forall_mem_freshOutput_of_hasTag value (fun span tag text _ => taggedValue span tag text) pack
    (fun span tag ts _ => tagged span tag ts) h

/-- The tree of a forest is made of **what holds of outputs**, if it passes to packed trees.
Properties of outputs that are kept by packing are properties of the tree, then. -/
theorem exists_plainRoot_of_freshTree {o : ParseOptions} {motive : PlainTree → Prop}
    (pack : o.ambiguity = .packed → ∀ found, 2 ≤ found.length → (∀ us ∈ found, us ≠ []) →
      (∀ us ∈ found, ∀ t ∈ us, motive t) → motive (o.plainPack f.wholeSpan found))
    (output : ∀ {root ts}, f.freshOutput o [] root = .ok (some ts) → ∀ t ∈ ts, motive t)
    {t : PlainTree} (h : f.freshTree o = .ok t) :
    ∃ ts, f.plainRoot o ts = t ∧ ∀ u ∈ ts, motive u := by
  rw [freshTree] at h
  cases hc : chosen o f.wholeSpan (f.roots.map (f.freshOutput o [])) with
  | error e =>
    rw [hc] at h
    cases h
  | ok out =>
    rw [hc] at h
    refine ⟨out.getD [], Except.ok.inj h, ?_⟩
    have hroots : ∀ {us : List PlainTree},
        .ok (some us) ∈ f.roots.map (f.freshOutput o []) → ∀ t ∈ us, motive t := by
      intro us hus
      obtain ⟨root, -, hroot⟩ := List.mem_map.mp hus
      exact output hroot
    cases out with
    | none => simp
    | some ts =>
      rcases chosen_cases hc with rfl | hmem | ⟨hpacked, found, hlen, hfound, rfl⟩
      · simp
      · exact hroots hmem
      · rw [Option.getD_some, List.forall_mem_singleton]
        exact pack hpacked found hlen (fun us hus => (hfound us hus).1)
          fun us hus => hroots (hfound us hus).2

end Forest

end GeneralParsing
