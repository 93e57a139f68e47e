import GeneralParsing.Proofs.Extraction.Choices
import GeneralParsing.Proofs.Extraction.Memory

/-!
# Two extractions side by side

The options of an extraction that have nothing to do with the policy do not change which trees are
found where. Extracting twice from a forest, with options that agree on the policy, therefore goes
the same way: either both extractions fail, with the same error, or both have a tree
(`Forest.Paired`). How the two trees are related is up to the shapes. A relation that holds of
corresponding leaves and that shapes respect (`ParseOptions.Respected`) holds of corresponding trees
in all outputs (`Forest.paired_freshOutput`), and of the trees that the two results are made of
(`Forest.paired_extract`).
-/

namespace GeneralParsing

/-! ### Relations that shapes respect -/

/-- A relation between trees that **shapes respect**, where the one tree is shaped with options `o`
and the other with options `o'`. -/
structure ParseOptions.Respected (o o' : ParseOptions) (R : PlainTree → PlainTree → Prop) :
    Prop where
  ambiguity_eq : o.ambiguity = o'.ambiguity
  value : ∀ span text,
    R (o.plainSpanned span (PlainTree.value text)) (o'.plainSpanned span (PlainTree.value text))
  taggedValue : ∀ span tag text, R (o.plainSpanned span (PlainTree.taggedValue tag text))
    (o'.plainSpanned span (PlainTree.taggedValue tag text))
  /-- Several outputs, all of which have trees, may be packed. -/
  pack : ∀ span {found found'}, List.Forall₂ (List.Forall₂ R) found found' → found ≠ [] →
    (∀ ts ∈ found, ts ≠ []) → R (o.plainPack span found) (o'.plainPack span found')
  tagged : ∀ span tag {ts us}, List.Forall₂ R ts us →
    R (o.plainTagged span tag ts) (o'.plainTagged span tag us)

namespace Forest

/-! ### Results side by side -/

/-- Results **side by side**: the same error twice, or two results that are related. -/
inductive Paired {α β : Type} (R : α → β → Prop) : Except Error α → Except Error β → Prop
  | error (e : Error) : Paired R (.error e) (.error e)
  | ok {a : α} {b : β} (h : R a b) : Paired R (.ok a) (.ok b)

section

variable {α α' β β' : Type} {R : α → β → Prop} {S : α' → β' → Prop}

theorem Paired.bind {x : Except Error α} {y : Except Error β} {k : α → Except Error α'}
    {k' : β → Except Error β'} (h : Paired R x y) (hk : ∀ a b, R a b → Paired S (k a) (k' b)) :
    Paired S (x >>= k) (y >>= k') := by
  cases h with
  | error e => exact .error e
  | ok h => exact hk _ _ h

theorem Paired.map {x : Except Error α} {y : Except Error β} {g : α → α'} {g' : β → β'}
    (h : Paired R x y) (hg : ∀ a b, R a b → S (g a) (g' b)) : Paired S (x.map g) (y.map g') := by
  cases h with
  | error e => exact .error e
  | ok h => exact .ok (hg _ _ h)

/-- What is side by side **after a map** is so before it. -/
theorem Paired.of_map {x : Except Error α} {y : Except Error β} {g : α → α'} {g' : β → β'}
    (h : Paired S (x.map g) (y.map g')) : Paired (fun a b => S (g a) (g' b)) x y := by
  rcases x with e | a <;> rcases y with e' | b <;> cases h
  · exact .error e
  · next h => exact .ok h

end

/-- Outputs side by side: both missing, or **tree by tree** related. -/
abbrev PairedOutputs (R : PlainTree → PlainTree → Prop) : PlainOutput → PlainOutput → Prop :=
  Option.Rel (List.Forall₂ R)

/-- Outputs with trees side by side, and whether there is any output. -/
def PairedFound (R : PlainTree → PlainTree → Prop) (all all' : Bool × List (List PlainTree)) :
    Prop :=
  all.1 = all'.1 ∧ List.Forall₂ (List.Forall₂ R) all.2 all'.2 ∧ ∀ ts ∈ all.2, ts ≠ []

variable {R : PlainTree → PlainTree → Prop} {o o' : ParseOptions} {f : Forest} {span : Span}
variable {results results' : List (Except Error PlainOutput)}

/-- Outputs **strung together** side by side. They are missing or failing together, or strung
together member by member. -/
theorem paired_strung (h : List.Forall₂ (Paired (PairedOutputs R)) results results') :
    Paired (PairedOutputs R) (strung results) (strung results') := by
  induction h with
  | nil => exact .ok (.some .nil)
  | cons hfirst _ ih =>
    rw [strung, strung]
    refine hfirst.bind fun out out' hout => ?_
    cases hout with
    | none => exact .ok .none
    | some hts =>
      refine ih.bind fun rest rest' hrest => ?_
      cases hrest with
      | none => exact .ok .none
      | some hus => exact .ok (.some (List.rel_append hts hus))

/-- Alternatives **gathered** side by side. Where one of two outputs has trees so has the other,
which is all that a policy looks at. -/
theorem paired_gathered (h : List.Forall₂ (Paired (PairedOutputs R)) results results')
    (policy : Ambiguity) {viable : Bool} {found found' : List (List PlainTree)}
    (hfound : List.Forall₂ (List.Forall₂ R) found found') (hne : ∀ ts ∈ found, ts ≠ []) :
    Paired (PairedFound R) (gathered policy viable found results)
      (gathered policy viable found' results') := by
  induction h generalizing viable found found' with
  | nil => exact .ok ⟨rfl, hfound, hne⟩
  | cons hfirst _ ih =>
    rw [gathered, gathered]
    refine hfirst.bind fun out out' hout => ?_
    cases hout with
    | none => exact ih hfound hne
    | some hts =>
      cases hts with
      | nil => exact ih hfound hne
      | @cons t u ts us ht hts =>
        have hmore : List.Forall₂ (List.Forall₂ R) ((t :: ts) :: found) ((u :: us) :: found') :=
          .cons (.cons ht hts) hfound
        have hne' : ∀ vs ∈ (t :: ts) :: found, vs ≠ [] :=
          List.forall_mem_cons.mpr ⟨List.cons_ne_nil t ts, hne⟩
        cases policy with
        | first => exact .ok ⟨rfl, hmore, hne'⟩
        | packed => exact ih hmore hne'
        | error =>
          -- trees were found before on both sides, or on neither
          cases hfound with
          | nil => exact ih hmore hne'
          | cons _ _ => exact .error _

/-- **Choices** side by side. Packing is the one shape that a choice makes. -/
theorem paired_chosen (hR : o.Respected o' R)
    (h : List.Forall₂ (Paired (PairedOutputs R)) results results') :
    Paired (PairedOutputs R) (chosen o span results) (chosen o' span results') := by
  rw [chosen, chosen, ← hR.ambiguity_eq]
  refine (paired_gathered h o.ambiguity .nil (by simp)).bind ?_
  rintro ⟨viable, found⟩ ⟨viable', found'⟩ ⟨hviable, hfound, hne⟩
  obtain rfl : viable = viable' := hviable
  cases viable with
  | false => exact .ok .none
  | true =>
    have hpack := hR.pack span (List.rel_reverse hfound)
    rcases hfound with _ | ⟨honly, _ | ⟨_, _⟩⟩
    · exact .ok (.some .nil)
    · exact .ok (.some honly)
    · refine .ok (.some (.cons (hpack (by simp) fun vs hvs => ?_) .nil))
      exact hne vs (List.mem_reverse.mp hvs)

/-! ### The outputs of nodes -/

theorem paired_plainLabelled (hR : o.Respected o' R) (tag : Option String) {ts us : List PlainTree}
    (h : List.Forall₂ R ts us) :
    List.Forall₂ R (o.plainLabelled span tag ts) (o'.plainLabelled span tag us) := by
  cases tag with
  | none => exact h
  | some tag => exact .cons (hR.tagged span tag h) .nil

/-- **The outputs of a node** on a path, side by side. The walk is the same on both sides; only the
shapes may differ. -/
theorem paired_freshOutput (hR : o.Respected o' R) (f : Forest) (path : List NodeId)
    (id : NodeId) :
    Paired (PairedOutputs R) (f.freshOutput o path id) (f.freshOutput o' path id) := by
  unfold freshOutput
  -- both visits have the same depth left, so they also run out of it together
  generalize f.size + 1 - path.length = depth
  induction depth generalizing path id with
  | zero => exact .error _
  | succ depth ih =>
    have hparts : ∀ parts : List NodeId, List.Forall₂ (Paired (PairedOutputs R))
        (parts.map (f.freshVisit o depth (id :: path)))
        (parts.map (f.freshVisit o' depth (id :: path))) := by
      intro parts
      rw [List.forall₂_map_left_iff, List.forall₂_map_right_iff, List.forall₂_same]
      exact fun part _ => ih (id :: path) part
    have hlabelled : ∀ span tag out out', PairedOutputs R out out' → PairedOutputs R
        (out.map (o.plainLabelled span tag)) (out'.map (o'.plainLabelled span tag)) := by
      rintro span tag _ _ (hts | _)
      · exact .some (paired_plainLabelled hR tag hts)
      · exact .none
    rw [freshVisit, freshVisit]
    split
    · exact .ok .none
    · cases f.node? id with
      | none => exact .error _
      | some node =>
        obtain ⟨kind, span⟩ := node
        dsimp only
        cases kind with
        | symbol text => exact .ok (.some (.cons (hR.value span text) .nil))
        | omitted => exact .ok (.some .nil)
        | lexical child => exact .ok (.some (.cons (hR.value span (f.text child)) .nil))
        | sequence tag children =>
          cases children with
          | nil =>
            cases tag with
            | none => exact .ok (.some .nil)
            | some tag => exact .ok (.some (.cons (hR.taggedValue span tag "") .nil))
          | cons child children =>
            rw [freshNode_sequence, freshNode_sequence]
            exact (paired_strung (hparts _)).map (hlabelled span tag)
        | choice tag alternatives => exact (paired_chosen hR (hparts _)).map (hlabelled span tag)

/-! ### The tree of a forest -/

/-- Trees **made of related trees**, each in the way of its extraction. -/
def PairedRoots (f : Forest) (o o' : ParseOptions) (R : PlainTree → PlainTree → Prop)
    (t u : PlainTree) : Prop :=
  ∃ ts us, List.Forall₂ R ts us ∧ t = f.plainRoot o ts ∧ u = f.plainRoot o' us

/-- **Two extractions from a forest**, side by side. So a relation that shapes respect holds of the
trees as soon as it is shown for the shapes. -/
theorem paired_extract (hR : o.Respected o' R) (f : Forest) :
    Paired (fun t u => f.PairedRoots o o' R t.1.plain u.1.plain) (f.extract o) (f.extract o') := by
  have hroots : List.Forall₂ (Paired (PairedOutputs R)) (f.roots.map (f.freshOutput o []))
      (f.roots.map (f.freshOutput o' [])) := by
    rw [List.forall₂_map_left_iff, List.forall₂_map_right_iff, List.forall₂_same]
    exact fun root _ => paired_freshOutput hR f [] root
  have hplain : Paired (f.PairedRoots o o' R) ((f.extract o).map fun t => t.1.plain)
      ((f.extract o').map fun u => u.1.plain) := by
    rw [map_plain_extract, map_plain_extract, freshTree, freshTree]
    refine (paired_chosen hR hroots).bind fun out out' hout => ?_
    cases hout with
    | none => exact .ok ⟨[], [], .nil, rfl, rfl⟩
    | some hts => exact .ok ⟨_, _, hts, rfl, rfl⟩
  exact hplain.of_map

end Forest

end GeneralParsing
