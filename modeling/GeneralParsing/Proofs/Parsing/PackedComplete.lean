import GeneralParsing.Proofs.Parsing.PackedSound

/-!
# Packed trees stand for all shapes

A node reads as the output of every derivation that it represents, on every path that `Avoids` the
derivation (`Sound.readsAs_of_represents`). The derivation must be acyclic, so that going down in it
the path goes on to avoid what is left. It must be silent together with the others of its
expression: a choice leaves out the alternatives without output if there are others. And where it
is lexical nothing may be omitted, because the text is that of some derivation, and only then that
of all of them.

Every unstalled derivation of the input is represented by a root, and so its shape is one of the
trees that the packed tree stands for (`Forest.shape_mem_trees`).

A tag comes after the choice that it is put on, so being silent together is asked of the choice
without its tag. It is not enough to ask it of outputs with their tags
(`Forest.shape_emptyMark_not_mem_trees`).
-/

namespace GeneralParsing

namespace Machine

open GeneralParsing.Derivation

variable {g : Grammar} {w : List String} {L : Ledger} {m : Machine} {collapse : Bool}
variable {path : List NodeId} {node : NodeId} {d x : Derivation} {start : Nat}

/-! ### Paths that avoid a derivation -/

/-- A path **avoids** a derivation when no node on it is a result of an expression that is derived
within the derivation over as many symbols. -/
def Avoids (L : Ledger) (path : List NodeId) (d : Derivation) : Prop :=
  ∀ q ∈ path, ∀ goal stop, L.Result q goal stop →
    ∀ x, Within x d → x.root = goal.expr → goal.start + x.yield.length ≠ stop

theorem avoids_nil (L : Ledger) (d : Derivation) : Avoids L [] d := by simp [Avoids]

/-- A path that avoids a derivation **avoids its parts**. -/
theorem Avoids.of_mem_parts (h : Avoids L path d) (hx : x ∈ d.parts) : Avoids L path x :=
  fun q hq goal stop hn y hy => h q hq goal stop hn y (hy.of_mem_parts hx)

/-- A result of the derivation's expression over its symbols is **not on the path**. So the walk is
not cut at a node that is needed for it. -/
theorem Avoids.not_mem (h : Avoids L path d) {inner : Bool}
    (hn : L.Result node ⟨d.root, inner, start⟩ (start + d.yield.length)) : node ∉ path :=
  fun hmem => h node hmem _ _ hn d (within_refl d) rfl rfl

/-- A result of an acyclic derivation's expression over its symbols **can be added** on the way to
a part. -/
theorem Avoids.cons (h : Avoids L path x) (hacyclic : d.Acyclic) (hx : x ∈ d.parts) {inner : Bool}
    (hn : L.Result node ⟨d.root, inner, start⟩ (start + d.yield.length)) :
    Avoids L (node :: path) x := by
  refine List.forall_mem_cons.mpr ⟨?_, h⟩
  intro goal stop hn' y hy hroot
  obtain ⟨rfl, rfl⟩ := hn.unique hn'
  have hinside : Inside y d := inside_iff.mpr ⟨x, hx, hy⟩
  exact fun heq => hacyclic.length_ne hinside hroot (Nat.add_left_cancel heq)

/-! ### Reading what is represented -/

/-- Nodes that represent derivations in order **read as their outputs**, one by one. The derivations
tell where each node starts. -/
theorem forall₂_readsAs_of_representsAll {nodes : List NodeId} {ds : List Derivation}
    (hall : RepresentsAll g L m.nodes nodes ds start) (hw : ds.flatMap yield <+: w.drop start)
    (h : ∀ x ∈ ds, ∀ node start, Represents g L m.nodes node x start → x.yield <+: w.drop start →
      m.forest.ReadsAs collapse path node (x.output g collapse)) :
    List.Forall₂ (m.forest.ReadsAs collapse path) nodes (ds.map (output g collapse)) := by
  induction ds generalizing nodes start with
  | nil =>
    cases hall
    exact .nil
  | cons d ds ih =>
    cases hall with
    | cons hrep hall =>
      obtain ⟨hfirst, hothers⟩ := prefix_of_cons hw
      obtain ⟨hd, hds⟩ := List.forall_mem_cons.mp h
      exact .cons (hd _ _ hrep hfirst) (ih hall hothers hds)

/-- **A node reads as the output of every derivation that it represents**, on a path that avoids the
derivation. -/
theorem Sound.readsAs_of_represents (h : Sound g w L m) (hwhole : g.TextsWhole) (hd : d.Valid g)
    (hacyclic : d.Acyclic) (hsilent : SilentTogether g (bareOutput g collapse) d)
    (hrep : Represents g L m.nodes node d start) (hw : d.yield <+: w.drop start)
    (hpath : m.forest.IsPath path) (havoid : Avoids L path d) :
    m.forest.ReadsAs collapse path node (d.output g collapse) := by
  induction d using induct_parts generalizing node start path with
  | step d ih =>
  have hspans : d.Spans g w d.root start (start + d.yield.length) := ⟨hd, rfl, hw, rfl⟩
  have hclosed := h.closed_forest
  have hresult := hrep.result
  have hnot := havoid.not_mem hresult
  have hpath' := hpath.cons (h.lt_of_result hresult) hnot
  cases hrep with
  | symbol _ hnode | omitted _ hnode => exact (Forest.readsAs_iff hclosed hpath hnot hnode).mpr rfl
  | empty he _ hnode =>
    refine (Forest.readsAs_iff hclosed hpath hnot hnode).mpr ?_
    rw [Forest.Kind.ReadsBy, output, Grammar.tag?_eq he, Expr.tag?]
  | @lexical _ part id _ _ d _ hnode hpart =>
    refine (Forest.readsAs_iff hclosed hpath hnot hnode).mpr ?_
    cases hd with
    | lexical he hd =>
      -- the text may be that of another derivation, but both are all of the symbols
      obtain ⟨d', hd', htext⟩ := h.exists_behind hpart
      have hd'' : d.Spans g w d.root start (start + d.yield.length) := ⟨hd, rfl, hw, rfl⟩
      have homits := hwhole id d.root he
      rw [Forest.Kind.ReadsBy, output, htext.text_eq, hd.text_eq_join homits,
        hd'.valid.text_eq_join (hd'.root ▸ homits), hd'.yield_eq hd'']
  | @choice _ part id tag ids _ alternatives _ d he _ hnode hmem hpart =>
    refine (Forest.readsAs_iff hclosed hpath hnot hnode).mpr ?_
    have hx : d ∈ (Derivation.choice id d).parts := by simp [parts]
    have hread := ih d hx (hd.of_mem_parts hx) (hacyclic.of_mem_parts hx)
      (hsilent.of_mem_shownParts (by simp [shownParts])) hpart hw hpath'
      ((havoid.of_mem_parts hx).cons hacyclic hx hresult)
    refine ⟨d.output g collapse, ?_, ⟨part, hmem, hread⟩, fun hnil a ha r' hr' => ?_⟩
    · rw [output, Grammar.tag?_eq he, Expr.tag?]
    · obtain ⟨first, more, hkind, -, halternative⟩ := (h.explained_of_node hresult hnode).of_alt he
      obtain ⟨-, rfl⟩ := Forest.Kind.choice.inj hkind
      obtain ⟨child, hc, hresult'⟩ := halternative a ha
      obtain ⟨d', hd', rfl⟩ := h.exists_output hpath' hresult' hr'
      have hd'' : (Derivation.choice id d').Spans g w id start (start + d.yield.length) :=
        hd'.of_part (.choice he (hd'.root ▸ hc) hd'.valid) rfl rfl
      exact hsilent _ (.refl _) hnil _ hd''.valid rfl (hd''.yield_eq hspans)
  | @sequence _ part id e _ alternatives children _ _ ds he hinner _ hnode hmem hpart hnode' hall =>
    refine (Forest.readsAs_iff hclosed hpath hnot hnode).mpr ?_
    rw [← yield_sequence id] at hpart
    have hne : part ≠ node := by
      rintro rfl
      cases (hpart.unique hresult).1
    have hnot' := List.not_mem_cons_of_ne_of_not_mem hne (havoid.not_mem hpart)
    have hread : m.forest.ReadsAs collapse (node :: path) part
        ((sequence id ds).output g collapse) := by
      refine (Forest.readsAs_iff hclosed hpath' hnot' hnode').mpr ?_
      have hpath'' := hpath'.cons (h.lt_of_result hpart) hnot'
      have hreads := forall₂_readsAs_of_representsAll hall (yield_sequence id ds ▸ hw)
        fun x hx _ _ hrep hw => ih x hx (hd.of_mem_parts hx) (hacyclic.of_mem_parts hx)
          (hsilent.of_mem_shownParts hx) hrep hw hpath''
          (((havoid.of_mem_parts hx).cons hacyclic hx hresult).cons hacyclic hx hpart)
      cases ds with
      | nil =>
        cases hall
        rw [Forest.Kind.ReadsBy, output, Grammar.tag?_eq he]
      | cons x xs =>
        cases hall with
        | cons =>
          refine ⟨_, hreads, ?_⟩
          rw [output_sequence_of_ne_nil collapse id (List.cons_ne_nil x xs), Grammar.tag?_eq he,
            List.flatMap_def]
    refine ⟨_, rfl, ⟨part, hmem, hread⟩, fun hnil a ha r' hr' => ?_⟩
    obtain ⟨first, more, hkind, -, halternative⟩ :=
      (h.explained_of_node hresult hnode).of_hasInner he hinner
    obtain ⟨-, rfl⟩ := Forest.Kind.choice.inj hkind
    obtain ⟨d', hd', rfl⟩ := h.exists_output hpath' (halternative a ha) hr'
    exact hsilent.output_eq_nil hd hnil hd'.valid hd'.root (hd'.yield_eq hspans)

end Machine

/-! ### The trees of the packed tree -/

namespace Forest

open Machine GeneralParsing.Derivation

variable {g : Grammar} {w : List String} {f : Forest}

/-- **The packed tree stands for the shape of every derivation** of the input that is acyclic,
unstalled and silent together with the others, if no text leaves out what is omitted. -/
theorem shape_mem_trees (hg : g.Closed) (hwhole : g.TextsWhole) (hf : parse g w = .ok f)
    (collapse : Bool) {d : Derivation} (hd : d.Valid g) (hroot : d.root = g.start)
    (hyield : d.yield = w) (hacyclic : d.Acyclic) (hunstalled : d.Unstalled g)
    (hsilent : SilentTogether g (bareOutput g collapse) d) :
    ∃ t n, f.extract { ambiguity := .packed, collapse, spans := false } = .ok (t, n) ∧
      d.shape g collapse ∈ t.plain.trees := by
  obtain ⟨L, m, hfaithful, htasks, rfl, hposition, -⟩ := exists_machine_of_parse hg hf
  have hs := hfaithful.sound
  have hend : ¬ GoesOn m w.length := fun hgoes => Nat.ne_of_lt hgoes.1 hposition
  obtain ⟨root, hmem, -, hrep⟩ :=
    hfaithful.found_root htasks hd hunstalled hroot hyield hend
  have hread := hs.readsAs_of_represents hwhole hd hacyclic hsilent (hrep hacyclic)
    (hyield ▸ List.prefix_rfl) (isPath_nil _) (avoids_nil L d)
  obtain ⟨t, n, hext, htrees⟩ := mem_trees_extract hs.closed_forest hmem hread
  refine ⟨t, n, hext, (htrees _).mpr ⟨_, rfl, ⟨root, hmem, hread⟩, fun hnil root hroot' r hr => ?_⟩⟩
  obtain ⟨d', hd', rfl⟩ := hs.exists_output (isPath_nil _) (hs.root root hroot').1 hr
  have hyield' : d'.yield = w := by
    have hends := hd'.ends
    rw [Nat.zero_add, hposition] at hends
    exact hd'.reads.eq_of_length hends
  exact hsilent.output_eq_nil hd hnil hd'.valid (hd'.root.trans hroot.symm)
    (hyield'.trans hyield.symm)

/-! ### A sum of two -/

end Forest

namespace Derivation

open Grammar

/-- The derivation of a **sum of two**. -/
def sumOfTwo : Derivation :=
  .choice 3 (.sequence 2 [.choice 3 (.symbol 0 "n"), .symbol 1 "+", .choice 3 (.symbol 0 "n")])

/-- The derivation **is one of a sum of two**, and it meets all that is asked of it below. -/
theorem valid_sumOfTwo : sumOfTwo.Valid sums := by
  have hc : (0 : ExprId) ∈ [2, 0] := by decide
  have hn : (choice 3 (symbol 0 "n")).Valid sums := .choice rfl hc (.symbol rfl rfl)
  refine .choice rfl (by decide) (.sequence rfl ?_)
  simp only [List.forall_mem_cons]
  exact ⟨hn, .symbol rfl rfl, hn, by simp⟩

theorem acyclic_sumOfTwo : sumOfTwo.Acyclic := by
  have hn : (choice 3 (symbol 0 "n")).Acyclic := by
    refine acyclic_of_parts (by simpa [parts] using acyclic_symbol 0 "n") fun x hx => ?_
    rw [inside_choice, Within, or_iff_left not_inside_symbol] at hx
    simp [hx, root]
  refine acyclic_of_parts ?_ ?_
  · simp only [sumOfTwo, parts, List.mem_singleton, forall_eq]
    refine acyclic_of_parts ?_ ?_
    · simp only [parts, List.forall_mem_cons]
      exact ⟨hn, acyclic_symbol 1 "+", hn, by simp⟩
    · intro x hx
      simp only [Within, inside_choice, inside_sequence, not_inside_symbol, or_false,
        List.mem_cons, List.not_mem_nil, exists_eq_or_imp, exists_eq_left] at hx
      rcases hx with (rfl | rfl) | rfl | rfl | rfl <;> simp [root]
  · intro x hx
    simp only [sumOfTwo, Within, inside_choice, inside_sequence, not_inside_symbol, or_false,
      List.mem_cons, List.not_mem_nil, exists_eq_or_imp, exists_eq_left] at hx
    rcases hx with rfl | (rfl | rfl) | rfl | rfl | rfl <;> simp [root, sumOfTwo, yield, yieldAll]

theorem unstalled_sumOfTwo : sumOfTwo.Unstalled sums := by
  intro x hx tag child min max he
  simp only [sumOfTwo, Within, inside_choice, inside_sequence, not_inside_symbol, or_false,
    List.mem_cons, List.not_mem_nil, exists_eq_or_imp, exists_eq_left] at hx
  rcases hx with rfl | rfl | (rfl | rfl) | rfl | rfl | rfl <;> simp [root, expr?, sums] at he

theorem silentTogether_sumOfTwo (collapse : Bool) :
    SilentTogether sums (bareOutput sums collapse) sumOfTwo := by
  refine silentTogether_of_ne_nil fun x hx => ?_
  simp only [sumOfTwo, visible_choice, visible_sequence, visible_symbol, List.mem_cons,
    List.not_mem_nil, exists_eq_or_imp, exists_eq_left, or_false] at hx
  rcases hx with rfl | rfl | (rfl | rfl) | rfl | rfl | rfl <;>
    simp [bareOutput, output, outputAll, tag?, expr?, sums, Expr.tag?, PlainTree.labelled]

end Derivation

namespace Forest

open Grammar GeneralParsing.Derivation in
/-- The packed tree of a sum of two stands for **the shape of the sum**. -/
theorem shape_sumOfTwo_mem_trees : sums.Closed ∧ sums.TextsWhole ∧
    ∃ f, parse sums ["n", "+", "n"] = .ok f ∧ sumOfTwo.Valid sums ∧ sumOfTwo.root = sums.start ∧
      sumOfTwo.yield = ["n", "+", "n"] ∧ sumOfTwo.Acyclic ∧ sumOfTwo.Unstalled sums ∧
        SilentTogether sums (bareOutput sums true) sumOfTwo ∧ ∃ t n,
          f.extract { ambiguity := .packed, collapse := true, spans := false } = .ok (t, n) ∧
            sumOfTwo.shape sums true ∈ t.plain.trees := by
  have hwhole : sums.TextsWhole := by
    intro id child he
    have hmem := Array.mem_of_getElem? he
    simp [sums] at hmem
  obtain ⟨f, hf⟩ := exists_parse_of_derives closed_sums
    (derives_sum derives_summand derives_summand)
  exact ⟨closed_sums, hwhole, f, hf, valid_sumOfTwo, rfl, rfl, acyclic_sumOfTwo, unstalled_sumOfTwo,
    silentTogether_sumOfTwo true, shape_mem_trees closed_sums hwhole hf true valid_sumOfTwo rfl rfl
      acyclic_sumOfTwo unstalled_sumOfTwo (silentTogether_sumOfTwo true)⟩

end Forest

/-! ### A tag around nothing -/

/-- A **mark** is an omitted `a`, or an `a`. -/
def Grammar.marks : Grammar where
  exprs := #[.token "a", .omitted 0, .alt (some "mark") [1, 0]]
  start := 2
  start_lt := by decide

namespace Derivation

open Grammar

/-- The derivation of a mark whose `a` is omitted. Its output is a tag **around nothing**. -/
def emptyMark : Derivation := .choice 2 (.omitted 1 (.symbol 0 "a"))

theorem acyclic_emptyMark : emptyMark.Acyclic := by
  refine acyclic_of_parts ?_ ?_
  · simp only [emptyMark, parts, List.mem_singleton, forall_eq]
    refine acyclic_of_parts (by simpa [parts] using acyclic_symbol 0 "a") fun x hx => ?_
    rw [inside_omitted, Within, or_iff_left not_inside_symbol] at hx
    simp [hx, root]
  · intro x hx
    simp only [emptyMark, Within, inside_choice, inside_omitted, not_inside_symbol, or_false] at hx
    rcases hx with rfl | rfl <;> simp [root, emptyMark]

theorem unstalled_emptyMark : emptyMark.Unstalled marks := by
  intro x hx tag child min max he
  simp only [emptyMark, Within, inside_choice, inside_omitted, not_inside_symbol, or_false] at hx
  rcases hx with rfl | rfl | rfl <;> simp [root, expr?, marks] at he

/-- Of the visible parts only what is omitted has no output, and no derivation of that has any. So
the condition on silent parts is met where the tag is lost all the same. -/
theorem silentTogether_emptyMark (collapse : Bool) :
    SilentTogether marks (output marks collapse) emptyMark := by
  intro x hx hnil y hy hroot _
  simp only [emptyMark, visible_choice, visible_omitted] at hx
  rcases hx with rfl | rfl
  · cases hnil
  · cases hy with
    | omitted => rfl
    | @symbol _ _ _ he ha =>
      cases hroot
      cases he
      cases ha
    | @sequence _ _ _ he | @repetition _ _ _ _ _ _ he | @choice _ _ _ _ he | @lexical _ _ he =>
      cases hroot
      cases he

end Derivation

namespace Forest

/-- The forest of an `a` that **may be omitted** under its mark. -/
def markForest : Forest where
  nodes := #[⟨.symbol "a", ⟨0, 1⟩⟩, ⟨.omitted, ⟨0, 1⟩⟩, ⟨.choice (some "mark") [1, 0], ⟨0, 1⟩⟩]
  roots := [2]
  tokens := 1

open Grammar GeneralParsing.Derivation in
/-- The packed tree of an `a` does not stand for the mark **around nothing**, although what has no
output in that derivation has none in any: a choice leaves out the alternatives without output if
there are others, and its tag comes after that. -/
theorem shape_emptyMark_not_mem_trees : marks.Closed ∧ marks.TextsWhole ∧ emptyMark.Valid marks ∧
    emptyMark.root = marks.start ∧ emptyMark.yield = ["a"] ∧ emptyMark.Acyclic ∧
      emptyMark.Unstalled marks ∧ SilentTogether marks (output marks true) emptyMark ∧
        ∃ f t n, parse marks ["a"] = .ok f ∧
          f.extract { ambiguity := .packed, collapse := true, spans := false } = .ok (t, n) ∧
            emptyMark.shape marks true ∉ t.plain.trees := by
  have hwhole : marks.TextsWhole := by
    intro id child he
    have hmem := Array.mem_of_getElem? he
    simp [marks] at hmem
  have hclosed : marks.Closed := by
    rw [Grammar.Closed, marks]
    decide
  have hvalid : emptyMark.Valid marks := .choice rfl (by decide) (.omitted rfl (.symbol rfl rfl))
  refine ⟨hclosed, hwhole, hvalid, rfl, rfl, acyclic_emptyMark, unstalled_emptyMark,
    silentTogether_emptyMark true, markForest, NumberedTree.taggedValue "mark" "a", 0, by cbv,
    by cbv, ?_⟩
  simp [emptyMark, Derivation.shape, output, tag?, expr?, marks, Expr.tag?, PlainTree.labelled,
    PlainTree.tagged, PlainTree.node, PlainTree.single, NumberedTree.taggedValue, Tree.trees,
    Tree.readingsAt]

end Forest

end GeneralParsing
