import GeneralParsing.Proofs.Extraction.NodeReadings
import GeneralParsing.Proofs.Parsing.FirstTree

/-!
# Packed trees stand for shapes of derivations

Whatever a node of a machine's forest reads as, on whatever path, is the output of a derivation of
its expression over its stretch of the input (`Sound.exists_output`). The proof goes along paths, so
cycles among choices do no harm: a node that is cut reads as nothing at all. Every root reads as
something, and so every tree that the packed tree stands for is the shape of a derivation of the
whole input (`Forest.exists_derivation_of_mem_trees`).
-/

namespace GeneralParsing

namespace Machine

open GeneralParsing.Derivation

variable {g : Grammar} {w : List String} {L : Ledger} {m : Machine} {collapse : Bool}
variable {path : List NodeId} {node : NodeId} {goal : Goal} {stop : Nat} {r : List PlainTree}

/-- What results in order read as is the output **of derivations in order**. Each node is a result
of its own goal, and a derivation is chosen for each by itself. -/
theorem exists_outputs_of_covers {nodes : List NodeId} {ids : List ExprId} {start stop : Nat}
    {reads : NodeId → List PlainTree → Prop} {rs : List (List PlainTree)}
    (hcovers : L.Covers nodes ids start stop) (hrs : List.Forall₂ reads nodes rs)
    (h : ∀ node ∈ nodes, ∀ goal stop r, L.Result node goal stop → reads node r →
      ∃ d : Derivation, d.Spans g w goal.expr goal.start stop ∧ d.output g collapse = r) :
    ∃ ds, SpansAll g w ds ids start stop ∧ ds.flatMap (output g collapse) = rs.flatten := by
  induction hcovers generalizing rs with
  | nil start =>
    cases hrs
    exact ⟨[], spansAll_nil start, rfl⟩
  | cons hn _ ih =>
    cases hrs with
    | cons hr hrs =>
      obtain ⟨hfirst, hothers⟩ := List.forall_mem_cons.mp h
      obtain ⟨d, hd, hout⟩ := hfirst _ _ _ hn hr
      obtain ⟨ds, hds, houts⟩ := ih hrs hothers
      exact ⟨d :: ds, hd.cons hds, by rw [List.flatMap_cons, hout, houts, List.flatten_cons]⟩

/-- **What a result reads as is the output of a derivation** of its goal. Alternatives of a choice
are taken one at a time, so a reading never mixes two derivations. -/
theorem Sound.exists_output (h : Sound g w L m) (hpath : m.forest.IsPath path)
    (hn : L.Result node goal stop) (hr : m.forest.ReadsAs collapse path node r) :
    ∃ d : Derivation, d.Spans g w goal.expr goal.start stop ∧ d.output g collapse = r := by
  -- induction along the walk; on a path through itself the node reads as nothing
  refine Forest.path_induct h.closed_forest (motive := fun path node => ∀ goal stop r,
    L.Result node goal stop → m.forest.ReadsAs collapse path node r →
      ∃ d : Derivation, d.Spans g w goal.expr goal.start stop ∧ d.output g collapse = r)
    (fun path node hpath hmem goal stop r _ hr =>
      absurd hr (Forest.not_readsAs_of_mem hpath hmem))
    ?_ hpath (h.lt_of_result hn) goal stop r hn hr
  intro path node kind span hpath hnot hnode ih goal stop r hn hr
  obtain ⟨kind', hnode', hex⟩ := h.explained hn
  obtain ⟨rfl, -⟩ := Forest.Node.mk.inj (Option.some.inj (hnode.symm.trans hnode'))
  rw [Forest.readsAs_iff h.closed_forest hpath hnot hnode] at hr
  -- sequences and repetitions with parts give what is chosen for the parts, under their tag
  have hparts : ∀ {tag c cs ids start}, kind = .sequence tag (c :: cs) →
      L.Covers (c :: cs) ids start stop → ∃ ds, SpansAll g w ds ids start stop ∧ ds ≠ [] ∧
        PlainTree.labelled collapse tag (ds.flatMap (output g collapse)) = r := by
    rintro tag c cs ids start rfl hcovers
    obtain ⟨rs, hrs, rfl⟩ := hr
    obtain ⟨ds, hds, houts⟩ := exists_outputs_of_covers hcovers hrs ih
    refine ⟨ds, hds, ?_, by rw [houts]⟩
    rintro rfl
    have hlen := hcovers.length_eq
    rw [← hds.roots] at hlen
    cases hlen
  -- without parts they are a leaf with the tag, or nothing
  have hempty : ∀ {id tag start e}, kind = .sequence tag [] → g.expr? id = some e →
      e.tag? = tag → (Derivation.sequence id []).Spans g w id start stop →
      ∃ d : Derivation, d.Spans g w id start stop ∧ d.output g collapse = r := by
    rintro id tag start e rfl he rfl hd
    obtain rfl : r = _ := hr
    exact ⟨_, hd, by rw [output, Grammar.tag?_eq he]⟩
  -- the cases are the ways in which a node can be explained
  cases hex with
  | symbol he ha hw =>
    obtain rfl : r = _ := hr
    exact ⟨_, spans_symbol he ha hw, rfl⟩
  | empty he => exact hempty rfl he rfl ((spansAll_nil _).sequence he)
  | @sequence id tag child ids children start stop he hcovers hold =>
    cases children with
    | nil => cases hcovers
    | cons c cs =>
      obtain ⟨ds, hds, hne, hout⟩ := hparts rfl hcovers
      refine ⟨_, hds.sequence he, ?_⟩
      rwa [output_sequence_of_ne_nil collapse id hne, Grammar.tag?_eq he]
  | @repetition id tag child min max children start stop he hcovers hmin hmax hold =>
    cases children with
    | nil =>
      cases hcovers
      have hnone : SpansAll g w [] (List.replicate 0 child) stop stop := spansAll_nil stop
      exact hempty rfl he rfl (hnone.repetition he hmin hmax)
    | cons c cs =>
      obtain ⟨ds, hds, hne, hout⟩ := hparts rfl hcovers
      refine ⟨_, hds.repetition he hmin hmax, ?_⟩
      rwa [output_sequence_of_ne_nil collapse id hne, Grammar.tag?_eq he]
  | @choice id tag ids first more start stop he hresult hold =>
    obtain ⟨part, rfl, ⟨a, ha, hpart⟩, -⟩ := hr
    obtain ⟨child, hc, hresult⟩ := hresult a ha
    obtain ⟨d, hd, rfl⟩ := ih a ha _ stop _ hresult hpart
    refine ⟨.choice id d, hd.of_part (.choice he (hd.root ▸ hc) hd.valid) rfl rfl, ?_⟩
    rw [output, Grammar.tag?_eq he, Expr.tag?]
  | @inner id e first more start stop he hinner hresult hold =>
    obtain ⟨part, rfl, ⟨a, ha, hpart⟩, -⟩ := hr
    obtain ⟨d, hd, rfl⟩ := ih a ha _ stop _ (hresult a ha) hpart
    exact ⟨d, hd, rfl⟩
  | @omitted id child part start stop he hresult hold =>
    obtain rfl : r = _ := hr
    obtain ⟨d, hd, -⟩ := h.exists_behind hresult
    exact ⟨.omitted id d, hd.of_part (.omitted (hd.root ▸ he) hd.valid) rfl rfl, rfl⟩
  | @lexical id child _ start stop he hresult hold =>
    obtain rfl : r = _ := hr
    obtain ⟨d, hd, htext⟩ := h.exists_behind hresult
    refine ⟨.lexical id d, hd.of_part (.lexical (hd.root ▸ he) hd.valid) rfl rfl, ?_⟩
    rw [output, htext.text_eq]

/-- On a path of **later** nodes every result reads as something. It is the reading along a
derivation that goes through older nodes only. -/
theorem Sound.exists_readsAs (h : Sound g w L m) (collapse : Bool) (hpath : m.forest.IsPath path)
    (hlater : ∀ id ∈ path, node < id) (hn : L.Result node goal stop) :
    ∃ r, m.forest.ReadsAs collapse path node r := by
  induction node using Nat.strongRecOn generalizing path goal stop with
  | ind node ih =>
    have hnot : node ∉ path := fun hmem => Nat.lt_irrefl node (hlater node hmem)
    obtain ⟨kind, hnode, hex⟩ := h.explained hn
    simp only [Forest.readsAs_iff h.closed_forest hpath hnot hnode]
    -- a part that is older is not on the path, and has a reading by induction
    have holder : ∀ part goal stop, part < node → L.Result part goal stop →
        ∃ r, m.forest.ReadsAs collapse (node :: path) part r := fun part goal stop hlt hresult =>
      ih part hlt (hpath.cons (h.lt_of_result hn) hnot)
        (List.forall_mem_cons.mpr ⟨hlt, fun id hid => Nat.lt_trans hlt (hlater id hid)⟩) hresult
    have hsequence : ∀ {tag children ids start}, L.Covers children ids start stop →
        (∀ c ∈ children, c < node) → ∃ r, (Forest.Kind.sequence tag children).ReadsBy m.forest
          collapse (m.forest.ReadsAs collapse (node :: path)) r := by
      intro tag children ids start hcovers hold
      have hreads : ∀ c ∈ children, ∃ r, m.forest.ReadsAs collapse (node :: path) c r := by
        intro c hc
        obtain ⟨goal, stop, hresult⟩ := hcovers.result_of_mem hc
        exact holder c goal stop (hold c hc) hresult
      choose! r hr using hreads
      have hrs := List.forall₂_map_right_iff.mpr (List.forall₂_same.mpr hr)
      cases children with
      | nil => exact ⟨_, rfl⟩
      | cons c cs => exact ⟨_, _, hrs, rfl⟩
    have hchoice : ∀ {tag first more goal}, first < node → L.Result first goal stop →
        ∃ r, (Forest.Kind.choice tag (first :: more)).ReadsBy m.forest collapse
          (m.forest.ReadsAs collapse (node :: path)) r := by
      intro tag first more goal hold hresult
      obtain ⟨r, hr⟩ := holder first goal stop hold hresult
      obtain ⟨part, hpart⟩ := Forest.exists_reads_choice (List.mem_cons_self (l := more)) hr
      exact ⟨_, part, rfl, hpart⟩
    cases hex with
    | symbol | empty | omitted | lexical => exact ⟨_, rfl⟩
    | sequence _ hcovers hold => exact hsequence hcovers hold
    | repetition _ hcovers _ _ hold => exact hsequence hcovers hold
    | @choice id tag ids first more start stop _ hresult hold =>
      obtain ⟨child, -, hresult⟩ := hresult first List.mem_cons_self
      exact hchoice hold hresult
    | inner _ _ hresult hold => exact hchoice hold (hresult _ List.mem_cons_self)

/-- What a root reads as is the output of a derivation **of the whole input** by the start. -/
theorem Sound.exists_derivation (h : Sound g w L m) (hposition : m.position = w.length)
    (hroot : node ∈ m.forest.roots) (hr : m.forest.ReadsAs collapse [] node r) :
    ∃ d : Derivation, d.Valid g ∧ d.root = g.start ∧ d.yield = w ∧ d.output g collapse = r := by
  obtain ⟨d, hd, hout⟩ := h.exists_output (Forest.isPath_nil _) (h.root node hroot).1 hr
  have hends := hd.ends
  rw [Nat.zero_add, hposition] at hends
  exact ⟨d, hd.valid, hd.root, hd.reads.eq_of_length hends, hout⟩

end Machine

/-! ### The trees of the packed tree -/

namespace Forest

open Machine

variable {g : Grammar} {w : List String} {f : Forest}

/-- **Every tree that the packed tree stands for is the shape of a derivation** of the whole input
by the start expression. There is always such a tree, so packing never ends with nothing. -/
theorem exists_derivation_of_mem_trees (hg : g.Closed) (hf : parse g w = .ok f) (collapse : Bool) :
    ∃ t n, f.extract { ambiguity := .packed, collapse, spans := false } = .ok (t, n) ∧
      t.plain.trees ≠ [] ∧ ∀ u ∈ t.plain.trees, ∃ d : Derivation,
        d.Valid g ∧ d.root = g.start ∧ d.yield = w ∧ d.shape g collapse = u := by
  obtain ⟨L, m, hfaithful, -, rfl, hposition, hroots⟩ := exists_machine_of_parse hg hf
  have hs := hfaithful.sound
  obtain ⟨root, hroot⟩ := List.exists_mem_of_ne_nil _ hroots
  obtain ⟨r, hr⟩ := hs.exists_readsAs collapse (isPath_nil _) (by simp) (hs.root root hroot).1
  obtain ⟨t, n, hext, htrees⟩ := mem_trees_extract hs.closed_forest hroot hr
  obtain ⟨r₀, hreads⟩ := exists_reads_choice hroot hr
  have hmem : PlainTree.single r₀ ∈ t.plain.trees := (htrees _).mpr ⟨r₀, rfl, hreads⟩
  refine ⟨t, n, hext, List.ne_nil_of_mem hmem, fun u hu => ?_⟩
  obtain ⟨r, rfl, ⟨root, hroot, hr⟩, -⟩ := (htrees u).mp hu
  obtain ⟨d, hd, hstart, hyield, hout⟩ := hs.exists_derivation hposition hroot hr
  exact ⟨d, hd, hstart, hyield, by rw [Derivation.shape, hout]⟩

open Grammar in
/-- The packed tree of a sum of three stands for **shapes of sums**, and for one at least. -/
theorem exists_sum_of_mem_trees : sums.Closed ∧
    ∃ f, parse sums ["n", "+", "n", "+", "n"] = .ok f ∧ ∃ t n,
      f.extract { ambiguity := .packed, collapse := false, spans := false } = .ok (t, n) ∧
        t.plain.trees ≠ [] ∧ ∀ u ∈ t.plain.trees, ∃ d : Derivation, d.Valid sums ∧
          d.root = sums.start ∧ d.yield = ["n", "+", "n", "+", "n"] ∧ d.shape sums false = u := by
  obtain ⟨f, hf⟩ := exists_parse_of_derives closed_sums
    (derives_sum derives_summand (derives_sum derives_summand derives_summand))
  exact ⟨closed_sums, f, hf, exists_derivation_of_mem_trees closed_sums hf false⟩

/-- The tree of the first policy **is the shape of a derivation** of the whole input. Here there is
one tree, so no alternatives need to be told apart. -/
theorem exists_derivation_first (hg : g.Closed) (hf : parse g w = .ok f) (collapse : Bool) :
    ∃ t n, f.extract { ambiguity := .first, collapse, spans := false } = .ok (t, n) ∧
      ∃ d : Derivation, d.Valid g ∧ d.root = g.start ∧ d.yield = w ∧
        t.plain = d.shape g collapse := by
  obtain ⟨L, m, hfaithful, -, rfl, hposition, hroots⟩ := exists_machine_of_parse hg hf
  have hs := hfaithful.sound
  obtain ⟨t, n, p, k, hfirst, hpacked, hmem⟩ :=
    extract_first_mem_trees hs.closed_forest (o := { collapse }) rfl
  obtain ⟨root, hroot⟩ := List.exists_mem_of_ne_nil _ hroots
  obtain ⟨r, hr⟩ := hs.exists_readsAs collapse (isPath_nil _) (by simp) (hs.root root hroot).1
  obtain ⟨p', k', hpacked', htrees⟩ := mem_trees_extract hs.closed_forest hroot hr
  cases hpacked.symm.trans hpacked'
  obtain ⟨r, hshape, ⟨root, hroot, hr⟩, -⟩ := (htrees t.plain).mp hmem
  obtain ⟨d, hd, hstart, hyield, hout⟩ := hs.exists_derivation hposition hroot hr
  exact ⟨t, n, hfirst, d, hd, hstart, hyield, by rw [hshape, Derivation.shape, hout]⟩

end Forest

end GeneralParsing
