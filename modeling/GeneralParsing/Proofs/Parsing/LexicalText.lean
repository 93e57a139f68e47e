import GeneralParsing.Proofs.Parsing.Consistency
import GeneralParsing.Proofs.Parsing.Termination
import GeneralParsing.Proofs.Tree.Tiling

/-!
# The text of what is lexical

A lexical node becomes a leaf, whose value is the text under the node's child. The text is spelled
by going down from the child by first alternatives, with a stack of its own and apart from the walk
that extracts the tree. `Forest.kept` says what one would expect of it: of the stretch that a node
covers, the symbols in order, but for those that something omitted covers which is met on the way
down. That is what the text is, at every node of a forest (`Machine.Sound.text_eq_join_kept`): the
children of a sequence lie side by side, so what is omitted below one of them covers none of the
symbols of another.

Where nothing is omitted in what a lexical expression is made of, its text is therefore the whole
stretch, whichever of its derivations comes first (`Forest.lexical_text`).
-/

namespace GeneralParsing

namespace Forest

/-! ### What is kept of a stretch -/

/-- The nodes that a node is made of, of a choice **the first alternative** only. -/
def Kind.firstParts : Kind → List NodeId
  | .sequence _ children => children
  | .choice _ alternatives => alternatives.head?.toList
  | .lexical child => [child]
  | .symbol _ | .omitted => []

/-- A node that is met on the way down from another **by first alternatives**. -/
inductive FirstBelow (f : Forest) : NodeId → NodeId → Prop
  | refl (id : NodeId) : FirstBelow f id id
  | part {id part below : NodeId} {node : Node} (hnode : f.node? id = some node)
      (hpart : part ∈ node.kind.firstParts) (h : FirstBelow f part below) : FirstBelow f id below

/-- A position that is **covered by something omitted** in what a node is made of, by first
alternatives. -/
def OmittedAt (f : Forest) (id : NodeId) (position : Nat) : Prop :=
  ∃ below span, f.FirstBelow id below ∧ f.node? below = some ⟨.omitted, span⟩ ∧
    span.start ≤ position ∧ position < span.stop

open Classical in
/-- The symbols of a stretch, in order, but for what is **omitted** in what a node is made of. -/
noncomputable def kept (f : Forest) (w : List String) (id : NodeId) (start stop : Nat) :
    List String :=
  ((List.range' start (stop - start)).filter fun position => ¬ f.OmittedAt id position).filterMap
    (w[·]?)

variable {f : Forest} {w : List String} {id id' : NodeId} {kind : Kind} {span : Span}
variable {start middle stop position : Nat}

/-- What is omitted at a node is **the node itself**, or omitted at one of its parts. Of a choice it
is the first alternative that counts, as for the text itself. -/
theorem omittedAt_iff (hnode : f.node? id = some ⟨kind, span⟩) :
    f.OmittedAt id position ↔
      kind = .omitted ∧ span.start ≤ position ∧ position < span.stop ∨
        ∃ part ∈ kind.firstParts, f.OmittedAt part position := by
  constructor
  · rintro ⟨below, span', hbelow, homitted, hposition⟩
    cases hbelow with
    | refl =>
      obtain ⟨rfl, rfl⟩ := Node.mk.inj (Option.some.inj (hnode.symm.trans homitted))
      exact .inl ⟨rfl, hposition⟩
    | part hnode' hpart hbelow =>
      obtain rfl := Option.some.inj (hnode.symm.trans hnode')
      exact .inr ⟨_, hpart, below, span', hbelow, homitted, hposition⟩
  · rintro (⟨rfl, hposition⟩ | ⟨part, hpart, below, span', hbelow, homitted, hposition⟩)
    · exact ⟨id, span, .refl id, hnode, hposition⟩
    · exact ⟨below, span', .part hnode hpart hbelow, homitted, hposition⟩

theorem kept_self (f : Forest) (w : List String) (id : NodeId) (start : Nat) :
    f.kept w id start start = [] := by
  rw [kept, Nat.sub_self]
  rfl

/-- What is kept of a stretch is kept of **one part and then of the other**. So what is kept can be
put together in the order of the parts. -/
theorem kept_append (hle : start ≤ middle) (hle' : middle ≤ stop) :
    f.kept w id start middle ++ f.kept w id middle stop = f.kept w id start stop := by
  have hrange : List.range' start (stop - start) =
      List.range' start (middle - start) ++ List.range' middle (stop - middle) := by
    rw [show stop - start = (middle - start) + (stop - middle) by omega, ← List.range'_append_1,
      show start + (middle - start) = middle by omega]
  rw [kept, kept, kept, hrange, List.filter_append, List.filterMap_append]

/-- Where **the same is omitted** the same is kept. -/
theorem kept_congr (h : ∀ position, start ≤ position → position < stop →
    (f.OmittedAt id position ↔ f.OmittedAt id' position)) :
    f.kept w id start stop = f.kept w id' start stop := by
  rw [kept, kept]
  refine congrArg _ (List.filter_congr fun position hposition => ?_)
  rw [List.mem_range'_1] at hposition
  rw [decide_eq_decide]
  exact not_congr (h position (by omega) (by omega))

/-- Of what is **omitted** nothing is kept. Whatever stands below an omitted node is left out with
it. -/
theorem kept_omitted (hnode : f.node? id = some ⟨.omitted, span⟩) :
    f.kept w id span.start span.stop = [] := by
  have hnone : ∀ position ∈ List.range' span.start (span.stop - span.start),
      f.OmittedAt id position := by
    intro position hposition
    rw [List.mem_range'_1] at hposition
    exact (omittedAt_iff hnode).mpr (.inl ⟨rfl, by omega, by omega⟩)
  rw [kept, List.filter_eq_nil_iff.mpr (by simpa using hnone)]
  rfl

/-- A symbol **is kept**. -/
theorem kept_symbol {text : String} (hnode : f.node? id = some ⟨.symbol text, span⟩)
    (hstop : span.stop = span.start + 1) (htext : w[span.start]? = some text) :
    f.kept w id span.start span.stop = [text] := by
  have hnot : ¬ f.OmittedAt id span.start := by
    rw [omittedAt_iff hnode]
    simp [Kind.firstParts]
  rw [kept, hstop, Nat.add_sub_cancel_left]
  simp [hnot, htext]

/-! ### What is omitted lies within its node -/

variable {children : List NodeId}

namespace Consistent

variable (hf : f.Consistent w)

include hf

theorem le_of_span? (hspan : f.span? id = some span) : span.start ≤ span.stop := by
  obtain ⟨⟨kind, span'⟩, hnode, rfl⟩ := Option.map_eq_some_iff.mp hspan
  exact hf.start_le_stop id kind span' hnode

theorem le_of_tile (h : f.Tile children start stop) : start ≤ stop := by
  induction h with
  | nil => exact Nat.le_refl _
  | cons hspan _ ih => exact Nat.le_trans (hf.le_of_span? hspan) ih

/-- Nodes side by side lie **within the stretch** that they fill. None of them ends before it
starts, so they do not reach beyond either end. -/
theorem within_of_tile (h : f.Tile children start stop) {child : NodeId}
    (hchild : child ∈ children) :
    ∃ span, f.span? child = some span ∧ start ≤ span.start ∧ span.stop ≤ stop := by
  induction h with
  | nil => simp at hchild
  | cons hspan hs ih =>
    rcases List.mem_cons.mp hchild with rfl | hchild
    · exact ⟨_, hspan, Nat.le_refl _, hf.le_of_tile hs⟩
    · obtain ⟨span, hspan', hstart, hstop⟩ := ih hchild
      exact ⟨span, hspan', Nat.le_trans (hf.le_of_span? hspan) hstart, hstop⟩

/-- What a node is made of lies **within its span**. -/
theorem within_of_firstPart {node : Node} (hnode : f.node? id = some node) {part : NodeId}
    (hpart : part ∈ node.kind.firstParts) :
    ∃ span, f.span? part = some span ∧ node.span.start ≤ span.start ∧
      span.stop ≤ node.span.stop := by
  obtain ⟨kind, span⟩ := node
  cases hf.fits id kind span hnode with
  | symbol | omitted => simp [Kind.firstParts] at hpart
  | sequence htile => exact hf.within_of_tile htile hpart
  | choice _ _ _ hspan =>
    obtain rfl : part = _ := by simpa [Kind.firstParts] using hpart
    exact ⟨span, hspan _ List.mem_cons_self, Nat.le_refl _, Nat.le_refl _⟩
  | lexical _ hspan =>
    obtain rfl : part = _ := by simpa [Kind.firstParts] using hpart
    exact ⟨span, hspan, Nat.le_refl _, Nat.le_refl _⟩

/-- What is omitted at a node lies **within its span**. A part can therefore say nothing about what
another part omits. -/
theorem within_of_omittedAt (hspan : f.span? id = some span) (h : f.OmittedAt id position) :
    span.start ≤ position ∧ position < span.stop := by
  obtain ⟨below, inner, hbelow, hnode, hposition⟩ := h
  induction hbelow generalizing span with
  | refl =>
    rw [span?, hnode] at hspan
    obtain rfl := Option.some.inj hspan
    exact hposition
  | part hnode' hpart _ ih =>
    rw [span?, hnode'] at hspan
    obtain rfl := Option.some.inj hspan
    obtain ⟨span, hspan, hstart, hstop⟩ := hf.within_of_firstPart hnode' hpart
    obtain ⟨hle, hlt⟩ := ih hspan hnode
    exact ⟨Nat.le_trans hstart hle, Nat.lt_of_lt_of_le hlt hstop⟩

/-- The texts of nodes side by side are **what is kept of the stretch** that they fill, where just
that is omitted which is omitted at one of them. -/
theorem join_text_of_tile (htile : f.Tile children start stop)
    (htext : ∀ child ∈ children, ∀ span, f.span? child = some span →
      f.text child = String.join (f.kept w child span.start span.stop))
    (homitted : ∀ position, start ≤ position → position < stop →
      (f.OmittedAt id position ↔ ∃ child ∈ children, f.OmittedAt child position)) :
    String.join (children.map f.text) = String.join (f.kept w id start stop) := by
  induction htile with
  | nil start => rw [kept_self, List.map_nil]
  | @cons child children start middle stop hspan hs ih =>
    obtain ⟨hchild, hothers⟩ := List.forall_mem_cons.mp htext
    have hle : start ≤ middle := hf.le_of_span? hspan
    have hle' : middle ≤ stop := hf.le_of_tile hs
    have hbefore : ∀ position, f.OmittedAt child position → position < middle := fun _ h =>
      (hf.within_of_omittedAt hspan h).2
    have hafter : ∀ position, (∃ child ∈ children, f.OmittedAt child position) →
        middle ≤ position := by
      rintro position ⟨other, hother, h⟩
      obtain ⟨span, hspan', hstart, -⟩ := hf.within_of_tile hs hother
      exact Nat.le_trans hstart (hf.within_of_omittedAt hspan' h).1
    -- what is omitted before the middle is so at the first node, and after it at another
    have hfirst : f.kept w child start middle = f.kept w id start middle := by
      refine kept_congr fun position hstart hmiddle => ?_
      rw [homitted position hstart (by omega), List.exists_mem_cons_iff]
      exact (or_iff_left fun h => absurd (hafter position h) (by omega)).symm
    have hrest : String.join (children.map f.text) = String.join (f.kept w id middle stop) := by
      refine ih hothers fun position hmiddle hstop => ?_
      rw [homitted position (by omega) hstop, List.exists_mem_cons_iff]
      exact or_iff_right fun h => absurd (hbefore position h) (by omega)
    rw [List.map_cons, String.join_cons, hchild _ hspan, hfirst, hrest, ← String.join_append,
      kept_append hle hle']

end Consistent

end Forest

namespace Machine

variable {g : Grammar} {w : List String} {L : Ledger} {m : Machine}

/-- **The text of a node is what is kept of its span.** The induction is on the number of the node,
since its parts are older. -/
theorem Sound.text_eq_join_kept (h : Sound g w L m) (hf : m.forest.Consistent w) {id : NodeId}
    {kind : Forest.Kind} {span : Span} (hnode : m.forest.node? id = some ⟨kind, span⟩) :
    m.forest.text id = String.join (m.forest.kept w id span.start span.stop) := by
  induction id using Nat.strongRecOn generalizing kind span with
  | ind id ih =>
    have hpart : ∀ part < id, ∀ span, m.forest.span? part = some span →
        m.forest.text part = String.join (m.forest.kept w part span.start span.stop) := by
      intro part hlt span hspan
      obtain ⟨⟨kind, span⟩, hnode, rfl⟩ := Option.map_eq_some_iff.mp hspan
      exact ih part hlt hnode
    -- a position is omitted under a node when it is under the parts that are taken first
    have homitted := fun position => @Forest.omittedAt_iff m.forest id kind span position hnode
    rw [h.text_eq hnode]
    cases hf.fits id kind span hnode with
    | symbol hstop htext =>
      rw [Forest.kept_symbol hnode hstop htext, String.join_cons, String.join_nil,
        String.append_empty]
    | sequence htile hold =>
      refine hf.join_text_of_tile htile (fun child hchild => hpart child (hold child hchild)) ?_
      intro position _ _
      simpa [Forest.Kind.firstParts] using homitted position
    | choice hold _ _ hspan =>
      rw [Forest.kept_congr fun position _ _ => by
        simpa [Forest.Kind.firstParts] using homitted position]
      exact hpart _ hold span (hspan _ List.mem_cons_self)
    | omitted =>
      rw [Forest.kept_omitted hnode]
      rfl
    | lexical hold hspan =>
      rw [Forest.kept_congr fun position _ _ => by
        simpa [Forest.Kind.firstParts] using homitted position]
      exact hpart _ hold span hspan

end Machine

namespace Forest

open Machine

variable {g : Grammar} {w : List String} {f : Forest} {id child : NodeId} {span : Span}

/-- Where the walk comes to a lexical node, the node's output is **a leaf with the text under its
child**. -/
theorem run_visit_lexical (hnode : f.node? id = some ⟨.lexical child, span⟩) (o : ParseOptions)
    (depth : Nat) {path : List NodeId} {walk : Walk} (hknown : walk.known[id]? = none)
    (hpath : id ∉ path) :
    (Extract.visit f o (depth + 1) path id).run walk =
      .ok (some [o.spanned span (NumberedTree.value (f.text child))], walk) := by
  rw [Extract.visit, Extract.run_bind_ok (x := get) rfl]
  simp only [hknown, List.contains_iff_mem, hpath, if_false, hnode]
  rfl

/-- The text of a derivation that omits nothing is **the whole stretch** that it spans. With nothing
omitted there is no need to look into the forest. -/
theorem TakesFirst.text_eq_of_omitsNothing {d : Derivation} {expr : ExprId} {start stop : Nat}
    (h : f.TakesFirst id d) (hd : d.Spans g w expr start stop)
    (homits : g.OmitsNothingFrom expr) : f.text id = textBetween w start stop := by
  rw [h.hasText.text_eq, hd.valid.text_eq_join (hd.root ▸ homits),
    textBetween_eq_join hd.reads hd.ends]

/-- **What is lexical keeps the text that is not omitted.** For a lexical node of the forest of an
input, the walk that spells its text ends, and the text is the value of the leaf. It is what is kept
of the node's span: the symbols in order, but for those that something omitted covers, by first
alternatives. The node is one of a lexical expression, and whenever nothing that the expression is
made of is omitted, the text is the whole span. -/
theorem lexical_text (hf : parse g w = .ok f)
    (hnode : f.node? id = some ⟨.lexical child, span⟩) :
    f.Spells [child] (f.text child) ∧
    (∀ o depth path (walk : Walk), walk.known[id]? = none → id ∉ path →
      (Extract.visit f o (depth + 1) path id).run walk =
        .ok (some [o.spanned span (NumberedTree.value (f.text child))], walk)) ∧
    f.text child = String.join (f.kept w id span.start span.stop) ∧
    (∃ expr content d, g.expr? expr = some (.lexical content) ∧
      d.Spans g w expr span.start span.stop ∧ f.TakesFirst id d) ∧
    ∀ expr d, d.Spans g w expr span.start span.stop → f.TakesFirst id d →
      g.OmitsNothingFrom expr →
      f.text child = String.join ((w.drop span.start).take (span.stop - span.start)) := by
  obtain ⟨L, m, hreached, rfl, -, hposition⟩ := exists_reached_forest hf
  have hs := hreached.faithful.sound
  -- a lexical node spells what its content spells
  have htext : m.forest.text id = m.forest.text child := hs.text_eq hnode
  obtain ⟨memo, goal, stop, hsound⟩ := hs.node id _ hnode
  obtain rfl : span = _ := hsound.span
  have hresult : L.Result id goal stop := ⟨memo, hsound.result, hsound.works⟩
  refine ⟨?_, fun o depth _ _ hknown hpath => run_visit_lexical hnode o depth hknown hpath, ?_, ?_,
    fun expr d hd hfirst homits => ?_⟩
  · cases hsound.explained with
    | lexical _ hpart =>
      simpa using hs.spells (hs.lt_of_result hpart) .done
  · rw [← htext]
    exact hs.text_eq_join_kept (hreached.consistent hposition) hnode
  · obtain ⟨d, hd, hfirst⟩ := hs.exists_takesFirst hresult
    cases hsound.explained with
    | lexical he => exact ⟨_, _, d, he, hd, hfirst⟩
  · rw [← htext]
    exact hfirst.text_eq_of_omitsNothing hd homits

end Forest

/-- A quoted `a` as one text, **without the quotation marks**. -/
def Grammar.quoted : Grammar where
  exprs := #[.token "'", .omitted 0, .token "a", .seq none [1, 2, 1], .lexical 3]
  start := 4
  start_lt := by decide

namespace Forest

open Grammar

/-- The forest of a quoted `a`. -/
def quotedA : Forest where
  nodes := #[⟨.symbol "'", ⟨0, 1⟩⟩, ⟨.omitted, ⟨0, 1⟩⟩, ⟨.symbol "a", ⟨1, 2⟩⟩,
    ⟨.symbol "'", ⟨2, 3⟩⟩, ⟨.omitted, ⟨2, 3⟩⟩, ⟨.sequence none [1, 2, 4], ⟨0, 3⟩⟩,
    ⟨.choice none [5], ⟨0, 3⟩⟩, ⟨.lexical 6, ⟨0, 3⟩⟩]
  roots := [7]
  tokens := 3

theorem parse_quoted : parse quoted ["'", "a", "'"] = .ok quotedA := by cbv

/-- Of a quoted `a` **the `a`** is kept. -/
theorem lexical_text_quotedA : parse quoted ["'", "a", "'"] = .ok quotedA ∧
    quotedA.node? 7 = some ⟨.lexical 6, ⟨0, 3⟩⟩ ∧ quotedA.Spells [6] (quotedA.text 6) ∧
    (∀ o depth path (walk : Walk), walk.known[7]? = none → 7 ∉ path →
      (Extract.visit quotedA o (depth + 1) path 7).run walk =
        .ok (some [o.spanned ⟨0, 3⟩ (NumberedTree.value (quotedA.text 6))], walk)) ∧
    quotedA.text 6 = String.join (quotedA.kept ["'", "a", "'"] 7 0 3) ∧
    (∃ expr content d, quoted.expr? expr = some (.lexical content) ∧
      d.Spans quoted ["'", "a", "'"] expr 0 3 ∧ quotedA.TakesFirst 7 d) ∧
    ∀ expr d, d.Spans quoted ["'", "a", "'"] expr 0 3 → quotedA.TakesFirst 7 d →
      quoted.OmitsNothingFrom expr →
      quotedA.text 6 = String.join ((["'", "a", "'"].drop 0).take (3 - 0)) :=
  ⟨parse_quoted, rfl, lexical_text parse_quoted rfl⟩

example : quotedA.text 6 = "a" := by cbv

end Forest

end GeneralParsing
