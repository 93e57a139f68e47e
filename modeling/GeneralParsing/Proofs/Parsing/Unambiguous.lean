import GeneralParsing.Proofs.Derivation.Sharp
import GeneralParsing.Proofs.Parsing.PackedSound

/-!
# Where all derivations are alike

An input is **clear** when all its derivations by the start expression are alike. Then no choice
that extraction comes to has two alternatives (`Faithful.exists_freshOutput`). Two of them would
be results of different children of an alternation, or sequences of different results, because
nothing is recorded twice; and either way there would be derivations behind them that are not
alike.

So all policies come to the same tree, no part of it is packed (`Forest.exists_extract_of_clear`),
and it is the shape of any derivation of the input (`Forest.extract_eq_shape_of_clear`).
-/

namespace GeneralParsing

/-! ### Shapes of trees without packed parts -/

namespace ParseOptions

variable {o : ParseOptions} {span : Span} {ts : List PlainTree}

/-- A span **packs nothing**. -/
theorem unpacked_plainSpanned {t : PlainTree} (h : t.Unpacked) :
    (o.plainSpanned span t).Unpacked := by
  unfold plainSpanned
  split
  · exact h.withSpan span
  · exact h

/-- A tag **packs nothing**. -/
theorem unpacked_tagged {collapse : Bool} (tag : String) (h : ∀ t ∈ ts, t.Unpacked) :
    (PlainTree.tagged collapse tag ts).Unpacked := by
  unfold PlainTree.tagged
  split
  · split
    · exact .leaf rfl
    · exact .branch rfl h
  · exact .branch rfl h

/-- A tag on trees without packed parts **packs nothing**. -/
theorem unpacked_plainLabelled {tag : Option String} (h : ∀ t ∈ ts, t.Unpacked) :
    ∀ t ∈ o.plainLabelled span tag ts, t.Unpacked := by
  rw [plainLabelled_of_not_isPacked fun t ht => (h t ht).isPacked_eq_false]
  cases tag with
  | none => exact h
  | some tag => exact List.forall_mem_singleton.mpr (unpacked_plainSpanned (unpacked_tagged tag h))

end ParseOptions

/-! ### One output -/

namespace Forest

/-- The policies come to **the same output**, and nothing in it is packed. -/
def OneOutput (o : ParseOptions) (visit : ParseOptions → Except Error PlainOutput) : Prop :=
  ∃ ts, (∀ policy, visit { o with ambiguity := policy } = .ok (some ts)) ∧ ∀ t ∈ ts, t.Unpacked

variable {f : Forest} {o : ParseOptions} {span : Span} {tag : Option String}
variable {visit : ParseOptions → NodeId → Except Error PlainOutput}

/-- A leaf is **one output** under every policy. -/
theorem oneOutput_leaf {label : Label} (h : label.packed = false) :
    OneOutput o fun o => .ok (some [o.plainSpanned span (.leaf label)]) :=
  ⟨[o.plainSpanned span (.leaf label)], fun _ => rfl,
    List.forall_mem_singleton.mpr (ParseOptions.unpacked_plainSpanned (.leaf h))⟩

theorem oneOutput_nil : OneOutput o fun _ => .ok (some []) := ⟨[], fun _ => rfl, by simp⟩

/-- A sequence of what has one output **has one output**. Its parts are strung together in order,
and nothing is chosen. -/
theorem oneOutput_sequence {children : List NodeId}
    (h : ∀ c ∈ children, OneOutput o fun o => visit o c) :
    OneOutput o fun o => f.freshNode o (visit o) span (.sequence tag children) := by
  cases children with
  | nil =>
    cases tag with
    | none => exact oneOutput_nil
    | some tag => exact oneOutput_leaf rfl
  | cons c cs =>
    choose! out hout hunpacked using h
    refine ⟨o.plainLabelled span tag (((c :: cs).map out).flatten), fun policy => ?_,
      ParseOptions.unpacked_plainLabelled fun t ht => ?_⟩
    · have houts : (c :: cs).map (visit { o with ambiguity := policy }) =
          (((c :: cs).map out).map some).map .ok := by
        rw [List.map_map, List.map_map]
        exact List.map_congr_left fun part hpart => hout part hpart policy
      dsimp only
      rw [freshNode_sequence, houts, strung_ok, joined_eq_some.mpr ⟨(c :: cs).map out, rfl, rfl⟩]
      rfl
    · obtain ⟨us, hus, ht⟩ := List.mem_flatten.mp ht
      obtain ⟨part, hpart, rfl⟩ := List.mem_map.mp hus
      exact hunpacked part hpart t ht

/-- A choice of **one alternative** has one output. All policies take what there is. -/
theorem oneOutput_choice {a : NodeId} (h : OneOutput o fun o => visit o a) :
    OneOutput o fun o => f.freshNode o (visit o) span (.choice tag [a]) := by
  obtain ⟨ts, hout, hunpacked⟩ := h
  refine ⟨o.plainLabelled span tag ts, fun policy => ?_,
    ParseOptions.unpacked_plainLabelled hunpacked⟩
  dsimp only at hout ⊢
  rw [freshNode, List.map_singleton, hout, chosen_singleton]
  rfl

end Forest

/-! ### Clear inputs -/

open GeneralParsing.Derivation

/-- All derivations of these symbols by the expression **are alike**. -/
def Grammar.Clear (g : Grammar) (id : ExprId) (v : List String) : Prop :=
  ∀ d d' : Derivation, d.Valid g → d'.Valid g → d.root = id → d'.root = id → d.yield = v →
    d'.yield = v → Alike d d'

/-- What is sharp where words end **is clear**. -/
theorem Derivation.Sharp.clear {g : Grammar} {id : ExprId} {w : List String}
    (h : Sharp g w.length id (· = [])) : g.Clear id w := by
  intro d d' hd hd' hroot hroot' hyield hyield'
  exact h w d d' [] [] (Nat.le_refl _) ⟨hd, hroot, by rw [List.append_nil, hyield], rfl⟩
    ⟨hd', hroot', by rw [List.append_nil, hyield'], rfl⟩

namespace Machine

variable {g : Grammar} {w : List String} {L : Ledger} {m : Machine}
variable {waiting : List (NodeId × MemoId)} {id : ExprId} {ids ids' : List ExprId}
variable {start middle stop : Nat} {n n' node : NodeId} {nodes nodes' : List NodeId}

/-- All derivations of the expression from a position to another **are alike**. -/
def ClearAt (g : Grammar) (w : List String) (id : ExprId) (start stop : Nat) : Prop :=
  ∀ d d' : Derivation, d.Spans g w id start stop → d'.Spans g w id start stop → Alike d d'

/-- Derivations of the expressions in order from a position to another **are alike**. -/
def ClearAll (g : Grammar) (w : List String) (ids ids' : List ExprId) (start stop : Nat) : Prop :=
  ∀ ds ds' : List Derivation, SpansAll g w ds ids start stop → SpansAll g w ds' ids' start stop →
    AlikeAll ds ds'

/-- Sequences that are alike have **parts that are alike**, one by one. -/
theorem alikeAll_of_sequence {ds ds' : List Derivation} {i i' : ExprId}
    (h : Alike (.sequence i ds) (.sequence i' ds')) : AlikeAll ds ds' := by
  cases h with
  | sequence h => exact h

theorem alikeAll_cons {d d' : Derivation} {ds ds' : List Derivation}
    (h : AlikeAll (d :: ds) (d' :: ds')) : Alike d d' ∧ AlikeAll ds ds' := by
  cases h with
  | cons h hs => exact ⟨h, hs⟩

/-- Where a sequence is clear **its parts are**: two ways to cover the stretch would be two
derivations. -/
theorem ClearAt.sequence {tag : Option String} (h : ClearAt g w id start stop)
    (he : g.expr? id = some (.seq tag ids)) : ClearAll g w ids ids start stop :=
  fun _ _ hds hds' => alikeAll_of_sequence (h _ _ (hds.sequence he) (hds'.sequence he))

/-- Where a repetition is clear its iterations are, **whatever their numbers**, as long as these are
allowed. -/
theorem ClearAt.repetition {tag : Option String} {child : ExprId} {min k k' : Nat}
    {max : Option Nat} (h : ClearAt g w id start stop)
    (he : g.expr? id = some (.rep tag child min max)) (hmin : min ≤ k) (hmin' : min ≤ k')
    (hmax : ∀ m, max = some m → k ≤ m) (hmax' : ∀ m, max = some m → k' ≤ m) :
    ClearAll g w (List.replicate k child) (List.replicate k' child) start stop :=
  fun _ _ hds hds' => alikeAll_of_sequence
    (h _ _ (hds.repetition he hmin hmax) (hds'.repetition he hmin' hmax'))

/-- Where a choice is clear **each of its alternatives is**. Two derivations of an alternative are
two of the choice. -/
theorem ClearAt.choice {tag : Option String} {child : ExprId} (h : ClearAt g w id start stop)
    (he : g.expr? id = some (.alt tag ids)) (hc : child ∈ ids) : ClearAt g w child start stop := by
  intro d d' hd hd'
  have hpart : ∀ {d : Derivation}, d.Spans g w child start stop →
      (Derivation.choice id d).Spans g w id start stop := fun hd =>
    hd.of_part (.choice he (hd.root ▸ hc) hd.valid) rfl rfl
  cases h _ _ (hpart hd) (hpart hd') with
  | choice h => exact h

/-! ### Results are known by their spans -/

section

variable (h : Faithful g w L m waiting)
include h

/-- An expression has **one result** from a position to another. The node is the same even if there
are several ways to come to it. -/
theorem Faithful.result_unique (hn : L.Result n ⟨id, false, start⟩ stop)
    (hn' : L.Result n' ⟨id, false, start⟩ stop) : n = n' := by
  obtain ⟨memo, hresult, hgoal⟩ := hn
  obtain ⟨memo', hresult', hgoal'⟩ := hn'
  obtain rfl := h.distinct.goal memo memo' _ hgoal hgoal'
  exact h.unique.one n n' memo stop ⟨hresult, id, start, hgoal⟩ ⟨hresult', id, start, hgoal'⟩

/-- Behind every result there is **a derivation over its span**. If all derivations are alike this
one stands for them. -/
theorem Faithful.exists_spans {goal : Goal} (hn : L.Result n goal stop) :
    ∃ d : Derivation, d.Spans g w goal.expr goal.start stop := by
  obtain ⟨d, hd, -⟩ := h.sound.exists_behind hn
  exact ⟨d, hd⟩

/-- Where derivations in order are alike there is **one list of results** in order. Derivations that
are alike divide the stretch at the same places. -/
theorem Faithful.covers_unique (hc : L.Covers nodes ids start stop)
    (hc' : L.Covers nodes' ids' start stop) (hclear : ClearAll g w ids ids' start stop) :
    nodes = nodes' := by
  induction hc generalizing nodes' ids' with
  | nil start =>
    cases hc' with
    | nil => rfl
    | cons hn' hs' =>
      obtain ⟨ds', hds'⟩ := h.sound.exists_spansAll (.cons hn' hs')
      cases hclear [] ds' (spansAll_nil start) hds'
      cases hds'.roots
  | @cons n i nodes ids start middle stop hn hs ih =>
    obtain ⟨d, hd⟩ := h.exists_spans hn
    obtain ⟨ds, hds⟩ := h.sound.exists_spansAll hs
    cases hc' with
    | nil =>
      cases hclear _ [] (hd.cons hds) (spansAll_nil _)
    | @cons n' i' nodes' ids' _ middle' _ hn' hs' =>
      obtain ⟨d', hd'⟩ := h.exists_spans hn'
      obtain ⟨ds', hds'⟩ := h.sound.exists_spansAll hs'
      have hfirst := (alikeAll_cons (hclear _ _ (hd.cons hds) (hd'.cons hds'))).1
      obtain rfl : i = i' := hd.root.symm.trans (hfirst.root_eq.trans hd'.root)
      obtain rfl : middle = middle' := by rw [← hd.ends, ← hd'.ends, hfirst.yield_eq]
      rw [h.result_unique hn hn', ih hs' fun es es' hes hes' =>
        (alikeAll_cons (hclear _ _ (hd.cons hes) (hd'.cons hes'))).2]

/-- Where derivations in order are alike, **each by itself** is alike too. -/
theorem Faithful.clearAt_of_covers (hc : L.Covers nodes ids start stop)
    (hclear : ClearAll g w ids ids start stop) : ∀ n ∈ nodes, ∃ goal stop, L.Result n goal stop ∧
      ClearAt g w goal.expr goal.start stop := by
  induction hc with
  | nil => simp
  | @cons n i nodes ids start middle stop hn hs ih =>
    obtain ⟨d, hd⟩ := h.exists_spans hn
    obtain ⟨ds, hds⟩ := h.sound.exists_spansAll hs
    refine List.forall_mem_cons.mpr ⟨⟨_, middle, hn, fun e e' he he' => ?_⟩,
      ih fun es es' hes hes' => ?_⟩
    · exact (alikeAll_cons (hclear _ _ (he.cons hds) (he'.cons hds))).1
    · exact (alikeAll_cons (hclear _ _ (hd.cons hes) (hd.cons hes'))).2

/-- Of a goal whose derivations are alike **one list of results** is recorded. Two lists would have
two derivations behind them that are not alike. -/
theorem Faithful.inner_unique (hclear : ClearAt g w id start stop)
    (hn : L.Result n ⟨id, true, start⟩ stop) (hn' : L.Result n' ⟨id, true, start⟩ stop) :
    n = n' := by
  obtain ⟨kind, hnode, hex⟩ := h.sound.explained hn
  obtain ⟨kind', hnode', hex'⟩ := h.sound.explained hn'
  obtain ⟨memo, hresult, hgoal⟩ := hn
  obtain ⟨memo', hresult', hgoal'⟩ := hn'
  obtain rfl := h.distinct.goal memo memo' _ hgoal hgoal'
  have hone : ∀ {tag tag' children}, kind = .sequence tag children →
      kind' = .sequence tag' children → n = n' := by
    rintro tag tag' children rfl rfl
    exact (h.distinct.once memo children).one n n' ⟨⟨stop, hresult⟩, tag, _, hnode⟩
      ⟨⟨stop, hresult'⟩, tag', _, hnode'⟩
  cases hex with
  | sequence he hcovers =>
    cases hex' with
    | sequence he' hcovers' =>
      cases he.symm.trans he'
      obtain rfl := h.covers_unique hcovers hcovers' (hclear.sequence he)
      exact hone rfl rfl
    | repetition he' => cases he.symm.trans he'
  | repetition he hcovers hmin hmax =>
    cases hex' with
    | sequence he' => cases he.symm.trans he'
    | repetition he' hcovers' hmin' hmax' =>
      cases he.symm.trans he'
      obtain rfl := h.covers_unique hcovers hcovers' (hclear.repetition he hmin hmin' hmax hmax')
      exact hone rfl rfl

end

/-! ### Nothing to choose -/

/-- Alternatives that are all the same **are only one**. -/
theorem eq_nil_of_nodup {first : NodeId} {more : List NodeId} (h : (first :: more).Nodup)
    (hone : ∀ a ∈ more, a = first) : more = [] := by
  cases more with
  | nil => rfl
  | cons a more =>
    obtain rfl := hone a List.mem_cons_self
    exact absurd List.mem_cons_self (List.nodup_cons.mp h).1

/-- Where there are roots there is **one**. A root is a result of the start over the whole input. -/
theorem Faithful.exists_root (h : Faithful g w L m waiting) (hroots : m.roots ≠ []) :
    ∃ root, m.roots = [root] ∧ L.Result root ⟨g.start, false, 0⟩ m.position := by
  obtain ⟨root, more, hm⟩ := List.exists_cons_of_ne_nil hroots
  have hresult := (h.sound.root root (by simp [hm])).1
  have hone : more = [] := eq_nil_of_nodup (hm ▸ h.distinct.roots) fun a ha =>
    h.result_unique (h.sound.root a (by simp [hm, ha])).1 hresult
  exact ⟨root, by rw [hm, hone], hresult⟩

/-- Results of alternatives that are alike are **the same result**: results of two children would
have derivations that are not alike. -/
theorem Faithful.alternative_unique (h : Faithful g w L m waiting) {tag : Option String}
    {child child' : ExprId} (he : g.expr? id = some (.alt tag ids)) (hc : child ∈ ids)
    (hc' : child' ∈ ids) (hclear : ClearAt g w id start stop)
    (hn : L.Result n ⟨child, false, start⟩ stop) (hn' : L.Result n' ⟨child', false, start⟩ stop) :
    n = n' := by
  obtain ⟨d, hd⟩ := h.exists_spans hn
  obtain ⟨d', hd'⟩ := h.exists_spans hn'
  have halike := hclear (.choice id d) (.choice id d')
    (hd.of_part (.choice he (hd.root ▸ hc) hd.valid) rfl rfl)
    (hd'.of_part (.choice he (hd'.root ▸ hc') hd'.valid) rfl rfl)
  cases halike with
  | choice halike =>
    obtain rfl : child = child' := hd.root.symm.trans (halike.root_eq.trans hd'.root)
    exact h.result_unique hn hn'

/-- **Where derivations are alike there is nothing to choose**: on a path of later nodes a result
has one output, whatever the policy, and nothing in it is packed. -/
theorem Faithful.exists_freshOutput (h : Faithful g w L m waiting) (o : ParseOptions) {goal : Goal}
    {path : List NodeId} (hpath : m.forest.IsPath path) (hlater : ∀ id ∈ path, node < id)
    (hn : L.Result node goal stop) (hclear : ClearAt g w goal.expr goal.start stop) :
    Forest.OneOutput o fun o => m.forest.freshOutput o path node := by
  -- parts are older, so the induction is on the number of the node
  induction node using Nat.strongRecOn generalizing path goal stop with
  | ind node ih =>
  have hnot : node ∉ path := fun hmem => Nat.lt_irrefl node (hlater node hmem)
  obtain ⟨kind, hnode, hex⟩ := h.sound.explained hn
  simp only [Forest.freshOutput_of_not_mem hpath.length_le hnot hnode]
  have holder : ∀ part goal stop, part < node → L.Result part goal stop →
      ClearAt g w goal.expr goal.start stop →
        Forest.OneOutput o fun o => m.forest.freshOutput o (node :: path) part :=
    fun part goal stop hlt hresult =>
      ih part hlt (hpath.cons (h.sound.lt_of_result hn) hnot)
        (List.forall_mem_cons.mpr ⟨hlt, fun id hid => Nat.lt_trans hlt (hlater id hid)⟩) hresult
  have hparts : ∀ {children ids start stop}, L.Covers children ids start stop →
      ClearAll g w ids ids start stop → (∀ c ∈ children, c < node) →
        ∀ c ∈ children, Forest.OneOutput o fun o => m.forest.freshOutput o (node :: path) c := by
    intro children ids start stop hcovers hall hold c hc
    obtain ⟨goal, stop, hresult, hclear⟩ := h.clearAt_of_covers hcovers hall c hc
    exact holder c goal stop (hold c hc) hresult hclear
  cases hex with
  | symbol | lexical => exact Forest.oneOutput_leaf rfl
  | omitted => exact Forest.oneOutput_nil
  | empty he => exact Forest.oneOutput_sequence (by simp)
  | sequence he hcovers hold =>
    exact Forest.oneOutput_sequence (hparts hcovers (hclear.sequence he) hold)
  | repetition he hcovers hmin hmax hold =>
    exact Forest.oneOutput_sequence
      (hparts hcovers (hclear.repetition he hmin hmin hmax hmax) hold)
  | @choice id tag ids first more start stop he hresult hold =>
    -- another alternative would be another derivation
    obtain ⟨child, hc, hfirst⟩ := hresult first List.mem_cons_self
    obtain rfl : more = [] := by
      refine eq_nil_of_nodup (h.distinct.alternatives node tag _ _ hnode) fun a ha => ?_
      obtain ⟨child', hc', ha⟩ := hresult a (List.mem_cons_of_mem _ ha)
      exact h.alternative_unique he hc' hc hclear ha hfirst
    exact Forest.oneOutput_choice (holder first _ _ hold hfirst (hclear.choice he hc))
  | @inner id e first more start stop he hinner hresult hold =>
    have hfirst := hresult first List.mem_cons_self
    -- another list would be another derivation
    obtain rfl : more = [] :=
      eq_nil_of_nodup (h.distinct.alternatives node none _ _ hnode) fun a ha =>
        h.inner_unique hclear (hresult a (List.mem_cons_of_mem _ ha)) hfirst
    exact Forest.oneOutput_choice (holder first _ _ hold hfirst hclear)

end Machine

/-! ### One tree -/

namespace Forest

open Machine

variable {g : Grammar} {w : List String} {f : Forest}

/-- **A clear input has one tree**: all policies come to the same, and no part of it is packed. A
choice with two alternatives would be two derivations, so there is none among what is walked. -/
theorem exists_extract_of_clear (hg : g.Closed) (hf : parse g w = .ok f)
    (hclear : g.Clear g.start w) (o : ParseOptions) :
    ∃ t : PlainTree, t.Unpacked ∧ ∀ policy, ∃ u n,
      f.extract { o with ambiguity := policy } = .ok (u, n) ∧ u.plain = t := by
  obtain ⟨L, m, hfaithful, -, rfl, hposition, hroots⟩ := exists_machine_of_parse hg hf
  obtain ⟨root, hroots, hresult⟩ := hfaithful.exists_root hroots
  rw [hposition] at hresult
  have hat : ClearAt g w g.start 0 w.length := by
    have hyield : ∀ {d : Derivation}, d.Spans g w g.start 0 w.length → d.yield = w := fun hd =>
      hd.reads.eq_of_length (by simpa using hd.ends)
    exact fun d d' hd hd' =>
      hclear d d' hd.valid hd'.valid hd.root hd'.root (hyield hd) (hyield hd')
  obtain ⟨ts, hout, hunpacked⟩ :=
    hfaithful.exists_freshOutput o (isPath_nil _) (by simp) hresult hat
  refine ⟨m.forest.plainRoot o ts, ?_, fun policy => ?_⟩
  · unfold plainRoot
    split
    · exact hunpacked _ (by simp)
    · exact ParseOptions.unpacked_plainSpanned (.branch rfl hunpacked)
  · have htree : m.forest.freshTree { o with ambiguity := policy } =
        .ok (m.forest.plainRoot o ts) := by
      have hforest : m.forest.roots = [root] := hroots
      have hroot : m.forest.freshOutput { o with ambiguity := policy } [] root = .ok (some ts) :=
        hout policy
      rw [freshTree, hforest, List.map_singleton, hroot, chosen_singleton]
      rfl
    exact exists_extract htree

/-- Without spans the tree of a clear input is **the shape of any of its derivations**. One
derivation is therefore enough to know the tree. -/
theorem extract_eq_shape_of_clear (hg : g.Closed) (hf : parse g w = .ok f)
    (hclear : g.Clear g.start w) {d : Derivation} (hd : d.Valid g) (hroot : d.root = g.start)
    (hyield : d.yield = w) (collapse : Bool) :
    ∃ t n, f.extract { ambiguity := .first, collapse, spans := false } = .ok (t, n) ∧
      t.plain = d.shape g collapse := by
  obtain ⟨t, ht, hall⟩ := exists_extract_of_clear hg hf hclear (ParseOptions.packing collapse)
  obtain ⟨u, n, hext, rfl⟩ := hall .packed
  obtain ⟨v, k, hfirst, hplain⟩ := hall .first
  refine ⟨v, k, hfirst, ?_⟩
  obtain ⟨L, m, hfaithful, -, rfl, hposition, hroots⟩ := exists_machine_of_parse hg hf
  have hs := hfaithful.sound
  obtain ⟨root, hmem⟩ := List.exists_mem_of_ne_nil _ hroots
  obtain ⟨r, hr⟩ := hs.exists_readsAs collapse (isPath_nil _) (by simp) (hs.root root hmem).1
  obtain ⟨u', n', hext', htrees⟩ := mem_trees_extract hs.closed_forest hmem hr
  obtain ⟨rfl, -⟩ := Prod.mk.inj (Except.ok.inj (hext.symm.trans hext'))
  -- the packed tree stands for itself only
  have hself : u.plain ∈ u.plain.trees := by rw [ht.trees_eq, List.mem_singleton]
  obtain ⟨r, hu, ⟨root, hmem, hr⟩, -⟩ := (htrees u.plain).mp hself
  obtain ⟨d', hd', hout⟩ := hs.exists_output (isPath_nil _) (hs.root root hmem).1 hr
  have hyield' : d'.yield = w :=
    hd'.reads.eq_of_length (by simpa [hposition] using hd'.ends)
  rw [hplain, hu, ← hout]
  exact (hclear d' d hd'.valid hd hd'.root hroot hyield' hyield).shape_eq

end Forest

end GeneralParsing
