import GeneralParsing.Proofs.Parsing.FirstTree

/-!
# What the outputs of results cover

The result of a goal covers a stretch of the input, from the position where the goal starts to the
position where the result ends. A statement about lists of trees and stretches that is a
`Coverage` holds of the output of every result, with the stretch of the result, under every policy
and on every path (`Coverage.output`), and of the tree of an input with the whole input
(`Coverage.extract`).

What is asked of such a statement is that it holds of leaves, that trees of adjacent stretches can
be put one after another, and that shapes keep it for each stretch (`ParseOptions.KeptByShapes`).
Packing keeps it because all outputs of a choice have one stretch, and tagging because a tag takes
the stretch of what it is put around or moves into alternatives that each have that stretch.
-/

namespace GeneralParsing

/-! ### Shapes -/

namespace ParseOptions

/-- A property of lists of trees that is kept when the trees get a label **with the span**, and when
a packed tree or a group among alternatives gives way to its children. -/
structure KeptByShapes (o : ParseOptions) (span : Span) (P : List PlainTree → Prop) : Prop where
  /-- A tag may join a lone untagged value. -/
  joined : ∀ {only} tag, P [only] → only.isValueLeaf = true →
    P [o.plainSpanned span (PlainTree.taggedValue tag (only.label.value.getD ""))]
  node : ∀ {ts} tag, P ts → P [o.plainSpanned span (PlainTree.node tag ts)]
  group : ∀ {ts}, P ts → P [o.plainSpanned span (PlainTree.group ts)]
  packed : ∀ {ts}, ts ≠ [] → (∀ t ∈ ts, P [t]) → P [o.plainSpanned span (PlainTree.packed ts)]
  alternatives : ∀ {t}, P [t] → t.isPacked = true → t.children ≠ [] ∧ ∀ u ∈ t.children, P [u]
  members : ∀ {t}, P [t] → t.isGroup = true → P t.children

namespace KeptByShapes

variable {o : ParseOptions} {span : Span} {P : List PlainTree → Prop} {ts : List PlainTree}

/-- What one derivation contributes to a packed tree are **alternatives with the property**. -/
theorem plainAlternatives (hP : o.KeptByShapes span P) (h : P ts) :
    o.plainAlternatives span ts ≠ [] ∧ ∀ t ∈ o.plainAlternatives span ts, P [t] := by
  unfold ParseOptions.plainAlternatives
  split
  · next only =>
    split
    · next hp => exact hP.alternatives h hp
    · simpa using h
  · simpa using hP.group h

/-- Outputs with the property are **packed into one tree** with it. A packed tree is one tree for
several, so it has to cover what each of them covers. -/
theorem plainPack (hP : o.KeptByShapes span P) {found : List (List PlainTree)}
    (hne : found ≠ []) (h : ∀ ts ∈ found, P ts) : P [o.plainPack span found] := by
  refine hP.packed ?_ fun t ht => ?_
  · obtain ⟨first, hfirst⟩ := List.exists_mem_of_ne_nil _ hne
    obtain ⟨t, ht⟩ := List.exists_mem_of_ne_nil _ (hP.plainAlternatives (h first hfirst)).1
    exact List.ne_nil_of_mem (List.mem_flatMap.mpr ⟨first, hfirst, ht⟩)
  · obtain ⟨ts, hts, ht⟩ := List.mem_flatMap.mp ht
    exact (hP.plainAlternatives (h ts hts)).2 t ht

theorem plainWrap (hP : o.KeptByShapes span P) (tag : String) (h : P ts) :
    P [o.plainWrap span tag ts] := by
  unfold ParseOptions.plainWrap PlainTree.tagged
  split
  · next only =>
    split
    · next hcollapse =>
      rw [Bool.and_eq_true] at hcollapse
      exact hP.joined tag h hcollapse.2
    · exact hP.node tag h
  · exact hP.node tag h

/-- A tag **keeps the property**, also where it moves into alternatives. There it is put on each
alternative for itself. -/
theorem plainTagged (hP : o.KeptByShapes span P) (tag : String) (h : P ts) :
    P [o.plainTagged span tag ts] := by
  unfold ParseOptions.plainTagged
  split
  · next only =>
    split
    · next hdistributes =>
      obtain ⟨hne, halternatives⟩ := hP.alternatives h (isPacked_of_plainDistributes hdistributes)
      refine hP.packed (by simpa using hne) fun t ht => ?_
      obtain ⟨part, hpart, rfl⟩ := List.mem_map.mp ht
      -- the tag goes around the alternative, or around the members if it is a group
      refine hP.plainWrap tag ?_
      split
      · next hg => exact hP.members (halternatives part hpart) hg
      · exact halternatives part hpart
    · exact hP.plainWrap tag h
  · exact hP.plainWrap tag h

theorem plainLabelled (hP : o.KeptByShapes span P) (tag : Option String) (h : P ts) :
    P (o.plainLabelled span tag ts) := by
  cases tag with
  | none => exact h
  | some tag => exact hP.plainTagged tag h

/-- A choice among outputs with the property **has it**. -/
theorem chosen (hP : o.KeptByShapes span P) {results : List (Except Error Forest.PlainOutput)}
    (h : Forest.chosen o span results = .ok (some ts))
    (hresults : ∀ us, .ok (some us) ∈ results → P us) : P ts := by
  rcases Forest.chosen_cases h with rfl | hmem | ⟨-, found, hlen, hfound, rfl⟩
  · exact hresults [] (Forest.mem_of_chosen_nil h)
  · exact hresults ts hmem
  · have hne : found ≠ [] := List.ne_nil_of_length_pos (by omega)
    exact hP.plainPack hne fun us hus => hresults us (hfound us hus).2

end KeptByShapes

end ParseOptions

/-! ### Results have outputs -/

namespace Machine

variable {g : Grammar} {w : List String} {L : Ledger} {m : Machine}
variable {path : List NodeId} {node : NodeId} {goal : Goal} {stop : Nat}

/-- On a path of **later** nodes every result has an output, unless the policy fails. Some
derivation of the result goes through older nodes only, and it is not cut. -/
theorem Sound.freshOutput_ne_none (h : Sound g w L m) (o : ParseOptions)
    (hpath : m.forest.IsPath path) (hlater : ∀ id ∈ path, node < id)
    (hn : L.Result node goal stop) : m.forest.freshOutput o path node ≠ .ok none := by
  induction node using Nat.strongRecOn generalizing path goal stop with
  | ind node ih =>
    have hnot : node ∉ path := fun hmem => Nat.lt_irrefl node (hlater node hmem)
    obtain ⟨kind, hnode, hex⟩ := h.explained hn
    rw [Forest.freshOutput_of_not_mem hpath.length_le hnot hnode]
    -- parts are older than the node and so they are not on the path either
    have holder : ∀ part goal stop, part < node → L.Result part goal stop →
        m.forest.freshOutput o (node :: path) part ≠ .ok none := fun part goal stop hlt hresult =>
      ih part hlt (hpath.cons (h.lt_of_result hn) hnot)
        (List.forall_mem_cons.mpr ⟨hlt, fun id hid => Nat.lt_trans hlt (hlater id hid)⟩) hresult
    have hmap : ∀ {result : Except Error Forest.PlainOutput}
        {f : List PlainTree → List PlainTree}, result ≠ .ok none →
        result.map (Option.map f) ≠ .ok none := by
      rintro (e | _ | ts) f hne
      · nofun
      · exact absurd rfl hne
      · nofun
    have hsequence : ∀ {tag span children ids start}, L.Covers children ids start stop →
        (∀ c ∈ children, c < node) → m.forest.freshNode o
          (m.forest.freshOutput o (node :: path)) span (.sequence tag children) ≠ .ok none := by
      intro tag span children ids start hcovers hold
      cases children with
      | nil => cases tag <;> nofun
      | cons c cs =>
        rw [Forest.freshNode_sequence]
        refine hmap (Forest.strung_ne_none fun result hresult => ?_)
        obtain ⟨part, hpart, rfl⟩ := List.mem_map.mp hresult
        obtain ⟨goal, stop, hpartResult⟩ := hcovers.result_of_mem hpart
        exact holder part goal stop (hold part hpart) hpartResult
    cases hex with
    | symbol | omitted | lexical => nofun
    | empty => exact hsequence (.nil _) (by simp)
    | sequence _ hcovers hold => exact hsequence hcovers hold
    | repetition _ hcovers _ _ hold => exact hsequence hcovers hold
    | @choice id tag ids first more start stop _ hresult hold =>
      -- one alternative with an output is enough
      obtain ⟨child, -, hresult⟩ := hresult first List.mem_cons_self
      exact hmap (Forest.chosen_ne_none (holder first _ stop hold hresult))
    | inner _ _ hresult hold =>
      exact hmap (Forest.chosen_ne_none (holder _ _ _ hold (hresult _ List.mem_cons_self)))

/-- The choice among the roots **comes to an output**, unless the policy fails. At the roots nothing
is on the path. -/
theorem Sound.chosen_roots_ne_none (h : Sound g w L m) (hroots : m.roots ≠ []) (o : ParseOptions)
    (span : Span) :
    Forest.chosen o span (m.roots.map (m.forest.freshOutput o [])) ≠ .ok none := by
  obtain ⟨root, roots, hcons⟩ := List.exists_cons_of_ne_nil hroots
  have hroot : root ∈ m.roots := hcons ▸ List.mem_cons_self
  rw [hcons]
  exact Forest.chosen_ne_none
    (h.freshOutput_ne_none o (Forest.isPath_nil _) (by simp) (h.root root hroot).1)

end Machine

/-! ### Coverage -/

/-- A statement about trees and **the stretch that they cover**, for expressions with some property
that passes to children. -/
structure Coverage (g : Grammar) (w : List String) (o : ParseOptions) (C : ExprId → Prop)
    (P : List PlainTree → Nat → Nat → Prop) : Prop where
  shapes : ∀ start stop, o.KeptByShapes ⟨start, stop⟩ (P · start stop)
  child : ∀ {id e}, C id → g.expr? id = some e → ∀ child ∈ e.children, C child
  nil : ∀ start, P [] start start
  append : ∀ {ts us start middle stop}, P ts start middle → P us middle stop →
    P (ts ++ us) start stop
  /-- The text of a derivation, as a value. -/
  value : ∀ {d : Derivation} {id start stop}, C id → d.Spans g w id start stop →
    P [o.plainSpanned ⟨start, stop⟩ (PlainTree.value d.text)] start stop
  /-- A tagged result without parts. -/
  empty : ∀ start tag, P [o.plainSpanned ⟨start, start⟩ (PlainTree.taggedValue tag "")] start start
  omitted : ∀ {id child start stop}, C id → g.expr? id = some (.omitted child) → start ≤ stop →
    P [] start stop

namespace Coverage

open Machine

variable {g : Grammar} {w : List String} {L : Ledger} {m : Machine} {o : ParseOptions}
variable {C : ExprId → Prop} {P : List PlainTree → Nat → Nat → Prop}
variable {path : List NodeId} {node : NodeId} {goal : Goal} {stop : Nat} {ts : List PlainTree}

/-- Outputs of results in order, strung together, **cover what the results cover**. The pieces that
they cover lie side by side, and so do the outputs. -/
theorem strung (hP : Coverage g w o C P) {nodes : List NodeId} {ids : List ExprId}
    {start stop : Nat} {visit : NodeId → Except Error Forest.PlainOutput}
    (hcovers : L.Covers nodes ids start stop)
    (h : ∀ node ∈ nodes, ∀ id start stop ts, id ∈ ids → L.Result node ⟨id, false, start⟩ stop →
      visit node = .ok (some ts) → P ts start stop)
    (hts : Forest.strung (nodes.map visit) = .ok (some ts)) : P ts start stop := by
  induction hcovers generalizing ts with
  | nil start =>
    obtain rfl : [] = ts := by simpa [Forest.strung] using hts
    exact hP.nil start
  | @cons node id nodes ids start middle stop hn _ ih =>
    rw [List.map_cons, Forest.strung] at hts
    rcases hvisit : visit node with e | _ | us
    · simp [hvisit, bind, Except.bind] at hts
    · simp [hvisit] at hts
    · rw [hvisit, Forest.ok_bind] at hts
      rcases hrest : Forest.strung (nodes.map visit) with e | _ | vs
      · simp [hrest, bind, Except.bind] at hts
      · simp [hrest] at hts
      · obtain rfl : us ++ vs = ts := by simpa [hrest] using hts
        have hus := h node (by simp) id start middle us (by simp) hn hvisit
        refine hP.append hus (ih (fun node hnode id start stop ts hid => ?_) hrest)
        exact h node (by simp [hnode]) id start stop ts (by simp [hid])

/-- **The output of a result covers** the stretch that the result covers. The induction is on the
walk, and the invariant is about stretches rather than nodes, as a node may give different outputs
on different paths. -/
theorem output (hP : Coverage g w o C P) (h : Sound g w L m) (hpath : m.forest.IsPath path)
    (hn : L.Result node goal stop) (hgoal : C goal.expr)
    (hts : m.forest.freshOutput o path node = .ok (some ts)) : P ts goal.start stop := by
  refine Forest.path_induct h.closed_forest (motive := fun path node => ∀ goal stop ts,
    L.Result node goal stop → C goal.expr →
      m.forest.freshOutput o path node = .ok (some ts) → P ts goal.start stop)
    (fun path node hpath hmem goal stop ts _ _ hts => ?_) ?_ hpath (h.lt_of_result hn)
    goal stop ts hn hgoal hts
  · rw [Forest.freshOutput_of_mem hpath.length_le hmem] at hts
    cases hts
  intro path node kind span hpath hnot hnode ih goal stop ts hn hgoal hts
  obtain ⟨kind', hnode', hex⟩ := h.explained hn
  obtain ⟨rfl, rfl⟩ := Forest.Node.mk.inj (Option.some.inj (hnode.symm.trans hnode'))
  rw [Forest.freshOutput_of_not_mem hpath.length_le hnot hnode] at hts
  -- a sequence, with parts or without
  have hsequence : ∀ {tag children ids start}, kind = .sequence tag children →
      goal.start = start → L.Covers children ids start stop → (∀ id ∈ ids, C id) →
      P ts start stop := by
    rintro tag children ids start rfl rfl hcovers hids
    cases children with
    | nil =>
      cases hcovers
      cases tag with
      | none =>
        obtain rfl : [] = ts := Option.some.inj (Except.ok.inj hts)
        exact hP.nil _
      | some tag =>
        obtain rfl := Option.some.inj (Except.ok.inj hts)
        exact hP.empty goal.start tag
    | cons c cs =>
      rw [Forest.freshNode_sequence] at hts
      obtain ⟨us, hus, rfl⟩ := Forest.exists_of_map_eq_ok hts
      refine (hP.shapes _ _).plainLabelled tag (hP.strung hcovers ?_ hus)
      exact fun part hpart id start stop us hid hresult =>
        ih part hpart ⟨id, false, start⟩ stop us hresult (hids id hid)
  -- a choice among results of one stretch
  have hchoice : ∀ {tag alternatives start}, kind = .choice tag alternatives → goal.start = start →
      (∀ a ∈ alternatives, ∃ id inner, L.Result a ⟨id, inner, start⟩ stop ∧ C id) →
      P ts start stop := by
    rintro tag alternatives start rfl rfl hresults
    obtain ⟨us, hus, rfl⟩ := Forest.exists_of_map_eq_ok hts
    refine (hP.shapes _ _).plainLabelled tag ((hP.shapes _ _).chosen hus fun vs hvs => ?_)
    obtain ⟨a, ha, hvs⟩ := List.mem_map.mp hvs
    obtain ⟨id, inner, hresult, hid⟩ := hresults a ha
    exact ih a ha ⟨id, inner, goal.start⟩ stop vs hresult hid hvs
  cases hex with
  | symbol he ha hw =>
    obtain rfl := Option.some.inj (Except.ok.inj hts)
    exact hP.value hgoal (Derivation.spans_symbol he ha hw)
  | empty => exact hsequence rfl rfl (.nil _) (by simp)
  | sequence he hcovers => exact hsequence rfl rfl hcovers fun id hid => hP.child hgoal he id hid
  | repetition he hcovers =>
    refine hsequence rfl rfl hcovers fun id hid => hP.child hgoal he id ?_
    simp [Expr.children, List.eq_of_mem_replicate hid]
  | choice he hresult =>
    refine hchoice rfl rfl fun a ha => ?_
    obtain ⟨child, hc, hresult⟩ := hresult a ha
    exact ⟨child, false, hresult, hP.child hgoal he child hc⟩
  | inner _ _ hresult => exact hchoice rfl rfl fun a ha => ⟨_, true, hresult a ha, hgoal⟩
  | omitted he =>
    obtain rfl : [] = ts := Option.some.inj (Except.ok.inj hts)
    obtain ⟨d, hd, -⟩ := h.exists_behind hn
    exact hP.omitted hgoal he (Nat.le.intro hd.ends)
  | @lexical id child part start stop he hresult hold =>
    obtain rfl := Option.some.inj (Except.ok.inj hts)
    obtain ⟨d, hd, htext⟩ := h.exists_behind hresult
    rw [htext.text_eq]
    obtain rfl : d.root = child := hd.root
    have hlexical : (Derivation.lexical id d).Spans g w id start stop :=
      hd.of_part (.lexical he hd.valid) rfl rfl
    exact hP.value (d := .lexical id d) hgoal hlexical

/-! ### The tree of an input -/

/-- The outputs of the roots as one tree **cover the whole input**. -/
theorem plainRoot {f : Forest} (hP : Coverage g w o C P) (h : P ts 0 f.tokens) :
    P [f.plainRoot o ts] 0 f.tokens := by
  match ts, h with
  | [only], h => exact h
  | [], h | _ :: _ :: _, h => exact (hP.shapes 0 f.tokens).group h

/-- The tree of an input **covers the whole input**. The property is stated once, and each use of
this theorem is about a choice of it. -/
theorem extract {f : Forest} (hP : Coverage g w o C P) (hg : g.Closed)
    (hf : Forest.parse g w = .ok f) (hstart : C g.start) {t : NumberedTree} {n : Nat}
    (ht : f.extract o = .ok (t, n)) : P [t.plain] 0 w.length := by
  rw [← Forest.tokens_of_parse hg hf]
  obtain ⟨L, m, hfaithful, -, rfl, -, hroots⟩ := Forest.exists_machine_of_parse hg hf
  have hs := hfaithful.sound
  have hfresh := Forest.freshTree_of_extract ht
  rw [Forest.freshTree] at hfresh
  cases hchosen : Forest.chosen o m.forest.wholeSpan
      (m.forest.roots.map (m.forest.freshOutput o [])) with
  | error e =>
    rw [hchosen] at hfresh
    cases hfresh
  | ok out =>
    rw [hchosen] at hfresh
    cases out with
    | none => exact absurd hchosen (hs.chosen_roots_ne_none hroots o _)
    | some ts =>
      rw [← Except.ok.inj hfresh, Option.getD_some]
      refine hP.plainRoot ((hP.shapes 0 m.forest.tokens).chosen hchosen fun us hus => ?_)
      obtain ⟨root, hroot, hus⟩ := List.mem_map.mp hus
      exact hP.output hs (Forest.isPath_nil _) (hs.root root hroot).1 hstart hus

end Coverage

end GeneralParsing
