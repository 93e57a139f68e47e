import GeneralParsing.Proofs.Machine.Turns
import GeneralParsing.Proofs.Parsing.ErrorPolicy
import GeneralParsing.Proofs.Parsing.Rejection
import GeneralParsing.Proofs.Parsing.WholeText

/-!
# The first tree and the order of alternatives

Let the start be a choice among sequences with different tags. The first tree of an input then has
the tag of the alternative that was found first. If the alternatives **keep apart**, this is the
earliest one that derives the input (`Forest.first_of_alternatives`): parted before any later
alternative, the grammar has two sides, and the machine takes turns.

In general it need not be so. A part that is begun on behalf of an early alternative, which then
fails to go on with it, may at once complete a later alternative. The early one completes with a
part that was begun afterwards (`Forest.first_of_later_sharedPart`). Shared terminals are enough
for that where they overlap with others (`Forest.first_of_later_alikeTokens`).
-/

namespace GeneralParsing

/-! ### Tagged sequences -/

namespace ParseOptions

variable {o : ParseOptions} {ts : List PlainTree}

/-- A span **does not change the tag**. -/
theorem tag_plainSpanned (span : Span) (t : PlainTree) :
    (o.plainSpanned span t).label.tag = t.label.tag := by
  unfold plainSpanned
  split
  · cases t <;> rfl
  · rfl

/-- A tagged tree has **its tag at the root**, collapsed or not. -/
theorem tag_tagged (collapse : Bool) (tag : String) (ts : List PlainTree) :
    (PlainTree.tagged collapse tag ts).label.tag = some tag := by
  unfold PlainTree.tagged
  split
  · split <;> rfl
  · rfl

/-- Around trees that are not packed a tag **stays where it is**. It would only move into the
alternatives of a packed tree. -/
theorem tag_plainTagged (span : Span) (tag : String) (hu : ∀ t ∈ ts, t.isPacked = false) :
    (o.plainTagged span tag ts).label.tag = some tag := by
  have hwrap : (o.plainWrap span tag ts).label.tag = some tag := by
    rw [plainWrap, tag_plainSpanned, tag_tagged]
  unfold plainTagged
  split
  · next only =>
    have hnot : o.plainDistributes only = false := by
      rw [plainDistributes, hu only List.mem_cons_self, Bool.false_and]
    rwa [hnot]
  · exact hwrap

end ParseOptions

/-- Where nothing is packed, a tagged sequence gives **one tree with its tag**. -/
theorem Forest.tagged_of_sequence {f : Forest} {o : ParseOptions} (ho : o.ambiguity ≠ .packed)
    {path : List NodeId} {id : NodeId} {tag : String} {children : List NodeId} {span : Span}
    (hnode : f.node? id = some ⟨.sequence (some tag) children, span⟩) (hpath : f.IsPath path)
    {ts : List PlainTree} (hts : f.freshOutput o path id = .ok (some ts)) :
    ∃ t, ts = [t] ∧ t.label.tag = some tag := by
  have hnot : id ∉ path := fun hmem => by
    rw [freshOutput_of_mem hpath.length_le hmem] at hts
    cases hts
  rw [freshOutput_of_not_mem hpath.length_le hnot hnode] at hts
  cases children with
  | nil =>
    obtain rfl := Option.some.inj (Except.ok.inj hts)
    exact ⟨_, rfl, ParseOptions.tag_plainSpanned _ _⟩
  | cons child children =>
    rw [freshNode_sequence] at hts
    obtain ⟨us, hus, rfl⟩ := exists_of_map_eq_ok hts
    refine ⟨_, rfl, ParseOptions.tag_plainTagged span tag fun t ht => ?_⟩
    obtain ⟨vs, hvs, hmem⟩ := exists_mem_of_strung hus ht
    obtain ⟨part, -, hpart⟩ := List.mem_map.mp hvs
    exact (unpacked_freshOutput ho hpart t hmem).isPacked_eq_false

namespace Machine

variable {g : Grammar} {w : List String} {L : Ledger} {m : Machine} {o : ParseOptions}
variable {path : List NodeId} {node : NodeId} {id : ExprId} {ids : List ExprId} {tag : String}
variable {start stop : Nat} {ts : List PlainTree}

/-- Where nothing is packed, a result of a tagged sequence gives **one tree with its tag**. So one
can read off the tree which alternative it comes from. -/
theorem Sound.tagged_of_result (h : Sound g w L m) (ho : o.ambiguity ≠ .packed)
    (he : g.expr? id = some (.seq (some tag) ids)) (hn : L.Result node ⟨id, false, start⟩ stop)
    (hpath : m.forest.IsPath path) (hts : m.forest.freshOutput o path node = .ok (some ts)) :
    ∃ t, ts = [t] ∧ t.label.tag = some tag := by
  obtain ⟨kind, hnode, hex⟩ := h.explained hn
  have hnot : node ∉ path := fun hmem => by
    rw [Forest.freshOutput_of_mem hpath.length_le hmem] at hts
    cases hts
  cases hex with
  | symbol he' ha =>
    obtain rfl := Option.some.inj (he.symm.trans he')
    cases ha
  | empty he' =>
    cases he.symm.trans he'
    exact Forest.tagged_of_sequence ho hnode hpath hts
  | @inner _ e first more _ _ _ hinner hresult hold =>
    rw [Forest.freshOutput_of_not_mem hpath.length_le hnot hnode] at hts
    obtain ⟨us, hus, rfl⟩ := Forest.exists_of_map_eq_ok hts
    have hmem : .ok (some us) ∈
        (first :: more).map (m.forest.freshOutput o (node :: path)) := by
      rcases Forest.chosen_cases hus with rfl | hmem | ⟨hpacked, -⟩
      · exact Forest.mem_of_chosen_nil hus
      · exact hmem
      · exact absurd hpacked ho
    obtain ⟨part, hpart, hout⟩ := List.mem_map.mp hmem
    -- an alternative is the sequence of the parts
    have hresult := hresult part hpart
    obtain ⟨kind, hnode', hex⟩ := h.explained hresult
    cases hex with
    | sequence he' =>
      cases he.symm.trans he'
      exact Forest.tagged_of_sequence ho hnode' (hpath.cons (h.lt_of_result hn) hnot) hout
    | repetition he' => cases he.symm.trans he'
  | choice he' | omitted he' | lexical he' => cases he.symm.trans he'

end Machine

/-! ### Alternatives that keep apart -/

namespace Grammar

/-- The start is a choice among **sequences with different tags**. -/
structure OffersTagged (g : Grammar) (cs : List ExprId) : Prop where
  start : g.expr? g.start = some (.alt none cs)
  tagged : ∀ c ∈ cs, ∃ tag ids, g.expr? c = some (.seq (some tag) ids)
  nodup : (cs.map g.tag?).Nodup

/-- An expression is reached from **two different ones** of a list. -/
def SharedBelow (g : Grammar) (cs : List ExprId) (id : ExprId) : Prop :=
  ∃ c ∈ cs, ∃ c' ∈ cs, c ≠ c' ∧ g.Reaches c id ∧ g.Reaches c' id

/-- Alternatives of the start **keep apart**: what is reached from two of them is a terminal, and
accepts no symbol that another terminal below the start accepts. -/
structure KeepApart (g : Grammar) (cs : List ExprId) : Prop where
  terminal : ∀ id e, g.SharedBelow cs id → g.expr? id = some e → e.isTerminal = true
  alone : ∀ id id' e e' symbol, g.SharedBelow cs id → g.Reaches g.start id' →
    g.expr? id = some e → g.expr? id' = some e' → e.accepts symbol = true →
      e'.accepts symbol = true → id = id'

/-- What is reached **from one of these**. -/
def ReachedFrom (g : Grammar) (cs : List ExprId) (id : ExprId) : Prop := ∃ c ∈ cs, g.Reaches c id

variable {g : Grammar} {cs before after : List ExprId} {c : ExprId} {w : List String}

/-- Alternatives with different tags **are different**. -/
theorem OffersTagged.nodup_alternatives (h : g.OffersTagged cs) : cs.Nodup := h.nodup.of_map

/-- An alternative is **not reached from another one**. They are told apart by their tags, and a
shared expression has none of them. -/
theorem KeepApart.not_sharedBelow (h : g.KeepApart cs) (hoffers : g.OffersTagged cs) (hc : c ∈ cs) :
    ¬ g.SharedBelow cs c := by
  intro hshared
  obtain ⟨tag, ids, he⟩ := hoffers.tagged c hc
  cases h.terminal c _ hshared he

/-- What is reached from some of the alternatives is **a side**, if there are others. It is closed
under references, and closed apart from the start. -/
theorem KeepApart.side (h : g.KeepApart cs) (hoffers : g.OffersTagged cs)
    (hsub : before ⊆ cs) (hc : c ∈ cs) (hnot : c ∉ before) : g.Side (g.ReachedFrom before) where
  start := by
    rintro ⟨c', hc', hreach⟩
    have hne : c' ≠ c := by
      rintro rfl
      exact hnot hc'
    exact h.not_sharedBelow hoffers hc
      ⟨c', hsub hc', c, hc, hne, hreach.snoc hoffers.start hc, .refl c⟩
  child := by
    rintro id e ⟨c', hc', hreach⟩ he child hchild
    exact ⟨c', hc', hreach.snoc he hchild⟩

/-- Alternatives that keep apart can be **parted anywhere**. What both sides reach is shared, and
that cannot match the same symbols. -/
theorem KeepApart.parted (h : g.KeepApart (before ++ after))
    (hoffers : g.OffersTagged (before ++ after)) (hbefore : before ≠ []) (hafter : after ≠ []) :
    g.Parted (g.ReachedFrom before) (g.ReachedFrom after) := by
  have hdisjoint : ∀ c ∈ before, ∀ c' ∈ after, c ≠ c' :=
    (List.nodup_append.mp hoffers.nodup_alternatives).2.2
  have hshared : ∀ {id}, g.ReachedFrom before id → g.ReachedFrom after id →
      g.SharedBelow (before ++ after) id := by
    rintro id ⟨c, hc, hreach⟩ ⟨c', hc', hreach'⟩
    exact ⟨c, List.mem_append_left _ hc, c', List.mem_append_right _ hc', hdisjoint c hc c' hc',
      hreach, hreach'⟩
  have hbelow : ∀ {id}, g.ReachedFrom before id ∨ g.ReachedFrom after id →
      g.Reaches g.start id := by
    rintro id (⟨c, hc, hreach⟩ | ⟨c, hc, hreach⟩)
    · exact .child hoffers.start (List.mem_append_left _ hc) hreach
    · exact .child hoffers.start (List.mem_append_right _ hc) hreach
  obtain ⟨c, hc⟩ := List.exists_mem_of_ne_nil _ hbefore
  obtain ⟨c', hc'⟩ := List.exists_mem_of_ne_nil _ hafter
  exact {
    isSide := h.side hoffers (List.subset_append_left _ _) (List.mem_append_right _ hc')
      fun hmem => hdisjoint c' hmem c' hc' rfl
    isOther := h.side hoffers (List.subset_append_right _ _) (List.mem_append_left _ hc)
      fun hmem => hdisjoint c hc c hmem rfl
    start := by
      refine ⟨none, before ++ after, hoffers.start, fun c hc => ⟨?_, fun hboth => ?_⟩⟩
      · rcases List.mem_append.mp hc with hc | hc
        · exact .inl ⟨c, hc, .refl c⟩
        · exact .inr ⟨c, hc, .refl c⟩
      · exact h.not_sharedBelow hoffers hc (hshared hboth.1 hboth.2)
    terminal := fun id e hearly hlate => h.terminal id e (hshared hearly hlate)
    alone := fun id id' e e' symbol hearly hlate hside =>
      h.alone id id' e e' symbol (hshared hearly hlate) (hbelow hside)
    order := ⟨none, before, after, hoffers.start, fun c hc => ⟨c, hc, .refl c⟩,
      fun c hc => ⟨c, hc, .refl c⟩⟩ }

end Grammar

/-! ### The first alternative -/

/-- Of those that have a property there is **an earliest one**. -/
theorem exists_earliest {α : Type} {p : α → Prop} {xs : List α} (h : ∃ x ∈ xs, p x) :
    ∃ before x after, xs = before ++ x :: after ∧ (∀ y ∈ before, ¬ p y) ∧ p x := by
  classical
  obtain ⟨x, hx⟩ : ∃ x, xs.find? (fun x => decide (p x)) = some x := by
    refine Option.isSome_iff_exists.mp (List.find?_isSome.mpr ?_)
    simpa using h
  obtain ⟨hpx, before, after, rfl, hbefore⟩ := List.find?_eq_some_iff_append.mp hx
  exact ⟨before, x, after, rfl, by simpa using hbefore, by simpa using hpx⟩

namespace Machine

variable {g : Grammar} {w : List String} {L : Ledger} {m : Machine} {cs : List ExprId}
variable {tag : Option String} {c : ExprId} {node : NodeId} {span : Span} {as : List NodeId}

/-- A result for the whole input **derives it**. The result covers the input from its beginning to
its end. -/
theorem Sound.derives_of_result (h : Sound g w L m) (hend : m.position = w.length)
    (hn : L.Result node ⟨c, false, 0⟩ m.position) : g.Derives c w := by
  obtain ⟨d, hd, -⟩ := h.exists_behind hn
  refine Grammar.derives_iff.mpr ⟨d, hd.valid, hd.root, hd.reads.eq_of_length ?_⟩
  have hends := hd.ends
  rwa [Nat.zero_add, hend] at hends

/-- At the end of an input every alternative of the start that derives the input **is among the
alternatives** of the result. -/
theorem Faithful.exists_alternative (h : Faithful g w L m m.matched) (htasks : m.tasks = [])
    (hend : m.position = w.length) (he : g.expr? g.start = some (.alt tag cs)) (hc : c ∈ cs)
    (hne : c ≠ g.start) (hderives : g.Derives c w)
    (hn : L.Result node ⟨g.start, false, 0⟩ m.position)
    (hnode : m.nodes[node]? = some ⟨.choice tag as, span⟩) :
    ∃ a ∈ as, L.Result a ⟨c, false, 0⟩ m.position := by
  obtain ⟨d, hd, rfl, hyield⟩ := Grammar.derives_iff.mp hderives
  obtain ⟨d', hd', hunstalled, hroot', hyield'⟩ := hd.exists_unstalled
  rw [hyield] at hyield'
  -- the start asks for the alternative, and is handed its result
  obtain ⟨id, hgoal, -⟩ := registered_of_wanted htasks h.exhaustive.start
  obtain ⟨inner, hgoal', hhands⟩ := registered_of_wanted htasks
    (h.exhaustive.expanded id g.start 0 _ hgoal he d.root hc)
  have hfound := h.found htasks hd' hunstalled (hroot' ▸ hgoal') (hyield' ▸ List.prefix_rfl)
  rw [Found, hyield', Nat.zero_add, ← hend] at hfound
  obtain ⟨a, hrec, -⟩ := hfound.resolve_right fun hgoes => Nat.lt_irrefl _ hgoes.1
  have ha : L.Result a ⟨d.root, false, 0⟩ m.position := ⟨inner, hrec.1, hgoal'⟩
  obtain ⟨choice, hchoice, htaken⟩ := h.taken htasks hrec hhands
  obtain rfl := h.result_unique hn ⟨id, hchoice, hgoal⟩
  have hnot : node ≠ a := by
    rintro rfl
    exact hne (congrArg Goal.expr (ha.unique hn).1)
  obtain ⟨tag', as', span', hnode', hmem⟩ := htaken.resolve_left hnot
  obtain ⟨hkind, -⟩ := Forest.Node.mk.inj (Option.some.inj (hnode.symm.trans hnode'))
  obtain ⟨-, rfl⟩ := Forest.Kind.choice.inj hkind
  exact ⟨a, hmem, ha⟩

/-- **The earliest alternative is the first**: at the end of an input the first alternative of the
root is a result of the earliest one that derives the input. -/
theorem Reached.exists_first (hoffers : g.OffersTagged cs) (hapart : g.KeepApart cs)
    (h : Reached g w L m) (htasks : m.tasks = []) (hend : m.position = w.length)
    (hroots : m.roots ≠ []) :
    ∃ before c after root first more span, cs = before ++ c :: after ∧
      (∀ c' ∈ before, ¬ g.Derives c' w) ∧ g.Derives c w ∧ m.roots = [root] ∧
        m.nodes[root]? = some ⟨.choice none (first :: more), span⟩ ∧
          L.Result root ⟨g.start, false, 0⟩ m.position ∧ first < root ∧
            L.Result first ⟨c, false, 0⟩ m.position := by
  have hs := h.faithful.sound
  obtain ⟨root, hone, hroot⟩ := h.faithful.exists_root hroots
  obtain ⟨kind, hnode, hex⟩ := hs.explained hroot
  obtain ⟨first, more, rfl, hold, hresult⟩ := hex.of_alt hoffers.start
  obtain ⟨c', hc', hfirst⟩ := hresult first List.mem_cons_self
  obtain ⟨before, c, after, rfl, hbefore, hc⟩ :=
    exists_earliest (p := (g.Derives · w)) ⟨c', hc', hs.derives_of_result hend hfirst⟩
  refine ⟨before, c, after, root, first, more, _, rfl, hbefore, hc, hone, hnode, hroot, hold, ?_⟩
  rcases List.mem_append.mp hc' with hmem | hmem
  · exact absurd (hs.derives_of_result hend hfirst) (hbefore c' hmem)
  rcases List.mem_cons.mp hmem with rfl | hmem
  · exact hfirst
  -- the first alternative would be late, and the earliest one comes after it
  rw [List.append_cons] at hoffers hapart
  have hp := hapart.parted hoffers (by simp) (List.ne_nil_of_mem hmem)
  have hne : c ≠ g.start := fun heq =>
    hp.isSide.start ⟨c, by simp, heq ▸ .refl _⟩
  obtain ⟨a, ha, hlater⟩ := h.faithful.exists_alternative htasks hend hoffers.start (by simp) hne
    hc hroot hnode
  have hearly : IsOf L (g.ReachedFrom (before ++ [c])) a :=
    (isOf_iff hlater).mpr ⟨c, by simp, .refl c⟩
  have hlate : IsOf L (g.ReachedFrom after) first := (isOf_iff hfirst).mpr ⟨c', hmem, .refl c'⟩
  have horder := (h.takesTurns hp).tables.alternatives root none _ _ _ hnode hroot
  rcases List.mem_cons.mp ha with rfl | ha
  · exact hlater
  · exact absurd ⟨hlate, hearly⟩ ((List.pairwise_cons.mp horder).1 a ha)

end Machine

/-! ### The first tree -/

namespace Forest

open Machine

/-- The first policy takes **the first output** if it has trees. -/
theorem chosen_first_cons {o : ParseOptions} (ho : o.ambiguity = .first) (span : Span)
    (t : PlainTree) (ts : List PlainTree) (results : List (Except Error PlainOutput)) :
    chosen o span (.ok (some (t :: ts)) :: results) = .ok (some (t :: ts)) := by
  rw [chosen, ho]
  rfl

variable {g : Grammar} {w : List String} {f : Forest} {cs : List ExprId}

/-- **The first tree follows the order of the alternatives**: where the start is a choice among
sequences with different tags that keep apart, the first tree of an input has the tag of the
earliest alternative that derives the input. -/
theorem first_of_alternatives (hoffers : g.OffersTagged cs) (hapart : g.KeepApart cs)
    (hf : parse g w = .ok f) (o : ParseOptions) :
    ∃ before c after t n, cs = before ++ c :: after ∧ (∀ c' ∈ before, ¬ g.Derives c' w) ∧
      g.Derives c w ∧ f.extract { o with ambiguity := .first } = .ok (t, n) ∧
        t.label.tag = g.tag? c := by
  obtain ⟨L, m, hreached, htasks, rfl, hroots, hend⟩ := exists_reached hf
  have hs := hreached.faithful.sound
  obtain ⟨before, c, after, root, first, more, span, rfl, hbefore, hc, hone, hnode, hroot, hold,
    hfirst⟩ := hreached.exists_first hoffers hapart htasks hend hroots
  obtain ⟨tag, ids, he⟩ := hoffers.tagged c (by simp)
  set o' : ParseOptions := { o with ambiguity := .first } with ho'
  -- the first alternative is older than the root, so it has an output
  have hpath : m.forest.IsPath [root] := (isPath_nil _).cons (hs.lt_of_result hroot) (by simp)
  obtain ⟨out, -, hout⟩ := exists_freshOutput hs.closed_forest o hpath (hs.lt_of_result hfirst)
  have hsome := hs.freshOutput_ne_none o' hpath (by simpa using hold) hfirst
  obtain ⟨ts, hts⟩ : ∃ ts, m.forest.freshOutput o' [root] first = .ok (some ts) := by
    cases out with
    | none => exact absurd hout hsome
    | some ts => exact ⟨_, hout⟩
  obtain ⟨t, rfl, ht⟩ := hs.tagged_of_result (by simp [ho']) he hfirst hpath hts
  have hchoice : m.forest.node? root = some ⟨.choice none (first :: more), span⟩ := hnode
  have houtput : m.forest.freshOutput o' [] root = .ok (some [t]) := by
    rw [freshOutput_of_not_mem (Nat.zero_le _) List.not_mem_nil hchoice, freshNode, List.map_cons,
      hts, chosen_first_cons rfl]
    rfl
  have htree : m.forest.freshTree o' = .ok t := by
    rw [freshTree, show m.forest.roots = [root] from hone, List.map_singleton, houtput,
      chosen_first_cons rfl]
    rfl
  obtain ⟨u, n, hext, rfl⟩ := exists_extract htree
  refine ⟨before, c, after, u, n, rfl, hbefore, hc, hext, ?_⟩
  rw [← Tree.label_plain, ht, Grammar.tag?_eq he, Expr.tag?]

end Forest

/-! ### Alternatives that share symbols -/

namespace Grammar

/-- One `x` under the tag `c`, or an `x` and a `y` under `a` or under `b`. The alternatives share
the two symbols and nothing else. -/
def tagChoices : Grammar where
  exprs := #[.token "x", .token "y", .seq (some "c") [0], .seq (some "a") [0, 1],
    .seq (some "b") [0, 1], .alt none [2, 3, 4]]
  start := 5
  start_lt := by decide

theorem closed_tagChoices : tagChoices.Closed := by
  rw [Closed, tagChoices]
  decide

theorem offersTagged_tagChoices : tagChoices.OffersTagged [2, 3, 4] where
  start := rfl
  tagged := by simp [expr?, tagChoices]
  nodup := by decide

/-- All that the alternatives share are **two tokens**. -/
theorem sharedBelow_tagChoices {id : ExprId} (h : tagChoices.SharedBelow [2, 3, 4] id) :
    id = 0 ∨ id = 1 := by
  have hsymbol : ∀ i (hi : i < tagChoices.exprs.size), i = 0 ∨ i = 1 →
      tagChoices.exprs[i].children = [] := by decide
  have hpart : ∀ i (hi : i < tagChoices.exprs.size), i ∈ [2, 3, 4] →
      ∀ child ∈ tagChoices.exprs[i].children, child = 0 ∨ child = 1 := by decide
  have hreach : ∀ {c id}, c ∈ [2, 3, 4] → tagChoices.Reaches c id → id = c ∨ id = 0 ∨ id = 1 := by
    intro c id hc h
    cases h with
    | refl => exact .inl rfl
    | @child _ child _ e he hchild h =>
      obtain ⟨hlt, rfl⟩ := Array.getElem?_eq_some_iff.mp he
      have hchild := hpart c hlt hc child hchild
      cases h with
      | refl => exact .inr hchild
      | child he' hchild' =>
        obtain ⟨hlt', rfl⟩ := Array.getElem?_eq_some_iff.mp he'
        rw [hsymbol child hlt' hchild] at hchild'
        cases hchild'
  obtain ⟨c, hc, c', hc', hne, hfirst, hother⟩ := h
  rcases hreach hc hfirst with rfl | hid
  · exact (hreach hc' hother).resolve_left hne
  · exact hid

/-- These alternatives **keep apart**: the tokens that they share match different symbols. -/
theorem keepApart_tagChoices : tagChoices.KeepApart [2, 3, 4] where
  terminal id e hshared he := by
    rcases sharedBelow_tagChoices hshared with rfl | rfl <;>
      · cases he
        rfl
  alone id id' e e' symbol hshared _ he he' ha ha' := by
    obtain ⟨hid', rfl⟩ := Array.getElem?_eq_some_iff.mp he'
    rcases sharedBelow_tagChoices hshared with rfl | rfl
    · have hx : ∀ i (hi : i < tagChoices.exprs.size),
          tagChoices.exprs[i].accepts "x" = true → 0 = i := by decide
      cases he
      obtain rfl : "x" = symbol := beq_iff_eq.mp ha
      exact hx id' hid' ha'
    · have hy : ∀ i (hi : i < tagChoices.exprs.size),
          tagChoices.exprs[i].accepts "y" = true → 1 = i := by decide
      cases he
      obtain rfl : "y" = symbol := beq_iff_eq.mp ha
      exact hy id' hid' ha'

end Grammar

namespace Forest

open Grammar

/-- An `x` and a `y` have **the tag** of the earlier of the two alternatives that derive them. -/
theorem first_tagged_xy : tagChoices.Closed ∧ tagChoices.OffersTagged [2, 3, 4] ∧
    tagChoices.KeepApart [2, 3, 4] ∧ ∃ f, parse tagChoices ["x", "y"] = .ok f ∧
      ∃ before c after t n, [2, 3, 4] = before ++ c :: after ∧
        (∀ c' ∈ before, ¬ tagChoices.Derives c' ["x", "y"]) ∧ tagChoices.Derives c ["x", "y"] ∧
          f.extract {} = .ok (t, n) ∧ t.label.tag = tagChoices.tag? c := by
  have hc : (3 : ExprId) ∈ [2, 3, 4] := by decide
  have hx : tagChoices.Derives 0 ["x"] := .terminal rfl rfl
  have hy : tagChoices.Derives 1 ["y"] := .terminal rfl rfl
  have hxy : tagChoices.Derives 3 (["x"] ++ (["y"] ++ [])) :=
    .sequence rfl (.cons hx (.cons hy .nil))
  obtain ⟨f, hf⟩ := exists_parse_of_derives closed_tagChoices (.choice rfl hc hxy)
  exact ⟨closed_tagChoices, offersTagged_tagChoices, keepApart_tagChoices, f, hf,
    first_of_alternatives offersTagged_tagChoices keepApart_tagChoices hf {}⟩

end Forest

/-! ### Alternatives that share parts -/

namespace Grammar

/-- A `t` under the tag `a` or under `b`. The part that is tagged `b` is **a part of the other
alternative** as well, which tries it first, for what goes on with a `u`. -/
def sharedPart : Grammar where
  exprs := #[.token "t", .token "u", .seq none [0], .seq none [0], .seq none [2, 1],
    .alt none [4, 3], .seq (some "a") [5], .seq (some "b") [2], .alt none [6, 7]]
  start := 8
  start_lt := by decide

theorem closed_sharedPart : sharedPart.Closed := by
  rw [Closed, sharedPart]
  decide

/-- The start is a choice among **sequences with different tags**. -/
theorem offersTagged_sharedPart : sharedPart.OffersTagged [6, 7] where
  start := rfl
  tagged := by simp [expr?, sharedPart]
  nodup := by decide

/-- A `t` is derived **by the earlier alternative**, with no part that is shared. -/
theorem derives_sharedPart : sharedPart.Derives 6 ["t"] := by
  have ht : sharedPart.Derives 0 ["t"] := .terminal rfl rfl
  have hc : (3 : ExprId) ∈ [4, 3] := by decide
  exact .sequence rfl (.cons (.choice rfl hc (.sequence rfl (.cons ht .nil))) .nil)

/-- An `x` and a `t` under the tag `a` or under `b`, where **two tokens are alike**: of the
alternatives of `a` the one that goes on with a `u` begins with the token that `b` begins with. -/
def alikeTokens : Grammar where
  exprs := #[.token "x", .token "x", .token "t", .token "u", .seq none [0, 3], .seq none [1, 2],
    .alt none [4, 5], .seq (some "a") [6], .seq (some "b") [0, 2], .alt none [7, 8]]
  start := 9
  start_lt := by decide

theorem closed_alikeTokens : alikeTokens.Closed := by
  rw [Closed, alikeTokens]
  decide

theorem offersTagged_alikeTokens : alikeTokens.OffersTagged [7, 8] where
  start := rfl
  tagged := by simp [expr?, alikeTokens]
  nodup := by decide

/-- An `x` and a `t` are derived **by the earlier alternative**, with the token of its own. -/
theorem derives_alikeTokens : alikeTokens.Derives 7 ["x", "t"] := by
  have hx : alikeTokens.Derives 1 ["x"] := .terminal rfl rfl
  have ht : alikeTokens.Derives 2 ["t"] := .terminal rfl rfl
  have hc : (5 : ExprId) ∈ [4, 5] := by decide
  have hxt : alikeTokens.Derives 5 (["x"] ++ (["t"] ++ [])) :=
    .sequence rfl (.cons hx (.cons ht .nil))
  exact .sequence rfl (.cons (.choice rfl hc hxt) .nil)

end Grammar

namespace Forest

open Grammar

/-- The forest of a `t` that is shared. Its root `5` has **the later alternative first**. -/
def sharedPartForest : Forest where
  nodes := #[⟨.symbol "t", ⟨0, 1⟩⟩, ⟨.sequence none [0], ⟨0, 1⟩⟩, ⟨.choice none [1], ⟨0, 1⟩⟩,
    ⟨.sequence (some "b") [2], ⟨0, 1⟩⟩, ⟨.choice none [3], ⟨0, 1⟩⟩, ⟨.choice none [4, 10], ⟨0, 1⟩⟩,
    ⟨.sequence none [0], ⟨0, 1⟩⟩, ⟨.choice none [6], ⟨0, 1⟩⟩, ⟨.choice none [7], ⟨0, 1⟩⟩,
    ⟨.sequence (some "a") [8], ⟨0, 1⟩⟩, ⟨.choice none [9], ⟨0, 1⟩⟩]
  roots := [5]
  tokens := 1

/-- With a shared part the first tree **has the tag of the later alternative**, though the earlier
one derives the input and no expression derives itself. -/
theorem first_of_later_sharedPart : sharedPart.Closed ∧ sharedPart.Acyclic ∧
    sharedPart.OffersTagged [6, 7] ∧ sharedPart.Derives 6 ["t"] ∧ sharedPart.tag? 6 = some "a" ∧
    ∃ f t n, parse sharedPart ["t"] = .ok f ∧ f.extract {} = .ok (t, n) ∧
      t.label.tag = some "b" := by
  exact ⟨closed_sharedPart, acyclic_of_lt (by decide), offersTagged_sharedPart,
    derives_sharedPart, rfl, sharedPartForest, NumberedTree.taggedValue "b" "t", 0,
    by cbv, by cbv, rfl⟩

/-- The forest of an `x` and a `t` where two tokens are alike. Its root `5` has **the later
alternative first**. -/
def alikeTokensForest : Forest where
  nodes := #[⟨.symbol "x", ⟨0, 1⟩⟩, ⟨.symbol "x", ⟨0, 1⟩⟩, ⟨.symbol "t", ⟨1, 2⟩⟩,
    ⟨.sequence (some "b") [0, 2], ⟨0, 2⟩⟩, ⟨.choice none [3], ⟨0, 2⟩⟩,
    ⟨.choice none [4, 10], ⟨0, 2⟩⟩, ⟨.sequence none [1, 2], ⟨0, 2⟩⟩, ⟨.choice none [6], ⟨0, 2⟩⟩,
    ⟨.choice none [7], ⟨0, 2⟩⟩, ⟨.sequence (some "a") [8], ⟨0, 2⟩⟩, ⟨.choice none [9], ⟨0, 2⟩⟩]
  roots := [5]
  tokens := 2

/-- It has so too where **a shared token is like another one**. -/
theorem first_of_later_alikeTokens : alikeTokens.Closed ∧ alikeTokens.Acyclic ∧
    alikeTokens.OffersTagged [7, 8] ∧ alikeTokens.Derives 7 ["x", "t"] ∧
    alikeTokens.tag? 7 = some "a" ∧ ∃ f t n, parse alikeTokens ["x", "t"] = .ok f ∧
      f.extract {} = .ok (t, n) ∧ t.label.tag = some "b" := by
  exact ⟨closed_alikeTokens, acyclic_of_lt (by decide), offersTagged_alikeTokens,
    derives_alikeTokens, rfl, alikeTokensForest,
    .branch { tag := some "b" } 0 [NumberedTree.value "x", NumberedTree.value "t"], 1,
    by cbv, by cbv, rfl⟩

end Forest

end GeneralParsing
