import GeneralParsing.Proofs.Grammar.Definitions
import GeneralParsing.Proofs.Parsing.Alike
import GeneralParsing.Proofs.Parsing.NoFaults
import GeneralParsing.Proofs.Parsing.PackedSound
import GeneralParsing.Proofs.Parsing.Rejection
import GeneralParsing.Proofs.Parsing.SourceOrder

/-!
# A slot and its body

A slot that has been defined holds the same expression as its body, but it is another expression of
the grammar, and the machine derives the two separately. A reference to the slot may be redirected
to the body, or any number of them (`Grammar.Redirects`). The grammar then accepts the same inputs,
rejects the others at the same positions and has the same shapes of derivations, and where the two
are not both looked for at one position of the input, it has the same forest
(`Forest.parse_of_redirects`). It does so on all inputs when the body is referred to by nothing else
and every reference to the slot is redirected (`Grammar.parse_withoutSlot`).

Where both are looked for at one position, redirecting has the two share a derivation, and so it can
change which of several derivations of the input is encountered first. The first tree is then
another one (`Forest.first_ne_of_redirects_alikeTokens`).
-/

namespace GeneralParsing

/-- A reference **as it was**, or one to the slot that leads to the body now. -/
def Redirected (slot body a b : ExprId) : Prop := b = a ∨ a = slot ∧ b = body

theorem redirected_ite (slot body id : ExprId) :
    Redirected slot body id (if id = slot then body else id) := by
  split
  · exact .inr ⟨‹_›, rfl⟩
  · exact .inl rfl

namespace Grammar

/-- A grammar with **references to a slot redirected** to a body, in any expressions, and at the
start, or not. -/
structure Redirects (g h : Grammar) (slot body : ExprId) : Prop where
  size : h.exprs.size = g.exprs.size
  start : Redirected slot body g.start h.start
  expr : ∀ id x, g.expr? id = some x →
    ∃ y, h.expr? id = some y ∧ x.Matches (Redirected slot body) y

/-- The **shapes** of the derivations of an input. -/
def Shapes (g : Grammar) (collapse : Bool) (w : List String) : Set PlainTree :=
  {t | ∃ d : Derivation, d.Valid g ∧ d.root = g.start ∧ d.yield = w ∧ d.shape g collapse = t}

/-- Two expressions are both looked for **at one position** of an input. -/
def SeeksBoth (g : Grammar) (w : List String) (a b : ExprId) : Prop :=
  ∃ position, g.Sought w a position ∧ g.Sought w b position

variable {g h : Grammar} {R : ExprId → ExprId → Prop} {slot body : ExprId} {w : List String}

/-! ### What is redirected are counterparts -/

/-- An expression of the grammar and **what it may be redirected to**. -/
def RedirectedIn (g : Grammar) (slot body a b : ExprId) : Prop :=
  a < g.exprs.size ∧ Redirected slot body a b

theorem Redirects.closed (hr : g.Redirects h slot body) (hg : g.Closed)
    (hbody : body < g.exprs.size) : h.Closed := by
  intro y hy b hb
  obtain ⟨id, hid⟩ := Array.getElem?_of_mem hy
  have hlt : id < g.exprs.size := hr.size ▸ (Array.getElem?_eq_some_iff.mp hid).1
  obtain ⟨x, hx⟩ := g.exists_expr?_of_lt hlt
  obtain ⟨y', hy', hxy⟩ := hr.expr id x hx
  obtain rfl : y = y' := Option.some.inj (hid.symm.trans hy')
  obtain ⟨a, ha, hab⟩ := Derivation.exists_related hxy.children.flip hb
  rw [hr.size]
  rcases hab with rfl | ⟨-, rfl⟩
  · exact hg.child_lt hx ha
  · exact hbody

/-- Redirecting references leaves **counterparts**, if slot and body hold the same expression. The
slot and the body both have the body for a counterpart. -/
theorem Redirects.counterparts (hr : g.Redirects h slot body) (hg : g.Closed) {e : Expr}
    (hslot : g.expr? slot = some e) (hbody : g.expr? body = some e) :
    g.Counterparts h (g.RedirectedIn slot body) := by
  have hmatches : ∀ {id x}, g.expr? id = some x →
      ∃ y, h.expr? id = some y ∧ x.Matches (g.RedirectedIn slot body) y := by
    intro id x hx
    obtain ⟨y, hy, hxy⟩ := hr.expr id x hx
    exact ⟨y, hy, hxy.of_mem fun a ha b hab => ⟨hg.child_lt hx ha, hab⟩⟩
  rintro a b ⟨hlt, rfl | ⟨rfl, rfl⟩⟩
  · obtain ⟨x, hx⟩ := g.exists_expr?_of_lt hlt
    obtain ⟨y, hy, hxy⟩ := hmatches hx
    exact ⟨x, y, hx, hy, hxy⟩
  · obtain ⟨y, hy, hxy⟩ := hmatches hbody
    exact ⟨e, y, hslot, hy, hxy⟩

theorem Redirects.exists_counterparts [PatternReader] (hg : g.BuiltWith slot body)
    (hr : g.Redirects h slot body) : g.Closed ∧ h.Closed ∧
      g.Counterparts h (g.RedirectedIn slot body) ∧ g.RedirectedIn slot body g.start h.start := by
  have hclosed := hg.built.closed
  obtain ⟨e, hslot, hbody⟩ := hg.exists_expr?
  exact ⟨hclosed, hr.closed hclosed (Array.getElem?_eq_some_iff.mp hbody).1,
    hr.counterparts hclosed hslot hbody, g.start_lt, hr.start⟩

/-- Grammars whose starts are counterparts have **the same shapes**. A derivation has a counterpart
of the same shape, as tags are the same. -/
theorem Counterparts.shapes_subset (hR : g.Counterparts h R) (hstart : R g.start h.start)
    (collapse : Bool) (w : List String) : g.Shapes collapse w ⊆ h.Shapes collapse w := by
  rintro _ ⟨d, hd, hroot, hyield, rfl⟩
  obtain ⟨d', hd', hroot', hsame⟩ := hd.exists_resembling hR.bisimulation (hroot ▸ hstart)
  exact ⟨d', hd', hroot', hsame.yield.trans hyield, by
    rw [Derivation.shape, Derivation.shape, hsame.output]⟩

theorem Counterparts.shapes_eq (hR : g.Counterparts h R) (hstart : R g.start h.start)
    (collapse : Bool) (w : List String) : h.Shapes collapse w = g.Shapes collapse w :=
  Set.Subset.antisymm (hR.flip.shapes_subset hstart collapse w)
    (hR.shapes_subset hstart collapse w)

/-- Where slot and body are not looked for at one position, redirecting references **has nothing
share that did not**, and nothing part that did. -/
theorem sharesAlike_redirectedIn (hg : ¬ g.SeeksBoth w slot body)
    (hh : ¬ h.SeeksBoth w slot body) : g.SharesAlike h (g.RedirectedIn slot body) w := by
  rintro position a b c d ⟨⟨-, hab⟩, ha, hb⟩ ⟨⟨-, hcd⟩, hc, hd⟩
  rcases hab with rfl | ⟨rfl, rfl⟩
  · rcases hcd with rfl | ⟨rfl, rfl⟩
    · exact Iff.rfl
    · refine ⟨?_, ?_⟩
      · rintro rfl
        exact absurd ⟨position, hb, hd⟩ hh
      · rintro rfl
        exact absurd ⟨position, hc, ha⟩ hg
  · rcases hcd with rfl | ⟨rfl, rfl⟩
    · refine ⟨?_, ?_⟩
      · rintro rfl
        exact absurd ⟨position, hd, hb⟩ hh
      · rintro rfl
        exact absurd ⟨position, ha, hc⟩ hg
    · exact iff_of_true rfl rfl

/-- Redirecting references **leaves the forest** of an input as it is, where slot and body are not
both looked for at one position. -/
theorem Redirects.parse_eq [PatternReader] (hg : g.BuiltWith slot body)
    (hr : g.Redirects h slot body) (hnot : ¬ g.SeeksBoth w slot body)
    (hnot' : ¬ h.SeeksBoth w slot body) :
    Forest.parse h w = Forest.parse g w := by
  obtain ⟨hclosed, hh, hR, hstart⟩ := hr.exists_counterparts hg
  exact hR.parse_eq hstart hclosed hh (sharesAlike_redirectedIn hnot hnot')

/-- What is looked for somewhere **is reached** from the start. -/
theorem Sought.reaches {id : ExprId} {position : Nat} (hs : g.Sought w id position) :
    g.Reaches g.start id := by
  induction hs with
  | start => exact .refl _
  | part _ he _ _ ih => exact ih.snoc he (by simp [Expr.children])
  | alternative _ he hc ih => exact ih.snoc he hc
  | iteration _ he _ _ _ ih => exact ih.snoc he List.mem_cons_self
  | omitted _ he ih => exact ih.snoc he List.mem_cons_self
  | lexical _ he ih => exact ih.snoc he List.mem_cons_self

/-! ### Doing without the slot -/

/-- The grammar with **every** reference to the slot redirected. -/
def withoutSlot (g : Grammar) (slot body : ExprId) (hbody : body < g.exprs.size) : Grammar where
  exprs := (g.exprs.toList.map (Expr.rename fun id => if id = slot then body else id)).toArray
  start := if g.start = slot then body else g.start
  start_lt := by
    rw [List.size_toArray, List.length_map, Array.length_toList]
    split
    · exact hbody
    · exact g.start_lt

theorem expr?_withoutSlot (g : Grammar) (slot : ExprId) (hbody : body < g.exprs.size)
    (id : ExprId) : (g.withoutSlot slot body hbody).expr? id =
      (g.expr? id).map (Expr.rename fun id => if id = slot then body else id) := by
  rw [expr?, withoutSlot, List.getElem?_toArray, List.getElem?_map, Array.getElem?_toList, expr?]

theorem redirects_withoutSlot (g : Grammar) (slot : ExprId) (hbody : body < g.exprs.size) :
    g.Redirects (g.withoutSlot slot body hbody) slot body where
  size := by rw [withoutSlot, List.size_toArray, List.length_map, Array.length_toList]
  start := redirected_ite slot body g.start
  expr id x hx := by
    refine ⟨x.rename fun id => if id = slot then body else id, ?_,
      Expr.matches_rename fun c _ => redirected_ite slot body c⟩
    rw [expr?_withoutSlot, hx, Option.map_some]

/-- What is reached from a set that is **closed under references** is in it. -/
theorem Reaches.of_closed {S : ExprId → Prop} {id target : ExprId} (h : g.Reaches id target)
    (hS : ∀ id e, S id → g.expr? id = some e → ∀ c ∈ e.children, S c) (hid : S id) : S target := by
  induction h with
  | refl => exact hid
  | child he hc _ ih => exact ih (hS _ _ hid he _ hc)

/-- Once all references to it are redirected, the slot **is reached no more**. It stays in the
grammar but has no part in any derivation. -/
theorem not_reaches_withoutSlot (hbody : body < g.exprs.size) (hne : body ≠ slot) :
    ¬ (g.withoutSlot slot body hbody).Reaches (g.withoutSlot slot body hbody).start slot := by
  have hite : ∀ id : ExprId, (if id = slot then body else id) ≠ slot := by
    intro id
    split
    · exact hne
    · assumption
  refine fun h => h.of_closed (S := (· ≠ slot)) (fun id e _ he c hc => ?_) (hite g.start) rfl
  rw [expr?_withoutSlot] at he
  obtain ⟨x, -, rfl⟩ := Option.map_eq_some_iff.mp he
  rw [Expr.children_rename] at hc
  obtain ⟨c', -, rfl⟩ := List.mem_map.mp hc
  exact hite c'

/-- **A body that only its slot refers to** may take the place of the slot: the grammar that does
without the slot has the same forests. -/
theorem parse_withoutSlot [PatternReader] (hg : g.BuiltWith slot body)
    (hunreached : ¬ g.Reaches g.start body) (hne : body ≠ slot) (hbody : body < g.exprs.size)
    (w : List String) :
    Forest.parse (g.withoutSlot slot body hbody) w = Forest.parse g w :=
  (g.redirects_withoutSlot slot hbody).parse_eq hg
    (fun ⟨_, _, hs⟩ => hunreached hs.reaches)
    fun ⟨_, hs, _⟩ => not_reaches_withoutSlot hbody hne hs.reaches

end Grammar

namespace Forest

open Grammar

variable {g h : Grammar} {slot body : ExprId} {w : List String} {f : Forest}

/-- The first tree **is the shape** of a derivation. So the first tree is one of the shapes also
where redirecting changes which one it is. -/
theorem exists_first_mem_shapes (hg : g.Closed) (hf : parse g w = .ok f) (collapse : Bool) :
    ∃ t n, f.extract { collapse } = .ok (t, n) ∧ t.plain ∈ g.Shapes collapse w := by
  obtain ⟨t, n, ht, d, hd, hroot, hyield, hplain⟩ := exists_derivation_first hg hf collapse
  exact ⟨t, n, ht, d, hd, hroot, hyield, hplain.symm⟩

/-- **References to a slot may be redirected to its body.** The same inputs are accepted, the others
are rejected at the same positions, and the shapes of derivations are the same. The first trees are
both among them, so they are the same where there is only one. Where slot and body are not both
looked for at one position, the forests are the same, and so are all trees that come of them. -/
theorem parse_of_redirects [PatternReader] (hg : g.BuiltWith slot body)
    (hr : g.Redirects h slot body) (w : List String) :
    ParsedAlike g h w ∧
      (∀ collapse, h.Shapes collapse w = g.Shapes collapse w) ∧
      (∀ f f', parse g w = .ok f → parse h w = .ok f' → ∀ collapse, ∃ t n t' n',
        f.extract { collapse } = .ok (t, n) ∧ f'.extract { collapse } = .ok (t', n') ∧
          t.plain ∈ g.Shapes collapse w ∧ t'.plain ∈ g.Shapes collapse w ∧
          ((g.Shapes collapse w).Subsingleton → t'.plain = t.plain)) ∧
      (¬ g.SeeksBoth w slot body → ¬ h.SeeksBoth w slot body → parse h w = parse g w) := by
  obtain ⟨hclosed, hh, hR, hstart⟩ := hr.exists_counterparts hg
  have hshapes := fun collapse => hR.shapes_eq hstart collapse w
  refine ⟨hR.parsedAlike hstart hclosed hh w, hshapes, fun f f' hf hf' collapse => ?_,
    hr.parse_eq hg⟩
  obtain ⟨t, n, ht, hmem⟩ := exists_first_mem_shapes hclosed hf collapse
  obtain ⟨t', n', ht', hmem'⟩ := exists_first_mem_shapes hh hf' collapse
  rw [hshapes] at hmem'
  exact ⟨t, n, t', n', ht, ht', hmem, hmem', fun hone => hone hmem' hmem⟩

end Forest

/-! ### Sums without a slot -/

namespace Grammar

theorem not_reaches_slottedSums : ¬ slottedSums.Reaches slottedSums.start 4 := by
  have hstep : ∀ i (hi : i < slottedSums.exprs.size), i ≠ 4 →
      ∀ c ∈ slottedSums.exprs[i].children, c ≠ 4 := by decide
  refine fun h => h.of_closed (S := (· ≠ 4)) (fun id e hid he c hc => ?_) (by decide) rfl
  obtain ⟨hlt, rfl⟩ := Array.getElem?_eq_some_iff.mp he
  exact hstep id hlt hid c hc

end Grammar

namespace Forest

open Grammar

open scoped Common in
/-- For sums the body **takes the place of the slot**: with the sums that do without the slot a sum
of three has the same forest, and so the same first tree. -/
theorem parse_of_redirects_slottedSums :
    let w := ["n", "+", "n", "+", "n"]
    let unslotted := slottedSums.withoutSlot 2 4 (by decide)
    slottedSums.BuiltWith 2 4 ∧ slottedSums.Redirects unslotted 2 4 ∧
      ¬ slottedSums.SeeksBoth w 2 4 ∧ ¬ unslotted.SeeksBoth w 2 4 ∧
      ParsedAlike slottedSums unslotted w ∧
      (∀ collapse, unslotted.Shapes collapse w = slottedSums.Shapes collapse w) ∧
      parse unslotted w = parse slottedSums w := by
  intro w unslotted
  have hredirects : slottedSums.Redirects unslotted 2 4 := slottedSums.redirects_withoutSlot 2 _
  have hnot : ¬ slottedSums.SeeksBoth w 2 4 := fun ⟨_, _, hs⟩ => not_reaches_slottedSums hs.reaches
  have hnot' : ¬ unslotted.SeeksBoth w 2 4 :=
    fun ⟨_, hs, _⟩ => not_reaches_withoutSlot _ (by decide) hs.reaches
  obtain ⟨halike, hshapes, -, hsame⟩ := parse_of_redirects builtWith_slottedSums hredirects w
  exact ⟨builtWith_slottedSums, hredirects, hnot, hnot', halike, hshapes, hsame hnot hnot'⟩

end Forest

/-! ### A choice that sharing decides -/

namespace Grammar

open scoped Common in
/-- The second of the tokens that are alike is **a slot that the first one defines**. -/
theorem builtWith_alikeTokens : alikeTokens.BuiltWith 1 0 := by
  have hbefore : Builder.Session [] {} [0, 1] ⟨#[some (.token "x"), none], []⟩ :=
    ((Builder.Session.nil [] {}).call (.token "x") (by decide)).call .declare (by decide)
  have hsymbols : Builder.Session [0, 1] ⟨#[some (.token "x"), some (.token "x")], []⟩ [0, 1, 2, 3]
      ⟨#[some (.token "x"), some (.token "x"), some (.token "t"), some (.token "u")], []⟩ :=
    ((Builder.Session.nil [0, 1] _).call (.token "t") (by decide)).call (.token "u") (by decide)
  have hinner := ((hsymbols.call (.seq [0, 3] none) (by decide)).call (.seq [1, 2] none)
    (by decide)).call (.alt [4, 5] none) (by decide)
  have hafter := ((hinner.call (.seq [6] (some "a")) (by decide)).call (.seq [0, 2] (some "b"))
    (by decide)).call (.alt [7, 8] none) (by decide)
  exact ⟨_, _, _, _, hbefore, by decide, by decide, rfl, hafter, by decide, rfl⟩

end Grammar

namespace Forest

open Grammar

/-- The forest of an `x` and a `t` **with one token** for the `x`. Its root `7` has the earlier
alternative first. -/
def oneTokenForest : Forest where
  nodes := #[⟨.symbol "x", ⟨0, 1⟩⟩, ⟨.symbol "t", ⟨1, 2⟩⟩, ⟨.sequence none [0, 1], ⟨0, 2⟩⟩,
    ⟨.choice none [2], ⟨0, 2⟩⟩, ⟨.choice none [3], ⟨0, 2⟩⟩, ⟨.sequence (some "a") [4], ⟨0, 2⟩⟩,
    ⟨.choice none [5], ⟨0, 2⟩⟩, ⟨.choice none [6, 9], ⟨0, 2⟩⟩,
    ⟨.sequence (some "b") [0, 1], ⟨0, 2⟩⟩, ⟨.choice none [8], ⟨0, 2⟩⟩]
  roots := [7]
  tokens := 2

open scoped Common in
/-- **Redirecting a reference can change the first tree**, though no expression derives itself: once
the two tokens that are alike are one, the `x` and the `t` after it are first encountered under the
earlier tag. -/
theorem first_ne_of_redirects_alikeTokens :
    let shared := alikeTokens.withoutSlot 1 0 (by decide)
    alikeTokens.BuiltWith 1 0 ∧ alikeTokens.Redirects shared 1 0 ∧ alikeTokens.Acyclic ∧
      shared.Acyclic ∧ ∃ f f' t n t' n', parse alikeTokens ["x", "t"] = .ok f ∧
        parse shared ["x", "t"] = .ok f' ∧ f.extract {} = .ok (t, n) ∧
        f'.extract {} = .ok (t', n') ∧ t.label.tag = some "b" ∧ t'.label.tag = some "a" ∧
        t'.plain ≠ t.plain := by
  obtain ⟨-, hacyclic, -, -, -, f, t, n, hf, ht, htag⟩ := first_of_later_alikeTokens
  refine ⟨builtWith_alikeTokens, alikeTokens.redirects_withoutSlot 1 _, hacyclic,
    acyclic_of_lt (by decide), f, oneTokenForest, t, n,
    .branch { tag := some "a" } 0 [NumberedTree.value "x", NumberedTree.value "t"], 1, hf,
    by cbv, ht, by cbv, htag, rfl, fun heq => ?_⟩
  have hne : (some "a" : Option String) ≠ some "b" := by decide
  rw [← Tree.label_plain, ← heq] at htag
  exact hne htag

end Forest

end GeneralParsing
