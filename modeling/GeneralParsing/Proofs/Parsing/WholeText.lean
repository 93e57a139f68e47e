import GeneralParsing.Proofs.Parsing.Coverage
import GeneralParsing.Proofs.Tree.Tiling

/-!
# No text is lost or duplicated

When nothing is omitted, the trees that a node of the forest contributes tile the stretch of input
that the node covers, under every policy and on every path (`Forest.coverage_tiles`).

So the tree of an input tiles the whole input. Wherever one looks in it and whatever alternatives
are chosen there, the leaves have the text of the span (`Forest.leafValues_of_mem_trees`).
-/

namespace GeneralParsing

open GeneralParsing.Tree

/-! ### Shapes of tilings -/

namespace ParseOptions

variable {o : ParseOptions} {w : List String} {ts : List PlainTree} {start stop : Nat}

theorem tiles_value (ho : o.spans = true) (hle : start ≤ stop) {text : String}
    (htext : text = textBetween w start stop) :
    Tiles w [o.plainSpanned ⟨start, stop⟩ (PlainTree.value text)] start stop := by
  rw [plainSpanned_of_spans ho]
  exact .leaf rfl rfl hle (by simpa [Tree.label, PlainTree.value] using htext) (.nil stop)

theorem tiles_taggedValue (ho : o.spans = true) (hle : start ≤ stop) (tag : String) {text : String}
    (htext : text = textBetween w start stop) :
    Tiles w [o.plainSpanned ⟨start, stop⟩ (PlainTree.taggedValue tag text)] start stop := by
  rw [plainSpanned_of_spans ho]
  exact .leaf rfl rfl hle (by simpa [Tree.label, PlainTree.taggedValue] using htext) (.nil stop)

theorem tiles_node (ho : o.spans = true) (tag : String) (h : Tiles w ts start stop) :
    Tiles w [o.plainSpanned ⟨start, stop⟩ (PlainTree.node tag ts)] start stop := by
  rw [plainSpanned_of_spans ho]
  exact .branch rfl rfl rfl h (.nil stop)

theorem tiles_group (ho : o.spans = true) (h : Tiles w ts start stop) :
    Tiles w [o.plainSpanned ⟨start, stop⟩ (PlainTree.group ts)] start stop := by
  rw [plainSpanned_of_spans ho]
  exact .branch rfl rfl rfl h (.nil stop)

theorem tiles_packed (ho : o.spans = true) (hne : ts ≠ [])
    (h : ∀ t ∈ ts, Tiles w [t] start stop) :
    Tiles w [o.plainSpanned ⟨start, stop⟩ (PlainTree.packed ts)] start stop := by
  rw [plainSpanned_of_spans ho]
  exact .packed rfl rfl hne h (.nil stop)

/-- Shapes **keep tilings**. No shape leaves a tree out or puts a symbol in. -/
theorem keptByShapes_tiles (ho : o.spans = true) :
    o.KeptByShapes ⟨start, stop⟩ (Tiles w · start stop) where
  joined tag h hv := tiles_taggedValue ho h.le tag (h.value_eq hv)
  node tag h := tiles_node ho tag h
  group h := tiles_group ho h
  packed hne h := tiles_packed ho hne h
  alternatives h hp := h.alternatives hp
  members h hg := h.members hg

end ParseOptions

namespace Forest

variable {g : Grammar} {w : List String} {f : Forest} {o : ParseOptions}

/-- Where nothing is omitted, outputs **tile the stretch** of their result. A symbol tiles the place
where it stands, and a lexical text its whole span. -/
theorem coverage_tiles (ho : o.spans = true) : Coverage g w o g.OmitsNothingFrom (Tiles w) where
  shapes _ _ := ParseOptions.keptByShapes_tiles ho
  child h he child hc := h.child he hc
  nil start := .nil start
  append h h' := h.append h'
  value {d id start stop} h hd := by
    refine ParseOptions.tiles_value ho (Nat.le.intro hd.ends) ?_
    rw [hd.valid.text_eq_join (hd.root ▸ h), textBetween_eq_join hd.reads hd.ends]
  empty start tag := ParseOptions.tiles_taggedValue ho (Nat.le_refl start) tag (by simp)
  omitted h he := absurd he (h _ (.refl _) _)

/-- Where nothing is omitted, the tree of an input **tiles the whole input**. -/
theorem tiles_extract (hg : g.Closed) (hf : parse g w = .ok f)
    (hwhole : g.OmitsNothingFrom g.start) (ho : o.spans = true) {t : NumberedTree} {n : Nat}
    (ht : f.extract o = .ok (t, n)) : Tiles w [t.plain] 0 w.length :=
  (coverage_tiles ho).extract hg hf hwhole ht

/-- **No text is lost or duplicated.** Where nothing is omitted, the tree of an input has the span
of the whole input, and whatever alternatives are chosen in a part of it, the leaves of that part
have the text of its span. -/
theorem leafValues_of_mem_trees (hg : g.Closed) (hf : parse g w = .ok f)
    (hwhole : g.OmitsNothingFrom g.start) (ho : o.spans = true) {t : NumberedTree} {n : Nat}
    (ht : f.extract o = .ok (t, n)) :
    t.plain.label.span = some ⟨0, w.length⟩ ∧ ∀ u : PlainTree, u.PartOf t.plain →
      ∃ start stop, u.label.span = some ⟨start, stop⟩ ∧ start ≤ stop ∧ stop ≤ w.length ∧
        u.trees ≠ [] ∧ ∀ r ∈ u.trees,
          String.join r.leafValues = String.join ((w.drop start).take (stop - start)) := by
  have htile := tiles_extract hg hf hwhole ho ht
  refine ⟨htile.span_eq, fun u hu => ?_⟩
  obtain ⟨start, stop, -, hstop, hpart⟩ := htile.of_part hu
  exact ⟨start, stop, hpart.span_eq, hpart.le, hstop, hpart.trees_ne_nil,
    fun r hr => hpart.join_leafValues_of_mem_trees hr⟩

end Forest

/-! ### Pairs -/

/-- An `a` and a `b` as a **pair**, taken apart or as one text. -/
def Grammar.pairs : Grammar where
  exprs := #[.token "a", .token "b", .seq none [0, 1], .lexical 2, .alt (some "pair") [2, 3]]
  start := 4
  start_lt := by decide

theorem Grammar.closed_pairs : pairs.Closed := by
  rw [Closed, pairs]
  decide

theorem Grammar.omitsNothingFrom_pairs : pairs.OmitsNothingFrom pairs.start := by
  intro target _ child he
  have hmem : Expr.omitted child ∈ pairs.exprs := Array.mem_of_getElem? he
  simp [pairs] at hmem

namespace Forest

open Grammar

/-- The **two forms** of a pair. -/
def pairTree : NumberedTree :=
  .branch { span := some ⟨0, 2⟩, packed := true } 3
    [.branch { tag := some "pair", span := some ⟨0, 2⟩ } 2
      [.leaf { value := some "a", span := some ⟨0, 1⟩ },
        .leaf { value := some "b", span := some ⟨1, 2⟩ }],
      .leaf { tag := some "pair", value := some "ab", span := some ⟨0, 2⟩ }]

/-- The forest of a pair, whose root `4` has the **sequence and its text** as alternatives. -/
def pairForest : Forest where
  nodes := #[⟨.symbol "a", ⟨0, 1⟩⟩, ⟨.symbol "b", ⟨1, 2⟩⟩, ⟨.sequence none [0, 1], ⟨0, 2⟩⟩,
    ⟨.choice none [2], ⟨0, 2⟩⟩, ⟨.choice (some "pair") [3, 5], ⟨0, 2⟩⟩, ⟨.lexical 3, ⟨0, 2⟩⟩]
  roots := [4]
  tokens := 2

theorem exists_extract_pair : ∃ f, parse pairs ["a", "b"] = .ok f ∧
    f.extract { ambiguity := .packed, collapse := true, spans := true } = .ok (pairTree, 4) :=
  ⟨pairForest, by cbv, by cbv⟩

/-- Both forms of a pair **have its text**. -/
theorem leafValues_of_mem_trees_pair :
    pairs.Closed ∧ pairs.OmitsNothingFrom pairs.start ∧ ∃ f, parse pairs ["a", "b"] = .ok f ∧
      f.extract { ambiguity := .packed, collapse := true, spans := true } = .ok (pairTree, 4) ∧
      pairTree.plain.trees.length = 2 ∧ pairTree.plain.label.span = some ⟨0, 2⟩ ∧
      ∀ u : PlainTree, u.PartOf pairTree.plain →
        ∃ start stop, u.label.span = some ⟨start, stop⟩ ∧ start ≤ stop ∧ stop ≤ 2 ∧
          u.trees ≠ [] ∧ ∀ r ∈ u.trees, String.join r.leafValues =
            String.join ((["a", "b"].drop start).take (stop - start)) := by
  obtain ⟨f, hf, ht⟩ := exists_extract_pair
  exact ⟨closed_pairs, omitsNothingFrom_pairs, f, hf, ht, by cbv,
    leafValues_of_mem_trees closed_pairs hf omitsNothingFrom_pairs rfl ht⟩

end Forest

end GeneralParsing
