import GeneralParsing.Proofs.Extraction.FirstOfPacked
import GeneralParsing.Proofs.Parsing.Recognition

/-!
# The first tree of an input

The forest of an input is closed, because results are made of results. So what holds of the
policies in closed forests holds of it: without spans, the tree of the first policy is the first
tree of the packed tree (`Forest.first_eq_first_of_packed`).

With spans there is one exception, a group at the top. The first policy gives it the span of the
whole input. What one picks from a packed tree has the span of that tree, which is shorter where
something at the ends has been omitted (`Forest.first_ne_first_of_packed_markedPair`). In all else
the two trees agree, in spans as well (`Forest.first_eq_first_of_packed_of_spans`).
-/

namespace GeneralParsing

open Machine

variable {g : Grammar} {w : List String}

/-- The nodes that a result refers to **are results**. -/
theorem Explains.result_of_mem_parts {L : Ledger} {node part : NodeId} {kind : Forest.Kind}
    {goal : Goal} {stop : Nat} (h : Explains g w L node kind goal stop)
    (hpart : part ∈ kind.parts) :
    ∃ goal stop, L.Result part goal stop := by
  cases h with
  | symbol | empty | omitted => simp [Forest.Kind.parts] at hpart
  | sequence _ hcovers | repetition _ hcovers => exact hcovers.result_of_mem hpart
  | choice _ hresult =>
    obtain ⟨child, -, hresult⟩ := hresult part hpart
    exact ⟨_, _, hresult⟩
  | inner _ _ hresult => exact ⟨_, _, hresult part hpart⟩
  | lexical _ hresult =>
    obtain rfl : part = _ := by simpa [Forest.Kind.parts] using hpart
    exact ⟨_, _, hresult⟩

/-- The forest of a sound machine **is closed**. That holds at any time, not at the end only, and
whether or not the input is accepted. -/
theorem Machine.Sound.closed_forest {L : Ledger} {m : Machine} (h : Sound g w L m) :
    m.forest.Closed where
  part_lt id node hnode part hpart := by
    obtain ⟨memo, goal, stop, hsound⟩ := h.node id node hnode
    obtain ⟨goal', stop', hresult⟩ := hsound.explained.result_of_mem_parts hpart
    exact h.lt_of_result hresult
  root_lt root hroot := h.lt_of_result (h.root root hroot).1

namespace Forest

variable {f : Forest}

theorem closed_of_parse (hg : g.Closed) (hf : parse g w = .ok f) : f.Closed := by
  obtain ⟨L, m, hfaithful, -, rfl, -⟩ := exists_machine_of_parse hg hf
  exact hfaithful.sound.closed_forest

/-- **The first tree is the first tree of the packed tree**: without spans, the first policy gives
what one gets by picking the first alternative everywhere in the tree of the packed policy. -/
theorem first_eq_first_of_packed (hg : g.Closed) (hf : parse g w = .ok f) (collapse : Bool) :
    ∃ t n p m, f.extract { ambiguity := .first, collapse, spans := false } = .ok (t, n) ∧
      f.extract { ambiguity := .packed, collapse, spans := false } = .ok (p, m) ∧
      ∀ k, t.plain = (p.first.result k).plain :=
  extract_first_of_packed (closed_of_parse hg hf) (o := { collapse }) rfl

open Grammar in
/-- A sum of three has **two derivations**, of which the first is picked. So there is something to
be picked, and it is the tree of the first policy. -/
theorem first_of_packed_sums : sums.Closed ∧ ∃ f, parse sums ["n", "+", "n", "+", "n"] = .ok f ∧
    ∃ t n p m, f.extract { ambiguity := .first, collapse := true, spans := false } = .ok (t, n) ∧
      f.extract { ambiguity := .packed, collapse := true, spans := false } = .ok (p, m) ∧
      ∀ k, t.plain = (p.first.result k).plain := by
  obtain ⟨f, hf⟩ := exists_parse_of_derives closed_sums
    (derives_sum derives_summand (derives_sum derives_summand derives_summand))
  exact ⟨closed_sums, f, hf, first_eq_first_of_packed closed_sums hf true⟩

end Forest

/-! ### Spans -/

/-- Two `a`, alone or in a node, after an `x` that is **omitted**. -/
def Grammar.markedPairs : Grammar where
  exprs := #[.token "x", .omitted 0, .token "a", .seq none [2, 2], .seq (some "p") [2, 2],
    .alt none [3, 4], .seq none [1, 5]]
  start := 6
  start_lt := by decide

theorem Grammar.closed_markedPairs : markedPairs.Closed := by
  rw [Closed, markedPairs]
  decide

namespace Forest

open Grammar

variable {f : Forest}

theorem tokens_of_parse (hg : g.Closed) (hf : parse g w = .ok f) : f.tokens = w.length := by
  obtain ⟨L, m, -, -, rfl, hposition, -⟩ := exists_machine_of_parse hg hf
  exact hposition

/-- The first tree **with spans** is the first tree of the packed tree, but a group at the top
covers the whole input. -/
theorem first_eq_first_of_packed_of_spans (hg : g.Closed) (hf : parse g w = .ok f)
    (collapse : Bool) :
    ∃ t n p m, f.extract { ambiguity := .first, collapse, spans := true } = .ok (t, n) ∧
      f.extract { ambiguity := .packed, collapse, spans := true } = .ok (p, m) ∧
      ∀ k, t.plain = if (p.first.result k).plain.isGroup then
        (p.first.result k).plain.withSpan ⟨0, w.length⟩ else (p.first.result k).plain := by
  rw [← tokens_of_parse hg hf]
  exact extract_first_atTop (closed_of_parse hg hf) { collapse, spans := true }

/-- The forest of a pair after an `x`. -/
def markedPair : Forest where
  nodes := #[⟨.symbol "x", ⟨0, 1⟩⟩, ⟨.omitted, ⟨0, 1⟩⟩, ⟨.symbol "a", ⟨1, 2⟩⟩,
    ⟨.symbol "a", ⟨2, 3⟩⟩, ⟨.sequence none [2, 3], ⟨1, 3⟩⟩, ⟨.choice none [4], ⟨1, 3⟩⟩,
    ⟨.choice none [5, 10], ⟨1, 3⟩⟩, ⟨.sequence none [1, 6], ⟨0, 3⟩⟩, ⟨.choice none [7], ⟨0, 3⟩⟩,
    ⟨.sequence (some "p") [2, 3], ⟨1, 3⟩⟩, ⟨.choice none [9], ⟨1, 3⟩⟩]
  roots := [8]
  tokens := 3

theorem parse_markedPairs : parse markedPairs ["x", "a", "a"] = .ok markedPair := by cbv

/-- What is picked for a pair after an `x` **is given the span** of all three. -/
theorem first_eq_first_of_packed_of_spans_markedPair : markedPairs.Closed ∧
    parse markedPairs ["x", "a", "a"] = .ok markedPair ∧
    ∃ t n p m,
      markedPair.extract { ambiguity := .first, collapse := true, spans := true } = .ok (t, n) ∧
      markedPair.extract { ambiguity := .packed, collapse := true, spans := true } = .ok (p, m) ∧
      ∀ k, t.plain = if (p.first.result k).plain.isGroup then
        (p.first.result k).plain.withSpan ⟨0, 3⟩ else (p.first.result k).plain :=
  ⟨closed_markedPairs, parse_markedPairs,
    first_eq_first_of_packed_of_spans closed_markedPairs parse_markedPairs true⟩

/-- The two symbols of a pair **after an `x`**. -/
def afterMark : List NumberedTree :=
  [.leaf { value := some "a", span := some ⟨1, 2⟩ },
    .leaf { value := some "a", span := some ⟨2, 3⟩ }]

/-- The tree of a pair after an `x` by **the first policy**, and by the packed one. -/
def markedPairFirst : NumberedTree := .branch { span := some ⟨0, 3⟩ } 0 afterMark

@[inherit_doc markedPairFirst]
def markedPairPacked : NumberedTree :=
  .branch { span := some ⟨1, 3⟩, packed := true } 2
    [.branch { span := some ⟨1, 3⟩ } 1 afterMark,
      .branch { tag := some "p", span := some ⟨1, 3⟩ } 0 afterMark]

/-- A pair after an `x` has **two first trees**: the first policy has the group begin with the `x`,
and the group picked from the packed tree begins after it. -/
theorem first_ne_first_of_packed_markedPair : markedPairs.Closed ∧
    parse markedPairs ["x", "a", "a"] = .ok markedPair ∧
    ∃ t n p m,
      markedPair.extract { ambiguity := .first, collapse := true, spans := true } = .ok (t, n) ∧
      markedPair.extract { ambiguity := .packed, collapse := true, spans := true } = .ok (p, m) ∧
      t.plain.label.span = some ⟨0, 3⟩ ∧ (p.first.result m).plain.label.span = some ⟨1, 3⟩ ∧
      t.plain ≠ (p.first.result m).plain := by
  refine ⟨closed_markedPairs, parse_markedPairs, markedPairFirst, 1, markedPairPacked, 3,
    by cbv, by cbv, ?_⟩
  have hfirst : ∀ t : NumberedTree, t.plain.label.span = some ⟨0, 3⟩ →
      ∀ u : NumberedTree, u.plain.label.span = some ⟨1, 3⟩ → t.plain ≠ u.plain := by
    rintro t ht u hu heq
    rw [heq, hu] at ht
    cases ht
  exact ⟨rfl, by cbv, hfirst _ rfl _ (by cbv)⟩

end Forest

end GeneralParsing
