import GeneralParsing.Proofs.Derivation.Shape

/-!
# Deriving with an output

`Yields g collapse id w out` says that there is a derivation of the expression over these symbols
whose output is `out`, and `Spells g id w text` that there is one with this text. For each kind of
expression there is a rule that puts such derivations together, so that a derivation can be shown
to exist, together with its tree, without writing it down.
-/

namespace GeneralParsing

namespace Derivation

/-- An expression derives these symbols **with this output**. -/
def Yields (g : Grammar) (collapse : Bool) (id : ExprId) (w : List String)
    (out : List PlainTree) : Prop :=
  ∃ d : Derivation, d.Valid g ∧ d.root = id ∧ d.yield = w ∧ d.output g collapse = out

/-- Expressions in order derive these symbols **with this output**. -/
def YieldsAll (g : Grammar) (collapse : Bool) (ids : List ExprId) (w : List String)
    (out : List PlainTree) : Prop :=
  ∃ ds : List Derivation, (∀ d ∈ ds, d.Valid g) ∧ ds.map root = ids ∧ ds.flatMap yield = w ∧
    ds.flatMap (output g collapse) = out

/-- An expression derives these symbols **as this text**. -/
def Spells (g : Grammar) (id : ExprId) (w : List String) (text : String) : Prop :=
  ∃ d : Derivation, d.Valid g ∧ d.root = id ∧ d.yield = w ∧ d.text = text

/-- Expressions in order derive these symbols **as this text**. -/
def SpellsAll (g : Grammar) (ids : List ExprId) (w : List String) (text : String) : Prop :=
  ∃ ds : List Derivation, (∀ d ∈ ds, d.Valid g) ∧ ds.map root = ids ∧ ds.flatMap yield = w ∧
    textAll ds = text

variable {g : Grammar} {collapse : Bool} {id child : ExprId} {ids : List ExprId} {v w : List String}
variable {out out' : List PlainTree} {tag : Option String} {text text' symbol : String}
variable {k min : Nat}
variable {max : Option Nat} {e : Expr}

/-! ### Outputs -/

/-- A terminal yields **the symbol it is matched by**, as a value. -/
theorem yields_terminal (id : ExprId) (he : g.expr? id = some e) (ha : e.accepts symbol = true) :
    Yields g collapse id [symbol] [PlainTree.value symbol] :=
  ⟨.symbol id symbol, .symbol he ha, rfl, rfl, rfl⟩

theorem yields_token (id : ExprId) (he : g.expr? id = some (.token symbol)) :
    Yields g collapse id [symbol] [PlainTree.value symbol] :=
  yields_terminal id he (beq_self_eq_true symbol)

/-- A choice yields **what its alternative yields**, under its tag if it has one. -/
theorem Yields.alt (h : Yields g collapse child w out) (id : ExprId)
    (he : g.expr? id = some (.alt tag ids)) (hc : child ∈ ids) :
    Yields g collapse id w (PlainTree.labelled collapse tag out) := by
  obtain ⟨d, hd, rfl, rfl, rfl⟩ := h
  exact ⟨.choice id d, .choice he hc hd, rfl, rfl, by rw [output, Grammar.tag?_eq he, Expr.tag?]⟩

/-- What is omitted yields **nothing**, whatever its symbols. -/
theorem Yields.omitted (h : Yields g collapse child w out) (id : ExprId)
    (he : g.expr? id = some (.omitted child)) : Yields g collapse id w [] := by
  obtain ⟨d, hd, rfl, rfl, -⟩ := h
  exact ⟨.omitted id d, .omitted he hd, rfl, rfl, rfl⟩

/-- What is lexical yields **one value**: the text that is spelled in it. It is one value even where
the text is empty. -/
theorem Spells.lexical (h : Spells g child w text) (id : ExprId)
    (he : g.expr? id = some (.lexical child)) :
    Yields g collapse id w [PlainTree.value text] := by
  obtain ⟨d, hd, rfl, rfl, rfl⟩ := h
  exact ⟨.lexical id d, .lexical he hd, rfl, rfl, rfl⟩

theorem yieldsAll_nil : YieldsAll g collapse [] [] [] := ⟨[], by simp, rfl, rfl, rfl⟩

/-- Outputs of expressions in order are **strung together**. -/
theorem Yields.cons (h : Yields g collapse id v out) (hs : YieldsAll g collapse ids w out') :
    YieldsAll g collapse (id :: ids) (v ++ w) (out ++ out') := by
  obtain ⟨d, hd, rfl, rfl, rfl⟩ := h
  obtain ⟨ds, hds, rfl, rfl, rfl⟩ := hs
  exact ⟨d :: ds, List.forall_mem_cons.mpr ⟨hd, hds⟩, rfl, rfl, rfl⟩

theorem Yields.singleton (h : Yields g collapse id w out) : YieldsAll g collapse [id] w out := by
  simpa using h.cons yieldsAll_nil

/-- A sequence yields what its parts yield in order, **under its tag**. Without parts it is another
matter. -/
theorem YieldsAll.seq (h : YieldsAll g collapse (child :: ids) w out) (id : ExprId)
    (he : g.expr? id = some (.seq tag (child :: ids))) :
    Yields g collapse id w (PlainTree.labelled collapse tag out) := by
  obtain ⟨ds, hds, hroots, rfl, rfl⟩ := h
  have hne : ds ≠ [] := by
    rintro rfl
    cases hroots
  exact ⟨.sequence id ds, .sequence (hroots ▸ he) hds, rfl, yield_sequence id ds,
    by rw [output_sequence_of_ne_nil collapse id hne, Grammar.tag?_eq he, Expr.tag?]⟩

/-- Derivations of the repeated expression make **a derivation of the repetition**, if their number
is allowed. -/
theorem valid_iterations {ds : List Derivation} (he : g.expr? id = some (.rep tag child min max))
    (hds : ∀ d ∈ ds, d.Valid g) (hroots : ds.map root = List.replicate k child) (hmin : min ≤ k)
    (hmax : ∀ m, max = some m → k ≤ m) : (Derivation.sequence id ds).Valid g := by
  have hlen : ds.length = k := by simpa using congrArg List.length hroots
  refine .repetition he (fun d hd => ?_) (hlen ▸ hmin) (hlen ▸ hmax) hds
  have hmem : d.root ∈ List.replicate k child := hroots ▸ List.mem_map_of_mem hd
  exact List.eq_of_mem_replicate hmem

/-- A repetition yields **what its iterations yield** in order, under its tag. There is an iteration
at least, so that the tag has something around which it is put. -/
theorem YieldsAll.rep (h : YieldsAll g collapse (List.replicate (k + 1) child) w out)
    (id : ExprId) (he : g.expr? id = some (.rep tag child min max)) (hmin : min ≤ k + 1)
    (hmax : ∀ m, max = some m → k + 1 ≤ m) :
    Yields g collapse id w (PlainTree.labelled collapse tag out) := by
  obtain ⟨ds, hds, hroots, rfl, rfl⟩ := h
  have hne : ds ≠ [] := by
    rintro rfl
    cases hroots
  exact ⟨.sequence id ds, valid_iterations he hds hroots hmin hmax, rfl, yield_sequence id ds,
    by rw [output_sequence_of_ne_nil collapse id hne, Grammar.tag?_eq he, Expr.tag?]⟩

/-- **No iterations** have an output only with a tag. -/
theorem yields_rep_nil (id : ExprId) (he : g.expr? id = some (.rep none child 0 max)) :
    Yields g collapse id [] [] :=
  ⟨.sequence id [], .repetition he (by simp) (Nat.zero_le 0) (by simp) (by simp), rfl, rfl,
    by rw [output, Grammar.tag?_eq he, Expr.tag?]; rfl⟩

/-- Without a tag it makes no difference **how many** iterations there are. With none of them the
output is empty, as it is without a tag anyway. -/
theorem YieldsAll.rep_untagged (h : YieldsAll g collapse (List.replicate k child) w out)
    (id : ExprId) (he : g.expr? id = some (.rep none child min none)) (hmin : min ≤ k) :
    Yields g collapse id w out := by
  cases k with
  | zero =>
    obtain rfl := Nat.le_zero.mp hmin
    obtain ⟨ds, -, hroots, rfl, rfl⟩ := h
    obtain rfl := List.map_eq_nil_iff.mp hroots
    exact yields_rep_nil id he
  | succ k => exact h.rep id he hmin (by simp)

/-- Iterations of a terminal are **the symbols themselves**. -/
theorem yieldsAll_terminal (child : ExprId) (he : g.expr? child = some e)
    (ha : ∀ s ∈ w, e.accepts s = true) :
    YieldsAll g collapse (List.replicate w.length child) w (w.map PlainTree.value) := by
  induction w with
  | nil => exact yieldsAll_nil
  | cons s w ih =>
    obtain ⟨hs, hw⟩ := List.forall_mem_cons.mp ha
    exact (yields_terminal child he hs).cons (ih hw)

/-! ### Texts -/

/-- A terminal spells **the symbol it is matched by**. -/
theorem spells_terminal (id : ExprId) (he : g.expr? id = some e) (ha : e.accepts symbol = true) :
    Spells g id [symbol] symbol :=
  ⟨.symbol id symbol, .symbol he ha, rfl, rfl, rfl⟩

theorem spells_token (id : ExprId) (he : g.expr? id = some (.token symbol)) :
    Spells g id [symbol] symbol :=
  spells_terminal id he (beq_self_eq_true symbol)

/-- A choice spells **what its alternative spells**; tags do not matter to texts. -/
theorem Spells.alt (h : Spells g child w text) (id : ExprId)
    (he : g.expr? id = some (.alt tag ids)) (hc : child ∈ ids) : Spells g id w text := by
  obtain ⟨d, hd, rfl, rfl, rfl⟩ := h
  exact ⟨.choice id d, .choice he hc hd, rfl, rfl, rfl⟩

/-- What is omitted spells **nothing**. -/
theorem Spells.omitted (h : Spells g child w text) (id : ExprId)
    (he : g.expr? id = some (.omitted child)) : Spells g id w "" := by
  obtain ⟨d, hd, rfl, rfl, -⟩ := h
  exact ⟨.omitted id d, .omitted he hd, rfl, rfl, rfl⟩

theorem spellsAll_nil : SpellsAll g [] [] "" := ⟨[], by simp, rfl, rfl, rfl⟩

theorem Spells.cons (h : Spells g id v text) (hs : SpellsAll g ids w text') :
    SpellsAll g (id :: ids) (v ++ w) (text ++ text') := by
  obtain ⟨d, hd, rfl, rfl, rfl⟩ := h
  obtain ⟨ds, hds, rfl, rfl, rfl⟩ := hs
  exact ⟨d :: ds, List.forall_mem_cons.mpr ⟨hd, hds⟩, rfl, rfl, rfl⟩

/-- A sequence spells **what its parts spell** in order. -/
theorem SpellsAll.seq (h : SpellsAll g ids w text) (id : ExprId)
    (he : g.expr? id = some (.seq tag ids)) :
    Spells g id w text := by
  obtain ⟨ds, hds, hroots, rfl, rfl⟩ := h
  exact ⟨.sequence id ds, .sequence (hroots ▸ he) hds, rfl, yield_sequence id ds, rfl⟩

/-- A repetition spells **what its iterations spell** in order. -/
theorem SpellsAll.rep (h : SpellsAll g (List.replicate k child) w text) (id : ExprId)
    (he : g.expr? id = some (.rep tag child min max)) (hmin : min ≤ k)
    (hmax : ∀ m, max = some m → k ≤ m) : Spells g id w text := by
  obtain ⟨ds, hds, hroots, rfl, rfl⟩ := h
  exact ⟨.sequence id ds, valid_iterations he hds hroots hmin hmax, rfl, yield_sequence id ds, rfl⟩

/-- Iterations of a terminal spell **the symbols in order**. -/
theorem spellsAll_terminal (child : ExprId) (he : g.expr? child = some e)
    (ha : ∀ s ∈ w, e.accepts s = true) :
    SpellsAll g (List.replicate w.length child) w (String.join w) := by
  induction w with
  | nil => exact spellsAll_nil
  | cons s w ih =>
    obtain ⟨hs, hw⟩ := List.forall_mem_cons.mp ha
    rw [String.join_cons]
    exact (spells_terminal child he hs).cons (ih hw)

end Derivation

end GeneralParsing
