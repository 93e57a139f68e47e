import GeneralParsing.Proofs.Derivation.Inside
import GeneralParsing.Proofs.Tree.Readings

/-!
# The shape of a derivation

`Derivation.output` is what a derivation contributes to a tree, by the rules for trees alone: a
symbol is a leaf, parts stand in order, a tag wraps them, what is omitted leaves no trace, and what
is lexical is one text. The `shape` of a derivation is its output as one tree.

A part is **visible** where it stands neither in something omitted nor in something lexical. Only
visible parts have a say in the shape, but for the texts of lexical ones.
-/

namespace GeneralParsing

namespace Grammar

/-- The **tag** of an expression, if there is one. -/
def tag? (g : Grammar) (id : ExprId) : Option String := (g.expr? id).bind Expr.tag?

theorem tag?_eq {g : Grammar} {id : ExprId} {e : Expr} (he : g.expr? id = some e) :
    g.tag? id = e.tag? := by
  rw [tag?, he, Option.bind_some]

/-- An expression **is reached** from another by way of references. -/
inductive Reaches (g : Grammar) : ExprId → ExprId → Prop
  | refl (id : ExprId) : Reaches g id id
  | child {id child target : ExprId} {e : Expr} (he : g.expr? id = some e)
      (hc : child ∈ e.children) (h : Reaches g child target) : Reaches g id target

/-- Nothing that can be reached from an expression **is omitted**. -/
def OmitsNothingFrom (g : Grammar) (id : ExprId) : Prop :=
  ∀ target, g.Reaches id target → ∀ child, g.expr? target ≠ some (.omitted child)

/-- Nothing is omitted **inside what is lexical**. -/
def TextsWhole (g : Grammar) : Prop :=
  ∀ id child, g.expr? id = some (.lexical child) → g.OmitsNothingFrom child

/-- Where nothing is omitted, **nothing is omitted further down**. -/
theorem OmitsNothingFrom.child {g : Grammar} {id child : ExprId} (h : g.OmitsNothingFrom id)
    {e : Expr} (he : g.expr? id = some e) (hc : child ∈ e.children) : g.OmitsNothingFrom child :=
  fun target ht => h target (.child he hc ht)

end Grammar

namespace Derivation

/-! ### Texts -/

mutual

/-- The **text** of a derivation: its symbols in order, but for what is omitted. -/
def text : Derivation → String
  | symbol _ text => text
  | sequence _ parts => textAll parts
  | choice _ part => part.text
  | omitted _ _ => ""
  | lexical _ part => part.text

/-- The text of parts **in order**. -/
def textAll : List Derivation → String
  | [] => ""
  | d :: ds => d.text ++ textAll ds

end

variable {g : Grammar} {d x y : Derivation}

/-- The text of parts is **that of their symbols**, if this holds of each part. -/
theorem textAll_eq_join {parts : List Derivation}
    (h : ∀ d ∈ parts, d.text = String.join d.yield) :
    textAll parts = String.join (parts.flatMap yield) := by
  induction parts with
  | nil => simp [textAll]
  | cons d parts ih =>
    obtain ⟨hd, hparts⟩ := List.forall_mem_cons.mp h
    rw [textAll, hd, ih hparts, List.flatMap_cons, String.join_append]

/-- Where nothing is omitted the text is **the symbols in order**. The induction is on the
derivation, and an omission is the one case that is ruled out. -/
theorem Valid.text_eq_join (hd : d.Valid g) (h : g.OmitsNothingFrom d.root) :
    d.text = String.join d.yield := by
  induction hd with
  | symbol => simp [text, yield]
  | sequence he _ ih =>
    rw [text, yield_sequence]
    exact textAll_eq_join fun d hd => ih d hd (h.child he (List.mem_map_of_mem hd))
  | repetition he hroot _ _ _ ih =>
    rw [text, yield_sequence]
    exact textAll_eq_join fun d hd => ih d hd (h.child he (by simp [Expr.children, hroot d hd]))
  | choice he hc _ ih => exact ih (h.child he hc)
  | omitted he => exact absurd he (h _ (.refl _) _)
  | lexical he _ ih => exact ih (h.child he (by simp [Expr.children]))

/-! ### Outputs -/

mutual

/-- The **output** of a derivation: the trees it contributes. Without parts a tagged result is a
tagged value with the empty text. -/
def output (g : Grammar) (collapse : Bool) : Derivation → List PlainTree
  | symbol _ text => [PlainTree.value text]
  | sequence id [] => ((g.tag? id).map (PlainTree.taggedValue · "")).toList
  | sequence id (d :: ds) =>
    PlainTree.labelled collapse (g.tag? id) (outputAll g collapse (d :: ds))
  | choice id part => PlainTree.labelled collapse (g.tag? id) (part.output g collapse)
  | omitted _ _ => []
  | lexical _ part => [PlainTree.value part.text]

/-- The outputs of parts, **strung together**. -/
def outputAll (g : Grammar) (collapse : Bool) : List Derivation → List PlainTree
  | [] => []
  | d :: ds => d.output g collapse ++ outputAll g collapse ds

end

/-- The **shape** of a derivation: its output as one tree. -/
def shape (g : Grammar) (collapse : Bool) (d : Derivation) : PlainTree :=
  PlainTree.single (d.output g collapse)

/-- The output with **no regard to a tag on the outermost choice**. -/
def bareOutput (g : Grammar) (collapse : Bool) : Derivation → List PlainTree
  | choice _ part => part.output g collapse
  | d => d.output g collapse

theorem outputAll_eq_flatMap (collapse : Bool) (ds : List Derivation) :
    outputAll g collapse ds = ds.flatMap (output g collapse) := by
  induction ds with
  | nil => rfl
  | cons d ds ih => rw [outputAll, ih, List.flatMap_cons]

/-- With parts a sequence gives **what they give, under its tag**. -/
theorem output_sequence_of_ne_nil (collapse : Bool) (id : ExprId) {parts : List Derivation}
    (h : parts ≠ []) : (sequence id parts).output g collapse =
      PlainTree.labelled collapse (g.tag? id) (parts.flatMap (output g collapse)) := by
  cases parts with
  | nil => exact absurd rfl h
  | cons d ds => rw [output, outputAll_eq_flatMap]

/-- Only an untagged result **without trees** gives nothing. A tag makes a node at least. -/
theorem labelled_eq_nil {collapse : Bool} {tag : Option String} {ts : List PlainTree} :
    PlainTree.labelled collapse tag ts = [] ↔ tag = none ∧ ts = [] := by
  cases tag <;> simp [PlainTree.labelled]

/-- With no output there is **no bare output** either. -/
theorem bareOutput_of_output_eq_nil {collapse : Bool} (h : d.output g collapse = []) :
    d.bareOutput g collapse = [] := by
  cases d with
  | choice id part => exact (labelled_eq_nil.mp h).2
  | _ => exact h

/-- Without a tag the bare output is **all there is**. -/
theorem output_eq_nil_of_bareOutput {collapse : Bool} (htag : g.tag? d.root = none)
    (h : d.bareOutput g collapse = []) : d.output g collapse = [] := by
  cases d with
  | choice id part => exact labelled_eq_nil.mpr ⟨htag, h⟩
  | _ => exact h

/-- What has no output has **no tag**. So whether an output is empty is settled below the tag. -/
theorem Valid.tag?_of_output_eq_nil {collapse : Bool} (hd : d.Valid g)
    (h : d.output g collapse = []) : g.tag? d.root = none := by
  cases d with
  | symbol | lexical => cases h
  | sequence id parts =>
    cases parts with
    | nil => simpa [output, root] using h
    | cons x xs => exact (labelled_eq_nil.mp h).1
  | choice id part => exact (labelled_eq_nil.mp h).1
  | omitted id part =>
    cases hd with
    | omitted he => exact Grammar.tag?_eq he

/-! ### Visible parts -/

/-- The parts that **show** in the shape as trees. -/
def shownParts : Derivation → List Derivation
  | sequence _ parts => parts
  | choice _ part => [part]
  | _ => []

/-- One derivation is **visible** in another. -/
inductive Visible : Derivation → Derivation → Prop
  | refl (d : Derivation) : Visible d d
  | part {x y d : Derivation} (hy : y ∈ d.shownParts) (h : Visible x y) : Visible x d

/-- What is visible in a derivation is **the derivation or visible in a part that shows**. What is
lexical or omitted shows none of its parts. -/
theorem visible_iff : Visible x d ↔ x = d ∨ ∃ y ∈ d.shownParts, Visible x y := by
  constructor
  · intro h
    cases h with
    | refl => exact .inl rfl
    | part hy h => exact .inr ⟨_, hy, h⟩
  · rintro (rfl | ⟨y, hy, h⟩)
    · exact .refl x
    · exact .part hy h

section

variable {part : Derivation} {parts : List Derivation} {id : ExprId} {text : String}

theorem visible_symbol : Visible x (symbol id text) ↔ x = symbol id text := by
  rw [visible_iff]
  simp [shownParts]

theorem visible_sequence :
    Visible x (sequence id parts) ↔ x = sequence id parts ∨ ∃ y ∈ parts, Visible x y := by
  rw [visible_iff, shownParts]

theorem visible_choice : Visible x (choice id part) ↔ x = choice id part ∨ Visible x part := by
  rw [visible_iff]
  simp [shownParts]

theorem visible_omitted : Visible x (omitted id part) ↔ x = omitted id part := by
  rw [visible_iff]
  simp [shownParts]

end

/-- Where a visible part has **no output**, no derivation of its expression over its symbols has
any. What counts as output is a parameter. -/
def SilentTogether (g : Grammar) (output : Derivation → List PlainTree) (d : Derivation) : Prop :=
  ∀ x, Visible x d → output x = [] →
    ∀ y : Derivation, y.Valid g → y.root = x.root → y.yield = x.yield → output y = []

/-- A derivation of which every visible part **has output** is silent together with all others.
There is nothing silent in it, so nothing needs to be silent together. -/
theorem silentTogether_of_ne_nil {output : Derivation → List PlainTree}
    (h : ∀ x, Visible x d → output x ≠ []) : SilentTogether g output d :=
  fun x hx hnil => absurd hnil (h x hx)

/-- Parts that show are **silent together with the others** of their expressions, too. -/
theorem SilentTogether.of_mem_shownParts {output : Derivation → List PlainTree}
    (h : SilentTogether g output d) (hx : x ∈ d.shownParts) : SilentTogether g output x :=
  fun y hy => h y (.part hx hy)

/-- Derivations that are silent together **with regard to a tag** are silent without. Here the tag
of the root is known to be missing, or it would not be silent itself. -/
theorem SilentTogether.output_eq_nil {collapse : Bool}
    (h : SilentTogether g (bareOutput g collapse) d) (hd : d.Valid g)
    (hout : d.output g collapse = []) (hy : y.Valid g) (hroot : y.root = d.root)
    (hyield : y.yield = d.yield) : y.output g collapse = [] := by
  have hbare := h d (.refl d) (bareOutput_of_output_eq_nil hout) y hy hroot hyield
  exact output_eq_nil_of_bareOutput (hroot ▸ hd.tag?_of_output_eq_nil hout) hbare

/-! ### Symbols of what is inside -/

theorem yield_sublist_of_mem_parts (h : x ∈ d.parts) : x.yield.Sublist d.yield := by
  cases d with
  | symbol => simp [parts] at h
  | sequence id parts =>
    rw [yield_sequence]
    exact List.sublist_flatten_of_mem (List.mem_map_of_mem h)
  | choice _ part | omitted _ part | lexical _ part =>
    obtain rfl : x = part := by simpa [parts] using h
    exact List.Sublist.refl _

/-- The symbols of what is inside are **among those of the whole**, in order. -/
theorem Inside.yield_sublist (h : Inside x d) : x.yield.Sublist d.yield := by
  induction h with
  | part h => exact yield_sublist_of_mem_parts h
  | deeper hy _ ih => exact ih.trans (yield_sublist_of_mem_parts hy)

/-- In an acyclic derivation no expression is derived inside itself over **as many symbols**. Being
inside its symbols are among those of the whole, and with as many they would be all. -/
theorem Acyclic.length_ne (h : Acyclic d) (hx : Inside x d) (hroot : x.root = d.root) :
    x.yield.length ≠ d.yield.length :=
  fun hlen => h d x (within_refl d) hx hroot (hx.yield_sublist.eq_of_length hlen)

end Derivation

end GeneralParsing
