import GeneralParsing.Proofs.Derivation.Shape
import GeneralParsing.Proofs.Rules.Meaning

/-!
# Derivations by rules

A `Rule.Derivation` tells which rules were applied and how, with no regard to any grammar that the
rules are compiled into. `Rule.Derivation.By` checks it against the rules, for a phrase that it
derives, and `Rule.derives_of_by` says that the phrase derives its yield.

Its output is what the rules ask for. A visible rule makes a node with its name around the output of
its body, and a hidden one passes that output on; parts stand side by side, what is omitted leaves
nothing, and what is lexical leaves one text. So the tags in the tree of a derivation are the names
of the visible rules that were applied, in order, but for those inside what is omitted or lexical
(`Rule.Derivation.tags_shape`).
-/

namespace GeneralParsing

/-! ### The tags of a tree -/

namespace PlainTree

mutual

/-- The **tags** of a tree, the outermost first. -/
def tags : PlainTree → List String
  | .leaf label => label.tag.toList
  | .branch label _ children => label.tag.toList ++ tagsAll children

/-- The tags of trees **in order**. -/
def tagsAll : List PlainTree → List String
  | [] => []
  | t :: ts => tags t ++ tagsAll ts

end

theorem tagsAll_append (ts us : List PlainTree) :
    tagsAll (ts ++ us) = tagsAll ts ++ tagsAll us := by
  induction ts with
  | nil => rfl
  | cons t ts ih => rw [List.cons_append, tagsAll, tagsAll, ih, List.append_assoc]

/-- A group **has no tag** of its own. -/
theorem tags_single (ts : List PlainTree) : tags (single ts) = tagsAll ts := by
  match ts with
  | [t] => simp [single, tagsAll]
  | [] | t :: u :: ts => rfl

/-- What is tagged has **the tag and those within**, where values have nothing within. A tag may be
joined to a value, and then the value has no tag to lose. -/
theorem tags_tagged (collapse : Bool) (tag : String) {ts : List PlainTree}
    (h : ∀ t ∈ ts, t.isValueLeaf = true → t.isBranch = false) :
    tags (tagged collapse tag ts) = tag :: tagsAll ts := by
  unfold tagged
  split
  · next only =>
    split
    · next hcollapse =>
      have hvalue : only.isValueLeaf = true := (Bool.and_eq_true_iff.mp hcollapse).2
      cases only with
      | branch => cases h _ List.mem_cons_self hvalue
      | leaf label =>
        have htag : label.tag = none := by
          simp only [Tree.isValueLeaf, Tree.label, Bool.and_eq_true] at hvalue
          simp_all
        simp [taggedValue, tags, tagsAll, htag]
    · rfl
  · rfl

/-- What is tagged **is not an untagged value**. -/
theorem isValueLeaf_tagged (collapse : Bool) (tag : String) (ts : List PlainTree) :
    (tagged collapse tag ts).isValueLeaf = false := by
  unfold tagged
  split
  · split <;> rfl
  · rfl

end PlainTree

namespace Rule

/-! ### Derivations -/

/-- A **derivation by rules**: which were applied, and how. -/
inductive Derivation where
  /-- What the body of a rule was derived by. -/
  | rule (rule : Rule) (body : Derivation)
  /-- The text itself. -/
  | literal (text : String)
  /-- A symbol that a pattern accepts. -/
  | pattern (symbol : String)
  /-- The parts of a sequence, or the copies of what is repeated. -/
  | sequence (parts : List Derivation)
  /-- The alternative taken. -/
  | choice (part : Derivation)
  /-- What leaves no trace. -/
  | omitted (part : Derivation)
  /-- What is taken as one text. -/
  | lexical (part : Derivation)

namespace Derivation

section

variable [PatternReader]

mutual

/-- A derivation **of a phrase by the rules**. -/
inductive By (rules : List Rule) : Phrase → Derivation → Prop
  | rule {r : Rule} {body : Derivation} (hr : r ∈ rules) (h : By rules r.body body) :
      By rules (.symbol r.name) (.rule r body)
  | literal (text : String) : By rules (.literal text) (.literal text)
  | pattern {source symbol : String} {p : Pattern} (hp : Pattern.read source = .ok p)
      (ha : p.accepts symbol = true) : By rules (.pattern source) (.pattern symbol)
  | seq {parts : List Phrase} {ds : List Derivation} (h : ByAll rules parts ds) :
      By rules (.seq parts) (.sequence ds)
  | alt {parts : List Phrase} {part : Phrase} {d : Derivation} (hpart : part ∈ parts)
      (h : By rules part d) : By rules (.alt parts) (.choice d)
  | repeated {part : Phrase} {quantifier : Quantifier} {ds : List Derivation}
      (hmin : quantifier.bounds.1 ≤ ds.length)
      (hmax : ∀ m, quantifier.bounds.2 = some m → ds.length ≤ m)
      (h : ByAll rules (List.replicate ds.length part) ds) :
      By rules (.repeated part quantifier) (.sequence ds)
  | omitted {part : Phrase} {d : Derivation} (h : By rules part d) :
      By rules (.omitted part) (.omitted d)
  | lexical {part : Phrase} {d : Derivation} (h : By rules part d) :
      By rules (.lexical part) (.lexical d)

/-- Derivations of phrases **in order**. -/
inductive ByAll (rules : List Rule) : List Phrase → List Derivation → Prop
  | nil : ByAll rules [] []
  | cons {part : Phrase} {parts : List Phrase} {d : Derivation} {ds : List Derivation}
      (h : By rules part d) (hs : ByAll rules parts ds) : ByAll rules (part :: parts) (d :: ds)

end

end

mutual

/-- The symbols **derived**. -/
def yield (split : Bool) : Derivation → List String
  | rule _ body => body.yield split
  | literal text => literalSymbols split text
  | pattern symbol => [symbol]
  | sequence parts => yieldAll split parts
  | choice part => part.yield split
  | omitted part => part.yield split
  | lexical part => part.yield split

/-- The symbols derived by parts in order. -/
def yieldAll (split : Bool) : List Derivation → List String
  | [] => []
  | d :: ds => d.yield split ++ yieldAll split ds

end

mutual

/-- The **text** of a derivation: its symbols in order, but for what is omitted. -/
def text : Derivation → String
  | rule _ body => body.text
  | literal text => text
  | pattern symbol => symbol
  | sequence parts => textAll parts
  | choice part => part.text
  | omitted _ => ""
  | lexical part => part.text

/-- The text of parts **in order**. -/
def textAll : List Derivation → String
  | [] => ""
  | d :: ds => d.text ++ textAll ds

end

/-- Whether **there is nothing**: the empty literal, or no parts. -/
def isBlank : Derivation → Bool
  | literal text => text.isEmpty
  | sequence [] => true
  | _ => false

/-- The trees of a body **under the tag** of its rule. The tag of a body in which there is nothing
has the empty text. -/
def labelled (collapse : Bool) (tag : Option String) (body : Derivation) (ts : List PlainTree) :
    List PlainTree :=
  match tag with
  | none => ts
  | some tag =>
    if body.isBlank then [PlainTree.taggedValue tag ""] else [PlainTree.tagged collapse tag ts]

mutual

/-- The **output** of a derivation: the trees that the rules ask for. -/
def output (split collapse : Bool) : Derivation → List PlainTree
  | rule r body => labelled collapse r.tag? body (body.output split collapse)
  | literal text => (literalSymbols split text).map PlainTree.value
  | pattern symbol => [PlainTree.value symbol]
  | sequence parts => outputAll split collapse parts
  | choice part => part.output split collapse
  | omitted _ => []
  | lexical part => [PlainTree.value part.text]

/-- The outputs of parts, **side by side**. -/
def outputAll (split collapse : Bool) : List Derivation → List PlainTree
  | [] => []
  | d :: ds => d.output split collapse ++ outputAll split collapse ds

end

/-- The **shape** of a derivation: its output as one tree. -/
def shape (split collapse : Bool) (d : Derivation) : PlainTree :=
  PlainTree.single (d.output split collapse)

mutual

/-- The names of **the visible rules applied**, the outermost first, but for those inside what is
omitted or lexical. -/
def names : Derivation → List String
  | rule r body => r.tag?.toList ++ body.names
  | literal _ => []
  | pattern _ => []
  | sequence parts => namesAll parts
  | choice part => part.names
  | omitted _ => []
  | lexical _ => []

/-- The names of visible rules applied in parts, in order. -/
def namesAll : List Derivation → List String
  | [] => []
  | d :: ds => d.names ++ namesAll ds

end

/-! ### Tags are names -/

section

variable {split collapse : Bool}

/-- A body in which there is nothing **has no output**. -/
theorem output_of_isBlank {d : Derivation} (h : d.isBlank = true) :
    d.output split collapse = [] := by
  match d with
  | .literal text =>
    have hempty : text.isEmpty = true := h
    rw [output, literalSymbols, if_pos hempty, List.map_nil]
  | .sequence [] => rfl
  | .sequence (_ :: _) | .rule _ _ | .pattern _ | .choice _ | .omitted _ | .lexical _ => cases h

theorem forall_mem_labelled (tag : Option String) (body : Derivation) {ts : List PlainTree}
    (h : ∀ t ∈ ts, t.isValueLeaf = true → t.isBranch = false) :
    ∀ t ∈ labelled collapse tag body ts, t.isValueLeaf = true → t.isBranch = false := by
  cases tag with
  | none => exact h
  | some tag =>
    rw [labelled]
    split
    · simp
    · simp [PlainTree.isValueLeaf_tagged]

mutual

/-- In outputs **values are leaves**. -/
theorem forall_mem_output : ∀ d : Derivation,
    ∀ t ∈ d.output split collapse, t.isValueLeaf = true → t.isBranch = false
  | .rule r body => by
    rw [output]
    exact forall_mem_labelled r.tag? body (forall_mem_output body)
  | .literal text => by
    rw [output, List.forall_mem_map]
    exact fun _ _ _ => rfl
  | .pattern symbol | .lexical part => by simp [output]
  | .sequence parts => forall_mem_outputAll parts
  | .choice part => forall_mem_output part
  | .omitted _ => by simp [output]

theorem forall_mem_outputAll : ∀ ds : List Derivation,
    ∀ t ∈ outputAll split collapse ds, t.isValueLeaf = true → t.isBranch = false
  | [] => by simp [outputAll]
  | d :: ds => by
    rw [outputAll]
    exact List.forall_mem_append.mpr ⟨forall_mem_output d, forall_mem_outputAll ds⟩

end

theorem tagsAll_labelled (tag : Option String) (body : Derivation) :
    PlainTree.tagsAll (labelled collapse tag body (body.output split collapse)) =
      tag.toList ++ PlainTree.tagsAll (body.output split collapse) := by
  cases tag with
  | none => rfl
  | some tag =>
    rw [labelled]
    split
    · next hblank => simp [output_of_isBlank hblank, PlainTree.tagsAll, PlainTree.taggedValue,
        PlainTree.tags]
    · simp [PlainTree.tagsAll, PlainTree.tags_tagged collapse tag (forall_mem_output body)]

theorem tagsAll_map_value (texts : List String) :
    PlainTree.tagsAll (texts.map PlainTree.value) = [] := by
  induction texts with
  | nil => rfl
  | cons text texts ih => simpa [PlainTree.tagsAll, PlainTree.tags, PlainTree.value] using ih

mutual

theorem tagsAll_output : ∀ d : Derivation,
    PlainTree.tagsAll (d.output split collapse) = d.names
  | .rule r body => by rw [output, tagsAll_labelled, tagsAll_output body, names]
  | .literal text => tagsAll_map_value _
  | .pattern symbol => rfl
  | .sequence parts => tagsAll_outputAll parts
  | .choice part => tagsAll_output part
  | .omitted _ => rfl
  | .lexical _ => rfl

theorem tagsAll_outputAll : ∀ ds : List Derivation,
    PlainTree.tagsAll (outputAll split collapse ds) = namesAll ds
  | [] => rfl
  | d :: ds => by
    rw [outputAll, PlainTree.tagsAll_append, tagsAll_output d, tagsAll_outputAll ds, namesAll]

end

/-- **The tags in the tree are the names of the visible rules** that were applied. They come in the
order of the derivation from the top, those of a rule before those within it. -/
theorem tags_shape (d : Derivation) : (d.shape split collapse).tags = d.names := by
  rw [shape, PlainTree.tags_single, tagsAll_output]

/-- A visible rule **over a hidden one** has the only tag. -/
example : shape false true (rule ⟨"sum", false, .symbol "digit"⟩
    (rule ⟨"digit", true, .pattern "[0-9]"⟩ (pattern "1"))) = PlainTree.taggedValue "sum" "1" := rfl

end

end Derivation

/-! ### Derivations are behind what rules derive -/

open GeneralParsing.Rule.Derivation

variable [PatternReader] {split : Bool} {rules : List Rule}

mutual

/-- A phrase **derives the yields** of its derivations. Derivations were introduced to speak about
trees; for the language it makes no difference. -/
theorem derives_of_by {p : Phrase} {d : Derivation} :
    By rules p d → Derives split rules p (d.yield split)
  | .rule hr h => by
    rw [yield]
    exact .symbol hr (derives_of_by h)
  | .literal text => .literal text
  | .pattern hp ha => .pattern hp ha
  | .seq h => .seq (derivesAll_of_byAll h)
  | .alt hpart h => by
    rw [yield]
    exact .alt hpart (derives_of_by h)
  | .repeated hmin hmax h => .repeated hmin hmax (derivesAll_of_byAll h)
  | .omitted h => by
    rw [yield]
    exact .omitted (derives_of_by h)
  | .lexical h => by
    rw [yield]
    exact .lexical (derives_of_by h)

theorem derivesAll_of_byAll {ps : List Phrase} {ds : List Derivation} :
    ByAll rules ps ds → DerivesAll split rules ps (yieldAll split ds)
  | .nil => .nil
  | .cons h hs => .cons (derives_of_by h) (derivesAll_of_byAll hs)

end

end Rule

end GeneralParsing
