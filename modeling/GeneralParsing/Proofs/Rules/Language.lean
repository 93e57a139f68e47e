import GeneralParsing.Proofs.Dialect.RoundTrip
import GeneralParsing.Proofs.Parsing.Recognition
import GeneralParsing.Proofs.Rules.Compiled

/-!
# Compiling keeps the language

In a compiled grammar an expression derives exactly what the phrases derive that it implements. One
direction goes by the rules (`Compiled.derives_of_rule`): the slot of a symbol has the same
expression as the body of its rule. The other goes by a derivation of the grammar, which mirrors one
by the rules.

So the grammar accepts what the body of the first rule derives
(`Grammar.exists_parse_iff_rule_derives`).
-/

namespace GeneralParsing

namespace Compile

variable {split : Bool} {rs : List Rule} {links : List (ExprId × ExprId)} {g : Grammar}
variable {s : Scope} {b : Builder} {p : Phrase} {id inner : ExprId} {tag : Option String}
variable {w : List String}

/-! ### From the rules to the grammar -/

/-- Slots with the **same expression** derive alike. -/
theorem derives_of_expr?_eq {id id' : ExprId} (he : g.expr? id' = g.expr? id)
    (h : g.Derives id w) : g.Derives id' w := by
  cases h with
  | terminal h ha => exact .terminal (he.trans h) ha
  | sequence h hall => exact .sequence (he.trans h) hall
  | choice h hc hd => exact .choice (he.trans h) hc hd
  | repetition h hmin hmax hall => exact .repetition (he.trans h) hmin hmax hall
  | omitted h hd => exact .omitted (he.trans h) hd
  | lexical h hd => exact .lexical (he.trans h) hd

variable [PatternReader]

theorem Compiled.derives_of_carries (h : Compiled split rs links s b g)
    (hc : Carries (Builds s b) id inner tag) (hd : g.Derives inner w) : g.Derives id w := by
  cases tag with
  | none =>
    obtain rfl : id = inner := hc
    exact hd
  | some tag =>
    have hall := Grammar.DerivesAll.cons hd .nil
    rw [List.append_nil] at hall
    exact .sequence (h.expr id _ hc.1) hall

theorem Compiled.derivesAll_letters (h : Compiled split rs links s b g) {ids : List ExprId}
    {symbols : List String}
    (hids : List.Forall₂ (fun id symbol => Builds s b id (.token symbol)) ids symbols) :
    g.DerivesAll ids symbols := by
  induction hids with
  | nil => exact .nil
  | cons hb _ ih => exact .cons (.terminal (h.expr _ _ hb.1) (beq_self_eq_true _)) ih

mutual

/-- What a phrase derives, the expression that implements it **derives too**. The induction is on
how the phrase derives the word. A symbol leads to the slot of its rule, and from there by the link
to the body. -/
theorem Compiled.derives_of_rule (h : Compiled split rs links s b g) {tag : Option String}
    {p : Phrase} {w : List String} {id : ExprId} :
    Rule.Derives split rs p w → Implements s.Names (Builds s b) split tag p id → g.Derives id w
  | .symbol hr hw, .symbol hname hc => by
    obtain ⟨⟨slot', body⟩, hlink, hname', himpl⟩ := h.rule _ hr
    obtain rfl := h.tidy.slot_unique _ _ slot' hname hname'
    obtain ⟨e, hslot, hbody⟩ := h.linked _ hlink
    have hderives := h.derives_of_rule hw himpl
    exact h.derives_of_carries hc (derives_of_expr?_eq (hslot.trans hbody.symm) hderives)
  | .literal text, .token ht hb hc => by
    rw [ht]
    exact h.derives_of_carries hc (.terminal (h.expr _ _ hb.1) (beq_self_eq_true _))
  | .literal text, .letters hids hb => .sequence (h.expr _ _ hb.1) (h.derivesAll_letters hids)
  | .pattern hp ha, .pattern hp' hb hc => by
    cases hp.symm.trans hp'
    exact h.derives_of_carries hc (.terminal (h.expr _ _ hb.1) ha)
  | .seq hw, .seq hb hs => .sequence (h.expr _ _ hb.1) (h.derivesAll_of_rule hw hs)
  | .alt hpart hw, .alt hb hs => by
    obtain ⟨child, hchild, hid⟩ := hs.exists_of_mem hpart
    exact .choice (h.expr _ _ hb.1) hchild (h.derives_of_rule hw hid)
  | .repeated hmin hmax hw, .repeated hb hs =>
    .repetition (h.expr _ _ hb.1) hmin hmax (h.derivesAll_of_rule hw (hs.replicate _))
  | .omitted hw, .omitted hb hs hc =>
    h.derives_of_carries hc (.omitted (h.expr _ _ hb.1) (h.derives_of_rule hw hs))
  | .lexical hw, .lexical hb hs hc =>
    h.derives_of_carries hc (.lexical (h.expr _ _ hb.1) (h.derives_of_rule hw hs))

/-- What phrases derive in order, the expressions that implement them **derive in order**. -/
theorem Compiled.derivesAll_of_rule (h : Compiled split rs links s b g) {ps : List Phrase}
    {w : List String} {ids : List ExprId} : Rule.DerivesAll split rs ps w →
      ImplementsAll s.Names (Builds s b) split ps ids → g.DerivesAll ids w
  | .nil, .nil => .nil
  | .cons hw hws, .cons hid hids => .cons (h.derives_of_rule hw hid) (h.derivesAll_of_rule hws hids)

end

/-- An expression derives **exactly** what the phrase derives that it implements. Neither the tag
nor the splitting of literals changes that, except for what the symbols are. -/
theorem Compiled.derives_iff (h : Compiled split rs links s b g)
    (hp : Implements s.Names (Builds s b) split tag p id) :
    g.Derives id w ↔ Rule.Derives split rs p w := by
  refine ⟨fun hw => ?_, fun hw => h.derives_of_rule hw hp⟩
  obtain ⟨d, hd, rfl, rfl⟩ := hw.exists_valid
  obtain ⟨e, he⟩ := h.exists_mirrors hd rfl hp
  exact he.yield ▸ Rule.derives_of_by he.derives

/-- The grammar accepts exactly what **the body behind its start** derives. That is what the rule of
the start derives. -/
theorem Compiled.exists_parse_iff (h : Compiled split rs links s b g)
    (hlink : (g.start, id) ∈ links) (hp : Implements s.Names (Builds s b) split tag p id) :
    (∃ f, Forest.parse g w = .ok f) ↔ Rule.Derives split rs p w := by
  obtain ⟨e, hstart, hexpr⟩ := h.linked _ hlink
  calc (∃ f, Forest.parse g w = .ok f)
      ↔ g.Derives g.start w :=
        ⟨fun ⟨_, hf⟩ => Forest.derives_of_parse h.closed hf,
          Forest.exists_parse_of_derives h.closed⟩
    _ ↔ g.Derives id w :=
        ⟨derives_of_expr?_eq (hexpr.trans hstart.symm),
          derives_of_expr?_eq (hstart.trans hexpr.symm)⟩
    _ ↔ Rule.Derives split rs p w := h.derives_iff hp

end Compile

namespace Grammar

open Compile

variable {split : Bool} {g : Grammar}

/-- **Compiling keeps the language**: text that compiles has rules, and the grammar accepts exactly
what the body of the first rule derives. -/
theorem exists_parse_iff_rule_derives [PatternReader] {source : List Char}
    (h : compile split source = .ok g) :
    ∃ r rest, Dialect.rules source = .ok (r :: rest) ∧
      ∀ w, (∃ f, Forest.parse g w = .ok f) ↔ Rule.Derives split (r :: rest) r.body w := by
  obtain ⟨r, rest, links, s, b, body, hrules, hcompiled, hlink, hbody⟩ :=
    exists_compiled_of_compile h
  exact ⟨r, rest, hrules, fun w => hcompiled.exists_parse_iff hlink hbody⟩

open scoped Common in
theorem exists_compile_sumText : ∃ g, ofRules true Dialect.sumRules = .ok g ∧
    compile true Dialect.sumText = .ok g := by
  obtain ⟨tree, hyields, htree⟩ := Dialect.exists_yields_of_writes Dialect.writes_sumText
  have hrules := Dialect.rules_of_yields hyields htree
  have hcompiles : (ofRules true Dialect.sumRules).isOk = true := by decide +kernel
  cases h : ofRules true Dialect.sumRules with
  | ok g => exact ⟨g, rfl, by rw [compile, hrules, Forest.ok_bind, h]⟩
  | error e =>
    rw [h] at hcompiles
    cases hcompiles

open scoped Common in
theorem compile_sumText_keeps_language : ∃ g, compile true Dialect.sumText = .ok g ∧
    ∃ r rest, Dialect.rules Dialect.sumText = .ok (r :: rest) ∧
      ∀ w, (∃ f, Forest.parse g w = .ok f) ↔ Rule.Derives true (r :: rest) r.body w := by
  obtain ⟨g, -, hcompile⟩ := exists_compile_sumText
  exact ⟨g, hcompile, exists_parse_iff_rule_derives hcompile⟩

end Grammar

end GeneralParsing
