import GeneralParsing.Proofs.Rules.Language

/-!
# Compiled grammars tag the applications of visible rules

The first tree of an input is the shape of a derivation in the grammar, and that derivation mirrors
one by the rules, which applies the first of them. So the tree has what the rules ask for
(`Grammar.exists_rule_shape_of_first`), and its tags are the names of the visible rules that were
applied, one tag for each application.
-/

namespace GeneralParsing

namespace Grammar

open Compile

variable {split : Bool} {g : Grammar} {f : Forest} {w : List String}

/-- **The first tree is the shape of a derivation by the rules**: whatever compiled text accepts has
one that applies the first rule. -/
theorem exists_rule_shape_of_first [PatternReader] {source : List Char}
    (h : compile split source = .ok g) (hf : Forest.parse g w = .ok f) (collapse : Bool) :
    ∃ r rest, Dialect.rules source = .ok (r :: rest) ∧
      ∃ body : Rule.Derivation, body.By (r :: rest) r.body ∧ body.yield split = w ∧
        ∃ t n, f.extract { ambiguity := .first, collapse, spans := false } = .ok (t, n) ∧
          t.plain = (Rule.Derivation.rule r body).shape split collapse ∧
          PlainTree.tags t.plain = (Rule.Derivation.rule r body).names := by
  obtain ⟨r, rest, links, s, b, slot, hrules, hcompiled, hlink, hslot⟩ :=
    exists_compiled_of_compile h
  obtain ⟨t, n, hfirst, d, hd, hroot, rfl, hshape⟩ :=
    Forest.exists_derivation_first hcompiled.closed hf collapse
  obtain ⟨e, hstart, hbody⟩ := hcompiled.linked _ hlink
  obtain ⟨body, hmirrors⟩ :=
    hcompiled.exists_mirrors hd (hbody.trans (hroot ▸ hstart.symm)) hslot
  have hrule : t.plain = (Rule.Derivation.rule r body).shape split collapse := by
    rw [hshape, Derivation.shape, hmirrors.output, Rule.Derivation.shape, Rule.Derivation.output]
  exact ⟨r, rest, hrules, body, hmirrors.derives, hmirrors.yield, t, n, hfirst, hrule,
    hrule ▸ Rule.Derivation.tags_shape _⟩

/-! ### A sum -/

/-- A pattern derives a symbol if **reading it and matching** succeed. -/
theorem derives_pattern [PatternReader] {rules : List Rule} {source symbol : String}
    (h : (match Pattern.read source with
      | .ok p => p.accepts symbol
      | .error _ => false) = true) : Rule.Derives split rules (.pattern source) [symbol] := by
  split at h
  · next p hp => exact .pattern hp h
  · cases h

theorem derives_number [PatternReader] {digit : String}
    (h : Rule.Derives true Dialect.sumRules (.pattern "[0-9]") [digit]) :
    Rule.Derives true Dialect.sumRules (.symbol "num") [digit] := by
  have hone : Rule.DerivesAll true Dialect.sumRules (List.replicate 1 (.pattern "[0-9]")) [digit] :=
    .cons h .nil
  have hrepeated : Rule.Derives true Dialect.sumRules (.repeated (.pattern "[0-9]") (.min 1))
      [digit] := .repeated (Nat.le_refl 1) (by simp [Quantifier.bounds]) hone
  have hrule : ⟨"num", true, .lexical (.repeated (.pattern "[0-9]") (.min 1))⟩ ∈
      Dialect.sumRules := List.mem_cons_of_mem _ List.mem_cons_self
  exact .symbol hrule (.lexical hrepeated)

open scoped Common in
theorem derives_sumOfTwo {r : Rule} {rest : List Rule} (h : Dialect.sumRules = r :: rest) :
    Rule.Derives true Dialect.sumRules r.body ["1", "+", "2"] := by
  have hr : r ∈ Dialect.sumRules := h ▸ List.mem_cons_self
  obtain ⟨rfl, -⟩ := List.cons.inj h
  have hone := derives_number (derives_pattern (by decide +kernel) : Rule.Derives _ _ _ ["1"])
  have htwo := derives_number (derives_pattern (by decide +kernel) : Rule.Derives _ _ _ ["2"])
  have hsign : Rule.Derives true Dialect.sumRules (.pattern "[+\\-]") ["+"] :=
    derives_pattern (by decide +kernel)
  have hsum : Rule.Derives true Dialect.sumRules (.symbol "sum") ["1"] :=
    .symbol hr (.alt (List.mem_cons_of_mem _ List.mem_cons_self) hone)
  exact .alt List.mem_cons_self (.seq (.cons hsum (.cons hsign (.cons htwo .nil))))

open scoped Common in
theorem rule_shape_of_sumOfTwo : ∃ g f, compile true Dialect.sumText = .ok g ∧
    Forest.parse g ["1", "+", "2"] = .ok f ∧
      ∃ r rest, Dialect.rules Dialect.sumText = .ok (r :: rest) ∧
        ∃ body : Rule.Derivation, body.By (r :: rest) r.body ∧ body.yield true = ["1", "+", "2"] ∧
          ∃ t n, f.extract { ambiguity := .first, collapse := true, spans := false } = .ok (t, n) ∧
            t.plain = (Rule.Derivation.rule r body).shape true true ∧
            PlainTree.tags t.plain = (Rule.Derivation.rule r body).names := by
  obtain ⟨g, hrules, hcompile⟩ := exists_compile_sumText
  obtain ⟨r, rest, links, s, b, body, hsum, hcompiled, hlink, hbody⟩ := exists_compiled hrules
  obtain ⟨f, hf⟩ := (hcompiled.exists_parse_iff hlink hbody).mpr (derives_sumOfTwo hsum)
  exact ⟨g, f, hcompile, hf, exists_rule_shape_of_first hcompile hf true⟩

end Grammar

end GeneralParsing
