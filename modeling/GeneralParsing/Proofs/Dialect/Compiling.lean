import GeneralParsing.Proofs.Dialect.Bounds
import GeneralParsing.Proofs.Rules.Language
import GeneralParsing.Proofs.Rules.Verdict

/-!
# Compiling texts

Compiling a text parses it, reads the rules off its tree and compiles the rules. Each of these has
errors of its own, and no others: a text is refused at a place, a bound in it does not fit, or what
is wrong is about the rules (`Grammar.compile_cases`). So there is no text whose tree is not that of
rules (`Dialect.malformed_exact`), and rules that were read are compiled exactly if what is asked of
them is true (`Grammar.compile_verdict`).
-/

namespace GeneralParsing

variable {split : Bool} {source : List Char} {e : Error}

namespace Dialect

open Forest

/-- A text that is not parsed **is refused at a place**. The dialect's own text is unambiguous, so
there is no other error. -/
theorem exists_place_of_parse_error [KnownPatterns] (h : parse source = .error e) :
    ∃ line column, e = .grammarSyntax line column := by
  rw [parse_eq] at h
  rcases parse_cases closed_written (characters (Text.trim source)) with ⟨f, hf⟩ | ⟨p, hp⟩
  · obtain ⟨t, n, -, ht, -⟩ := exists_hasTree_of_parse closed_written hf
    rw [hf] at h
    cases ht.symm.trans h
  · rw [hp] at h
    cases h
    exact ⟨_, _, rfl⟩

/-- A text is refused, or has a bound that does not fit, or **has rules**. In the third case there
is a rule at least, since the dialect asks for one. -/
theorem rules_cases [KnownPatterns] (source : List Char) :
    (∃ line column, rules source = .error (.grammarSyntax line column)) ∨
      rules source = .error badBound ∨ ∃ r rest, rules source = .ok (r :: rest) := by
  cases hparse : parse source with
  | error e =>
    obtain ⟨line, column, rfl⟩ := exists_place_of_parse_error hparse
    refine .inl ⟨line, column, ?_⟩
    rw [rules, hparse]
    rfl
  | ok result =>
    obtain ⟨hjudged, hne⟩ := judged_rules hparse
    cases hrules : rules source with
    | error e =>
      rw [hrules] at hjudged
      cases hjudged
      exact .inr (.inl rfl)
    | ok rs =>
      cases rs with
      | nil => exact absurd hrules hne
      | cons r rest => exact .inr (.inr ⟨r, rest, rfl⟩)

end Dialect

namespace Grammar

theorem verdict_compile [KnownPatterns] (split : Bool) {rs : List Rule}
    (h : Dialect.rules source = .ok rs) : Rule.Verdict rs (compile split source) := by
  rcases Dialect.rules_cases source with ⟨line, column, hrules⟩ | hrules | ⟨r, rest, hrules⟩
  · cases h.symm.trans hrules
  · cases h.symm.trans hrules
  · cases h.symm.trans hrules
    rw [compile, hrules]
    exact verdict_ofRules split (List.cons_ne_nil r rest)

/-- **The errors of compiling**: those of parsing, of reading numbers, and of compiling rules. They
come in that order, and the first of them is what is told. -/
theorem compile_cases [KnownPatterns] (split : Bool) (source : List Char) :
    (∃ line column, compile split source = .error (.grammarSyntax line column)) ∨
      compile split source = .error Dialect.badBound ∨
        ∃ rs, Dialect.rules source = .ok rs ∧ Rule.Verdict rs (compile split source) := by
  rcases Dialect.rules_cases source with ⟨line, column, hrules⟩ | hrules | ⟨r, rest, hrules⟩
  · exact .inl ⟨line, column, by rw [compile, hrules]; rfl⟩
  · exact .inr (.inl (by rw [compile, hrules]; rfl))
  · exact .inr (.inr ⟨r :: rest, hrules, verdict_compile split hrules⟩)

/-- **The verdict of the compiler is exact.** Rules that were read off a text have a grammar if and
only if everything is true that is asked of them. If they are sound and refer to names that have no
rule, the error tells these names, each once, in the order in which they are first referred to. And
of no text is it ever said that something was defined twice. -/
theorem compile_verdict [KnownPatterns] (split : Bool) (source : List Char) :
    (∀ rs, Dialect.rules source = .ok rs →
      ((∃ g, compile split source = .ok g) ↔ Rule.Compilable rs) ∧
      (Rule.Sound rs →
        (∃ r ∈ rs, ∃ name, .symbol name ∈ r.body.subphrases ∧ ∀ r' ∈ rs, r'.name ≠ name) →
        compile split source = .error (.undefinedSymbols (Rule.undefined rs)))) ∧
    ∀ id, compile split source ≠ .error (.redefinedExpression id) := by
  constructor
  · intro rs hrules
    have hverdict := verdict_compile split hrules
    refine ⟨hverdict.exists_grammar_iff, fun hsound ⟨r, hr, name, hname, hnone⟩ => ?_⟩
    refine hverdict.eq_undefinedSymbols hsound fun hnil => ?_
    obtain ⟨r', hr', heq⟩ := Rule.undefined_eq_nil_iff.mp hnil r hr name hname
    exact hnone r' hr' heq
  · intro id hid
    rcases compile_cases split source with ⟨line, column, h⟩ | h | ⟨rs, -, h⟩
    · cases h.symm.trans hid
    · cases h.symm.trans hid
    · rw [hid] at h
      cases h.aboutRules

open scoped Common in
theorem compilable_sumRules :
    Dialect.rules Dialect.sumText = .ok Dialect.sumRules ∧ Rule.Compilable Dialect.sumRules := by
  obtain ⟨tree, hyields, htree⟩ := Dialect.exists_yields_of_writes Dialect.writes_sumText
  have hrules := Dialect.rules_of_yields hyields htree
  obtain ⟨g, -, hcompile⟩ := exists_compile_sumText
  exact ⟨hrules, ((compile_verdict true Dialect.sumText).1 _ hrules).1.mp ⟨g, hcompile⟩⟩

end Grammar

namespace Dialect

/-- **No text has a malformed tree.** A text that is parsed has rules, at least one, unless a bound
in it does not fit in 64 bits: then, and only then, the error is that it does not. And of no text is
it ever said that its tree is malformed in another way, or that it has no rules. -/
theorem malformed_exact [KnownPatterns] (source : List Char) :
    (∀ result, parse source = .ok result →
      ((∃ r rest, rules source = .ok (r :: rest)) ∨ rules source = .error badBound) ∧
      (rules source = .error badBound ↔ ∃ n, HasBound source n ∧ 2 ^ 64 ≤ n)) ∧
    ∀ split e, Grammar.compile split source = .error e →
      e ≠ .noRules ∧ ∀ fault tag, e = .malformedSyntax fault tag → e = badBound := by
  constructor
  · intro result hparse
    obtain ⟨hjudged, hne⟩ := judged_rules hparse
    refine ⟨?_, hjudged.eq_error_iff⟩
    -- the source was parsed, so it is not an error of place
    rcases rules_cases source with ⟨line, column, hrules⟩ | hrules | hrules
    · rw [hrules] at hjudged
      cases hjudged
    · exact .inr hrules
    · exact .inl hrules
  · intro split e he
    rcases Grammar.compile_cases split source with ⟨line, column, h⟩ | h | ⟨rs, -, h⟩
    · cases h.symm.trans he
      exact ⟨nofun, fun _ _ => nofun⟩
    · cases h.symm.trans he
      exact ⟨nofun, fun _ _ _ => rfl⟩
    · -- rules that were read fail with errors about rules only
      rw [he] at h
      refine ⟨?_, ?_⟩
      · rintro rfl
        cases h.aboutRules
      · rintro fault tag rfl
        cases h.aboutRules

open scoped Common in
theorem bounds_fit_sumText : ∃ result, parse sumText = .ok result ∧
    ∀ n, HasBound sumText n → n < 2 ^ 64 := by
  obtain ⟨tree, hyields, htree⟩ := exists_yields_of_writes writes_sumText
  have hrules := rules_of_yields hyields htree
  cases hparse : parse sumText with
  | error e =>
    rw [rules, hparse] at hrules
    cases hrules
  | ok result =>
    refine ⟨result, rfl, fun n hn => ?_⟩
    by_contra hbig
    have hbad := ((malformed_exact sumText).1 result hparse).2.mpr ⟨n, hn, Nat.le_of_not_lt hbig⟩
    cases hbad.symm.trans hrules

end Dialect

end GeneralParsing
