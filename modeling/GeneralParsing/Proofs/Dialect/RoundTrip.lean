import GeneralParsing.Proofs.Dialect.Unambiguous

/-!
# Reading undoes writing

A text that writes rules has a derivation whose tree holds the rules (`exists_yields_of_writes`).
The dialect is unambiguous, so what is extracted from the forest is that tree (`rules_of_yields`).
Together: whatever the way of writing, the rules that are read are the rules that were written.
-/

namespace GeneralParsing.Dialect

open GeneralParsing.Derivation Forest

section

variable [KnownPatterns] {t : List Char} {rs : List Rule}

/-- **The rules of a text** are those that the tree of any of its derivations holds. One derivation
is enough, as all derivations of a text have the same output. -/
theorem rules_of_yields {tree : PlainTree}
    (h : Yields written true Part.text (characters (Text.trim t)) [tree])
    (htree : Rule.listOfTree tree = .ok rs) : rules t = .ok rs := by
  obtain ⟨f, hf⟩ := exists_parse_of_yields h
  obtain ⟨d, hd, hroot, hyield, hout⟩ := h
  obtain ⟨extracted, n, hext, hplain⟩ :=
    Forest.extract_eq_shape_of_clear closed_written hf (clear_written _) hd hroot hyield true
  have hshape : extracted.plain = tree := by
    rw [hplain, shape, hout]
    rfl
  have hparse : parse t = .ok (extracted, n) := by
    rw [parse, grammar_eq]
    simp only [ok_bind, hf]
    exact hext
  calc rules t = Rule.listOfTree extracted := by
        rw [rules, hparse]
        rfl
    _ = Rule.listOfTree tree := by rw [← Rule.listOfTree_plain, hshape]
    _ = .ok rs := htree

/-- What is read in a text that writes rules **are the rules**. The text may have blanks around it,
which are trimmed away before it is parsed. -/
theorem rules_eq_of_writesText (h : WritesText rs t) : rules t = .ok rs := by
  obtain ⟨tree, hyields, htree⟩ := exists_yields_of_writes h
  exact rules_of_yields hyields htree

/-- **Reading undoes writing**: rules that can be written have a text, and of whatever text writes
them they are the rules. -/
theorem rules_of_writesText (h : Writable rs) :
    (∃ text, WritesText rs text) ∧ ∀ text, WritesText rs text → rules text = .ok rs :=
  ⟨exists_writesText h, fun _ => rules_eq_of_writesText⟩

end

open scoped Common in
theorem rules_sumText : Writable sumRules ∧ WritesText sumRules sumText ∧
    rules sumText = .ok sumRules :=
  ⟨writable_sumRules, writes_sumText, (rules_of_writesText writable_sumRules).2 _ writes_sumText⟩

end GeneralParsing.Dialect
