import GeneralParsing.Grammar.Builder
import GeneralParsing.Proofs.Derivation.Outcomes
import GeneralParsing.Proofs.Dialect.Words
import GeneralParsing.Proofs.Parsing.WordTree
import GeneralParsing.Proofs.Pattern.Known

/-!
# Quoted strings

A quoted string is made of a pattern for the characters that stand for themselves, two expressions
for the characters behind an escape, a repetition of these, and the delimiters around it
(`Quoting.grammar`). What its pieces spell is exactly what characters are written as
(`Quoting.spells_piece_iff`), so the grammar accepts the texts in quotes and decodes them
(`Forest.quotedString_exact`). Nothing is asked of the two characters. They may mean something in
patterns, and they may be the same: then a delimiter in the text is written twice, and there are two
ways to derive it, both of which spell the delimiter.
-/

namespace GeneralParsing

namespace Quoting

open GeneralParsing.Derivation Forest

variable {delimiter escape c : Char} {text : List Char} {p : Pattern} {tag : Option String}

/-! ### Quoting -/

/-- A character **as it is written** between delimiters, behind an escape where it needs one. -/
def written (delimiter escape c : Char) : List Char :=
  if c = delimiter ∨ c = escape then [escape, c] else [c]

/-- A text **as it is written** between delimiters. -/
def encoded (delimiter escape : Char) (text : List Char) : List Char :=
  text.flatMap (written delimiter escape)

/-- A text **in quotes**. -/
def quoted (delimiter escape : Char) (text : List Char) : List Char :=
  delimiter :: encoded delimiter escape text ++ [delimiter]

theorem encoded_cons : encoded delimiter escape (c :: text) =
    written delimiter escape c ++ encoded delimiter escape text := List.flatMap_cons

/-- What is written tells **which character comes first**. An escape is never written by itself, so
one sees at once whether two characters stand for one. -/
theorem eq_of_written_append {d : Char} {u v : List Char}
    (h : written delimiter escape c ++ u = written delimiter escape d ++ v) : c = d ∧ u = v := by
  unfold written at h
  grind

/-- From what is written **the text can be read back**, provided that the escape is not the
delimiter. -/
theorem encoded_injective : Function.Injective (encoded delimiter escape) := by
  have hne : ∀ c (u : List Char), written delimiter escape c ++ u ≠ [] := by
    intro c u
    unfold written
    split <;> simp
  intro text
  induction text with
  | nil =>
    intro text' h
    cases text' with
    | nil => rfl
    | cons d text' => exact absurd (h.trans encoded_cons).symm (hne d _)
  | cons c text ih =>
    intro text' h
    cases text' with
    | nil => exact absurd (encoded_cons.symm.trans h) (hne c _)
    | cons d text' =>
      rw [encoded_cons, encoded_cons] at h
      obtain ⟨rfl, hrest⟩ := eq_of_written_append h
      rw [ih hrest]

/-- Different texts are **quoted differently**. Nothing is lost by quoting, therefore, and reading a
quoted text has one answer. -/
theorem quoted_injective : Function.Injective (quoted delimiter escape) := fun _ _ h =>
  encoded_injective (List.append_cancel_right (List.cons.inj h).2)

theorem characters_written_append (c : Char) (text : List Char) :
    characters (written delimiter escape c) ++ characters (encoded delimiter escape text) =
      characters (encoded delimiter escape (c :: text)) := by
  rw [encoded_cons, characters_append]

/-- A quoted text is **its encoding between two delimiters**, character by character. -/
theorem characters_quoted (text : List Char) : characters (quoted delimiter escape text) =
    String.singleton delimiter ::
      (characters (encoded delimiter escape text) ++ [String.singleton delimiter]) := by
  rw [quoted, List.cons_append, characters_cons, characters_append]
  rfl

theorem singleton_append_ofList (c : Char) (text : List Char) :
    String.singleton c ++ String.ofList text = String.ofList (c :: text) := by
  rw [String.singleton_eq_ofList, ← String.ofList_append, List.singleton_append]

/-! ### The grammar -/

/-- The **expressions of a quoted string**, in the order in which they are added. -/
def expressions (delimiter escape : Char) (p : Pattern) (tag : Option String) : List Expr := [
  .token (String.singleton escape), .omitted 0, .token (String.singleton delimiter), .omitted 2,
  .pattern p, .seq none [1, 0], .seq none [1, 2], .alt none [4, 5, 6], .rep none 7 0 none,
  .lexical 8, .seq tag [3, 9, 3]]

/-- The **grammar of a quoted string**. -/
def grammar (delimiter escape : Char) (p : Pattern) (tag : Option String) : Grammar where
  exprs := (expressions delimiter escape p tag).toArray
  start := 10
  start_lt := Nat.lt_succ_self 10

/-- The builder makes **eleven expressions** for a quoted string, the last of which is the string.
-/
theorem run_quotedString [PatternReader]
    (hp : Pattern.read (Pattern.excluding delimiter escape) = .ok p) :
    Builder.run (Builder.quotedString (String.singleton delimiter) (String.singleton escape) tag) =
      (.ok 10, ⟨((expressions delimiter escape p tag).map some).toArray, []⟩) := by
  have hsource : String.ofList ('[' :: '^' ::
      (Pattern.escape (String.singleton delimiter).toList ++
        Pattern.escape (String.singleton escape).toList) ++ [']']) =
      Pattern.excluding delimiter escape := by
    simp [Pattern.excluding, Pattern.escape]
  have htoken : ∀ c, Builder.token (String.singleton c) =
      Builder.add (.token (String.singleton c)) := by simp [Builder.token]
  rw [Builder.run, Builder.quotedString]
  simp only [hsource, htoken, Builder.pattern_of_read hp]
  rfl

/-- They **are a grammar** as they stand: none of them waits for another. The three patterns and
tokens stand first, and everything else refers back to them. -/
theorem finish_expressions :
    Builder.finish ⟨((expressions delimiter escape p tag).map some).toArray, []⟩ 10 =
      .ok (grammar delimiter escape p tag) := rfl

theorem closed_grammar : (grammar delimiter escape p tag).Closed := by
  simp [Grammar.Closed, grammar, expressions, Expr.children]

/-! ### What a quoted string spells -/

section

variable {collapse : Bool} {child both : ExprId} {w : List String} {spelt : String}
variable {out : List PlainTree}

/-- The pattern accepts **every other character** than the delimiter and the escape. -/
def AcceptsOthers (delimiter escape : Char) (p : Pattern) : Prop :=
  p.accepts = single fun c => c != delimiter && c != escape

/-- A character behind an escape spells **the character**. -/
theorem spells_pair_iff
    (hboth : (grammar delimiter escape p tag).expr? both = some (.seq none [1, child]))
    (hchild : (grammar delimiter escape p tag).expr? child =
      some (.token (String.singleton c))) :
    Spells (grammar delimiter escape p tag) both w spelt ↔
      w = characters [escape, c] ∧ spelt = String.singleton c := by
  have hescape : ∀ {v t}, Spells (grammar delimiter escape p tag) 1 v t ↔
      t = "" ∧ v = [String.singleton escape] := by
    intro v t
    have homitted : (grammar delimiter escape p tag).expr? 1 = some (.omitted 0) := rfl
    have htoken : (grammar delimiter escape p tag).expr? 0 =
      some (.token (String.singleton escape)) := rfl
    rw [spells_omitted_iff homitted]
    simp [spells_token_iff htoken]
  rw [spells_seq_iff hboth]
  simp [spellsAll_cons_iff, spellsAll_nil_iff, hescape, spells_token_iff hchild, characters]

/-- A piece spells **a character as it is written**. It is one of three: a character by itself, or
one of the two that need an escape. -/
theorem spells_piece_iff (hp : AcceptsOthers delimiter escape p) :
    Spells (grammar delimiter escape p tag) 7 w spelt ↔
      ∃ c, w = characters (written delimiter escape c) ∧ spelt = String.singleton c := by
  have hpair : ∀ child both {c}, (grammar delimiter escape p tag).expr? both =
        some (.seq none [1, child]) → (grammar delimiter escape p tag).expr? child =
        some (.token (String.singleton c)) → c = delimiter ∨ c = escape →
      (Spells (grammar delimiter escape p tag) both w spelt ↔
        w = characters (written delimiter escape c) ∧ spelt = String.singleton c) := by
    intro child both c hboth hchild hc
    rw [written, if_pos hc, spells_pair_iff hboth hchild]
  have hother : Spells (grammar delimiter escape p tag) 4 w spelt ↔
      w = [spelt] ∧ single (fun c => c != delimiter && c != escape) spelt = true := by
    rw [spells_terminal_iff (e := .pattern p) rfl rfl, Expr.accepts, hp]
  have hescape := hpair 0 5 rfl rfl (.inr rfl)
  have hdelimiter := hpair 2 6 rfl rfl (.inl rfl)
  have halt : (grammar delimiter escape p tag).expr? 7 = some (.alt none [4, 5, 6]) := rfl
  rw [spells_alt_iff halt]
  constructor
  · rintro ⟨id, hid, h⟩
    simp only [List.mem_cons, List.not_mem_nil, or_false] at hid
    rcases hid with rfl | rfl | rfl
    · obtain ⟨rfl, ha⟩ := hother.mp h
      obtain ⟨c, rfl, hc⟩ := single_eq_true_iff.mp ha
      refine ⟨c, ?_, rfl⟩
      rw [written, if_neg (by simpa using hc)]
      rfl
    · exact ⟨escape, hescape.mp h⟩
    · exact ⟨delimiter, hdelimiter.mp h⟩
  · rintro ⟨c, rfl, rfl⟩
    by_cases hc : c = delimiter ∨ c = escape
    · rcases hc with rfl | rfl
      · exact ⟨6, by decide, hdelimiter.mpr ⟨rfl, rfl⟩⟩
      · exact ⟨5, by decide, hescape.mpr ⟨rfl, rfl⟩⟩
    · refine ⟨4, by decide, hother.mpr ?_⟩
      rw [written, if_neg hc, single_singleton]
      exact ⟨rfl, by simpa using hc⟩

/-- Pieces in order spell **a text as it is written**. -/
theorem spellsAll_pieces_iff (hp : AcceptsOthers delimiter escape p) {k : Nat} :
    SpellsAll (grammar delimiter escape p tag) (List.replicate k 7) w spelt ↔
      ∃ text : List Char, text.length = k ∧ w = characters (encoded delimiter escape text) ∧
        spelt = String.ofList text := by
  induction k generalizing w spelt with
  | zero =>
    rw [List.replicate_zero, spellsAll_nil_iff]
    constructor
    · rintro ⟨rfl, rfl⟩
      exact ⟨[], rfl, rfl, rfl⟩
    · rintro ⟨text, hlength, rfl, rfl⟩
      obtain rfl := List.length_eq_zero_iff.mp hlength
      exact ⟨rfl, rfl⟩
  | succ k ih =>
    simp only [List.replicate_succ, spellsAll_cons_iff, spells_piece_iff hp, ih]
    constructor
    · rintro ⟨_, _, ⟨c, rfl, rfl⟩, _, _, ⟨text, rfl, rfl, rfl⟩, rfl, rfl⟩
      exact ⟨c :: text, rfl, characters_written_append c text, singleton_append_ofList c text⟩
    · rintro ⟨text, hlength, rfl, rfl⟩
      obtain ⟨c, text, rfl⟩ := List.exists_cons_of_length_eq_add_one hlength
      exact ⟨_, _, ⟨c, rfl, rfl⟩, _, _, ⟨text, Nat.succ.inj hlength, rfl, rfl⟩,
        (characters_written_append c text).symm, (singleton_append_ofList c text).symm⟩

/-- A quoted string yields **the text in quotes**, as one value. The delimiters are omitted, and
what is between them is one value by the lexical expression. -/
theorem yields_iff (hp : AcceptsOthers delimiter escape p) :
    Yields (grammar delimiter escape p tag) collapse 10 w out ↔
      ∃ text, w = characters (quoted delimiter escape text) ∧
        out = PlainTree.labelled collapse tag [PlainTree.value (String.ofList text)] := by
  have hmark : ∀ {v ts}, Yields (grammar delimiter escape p tag) collapse 3 v ts ↔
      ts = [] ∧ v = [String.singleton delimiter] := by
    intro v ts
    have homitted : (grammar delimiter escape p tag).expr? 3 = some (.omitted 2) := rfl
    have htoken : (grammar delimiter escape p tag).expr? 2 =
      some (.token (String.singleton delimiter)) := rfl
    rw [yields_omitted_iff homitted]
    simp [spells_token_iff htoken]
  have htext : ∀ {v ts}, Yields (grammar delimiter escape p tag) collapse 9 v ts ↔
      ∃ text, v = characters (encoded delimiter escape text) ∧
        ts = [PlainTree.value (String.ofList text)] := by
    intro v ts
    have hlexical : (grammar delimiter escape p tag).expr? 9 = some (.lexical 8) := rfl
    have hrep : (grammar delimiter escape p tag).expr? 8 = some (.rep none 7 0 none) := rfl
    rw [yields_lexical_iff hlexical]
    simp only [spells_rep_iff hrep, spellsAll_pieces_iff hp]
    constructor
    · rintro ⟨_, ⟨_, -, -, text, -, rfl, rfl⟩, rfl⟩
      exact ⟨text, rfl, rfl⟩
    · rintro ⟨text, rfl, rfl⟩
      exact ⟨_, ⟨text.length, Nat.zero_le _, nofun, text, rfl, rfl, rfl⟩, rfl⟩
  have hseq : (grammar delimiter escape p tag).expr? 10 = some (.seq tag [3, 9, 3]) := rfl
  rw [yields_seq_iff hseq]
  simp [yieldsAll_cons_iff, yieldsAll_nil_iff, hmark, htext, characters_quoted]

end

end Quoting

namespace Forest

open GeneralParsing.Derivation Quoting

/-- **Quoted strings decode what quoting encodes**, and nothing else is accepted. The grammar of a
quoted string accepts the texts in quotes, and the tree of such a text is one value: what stands in
the quotes, before it was escaped. -/
theorem quotedString_exact [KnownPatterns] (delimiter escape : Char) (tag : Option String) :
    ∃ start b g, Builder.run (Builder.quotedString (String.singleton delimiter)
        (String.singleton escape) tag) = (.ok start, b) ∧ b.finish start = .ok g ∧
      (∀ s : List Char, (∃ f, parse g (characters s) = .ok f) ↔
        ∃ text, s = quoted delimiter escape text) ∧
      Function.Injective (quoted delimiter escape) ∧
      ∀ text : List Char, ∃ f n, parse g (characters (quoted delimiter escape text)) = .ok f ∧
        f.extract {} = .ok (.leaf { tag, value := some (String.ofList text) }, n) := by
  obtain ⟨p, hread, hp⟩ : ∃ p, Pattern.read (Pattern.excluding delimiter escape) = .ok p ∧
      AcceptsOthers delimiter escape p := ⟨_, Pattern.read_excluding delimiter escape, rfl⟩
  have hg : (grammar delimiter escape p tag).Closed := closed_grammar
  refine ⟨_, _, _, run_quotedString hread, finish_expressions, fun s => ⟨?_, ?_⟩,
    quoted_injective, fun text => HasTree.leaf ?_⟩
  · rintro ⟨f, hf⟩
    obtain ⟨out, hout⟩ := (exists_parse_iff_yields hg true).mp ⟨f, hf⟩
    obtain ⟨text, hs, -⟩ := (yields_iff hp).mp hout
    exact ⟨text, characters_injective hs⟩
  · rintro ⟨text, rfl⟩
    exact (exists_parse_iff_yields hg true).mpr ⟨_, (yields_iff hp).mpr ⟨text, rfl, rfl⟩⟩
  · have htree : PlainTree.single (PlainTree.labelled true tag [PlainTree.value
        (String.ofList text)]) = .leaf { tag, value := some (String.ofList text) } := by
      cases tag <;> rfl
    -- a delimiter that is its own escape makes many derivations, and all have this output
    have hout : ∀ {out}, Yields (grammar delimiter escape p tag) true 10
          (characters (quoted delimiter escape text)) out →
        out = PlainTree.labelled true tag [PlainTree.value (String.ofList text)] := by
      intro out hout
      obtain ⟨text', htext, rfl⟩ := (yields_iff hp).mp hout
      rw [quoted_injective (characters_injective htext)]
    rw [hasTree_iff hg fun h h' => (hout h).trans (hout h').symm]
    exact ⟨_, (yields_iff hp).mpr ⟨text, rfl, rfl⟩, htree.symm⟩

end Forest

end GeneralParsing
