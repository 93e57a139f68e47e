import GeneralParsing.Proofs.Dialect.Edges
import GeneralParsing.Proofs.Dialect.Phrases
import GeneralParsing.Proofs.Parsing.WordTree
import GeneralParsing.Proofs.Pattern.CommonKnown

/-!
# The dialect is unambiguous

A rule is sharp where its phrase ends, and rules are sharp where nothing but blanks and semicolons
is left. Hence all derivations of a text are alike (`clear_written`), and every policy extracts one
and the same tree, no part of which is packed (`extract_unpacked`).
-/

namespace GeneralParsing.Dialect

open GeneralParsing.Derivation

variable {s : String} {w u rest : List String} {d : Derivation} {ds : List Derivation} {n k : Nat}
variable {ok : List String → Prop}

/-! ### Rules -/

theorem sharp_ruleName (n : Nat) : Sharp written n Part.ruleName EndsAtom := by
  have hhidden : Sharp written n Part.hiddenSymbol EndsAtom := by
    have hclose : Starts written Part.closeAngle (· = ">") := starts_omitted rfl (starts_token rfl)
    refine sharp_seq rfl (.cons_token (.cons (sharp_name n)
      (sharpAll_singleton (sharp_omitted_token rfl rfl)) fun w ds rest hds => ?_) rfl rfl)
    obtain ⟨d, ds, w', rfl, hd, -⟩ := hds.exists_cons
    obtain ⟨s, t, rfl, rfl⟩ := hd.starts hclose
    exact fun s hs => Option.some.inj hs ▸ by decide
  refine sharp_alt_of_apart rfl ?_ ?_
  · simp only [List.forall_mem_cons]
    exact ⟨sharp_symbol n, hhidden, by simp⟩
  · have hapart : Apart written n EndsAtom Part.symbol Part.hiddenSymbol := by
      intro w d d' rest rest' hn hd hd'
      obtain ⟨s, t, rfl, hs⟩ := hd.starts starts_symbol
      obtain ⟨s', t', ht, rfl⟩ := hd'.starts starts_hiddenSymbol
      obtain ⟨rfl, -⟩ := List.cons.inj ht
      exact absurd hs (by decide)
    simpa using hapart

theorem not_blank_of_definition (hs : s = ":" ∨ s = "=") : ¬ Blank s := by
  rcases hs with rfl | rfl <;> decide

theorem sharp_rule (n : Nat) : Sharp written n Part.rule EndsPhrase := by
  have hspace : ∀ {ids ok}, SharpAll written n ids ok →
      -- optional space is sharp before anything that does not begin with a blank
      (∀ w ds rest, BeginsAll written ids ok w ds rest → ∀ s ∈ w.head?, ¬ Blank s) →
      SharpAll written n (Part.optionalSpace :: ids) ok :=
    fun hids hnext => .cons (sharp_optionalSpace n) hids hnext
  have hphrase : SharpAll written n [Part.optionalSpace, Part.phrase] EndsPhrase := by
    refine hspace (sharpAll_singleton (sharp_phrase n)) fun w ds rest hds => ?_
    obtain ⟨d, ds, w', rfl, hd, -⟩ := hds.exists_cons
    obtain ⟨s, t, rfl, hs⟩ := hd.starts starts_phrase
    exact fun s' hs' => Option.some.inj hs' ▸ fun hblank => hblank.not_startsAtom hs
  have hdefined : Sharp written n Part.definedAs
      fun rest => ∀ s ∈ rest.head?, ¬ (s = ":" ∨ s = "=") :=
    sharp_omitted rfl madeOf_definition fun _ h => h
  refine sharp_seq rfl (.cons (sharp_ruleName n) (hspace (.cons hdefined hphrase ?_) ?_) ?_)
  · -- behind the sign of a definition there stands a blank or the beginning of a phrase
    intro w ds rest hds
    obtain ⟨d, ds, w', rfl, hd, hds⟩ := hds.exists_cons
    obtain ⟨d', ds, w'', rfl, hd', -⟩ := hds.exists_cons
    obtain ⟨s, t, rfl, hs⟩ := hd'.starts starts_phrase
    refine head_of_optionalSpace hd (fun _ hblank hdef => not_blank_of_definition hdef hblank)
      fun s' hs' hdef => ?_
    have hnot := not_definition_of_startsAtom hs
    rw [← Option.some.inj hs'] at hdef
    exact hdef.elim hnot.1 hnot.2
  · intro w ds rest hds s hs
    obtain ⟨d, ds, w', rfl, hd, -⟩ := hds.exists_cons
    obtain ⟨s', t, rfl, hs'⟩ := hd.starts starts_definedAs
    exact Option.some.inj hs ▸ not_blank_of_definition hs'
  · -- behind the name of a rule there stands a blank or the sign of a definition
    intro w ds rest hds
    obtain ⟨d, ds, w', rfl, hd, hds⟩ := hds.exists_cons
    obtain ⟨d', ds, w'', rfl, hd', -⟩ := hds.exists_cons
    obtain ⟨s, t, rfl, hs⟩ := hd'.starts starts_definedAs
    refine head_of_optionalSpace hd (fun _ hblank => hblank.not_ofNames) fun s' hs' => ?_
    rw [← Option.some.inj hs']
    rcases hs with rfl | rfl <;> decide

/-- No blanks where **they are optional**. -/
def noSpace : Derivation := .omitted Part.optionalSpace (.sequence Part.spaces [])

theorem valid_noSpace : noSpace.Valid written :=
  .omitted rfl (.repetition rfl (by simp) (Nat.zero_le 0) (by simp) (by simp))

/-- The name of a hidden rule reads as **an atom** too, a symbol that leaves no trace. Only the sign
behind it tells that a rule begins there. -/
theorem exists_atom_of_ruleName (h : d.Valid written) (hroot : d.root = Part.ruleName) :
    ∃ a : Derivation, a.Valid written ∧ a.root = Part.atom ∧ a.yield = d.yield := by
  obtain ⟨part, rfl, hc, hpart⟩ := h.of_alt hroot rfl
  simp only [List.mem_cons, List.not_mem_nil, or_false] at hc
  rcases hc with hc | hc
  · exact ⟨.choice Part.atom part, .choice rfl (by rw [hc]; decide) hpart, rfl, rfl⟩
  · obtain ⟨parts, rfl, hroots, hparts⟩ := hpart.of_seq hc rfl
    obtain ⟨o, _, rfl, ho, hroots⟩ := List.map_eq_cons_iff.mp hroots
    obtain ⟨m, _, rfl, hm, hroots⟩ := List.map_eq_cons_iff.mp hroots
    obtain ⟨z, _, rfl, hz, hroots⟩ := List.map_eq_cons_iff.mp hroots
    obtain rfl := List.map_eq_nil_iff.mp hroots
    simp only [List.forall_mem_cons] at hparts
    have hsymbol : (Derivation.sequence Part.symbol [m]).Valid written :=
      .sequence (by rw [List.map_singleton, hm]; rfl) (by simpa using hparts.2.1)
    have hatom : (Derivation.choice Part.atom (.sequence Part.symbol [m])).Valid written :=
      .choice rfl (by simp [Derivation.root]) hsymbol
    let phrase := Derivation.choice Part.phrase (.choice Part.atom (.sequence Part.symbol [m]))
    have hphrase : phrase.Valid written := .choice rfl (by simp [Derivation.root]) hatom
    have he : written.expr? Part.omittedPhrase =
        some (.seq (some "omittedSymbol") ([o, noSpace, phrase, noSpace, z].map root)) := by
      simp only [List.map_cons, List.map_nil, ho, hz]
      rfl
    refine ⟨.choice Part.atom (.sequence Part.omittedPhrase [o, noSpace, phrase, noSpace, z]),
      .choice rfl (by simp [Derivation.root]) (.sequence he ?_), rfl, ?_⟩
    · simp only [List.forall_mem_cons]
      exact ⟨hparts.1, valid_noSpace, hphrase, valid_noSpace, hparts.2.2.1, by simp⟩
    · simp [phrase, Derivation.yield, Derivation.yieldAll, noSpace]

/-- A rule begins with its **name and a definition sign**. -/
theorem beginsRule_of_rule (h : Begins written Part.rule ok w d rest) : BeginsRule w := by
  obtain ⟨parts, rfl, hparts⟩ := h.of_seq rfl
  obtain ⟨dn, ds, w₁, rfl, hn, hds⟩ := hparts.exists_cons
  obtain ⟨du, ds, w₂, rfl, hu, hds⟩ := hds.exists_cons
  obtain ⟨dd, ds, w₃, rfl, hd, -⟩ := hds.exists_cons
  obtain ⟨s, t, rfl, hs⟩ := hd.starts starts_definedAs
  obtain ⟨a, ha, hroot, hyield⟩ := exists_atom_of_ruleName hn.valid hn.root
  exact ⟨a, du.yield, s, t, ha, hroot, madeOf_optionalSpace du hu.valid hu.root, hs,
    by rw [hyield, hu.word, hn.word]⟩

/-! ### Texts -/

/-- What may stand **after the rules**: blanks and semicolons. -/
def EndsRules (rest : List String) : Prop := ∀ s ∈ rest, Blank s ∨ s = ";"

theorem EndsRules.phrase (h : EndsRules rest) : EndsPhrase rest where
  head s hs := by
    rcases h s (List.mem_of_mem_head? hs) with hblank | rfl
    · exact .inl hblank
    · exact .inr (by decide)
  after := by
    cases hskip : skipBlanks rest with
    | nil => exact .inl rfl
    | cons s t =>
      have hmem : s ∈ rest := (List.dropWhile_sublist _).subset (hskip ▸ List.mem_cons_self)
      have hnot : ¬ Blank s := by
        have hhead := List.head?_dropWhile_not (single isBlank) rest
        have hcons : rest.dropWhile (single isBlank) = s :: t := hskip
        rw [hcons] at hhead
        exact fun hblank => Bool.false_ne_true (hhead.symm.trans hblank)
      rcases h s hmem with hblank | rfl
      · exact absurd hblank hnot
      · exact .inr (.inl ⟨";", t, rfl, by decide⟩)

/-- Between rules there is **a newline or a semicolon**, with blanks around it. -/
theorem exists_mark_of_separator (h : Begins written Part.separator ok w d rest) :
    ∃ u s v, w = u ++ s :: (v ++ rest) ∧ (∀ x ∈ u, Blank x) ∧ (s = "\n" ∨ s = ";") ∧
      ∀ x ∈ v, Blank x := by
  obtain ⟨part, rfl, hroot, hpart⟩ := h.valid.of_omitted h.root rfl
  obtain ⟨parts, rfl, hroots, hparts⟩ := hpart.of_seq hroot rfl
  obtain ⟨du, _, rfl, hu, hroots⟩ := List.map_eq_cons_iff.mp hroots
  obtain ⟨dm, _, rfl, hm, hroots⟩ := List.map_eq_cons_iff.mp hroots
  obtain ⟨dv, _, rfl, hv, hroots⟩ := List.map_eq_cons_iff.mp hroots
  obtain rfl := List.map_eq_nil_iff.mp hroots
  simp only [List.forall_mem_cons] at hparts
  obtain ⟨hvalid, hmvalid, hvvalid, -⟩ := hparts
  obtain ⟨mark, rfl, hc, hmark⟩ := hmvalid.of_alt hm rfl
  have hyield : ∃ s, mark.yield = [s] ∧ (s = "\n" ∨ s = ";") := by
    simp only [List.mem_cons, List.not_mem_nil, or_false] at hc
    rcases hc with hc | hc
    · exact ⟨"\n", by rw [hmark.of_token hc rfl]; rfl, .inl rfl⟩
    · exact ⟨";", by rw [hmark.of_token hc rfl]; rfl, .inr rfl⟩
  obtain ⟨s, hs, hmem⟩ := hyield
  refine ⟨du.yield, s, dv.yield, ?_, madeOf_optionalSpace du hvalid hu, hmem,
    madeOf_optionalSpace dv hvvalid hv⟩
  rw [← h.word]
  simp [Derivation.yield, Derivation.yieldAll, hs]

theorem endsPhrase_of_nextRules
    (h : BeginsAll written (List.replicate k Part.nextRule) EndsRules w ds rest) :
    EndsPhrase w := by
  cases k with
  | zero =>
    obtain ⟨-, rfl⟩ := h.eq_nil
    exact h.follows.phrase
  | succ k =>
    obtain ⟨d, ds, w', rfl, hd, -⟩ := h.exists_cons
    obtain ⟨parts, rfl, hparts⟩ := hd.of_seq rfl
    obtain ⟨db, ds, w₁, rfl, hb, hds⟩ := hparts.exists_cons
    obtain ⟨dr, ds, w₂, rfl, hr, -⟩ := hds.exists_cons
    obtain ⟨u, s, v, rfl, hu, hs, hv⟩ := exists_mark_of_separator hb
    have hclose : Blank s ∨ Closes s := by
      rcases hs with rfl | rfl <;> decide
    refine ⟨?_, ?_⟩
    · cases u with
      | nil => exact fun s' hs' => Option.some.inj hs' ▸ hclose
      | cons s₁ u => exact fun s' hs' => Option.some.inj hs' ▸ .inl (hu s₁ List.mem_cons_self)
    · rw [skipBlanks_append hu]
      rcases hs with rfl | rfl
      · -- a newline is a blank, so the rule comes after blanks
        obtain ⟨s', t, rfl, hs'⟩ := hr.starts starts_rule
        have hnot : ¬ Blank s' := by
          rcases hs' with hname | rfl
          · exact fun hblank => hblank.not_ofNames hname
          · decide
        have hblank : ∀ x ∈ "\n" :: v, Blank x := List.forall_mem_cons.mpr ⟨by decide, hv⟩
        rw [← List.cons_append, skipBlanks_append hblank, skipBlanks_cons hnot]
        exact .inr (.inr (beginsRule_of_rule hr))
      · rw [skipBlanks_cons (by decide)]
        exact .inr (.inl ⟨";", _, rfl, by decide⟩)

/-- Where another rule follows **something is left** besides blanks and semicolons. A rule begins
with its name, which is neither. -/
theorem not_endsRules_of_nextRules
    (h : BeginsAll written (List.replicate (k + 1) Part.nextRule) ok w ds rest) :
    ¬ EndsRules w := by
  obtain ⟨d, ds, w', rfl, hd, -⟩ := h.exists_cons
  obtain ⟨parts, rfl, hparts⟩ := hd.of_seq rfl
  obtain ⟨db, ds, w₁, rfl, hb, hds⟩ := hparts.exists_cons
  obtain ⟨dr, ds, w₂, rfl, hr, -⟩ := hds.exists_cons
  obtain ⟨s, t, rfl, hs⟩ := hr.starts starts_rule
  intro hend
  rcases hend s (by simp [← hb.word]) with hblank | rfl
  · rcases hs with hname | rfl
    · exact hblank.not_ofNames hname
    · exact absurd hblank (by decide)
  · exact absurd hs (by decide)

theorem sharp_rules (n : Nat) : Sharp written n Part.rules EndsRules := by
  have hseparator : Sharp written n Part.separator
      fun rest => ∀ s ∈ rest.head?, ¬ (Blank s ∨ s = ";") :=
    sharp_omitted rfl madeOf_spacedSeparator fun _ h => h
  have hnext : Sharp written n Part.nextRule EndsPhrase := by
    refine sharp_seq rfl
      (.cons hseparator (sharpAll_singleton (sharp_rule n)) fun w ds rest hds => ?_)
    obtain ⟨d, ds, w', rfl, hd, -⟩ := hds.exists_cons
    obtain ⟨s, t, rfl, hs⟩ := hd.starts starts_rule
    rintro s' hs' hnot
    rw [← Option.some.inj hs'] at hnot
    rcases hs with hname | rfl
    · rcases hnot with hblank | rfl
      · exact hblank.not_ofNames hname
      · exact absurd hname (by decide)
    · exact absurd hnot (by decide)
  refine sharp_seq rfl (.cons (sharp_rule n) (sharpAll_singleton (sharp_rep rfl hnext
    (fun _ _ _ _ => endsPhrase_of_nextRules)
    fun _ _ _ _ _ => not_endsRules_of_nextRules)) fun w ds rest hds => ?_)
  obtain ⟨d, ds, w', rfl, hd, hnil⟩ := hds.exists_cons
  obtain ⟨-, rfl⟩ := hnil.eq_nil
  obtain ⟨parts, rfl, -, hparts⟩ := (hd.mono hnil.follows).of_rep rfl
  exact endsPhrase_of_nextRules hparts

/-- Texts are sharp **where they end**. From there the other expressions follow, by what may stand
behind each of them. -/
theorem sharp_text (n : Nat) : Sharp written n Part.text (· = []) := by
  have htrailing : Sharp written n Part.trailing (· = []) :=
    sharp_omitted rfl madeOf_lastSemicolon fun rest hrest => by simp [hrest]
  have hmade : ∀ {w d rest}, Begins written Part.trailing (· = rest) w d rest → rest = [] →
      ∀ s ∈ w, s = ";" := by
    rintro w d _ h rfl s hs
    rw [← h.word, List.append_nil] at hs
    exact madeOf_omitted rfl madeOf_lastSemicolon d h.valid h.root s hs
  refine sharp_seq rfl (.cons (sharp_rules n) (.cons (sharp_optionalSpace n)
    (sharpAll_singleton htrailing) fun w ds rest hds => ?_) fun w ds rest hds => ?_)
  · obtain ⟨d, ds, w', rfl, hd, hnil⟩ := hds.exists_cons
    obtain ⟨-, rfl⟩ := hnil.eq_nil
    intro s hs
    rw [hmade hd hnil.follows s (List.mem_of_mem_head? hs)]
    decide
  · obtain ⟨d, ds, w', rfl, hd, hds⟩ := hds.exists_cons
    obtain ⟨d', ds, w'', rfl, hd', hnil⟩ := hds.exists_cons
    obtain ⟨-, rfl⟩ := hnil.eq_nil
    intro s hs
    rw [← hd.word] at hs
    rcases List.mem_append.mp hs with hs | hs
    · exact .inl (madeOf_optionalSpace d hd.valid hd.root s hs)
    · exact .inr (hmade hd' hnil.follows s hs)

/-- **All derivations of a text are alike.** Ambiguity is therefore not found in any text, whatever
policy it is parsed with. -/
theorem clear_written (w : List String) : written.Clear written.start w :=
  (sharp_text w.length).clear

/-- A text that has a derivation **is accepted**. -/
theorem exists_parse_of_yields {collapse : Bool} {out : List PlainTree}
    (h : Derivation.Yields written collapse Part.text w out) :
    ∃ f, Forest.parse written w = .ok f :=
  (Forest.exists_parse_iff_yields closed_written collapse).mpr ⟨out, h⟩

/-- **The dialect is unambiguous**: of a text that its grammar accepts, every policy extracts the
same tree, and nothing in the packed tree is packed. -/
theorem extract_unpacked [KnownPatterns] {g : Grammar} {text : List Char} {f : Forest}
    (hg : grammar = .ok g)
    (hf : Forest.parse g (Forest.characters text) = .ok f) (o : ParseOptions) :
    ∃ p n, f.extract { o with ambiguity := .packed } = .ok (p, n) ∧ p.Unpacked ∧
      ∀ policy, ∃ t m, f.extract { o with ambiguity := policy } = .ok (t, m) ∧
        t.plain = p.plain := by
  rw [grammar_eq] at hg
  cases hg
  obtain ⟨t, ht, hall⟩ := Forest.exists_extract_of_clear closed_written hf (clear_written _) o
  obtain ⟨p, n, hext, rfl⟩ := hall .packed
  exact ⟨p, n, hext, Tree.unpacked_of_plain ht, hall⟩

open scoped Common in
theorem extract_sumText_unpacked : grammar = .ok written ∧
    ∃ f, Forest.parse written (Forest.characters (Text.trim sumText)) = .ok f ∧
      ∃ p n, f.extract { ambiguity := .packed } = .ok (p, n) ∧ p.Unpacked ∧
        ∀ policy, ∃ t m, f.extract { ambiguity := policy } = .ok (t, m) ∧ t.plain = p.plain := by
  obtain ⟨tree, hyields, -⟩ := exists_yields_of_writes writes_sumText
  obtain ⟨f, hf⟩ := exists_parse_of_yields hyields
  exact ⟨grammar_eq, f, hf, extract_unpacked grammar_eq hf {}⟩

end GeneralParsing.Dialect
