import GeneralParsing.Proofs.Dialect.SelfHosting
import GeneralParsing.Proofs.Parsing.Rejection

/-!
# Where grammar text goes wrong

A text that the dialect does not accept is refused at a line and a column. The place is the first
character of the trimmed text with which no accepted text goes on, or the end of the text if more
would be needed (`Dialect.Offends`), and it is counted in the text as it was given, with its leading
blanks (`Dialect.parse_error_exact`).

That the parser stops there, and not before, rests on the dialect being productive: each of its
expressions derives something (`Dialect.productive_written`).
-/

namespace GeneralParsing

namespace Dialect

open GeneralParsing.Derivation Forest

variable {t before after more source : List Char} {id : ExprId}

/-! ### The dialect is productive -/

/-- Expressions that derive something, or whose children come before them, **all derive
something**. -/
theorem derives_of_children_lt {n : Nat} (hn : n ≤ written.exprs.size)
    (hc : ∀ id < n, (∃ v, written.Derives id v) ∨
      ∀ e, written.expr? id = some e → ∀ child ∈ e.children, child < id) :
    ∀ id < n, ∃ v, written.Derives id v := by
  have hfits : ∀ e ∈ expressions.toList, e.fits ["a", " ", "0"] = true := by decide +kernel
  intro id
  induction id using Nat.strong_induction_on with
  | _ id ih =>
    intro hid
    rcases hc id hid with hderives | hback
    · exact hderives
    · have hlt : id < written.exprs.size := Nat.lt_of_lt_of_le hid hn
      have he : written.expr? id = some written.exprs[id] := Array.getElem?_eq_getElem hlt
      refine Grammar.exists_derives_of_fits he
        (hfits _ (Array.mem_toList_iff.mpr (Array.getElem_mem hlt))) fun child hchild => ?_
      have hlt' := hback _ he child hchild
      exact ih child hlt' (Nat.lt_trans hlt' hid)

/-- **Every expression of the dialect derives something.** Only phrases refer to what comes after
them, and a symbol is a phrase. -/
theorem productive_written : written.Productive := by
  have hback : ∀ id < written.size, id ≠ Part.phrase → ∀ e, written.expr? id = some e →
      ∀ child ∈ e.children, child < id := by
    decide +kernel
  have hparts : ∀ id < Part.phrase, ∃ v, written.Derives id v :=
    derives_of_children_lt (by decide) fun id hid =>
      .inr (hback id (Nat.lt_trans hid (by decide)) (Nat.ne_of_lt hid))
  obtain ⟨v, hsymbol⟩ := hparts Part.symbol (by decide)
  have hatom : written.Derives Part.atom v := .choice rfl List.mem_cons_self hsymbol
  have hphrase : written.Derives Part.phrase v := .choice rfl List.mem_cons_self hatom
  have hall : ∀ id < written.size, ∃ v, written.Derives id v :=
    derives_of_children_lt (Nat.le_refl _) fun id hid => by
      by_cases hid' : id = Part.phrase
      · exact .inl ⟨v, hid' ▸ hphrase⟩
      · exact .inr (hback id hid hid')
  exact fun id hid => hall id (hid.lt_size closed_written written.start_lt)

/-! ### Accepted texts -/

/-- A text that **the dialect accepts**. -/
def Accepts [PatternReader] (t : List Char) : Prop :=
  ∃ g, grammar = .ok g ∧ g.Derives g.start (characters t)

/-- Characters with which **an accepted text begins**. -/
def StartsText [PatternReader] (t : List Char) : Prop := ∃ more, Accepts (t ++ more)

/-- **The place where a text goes wrong**: an accepted text begins with what is before it, none goes
on with the character there, and if there is none an accepted text goes on with others. -/
structure Offends [PatternReader] (t before after : List Char) : Prop where
  split : t = before ++ after
  starts : StartsText before
  stuck : ∀ c rest, after = c :: rest → ¬ StartsText (before ++ [c])
  ended : after = [] → ∃ more, more ≠ [] ∧ Accepts (before ++ more)

theorem StartsText.of_shorter [PatternReader] (h : StartsText after) (hbegins : before <+: after) :
    StartsText before := by
  obtain ⟨rest, rfl⟩ := hbegins
  obtain ⟨more, haccepts⟩ := h
  exact ⟨rest ++ more, by rwa [← List.append_assoc]⟩

/-- A text goes wrong **at one place only**. The text before it can be completed, and with the next
character it cannot. -/
theorem Offends.unique [PatternReader] {before' after' : List Char} (h : Offends t before after)
    (h' : Offends t before' after') : before = before' := by
  have hle : ∀ {u v u' v' : List Char}, Offends t u v → Offends t u' v' →
      u'.length ≤ u.length := by
    intro u v u' v' h h'
    by_contra hlt
    cases v with
    | nil =>
      have hlength := congrArg List.length (h.split.symm.trans h'.split)
      rw [List.append_nil, List.length_append] at hlength
      omega
    | cons c rest =>
      -- the longer place would be one with which an accepted text begins
      have hbegins : u ++ [c] <+: t := ⟨rest, by rw [h.split, List.append_assoc]; rfl⟩
      have hbegins' : u' <+: t := ⟨v', h'.split.symm⟩
      have hlength : (u ++ [c]).length ≤ u'.length := by
        rw [List.length_append, List.length_singleton]
        omega
      exact h.stuck c rest rfl
        (h'.starts.of_shorter (List.prefix_of_prefix_length_le hbegins hbegins' hlength))
  exact List.IsPrefix.eq_of_length (List.prefix_of_prefix_length_le ⟨after, h.split.symm⟩
    ⟨after', h'.split.symm⟩ (hle h' h)) (Nat.le_antisymm (hle h' h) (hle h h'))

theorem accepts_iff [KnownPatterns] :
    Accepts t ↔ ∃ f, Forest.parse written (characters t) = .ok f := by
  constructor
  · rintro ⟨g, hg, hderives⟩
    rw [grammar_eq] at hg
    cases hg
    exact exists_parse_of_derives closed_written hderives
  · rintro ⟨f, hf⟩
    exact ⟨written, grammar_eq, derives_of_parse closed_written hf⟩

/-- The **tokens** of the dialect. -/
def tokens : List String :=
  ["\x7b", "\x7d", ",", "<", ">", "(", ")", "[", "]", "\\", "\"", "#", "\n", "*", "+", "?", "|",
    ":", "=", ";"]

/-- The dialect has **no other tokens** than these. -/
theorem mem_tokens {text : String} (h : Expr.token text ∈ expressions.toList) : text ∈ tokens := by
  simpa [expressions, tokens] using h

/-- All symbols of the dialect **are characters**. -/
theorem exists_singleton_of_accepts {e : Expr} {symbol : String} (he : e ∈ expressions.toList)
    (ha : e.accepts symbol = true) : ∃ c, symbol = String.singleton c := by
  have htokens : ∀ text ∈ tokens, single (fun _ => true) text = true := by decide +kernel
  have hsingle : ∀ {ofClass}, single ofClass symbol = true → ∃ c, symbol = String.singleton c :=
    fun h => (single_eq_true_iff.mp h).imp fun _ hc => hc.1
  cases e with
  | token text =>
    obtain rfl : text = symbol := by simpa [Expr.accepts] using ha
    exact hsingle (htokens _ (mem_tokens he))
  | pattern p =>
    have ha : p.accepts symbol = true := ha
    have hp := mem_patterns he
    simp only [patterns, List.mem_cons, List.not_mem_nil, or_false] at hp
    rcases hp with rfl | rfl | rfl | rfl
    · exact hsingle (accepts_namePattern ▸ ha)
    · exact hsingle (accepts_plainPattern ▸ ha)
    · exact hsingle (accepts_blankPattern ▸ ha)
    · exact hsingle (accepts_digitPattern ▸ ha)
  | seq | alt | rep | omitted | lexical => cases ha

/-- What the dialect derives **is a text**. So one need not think of symbols that are not
characters. -/
theorem exists_characters_of_valid {d : Derivation} (hd : d.Valid written) :
    ∃ t, d.yield = characters t := by
  have hmem : ∀ {id e}, written.expr? id = some e → e ∈ expressions.toList :=
    fun he => Array.mem_toList_iff.mpr (Array.mem_of_getElem? he)
  have hjoin : ∀ parts : List Derivation, (∀ x ∈ parts, ∃ t, x.yield = characters t) →
      ∃ t, parts.flatMap yield = characters t := by
    intro parts
    induction parts with
    | nil => exact fun _ => ⟨[], rfl⟩
    | cons x parts ih =>
      intro h
      obtain ⟨⟨t, ht⟩, hparts⟩ := List.forall_mem_cons.mp h
      obtain ⟨u, hu⟩ := ih hparts
      exact ⟨t ++ u, by rw [List.flatMap_cons, ht, hu, characters_append]⟩
  induction hd with
  | symbol he ha =>
    obtain ⟨c, hc⟩ := exists_singleton_of_accepts (hmem he) ha
    exact ⟨[c], by rw [yield, hc]; rfl⟩
  | sequence he hparts ih | repetition he hroots hmin hmax hparts ih =>
    rw [yield_sequence]
    exact hjoin _ ih
  | choice he hc hpart ih | omitted he hpart ih | lexical he hpart ih => exact ih

/-- What an accepted text goes on with **is a text**. -/
theorem exists_characters_of_parse {v rest : List String} {f : Forest}
    (hf : Forest.parse written (v ++ rest) = .ok f) : ∃ more, rest = characters more := by
  obtain ⟨d, hd, -, hyield⟩ := (derives_of_parse closed_written hf).exists_valid
  obtain ⟨t, ht⟩ := exists_characters_of_valid hd
  obtain ⟨-, more, -, -, hmore⟩ := List.map_eq_append_iff.mp (ht.symm.trans hyield)
  exact ⟨more, hmore.symm⟩

/-- An accepted text begins with a text **just if it can be completed**. Being completed by symbols
and by characters is the same here. -/
theorem startsText_iff [KnownPatterns] : StartsText t ↔ written.Viable (characters t) := by
  constructor
  · rintro ⟨more, haccepts⟩
    obtain ⟨f, hf⟩ := accepts_iff.mp haccepts
    rw [characters_append] at hf
    exact ⟨characters more, f, hf⟩
  · rintro ⟨rest, f, hf⟩
    obtain ⟨more, rfl⟩ := exists_characters_of_parse hf
    rw [← characters_append] at hf
    exact ⟨more, accepts_iff.mpr ⟨f, hf⟩⟩

/-! ### Lines and columns -/

/-- A place is on the line **after as many as there are ends of lines** before it, and in the column
after as many as there are characters since the last one. -/
theorem location_eq (before : List Char) : location before =
    (1 + before.count '\n', 1 + (before.rtakeWhile (· ≠ '\n')).length) := by
  induction before using List.reverseRecOn with
  | nil => rfl
  | append_singleton before c ih =>
    rw [location] at ih ⊢
    rw [List.foldl_append, ih, List.foldl_cons, List.foldl_nil]
    by_cases hc : c = '\n'
    · subst hc
      simp [List.rtakeWhile_concat_neg, Nat.add_assoc]
    · simp [hc, List.rtakeWhile_concat_pos, Nat.add_assoc]

/-! ### Errors -/

theorem characters_take (t : List Char) (n : Nat) :
    characters (t.take n) = (characters t).take n := List.map_take

/-- **A text that is refused** at a position goes wrong there. It is the machine's position, which
is the greatest that any accepted text shares. -/
theorem offends_of_rejected [KnownPatterns] {p : Nat}
    (h : Forest.parse written (characters t) = .error (.rejected p)) :
    p ≤ t.length ∧ Offends t (t.take p) (t.drop p) := by
  have hlength : (characters t).length = t.length := List.length_map _
  obtain ⟨hle, rest, f, hf, hrest⟩ := exists_parse_of_rejected closed_written productive_written h
  rw [hlength] at hle hrest
  refine ⟨hle, (List.take_append_drop p t).symm, ?_, fun c rest' hdrop hstarts => ?_,
    fun hdrop => ?_⟩
  · rw [startsText_iff, characters_take]
    exact ⟨rest, f, hf⟩
  · have hlt : p < t.length := by
      by_contra hlast
      rw [List.drop_eq_nil_of_le (Nat.le_of_not_lt hlast)] at hdrop
      cases hdrop
    have htake : t.take p ++ [c] = t.take (p + 1) := by
      have hc : t[p] = c := by
        have hhead := List.drop_eq_getElem_cons hlt
        exact (List.cons.inj (hhead.symm.trans hdrop)).1
      rw [← hc, List.take_append_getElem hlt]
    rw [htake, startsText_iff, characters_take] at hstarts
    exact not_viable_of_rejected closed_written h (Nat.lt_succ_self p) (hlength ▸ hlt) hstarts
  · have heq : p = t.length := Nat.le_antisymm hle (List.drop_eq_nil_iff.mp hdrop)
    obtain ⟨more, rfl⟩ := exists_characters_of_parse hf
    refine ⟨more, fun hnil => hrest heq (by rw [hnil]; rfl), accepts_iff.mpr ⟨f, ?_⟩⟩
    rw [characters_append, characters_take]
    exact hf

/-- Before a place in the trimmed text there are, in the text as it was given, **the leading blanks
as well**. -/
theorem take_untrimmed {p : Nat} (hp : p ≤ (Text.trim source).length) :
    source.take (source.length - (Text.trimStart source).length + p) =
      source.takeWhile isBlank ++ (Text.trim source).take p := by
  have hsplit : source.takeWhile isBlank ++ Text.trimStart source = source :=
    List.takeWhile_append_dropWhile
  obtain ⟨v, -, htrim⟩ := exists_blanks_of_trimEnd (Text.trimStart source)
  have hlead : source.length - (Text.trimStart source).length =
      (source.takeWhile isBlank).length := by
    have hlength := congrArg List.length hsplit
    rw [List.length_append] at hlength
    omega
  calc source.take (source.length - (Text.trimStart source).length + p)
      = (source.takeWhile isBlank ++ Text.trimStart source).take
          ((source.takeWhile isBlank).length + p) := by rw [hlead, hsplit]
    _ = source.takeWhile isBlank ++ (Text.trimStart source).take p := List.take_length_add_append p
    _ = source.takeWhile isBlank ++ (Text.trim source).take p := by
        rw [htrim, ← Text.trim, List.take_append_of_le_length hp]

/-- **Syntax errors are located exactly.** Parsing a text fails if and only if the dialect does not
accept it trimmed. The error then tells where the trimmed text goes wrong, as the line and the
column of that place in the text as it was given. -/
theorem parse_error_exact [KnownPatterns] (source : List Char) :
    ((∃ e, parse source = .error e) ↔ ¬ Accepts (Text.trim source)) ∧
    ∀ e, parse source = .error e → ∃ before after, Offends (Text.trim source) before after ∧
      source.takeWhile isBlank ++ before <+: source ∧
      e = .grammarSyntax (1 + (source.takeWhile isBlank ++ before).count '\n')
        (1 + ((source.takeWhile isBlank ++ before).rtakeWhile (· ≠ '\n')).length) := by
  rw [parse_eq, accepts_iff]
  rcases parse_cases closed_written (characters (Text.trim source)) with ⟨f, hf⟩ | ⟨p, hp⟩
  · obtain ⟨t, n, -, ht, -⟩ := exists_hasTree_of_parse closed_written hf
    rw [hf]
    simp [ht]
  · obtain ⟨hle, hoffends⟩ := offends_of_rejected hp
    rw [hp]
    refine ⟨by simp, fun e he => ⟨_, _, hoffends, ?_, ?_⟩⟩
    · rw [← take_untrimmed hle]
      exact List.take_prefix _ _
    · rw [← Except.error.inj he, refuse, take_untrimmed hle, location_eq]

end Dialect

end GeneralParsing
