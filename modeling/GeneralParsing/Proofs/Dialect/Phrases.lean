import GeneralParsing.Proofs.Dialect.Words

/-!
# Phrases are sharp

What may stand after an atom, an item, a branch and a phrase, each a weaker condition than the
next, and the proof that these expressions are sharp before it (`sharp_phrase`). The proof is by
induction on the length of the word, because phrases stand between brackets inside of atoms.

An item ends before a gap unless another item of the same sequence comes after the gap. What looks
like one may also be the name of the next rule, and it is one if a definition sign follows
(`BeginsRule`).
-/

namespace GeneralParsing.Dialect

open GeneralParsing.Derivation

variable {s mark : String} {w u v t rest : List String} {d : Derivation} {n k : Nat} {id c : ExprId}
variable {ok : List String → Prop}

/-! ### What may follow -/

/-- What may stand **after an atom**: anything but a character of names. -/
def EndsAtom (rest : List String) : Prop := ∀ s ∈ rest.head?, ¬ OfNames s

/-- What may stand **after an item**: no quantifier, and after blanks no definition sign. -/
structure EndsItem (rest : List String) : Prop where
  head : ∀ s ∈ rest.head?, ¬ OfNames s ∧ ¬ StartsQuantifier s
  after : ∀ s ∈ (skipBlanks rest).head?, s ≠ ":" ∧ s ≠ "="

/-- A word begins with the **name of a rule** and a definition sign. The name would be an atom. -/
def BeginsRule (w : List String) : Prop :=
  ∃ (d : Derivation) (u : List String) (s : String) (t : List String),
    d.Valid written ∧ d.root = Part.atom ∧ (∀ s ∈ u, Blank s) ∧ (s = ":" ∨ s = "=") ∧
      w = d.yield ++ (u ++ s :: t)

/-- What may stand **after a phrase**: after blanks the end, a symbol that closes the phrase, or
the next rule. A rule does not follow without a blank. -/
structure EndsPhrase (rest : List String) : Prop where
  head : ∀ s ∈ rest.head?, Blank s ∨ Closes s
  after : skipBlanks rest = [] ∨ (∃ s t, skipBlanks rest = s :: t ∧ Closes s) ∨
    BeginsRule (skipBlanks rest)

/-- What may stand **after a branch**: what may stand after a phrase, or another branch. -/
def EndsBranch (rest : List String) : Prop :=
  EndsPhrase rest ∨ ∃ t, skipBlanks rest = "|" :: t

/-- What may stand after an item may stand **after an atom**, which comes to an end earlier. -/
theorem EndsItem.atom (h : EndsItem rest) : EndsAtom rest := fun s hs => (h.head s hs).1

/-- A blank neither goes on with a name **nor begins a quantifier**. -/
theorem not_special_of_blank (h : Blank s) : ¬ OfNames s ∧ ¬ StartsQuantifier s :=
  ⟨h.not_ofNames, fun hq => hq.not_blank h⟩

/-- What closes a phrase neither goes on with a name **nor begins a quantifier**. -/
theorem not_special_of_closes (h : Closes s) : ¬ OfNames s ∧ ¬ StartsQuantifier s := by
  have hall : ∀ s ∈ [")", ">", "]", ";"], ¬ OfNames s ∧ ¬ StartsQuantifier s := by decide
  exact hall s h

/-- What begins a rule begins with **an atom**. -/
theorem BeginsRule.starts (h : BeginsRule w) : ∃ s t, w = s :: t ∧ StartsAtom s := by
  obtain ⟨d, u, s, t, hd, hroot, -, -, rfl⟩ := h
  obtain ⟨s', t', hyield, hs'⟩ := starts_atom d hd hroot
  exact ⟨s', _, by rw [hyield, List.cons_append], hs'⟩

/-- An atom does not begin like **a sign of definition**, so what follows is no rule. -/
theorem not_definition_of_startsAtom (h : StartsAtom s) : s ≠ ":" ∧ s ≠ "=" := by
  constructor
  · rintro rfl
    exact absurd h (by decide)
  · rintro rfl
    exact absurd h (by decide)

/-- What closes a phrase does not begin **a sign of definition** either. -/
theorem not_definition_of_closes (h : Closes s) : s ≠ ":" ∧ s ≠ "=" := by
  have hall : ∀ s ∈ [")", ">", "]", ";"], s ≠ ":" ∧ s ≠ "=" := by decide
  exact hall s h

/-- What may stand after a phrase may stand **after the last item** in it. -/
theorem EndsPhrase.item (h : EndsPhrase rest) : EndsItem rest where
  head s hs := (h.head s hs).elim not_special_of_blank not_special_of_closes
  after s hs := by
    rcases h.after with hnil | ⟨s', t, hcons, hclose⟩ | hrule
    · rw [hnil] at hs
      cases hs
    · rw [hcons] at hs
      cases hs
      exact not_definition_of_closes hclose
    · obtain ⟨s', t, hcons, hstart⟩ := hrule.starts
      rw [hcons] at hs
      cases hs
      exact not_definition_of_startsAtom hstart

/-- What may stand after a branch may stand **after the last item** in it. -/
theorem EndsBranch.item (h : EndsBranch rest) : EndsItem rest := by
  rcases h with h | ⟨t, ht⟩
  · exact h.item
  refine ⟨fun s hs => ?_, fun s hs => ?_⟩
  · by_cases hblank : Blank s
    · exact not_special_of_blank hblank
    · rw [skipBlanks_of_head fun s' hs' => Option.mem_unique hs hs' ▸ hblank] at ht
      rw [ht] at hs
      cases hs
      decide
  · rw [ht] at hs
    cases hs
    decide

/-! ### Names, strings and numbers -/

/-- The characters of a name are sharp **where no further one follows**: the name cannot stop
before. -/
theorem sharp_nameCharacters (n : Nat) : Sharp written n Part.nameCharacters EndsAtom := by
  have hpattern : Starts written Part.nameCharacter _ := starts_pattern rfl
  rw [accepts_namePattern] at hpattern
  have hany : Sharp written n Part.nameCharacter fun _ => True := sharp_pattern rfl
  refine sharp_rep rfl hany (fun _ _ _ _ _ => trivial) ?_
  intro k w ds rest hn hds hend
  obtain ⟨d, ds, w', rfl, hd, -⟩ := hds.exists_cons
  obtain ⟨s, t, rfl, hs⟩ := hd.starts hpattern
  exact hend s rfl hs

theorem sharp_name (n : Nat) : Sharp written n Part.name EndsAtom :=
  sharp_lexical rfl (sharp_nameCharacters n)

/-- A symbol is sharp where **no character of names** follows, as the name in it is. Otherwise the
name could be cut short. -/
theorem sharp_symbol (n : Nat) : Sharp written n Part.symbol EndsAtom :=
  sharp_seq rfl (sharpAll_singleton (sharp_name n))

/-- The pieces of a string are **told apart by their first two characters**. -/
def pickPiece : List String → ExprId
  | "\\" :: "\\" :: _ => Part.escapedEscape
  | "\\" :: _ => Part.escapedQuote
  | _ => Part.plain

/-- A plain character of a string is neither **the escape mark nor a quote**. -/
theorem single_isPlain (h : single isPlain s = true) : s ≠ "\\" ∧ s ≠ "\"" := by
  constructor
  · rintro rfl
    exact absurd h (by decide)
  · rintro rfl
    exact absurd h (by decide)

/-- No piece of a string **begins with a quote**, which is how the end of a string is found. An
escaped one begins with the escape mark. -/
theorem starts_piece : Starts written Part.piece (· ≠ "\"") := by
  have hescape : Starts written Part.escapeMark (· ≠ "\"") :=
    starts_omitted rfl ((starts_token rfl).mono fun _ hs => hs ▸ by decide)
  have hplain : Starts written Part.plain _ := starts_pattern rfl
  rw [accepts_plainPattern] at hplain
  refine starts_alt rfl ?_
  simp only [List.forall_mem_cons]
  exact ⟨hplain.mono fun _ hs => (single_isPlain hs).2, starts_seq rfl hescape,
    starts_seq rfl hescape, by simp⟩

/-- An escaped character: **the escape is left out**. -/
theorem sharp_escaped (he : written.expr? id = some (.seq none [Part.escapeMark, c]))
    (hc : written.expr? c = some (.token mark)) : Sharp written n id ok :=
  sharp_seq he ((sharpAll_singleton (sharp_token hc)).cons_token rfl rfl)

/-- An escape begins with **the escape mark and the sign** that it stands for. -/
theorem begins_escaped (he : written.expr? id = some (.seq none [Part.escapeMark, c]))
    (hc : written.expr? c = some (.token mark)) (h : Begins written id ok w d rest) :
    ∃ t, w = "\\" :: mark :: t := by
  obtain ⟨parts, rfl, hparts⟩ := h.of_seq he
  obtain ⟨d, ds, w₁, rfl, hd, hds⟩ := hparts.exists_cons
  obtain ⟨d', ds', w₂, rfl, hd', -⟩ := hds.exists_cons
  obtain ⟨s, t, rfl, rfl⟩ := hd'.starts (starts_token hc)
  exact ⟨t, hd.eq_cons_of_omitted rfl rfl⟩

/-- A piece of a string is sharp **before anything**: its first two characters say which kind it is.
-/
theorem sharp_piece (n : Nat) : Sharp written n Part.piece fun _ => True := by
  refine sharp_alt_of_pick pickPiece rfl ?_ ?_
  · simp only [List.forall_mem_cons]
    exact ⟨sharp_pattern rfl, sharp_escaped rfl rfl, sharp_escaped rfl rfl, by simp⟩
  · have hplain : Starts written Part.plain _ := starts_pattern rfl
    rw [accepts_plainPattern] at hplain
    simp only [List.forall_mem_cons]
    refine ⟨fun w d rest hd => ?_, fun w d rest hd => ?_, fun w d rest hd => ?_, by simp⟩
    · obtain ⟨s, t, rfl, hs⟩ := hd.starts hplain
      have hne := (single_isPlain hs).1
      simp [pickPiece, hne]
    · obtain ⟨t, rfl⟩ := begins_escaped rfl rfl hd
      rfl
    · obtain ⟨t, rfl⟩ := begins_escaped rfl rfl hd
      rfl

/-- What is in a string is sharp **before the quote** that closes it. Its pieces cannot go beyond
that quote, since none of them begins with one. -/
theorem sharp_string (n : Nat) : Sharp written n Part.string fun rest =>
    rest.head? = some "\"" := by
  refine sharp_lexical rfl (sharp_rep rfl (sharp_piece n) (fun _ _ _ _ _ => trivial) ?_)
  intro k w ds rest hn hds hend
  obtain ⟨d, ds, w', rfl, hd, -⟩ := hds.exists_cons
  obtain ⟨s, t, rfl, hs⟩ := hd.starts starts_piece
  exact hs (Option.some.inj hend)

/-- A string ends **at its second quote**. So it does not matter what comes behind it. -/
theorem sharp_quoted (n : Nat) : Sharp written n Part.quoted ok := by
  have hquote : Starts written Part.quoteMark (· = "\"") := starts_omitted rfl (starts_token rfl)
  have hsharp : ∀ ok, Sharp written n Part.quoteMark ok := fun _ => sharp_omitted_token rfl rfl
  refine sharp_seq rfl (.cons (hsharp fun _ => True) (.cons (sharp_string n)
    (sharpAll_singleton (hsharp ok)) fun w ds rest hds => ?_) fun _ _ _ _ => trivial)
  obtain ⟨d, ds, w', rfl, hd, -⟩ := hds.exists_cons
  obtain ⟨s, t, rfl, rfl⟩ := hd.starts hquote
  rfl

theorem sharp_literal (n : Nat) : Sharp written n Part.literal ok :=
  sharp_seq rfl (sharpAll_singleton (sharp_quoted n))

theorem sharp_pattern_part (n : Nat) : Sharp written n Part.pattern ok :=
  sharp_seq rfl ((sharpAll_singleton (sharp_quoted n)).cons_token rfl rfl)

/-- An integer is sharp where **no digit follows**. -/
theorem sharp_integer (n : Nat) :
    Sharp written n Part.integer fun rest => ∀ s ∈ rest.head?, ¬ Digit s := by
  have hpattern : Starts written Part.digit _ := starts_pattern rfl
  rw [accepts_digitPattern] at hpattern
  have hany : Sharp written n Part.digit fun _ => True := sharp_pattern rfl
  refine sharp_rep rfl hany (fun _ _ _ _ _ => trivial) ?_
  intro k w ds rest hn hds hend
  obtain ⟨d, ds, w', rfl, hd, -⟩ := hds.exists_cons
  obtain ⟨s, t, rfl, hs⟩ := hd.starts hpattern
  exact hend s rfl hs

/-- Blanks **end at what is not blank**. -/
theorem sharp_optionalSpace (n : Nat) :
    Sharp written n Part.optionalSpace fun rest => ∀ s ∈ rest.head?, ¬ Blank s :=
  sharp_omitted rfl madeOf_spaces fun _ h => h

/-! ### Atoms -/

/-- A phrase **between brackets**. -/
theorem sharp_bracketed {opening closing closeToken : ExprId} {tag : Option String}
    (he : written.expr? id =
      some (.seq tag [opening, Part.optionalSpace, Part.phrase, Part.optionalSpace, closing]))
    (hopening : ∀ n, Sharp written n opening fun _ => True)
    (hstarts : Starts written opening (· = mark))
    (hclosing : written.expr? closing = some (.omitted closeToken))
    (htoken : written.expr? closeToken = some (.token s)) (hs : Closes s)
    (hphrase : Sharp written n Part.phrase EndsPhrase) : Sharp written (n + 1) id ok := by
  have hclose : Starts written closing (· = s) := starts_omitted hclosing (starts_token htoken)
  refine sharp_seq he (.cons_succ (hopening _) (.cons (sharp_optionalSpace n) (.cons hphrase
    (.cons (sharp_optionalSpace n) (sharpAll_singleton (sharp_omitted_token hclosing htoken)) ?_)
    ?_) ?_) hstarts fun _ _ _ _ => trivial)
  · intro w ds rest hds s' hs'
    obtain ⟨d, ds, w', rfl, hd, -⟩ := hds.exists_cons
    obtain ⟨s, t, rfl, rfl⟩ := hd.starts hclose
    cases hs'
    exact hs.not_blank
  · intro w ds rest hds
    obtain ⟨d, ds, w', rfl, hd, hds⟩ := hds.exists_cons
    obtain ⟨d', ds', w'', rfl, hd', -⟩ := hds.exists_cons
    obtain ⟨s, t, rfl, rfl⟩ := hd'.starts hclose
    refine ⟨head_of_optionalSpace hd (fun _ => .inl) fun s' hs' => ?_,
      .inr (.inl ⟨s, t, ?_, hs⟩)⟩
    · exact .inr (Option.some.inj hs' ▸ hs)
    · rw [← hd.word, skipBlanks_append (madeOf_optionalSpace d hd.valid hd.root),
        skipBlanks_cons hs.not_blank]
  · intro w ds rest hds s' hs'
    obtain ⟨d, ds, w', rfl, hd, -⟩ := hds.exists_cons
    obtain ⟨s, t, rfl, hstart⟩ := hd.starts starts_phrase
    cases hs'
    exact fun hblank => hblank.not_startsAtom hstart

/-- Atoms are **told apart by their first character**. -/
def pickAtom : List String → ExprId
  | "\"" :: _ => Part.literal
  | "#" :: _ => Part.pattern
  | "(" :: _ => Part.paren
  | "<" :: _ => Part.omittedPhrase
  | "[" :: _ => Part.lexicalPhrase
  | _ => Part.symbol

/-- What begins with a character of names is **a symbol**. All other atoms begin with a mark. -/
theorem pickAtom_of_ofNames (h : OfNames s) (t : List String) :
    pickAtom (s :: t) = Part.symbol := by
  have hne : ∀ mark ∈ ["\"", "#", "(", "<", "["], s ≠ mark := by
    rintro mark hmark rfl
    have hall : ∀ s ∈ ["\"", "#", "(", "<", "["], ¬ OfNames s := by decide
    exact hall s hmark h
  simp only [List.forall_mem_cons] at hne
  simp [pickAtom, hne]

/-- Atoms are sharp if shorter phrases are: an atom in brackets **holds a phrase**, which is why the
lengths of words are bounded here. -/
theorem sharp_atom (hphrase : Sharp written n Part.phrase EndsPhrase) :
    Sharp written (n + 1) Part.atom EndsAtom := by
  refine sharp_alt_of_pick pickAtom rfl ?_ ?_
  · simp only [List.forall_mem_cons]
    exact ⟨sharp_symbol _, sharp_literal _, sharp_pattern_part _,
      sharp_bracketed rfl (fun _ => sharp_omitted_token rfl rfl)
        starts_openParen rfl rfl (by decide)
        hphrase,
      sharp_bracketed rfl (fun _ => sharp_omitted_token rfl rfl)
        starts_openAngle rfl rfl (by decide)
        hphrase,
      sharp_bracketed rfl (fun _ => sharp_omitted_token rfl rfl) starts_openBracket rfl rfl
        (by decide) hphrase, by simp⟩
  · have hpick : ∀ {c : ExprId} {mark : String}, (∀ t, pickAtom (mark :: t) = c) →
        Starts written c (· = mark) →
        ∀ w d rest, Begins written c EndsAtom w d rest → pickAtom w = c := by
      intro c mark hmark hc w d rest hd
      obtain ⟨s, t, rfl, rfl⟩ := hd.starts hc
      exact hmark t
    simp only [List.forall_mem_cons]
    refine ⟨fun w d rest hd => ?_, hpick (fun _ => rfl) starts_literal,
      hpick (fun _ => rfl) starts_pattern_part, hpick (fun _ => rfl) starts_paren,
      hpick (fun _ => rfl) starts_omittedPhrase, hpick (fun _ => rfl) starts_lexicalPhrase, by simp⟩
    obtain ⟨s, t, rfl, hs⟩ := hd.starts starts_symbol
    exact pickAtom_of_ofNames hs t

/-! ### Items -/

theorem madeOf_integer : MadeOf written Part.integer Digit :=
  madeOf_rep rfl (madeOf_pattern rfl fun s hs => by rwa [accepts_digitPattern] at hs)

/-- Quantifiers are **told apart by what is in the braces**. -/
def pickQuantifier : List String → ExprId
  | "*" :: _ => Part.repStar
  | "+" :: _ => Part.repPlus
  | "?" :: _ => Part.repQuestion
  | "\x7b" :: bounds =>
    match bounds.dropWhile (single Char.isDigit) with
    | "\x7d" :: _ => Part.repExact
    | "," :: "\x7d" :: _ => Part.repMin
    | _ => Part.repMinMax
  | _ => Part.repMinMax

/-- A word begins with a quantifier **of this kind**. -/
structure BeginsQuantifier (kind : ExprId) (w : List String) : Prop where
  starts : ∃ s t, w = s :: t ∧ StartsQuantifier s
  pick : pickQuantifier w = kind

/-- A quantifier may stand **after an atom**. -/
theorem BeginsQuantifier.endsAtom (h : BeginsQuantifier c w) : EndsAtom w := by
  obtain ⟨s, t, rfl, hs⟩ := h.starts
  exact fun s' hs' => Option.some.inj hs' ▸ hs.not_ofNames

/-- What may follow **a number**: anything but a digit. -/
def EndsNumber (rest : List String) : Prop := ∀ s ∈ rest.head?, ¬ Digit s

/-- A quantifier **in braces** is known by what follows its first number. The three forms in braces
begin alike up to there. -/
theorem beginsQuantifier_of_braces {ids : List ExprId} {ds : List Derivation}
    (h : BeginsAll written (Part.openBrace :: Part.integer :: ids) ok w ds rest)
    (hids : ∀ w ds rest, BeginsAll written ids ok w ds rest → EndsNumber w ∧
      ∀ bounds, bounds.dropWhile (single Char.isDigit) = w →
        pickQuantifier ("\x7b" :: bounds) = c) :
    BeginsQuantifier c w := by
  obtain ⟨d, ds, w₁, rfl, hd, hds⟩ := h.exists_cons
  obtain ⟨d', ds, w₂, rfl, hd', hds⟩ := hds.exists_cons
  obtain rfl := hd.eq_cons_of_omitted rfl rfl
  obtain ⟨hend, hpick⟩ := hids _ _ _ hds
  refine ⟨⟨_, _, rfl, by decide⟩, hpick w₁ ?_⟩
  rw [← hd'.word, List.dropWhile_append_of_pos (madeOf_integer d' hd'.valid hd'.root)]
  cases w₂ with
  | nil => rfl
  | cons s w₂ => exact List.dropWhile_cons_of_neg (hend s rfl)

/-- A number ends before anything that is **not a digit**. -/
theorem endsNumber_cons (h : ¬ Digit s) (t : List String) : EndsNumber (s :: t) :=
  fun _ hs => Option.some.inj hs ▸ h

/-- The first of the bounded quantifiers has **one number** between its braces. -/
theorem beginsQuantifier_repExact {ds : List Derivation}
    (h : BeginsAll written [Part.openBrace, Part.integer, Part.closeBrace] ok w ds rest) :
    BeginsQuantifier Part.repExact w := by
  refine beginsQuantifier_of_braces h fun w ds rest hds => ?_
  obtain ⟨d, ds, w', rfl, hd, -⟩ := hds.exists_cons
  obtain rfl := hd.eq_cons_of_omitted rfl rfl
  exact ⟨endsNumber_cons (by decide) _, fun bounds hb => by rw [pickQuantifier, hb]; rfl⟩

/-- The second has a number **and a comma**. -/
theorem beginsQuantifier_repMin {ds : List Derivation}
    (h : BeginsAll written [Part.openBrace, Part.integer, Part.comma, Part.closeBrace]
      ok w ds rest) :
    BeginsQuantifier Part.repMin w := by
  refine beginsQuantifier_of_braces h fun w ds rest hds => ?_
  obtain ⟨d, ds, w', rfl, hd, htail⟩ := hds.exists_cons
  obtain rfl := hd.eq_cons_of_omitted rfl rfl
  obtain ⟨d', ds, w'', rfl, hd', -⟩ := htail.exists_cons
  obtain rfl := hd'.eq_cons_of_omitted rfl rfl
  exact ⟨endsNumber_cons (by decide) _, fun bounds hb => by rw [pickQuantifier, hb]; rfl⟩

/-- The third has **a number on either side** of the comma. -/
theorem beginsQuantifier_repMinMax {ds : List Derivation}
    (h : BeginsAll written
      [Part.openBrace, Part.integer, Part.comma, Part.integer, Part.closeBrace] ok w ds rest) :
    BeginsQuantifier Part.repMinMax w := by
  refine beginsQuantifier_of_braces h fun w ds rest hds => ?_
  obtain ⟨d, ds, w', rfl, hd, htail⟩ := hds.exists_cons
  obtain rfl := hd.eq_cons_of_omitted rfl rfl
  obtain ⟨d', ds, w'', rfl, hd', -⟩ := htail.exists_cons
  obtain ⟨s, t, rfl, hs⟩ := hd'.starts starts_integer
  have hne : s ≠ "\x7d" := by
    rintro rfl
    exact absurd hs (by decide)
  exact ⟨endsNumber_cons (by decide) _, fun bounds hb => by simp [pickQuantifier, hb, hne]⟩

/-- The quantifiers without bounds are told **by their mark**. -/
theorem beginsQuantifier_of_mark {mark : String} {child : ExprId} {ds : List Derivation}
    (he : written.expr? id = some (.omitted child)) (hc : written.expr? child = some (.token mark))
    (hmark : StartsQuantifier mark) (hpick : ∀ t, pickQuantifier (mark :: t) = c)
    (h : BeginsAll written [id] ok w ds rest) : BeginsQuantifier c w := by
  obtain ⟨d, ds, w', rfl, hd, -⟩ := h.exists_cons
  obtain rfl := hd.eq_cons_of_omitted he hc
  exact ⟨⟨_, _, rfl, hmark⟩, hpick _⟩

/-- What is quantified is **an atom**, and what follows says how. -/
theorem exists_atom_of_quantified
    (hc : c ∈ [Part.repStar, Part.repPlus, Part.repQuestion, Part.repExact, Part.repMin,
      Part.repMinMax]) (h : Begins written c ok w d rest) :
    ∃ a y, Begins written Part.atom EndsAtom w a y ∧ BeginsQuantifier c y := by
  have hsplit : ∀ {tag : String} {ids : List ExprId},
      written.expr? c = some (.seq (some tag) (Part.atom :: ids)) →
      (∀ y ds, BeginsAll written ids ok y ds rest → BeginsQuantifier c y) →
      ∃ a y, Begins written Part.atom EndsAtom w a y ∧ BeginsQuantifier c y := by
    intro tag ids he hids
    obtain ⟨parts, rfl, hparts⟩ := h.of_seq he
    obtain ⟨a, ds, y, rfl, ha, hds⟩ := hparts.exists_cons
    have hy := hids y ds hds
    exact ⟨a, y, ha.mono hy.endsAtom, hy⟩
  simp only [List.mem_cons, List.not_mem_nil, or_false] at hc
  rcases hc with rfl | rfl | rfl | rfl | rfl | rfl
  · exact hsplit rfl fun _ _ => beginsQuantifier_of_mark rfl rfl (by decide) fun _ => rfl
  · exact hsplit rfl fun _ _ => beginsQuantifier_of_mark rfl rfl (by decide) fun _ => rfl
  · exact hsplit rfl fun _ _ => beginsQuantifier_of_mark rfl rfl (by decide) fun _ => rfl
  · exact hsplit rfl fun _ _ => beginsQuantifier_repExact
  · exact hsplit rfl fun _ _ => beginsQuantifier_repMin
  · exact hsplit rfl fun _ _ => beginsQuantifier_repMinMax

/-- A quantified atom is sharp **wherever it stands**: its quantifier says where it ends. Between
the atom and the quantifier there is no blank, so there is no doubt which belongs to which. -/
theorem sharp_quantified (hatom : Sharp written n Part.atom EndsAtom) :
    Sharp written n Part.quantified ok := by
  have hsplit : ∀ {c : ExprId} {tag : String} {ids : List ExprId},
      written.expr? c = some (.seq (some tag) (Part.atom :: ids)) → SharpAll written n ids ok →
      (∀ y ds rest, BeginsAll written ids ok y ds rest → BeginsQuantifier c y) →
      Sharp written n c ok := fun he hids hbegins =>
    sharp_seq he (.cons hatom hids fun y ds rest hds => (hbegins y ds rest hds).endsAtom)
  have hnumber : ∀ {q child : ExprId} {mark : String}, written.expr? q = some (.omitted child) →
      written.expr? child = some (.token mark) → ¬ Digit mark → ∀ {ids},
      SharpAll written n (q :: ids) ok → SharpAll written n (Part.integer :: q :: ids) ok := by
    intro q child mark hq hchild hdigit ids hids
    refine .cons (sharp_integer n) hids fun w ds rest hds => ?_
    obtain ⟨d, ds, w', rfl, hd, -⟩ := hds.exists_cons
    obtain rfl := hd.eq_cons_of_omitted hq hchild
    exact endsNumber_cons hdigit w'
  have hclose : SharpAll written n [Part.closeBrace] ok := sharpAll_nil.cons_token rfl rfl
  refine sharp_alt rfl ?_ ?_
  · simp only [List.forall_mem_cons]
    exact ⟨hsplit rfl (sharpAll_nil.cons_token rfl rfl) fun _ _ _ =>
        beginsQuantifier_of_mark rfl rfl (by decide) fun _ => rfl,
      hsplit rfl (sharpAll_nil.cons_token rfl rfl) fun _ _ _ =>
        beginsQuantifier_of_mark rfl rfl (by decide) fun _ => rfl,
      hsplit rfl (sharpAll_nil.cons_token rfl rfl) fun _ _ _ =>
        beginsQuantifier_of_mark rfl rfl (by decide) fun _ => rfl,
      hsplit rfl ((hnumber rfl rfl (by decide) hclose).cons_token rfl rfl) fun _ _ _ =>
        beginsQuantifier_repExact,
      hsplit rfl ((hnumber rfl rfl (by decide) (hclose.cons_token rfl rfl)).cons_token rfl rfl)
        fun _ _ _ => beginsQuantifier_repMin,
      hsplit rfl ((hnumber rfl rfl (by decide) ((hnumber rfl rfl (by decide) hclose).cons_token
        rfl rfl)).cons_token rfl rfl) fun _ _ _ => beginsQuantifier_repMinMax, by simp⟩
  · intro c hc c' hc' w d d' rest rest' hn hd hd'
    obtain ⟨a, y, ha, hy⟩ := exists_atom_of_quantified hc hd
    obtain ⟨a', y', ha', hy'⟩ := exists_atom_of_quantified hc' hd'
    obtain rfl := ha.rest_eq ha' (hatom w a a' y y' hn ha ha')
    exact hy.pick.symm.trans hy'.pick

/-- Where an atom ends an item **no quantifier follows**. -/
theorem apart_atom_quantified (hatom : Sharp written n Part.atom EndsAtom) :
    Apart written n EndsItem Part.atom Part.quantified := by
  intro w d d' rest rest' hn hd hd'
  obtain ⟨part, rfl, hc, hpart⟩ := hd'.of_alt rfl
  obtain ⟨a, y, ha, hy⟩ := exists_atom_of_quantified hc hpart
  have hd₁ : Begins written Part.atom EndsAtom w d rest := hd.mono hd.follows.atom
  obtain rfl := hd₁.rest_eq ha (hatom w d a rest y hn hd₁ ha)
  obtain ⟨s, t, rfl, hs⟩ := hy.starts
  exact (hd.follows.head s rfl).2 hs

/-- Items are sharp **if atoms are**: the quantifier of an item cannot begin anything that may
follow. -/
theorem sharp_item (hatom : Sharp written n Part.atom EndsAtom) :
    Sharp written n Part.item EndsItem := by
  refine sharp_alt_of_apart rfl ?_ ?_
  · simp only [List.forall_mem_cons]
    exact ⟨hatom.mono fun _ h => h.atom, sharp_quantified hatom, by simp⟩
  · simpa using apart_atom_quantified hatom

/-- An item begins with **an atom**. The item ends behind it, or a quantifier follows. -/
theorem exists_atom_of_item (h : Begins written Part.item EndsItem w d rest) :
    ∃ a y, Begins written Part.atom EndsAtom w a y ∧ (EndsItem y ∨ ∃ c, BeginsQuantifier c y) := by
  obtain ⟨part, rfl, hc, hpart⟩ := h.of_alt rfl
  simp only [List.mem_cons, List.not_mem_nil, or_false] at hc
  rcases hc with hc | hc
  · rw [hc] at hpart
    exact ⟨part, rest, hpart.mono h.follows.atom, .inl h.follows⟩
  · rw [hc] at hpart
    obtain ⟨part', rfl, hc', hpart'⟩ := hpart.of_alt rfl
    obtain ⟨a, y, ha, hy⟩ := exists_atom_of_quantified hc' hpart'
    exact ⟨a, y, ha, .inr ⟨_, hy⟩⟩

/-- After an item that is **not the name of a rule** no definition sign follows. That is how one
rule is told from the next where no semicolon stands between them. -/
theorem not_beginsRule_of_item (hatom : Sharp written n Part.atom EndsAtom) (hn : w.length ≤ n)
    (h : Begins written Part.item EndsItem w d rest) : ¬ BeginsRule w := by
  rintro ⟨a', u, s, t, hvalid, hroot, hu, hs, hw⟩
  obtain ⟨a, y, ha, hy⟩ := exists_atom_of_item h
  have hnot : ¬ Blank s ∧ ¬ OfNames s ∧ ¬ StartsQuantifier s := by
    rcases hs with rfl | rfl <;> decide
  have hend : EndsAtom (u ++ s :: t) := by
    cases u with
    | nil => exact fun s' hs' => Option.some.inj hs' ▸ hnot.2.1
    | cons s₁ u => exact fun s' hs' => Option.some.inj hs' ▸ (hu s₁ List.mem_cons_self).not_ofNames
  have ha' : Begins written Part.atom EndsAtom w a' (u ++ s :: t) := ⟨hvalid, hroot, hw.symm, hend⟩
  obtain rfl := ha.rest_eq ha' (hatom w a a' y _ hn ha ha')
  rcases hy with hitem | ⟨c, hq⟩
  · have hafter := hitem.after s (by rw [skipBlanks_append hu, skipBlanks_cons hnot.1]; rfl)
    exact hs.elim hafter.1 hafter.2
  · obtain ⟨q, z, heq, hq⟩ := hq.starts
    cases u with
    | nil =>
      obtain ⟨rfl, -⟩ := List.cons.inj heq
      exact hnot.2.2 hq
    | cons s₁ u =>
      obtain ⟨rfl, -⟩ := List.cons.inj heq
      exact hq.not_blank (hu s₁ List.mem_cons_self)

/-! ### Sequences -/

/-- The next item comes **after blanks**. -/
theorem exists_item_of_nextItem (h : Begins written Part.nextItem ok w d rest) :
    ∃ s t d', w = s :: t ∧ Blank s ∧ Begins written Part.item ok (skipBlanks w) d' rest := by
  obtain ⟨parts, rfl, hparts⟩ := h.of_seq rfl
  obtain ⟨dg, ds, w₁, rfl, hg, hds⟩ := hparts.exists_cons
  obtain ⟨di, ds, w₂, rfl, hi, hnil⟩ := hds.exists_cons
  obtain ⟨-, rfl⟩ := hnil.eq_nil
  obtain ⟨s, t, rfl, hs⟩ := hg.starts starts_gap
  refine ⟨s, t, di, rfl, hs, ?_⟩
  obtain ⟨s', t', rfl, hs'⟩ := hi.starts starts_item
  rw [← hg.word, skipBlanks_append (madeOf_gap dg hg.valid hg.root),
    skipBlanks_cons fun hblank => hblank.not_startsAtom hs']
  exact hi.mono hnil.follows

/-- More items of a sequence, or what may follow a branch, **may stand after an item**. That has a
blank first, or what closes the branch. -/
theorem endsItem_of_nextItems {ds : List Derivation}
    (h : BeginsAll written (List.replicate k Part.nextItem) EndsBranch w ds rest) : EndsItem w := by
  cases k with
  | zero =>
    obtain ⟨-, rfl⟩ := h.eq_nil
    exact h.follows.item
  | succ k =>
    obtain ⟨d, ds, w', rfl, hd, -⟩ := h.exists_cons
    obtain ⟨s, t, d', rfl, hs, hd'⟩ := exists_item_of_nextItem hd
    refine ⟨fun s' hs' => Option.some.inj hs' ▸ not_special_of_blank hs, fun s' hs' => ?_⟩
    obtain ⟨s₁, t₁, ht₁, hs₁⟩ := hd'.starts starts_item
    rw [ht₁] at hs'
    exact Option.some.inj hs' ▸ not_definition_of_startsAtom hs₁

/-- Where another item follows **the branch does not end**. An item follows on blanks, and that is
neither a bar nor a bracket nor a rule. -/
theorem not_endsBranch_of_nextItems (hatom : Sharp written n Part.atom EndsAtom) (hn : w.length ≤ n)
    {ds : List Derivation}
    (h : BeginsAll written (List.replicate (k + 1) Part.nextItem) EndsBranch w ds rest) :
    ¬ EndsBranch w := by
  obtain ⟨d, ds, w', rfl, hd, hds⟩ := h.exists_cons
  obtain ⟨s, t, d', rfl, hs, hd'⟩ := exists_item_of_nextItem (hd.mono (endsItem_of_nextItems hds))
  have hlen : (skipBlanks (s :: t)).length ≤ n :=
    Nat.le_trans (List.dropWhile_sublist _).length_le hn
  obtain ⟨s₁, t₁, ht₁, hs₁⟩ := hd'.starts starts_item
  rintro (hphrase | ⟨t', ht'⟩)
  · rcases hphrase.after with hnil | ⟨s', t', ht', hclose⟩ | hrule
    · rw [ht₁] at hnil
      cases hnil
    · obtain ⟨rfl, -⟩ := List.cons.inj (ht₁.symm.trans ht')
      exact hclose.not_startsAtom hs₁
    · exact not_beginsRule_of_item hatom hlen hd' hrule
  · obtain ⟨rfl, -⟩ := List.cons.inj (ht₁.symm.trans ht')
    exact absurd hs₁ (by decide)

/-- Sequences are sharp **if atoms are**. It goes on for as long as items follow, and stops where
none does. -/
theorem sharp_sequence (hatom : Sharp written n Part.atom EndsAtom) :
    Sharp written n Part.sequence EndsBranch := by
  have hgap : Sharp written n Part.gap fun rest => ∀ s ∈ rest.head?, ¬ Blank s :=
    sharp_omitted rfl (madeOf_rep rfl madeOf_space) fun _ h => h
  have hnext : Sharp written n Part.nextItem EndsItem := by
    refine sharp_seq rfl
      (.cons hgap (sharpAll_singleton (sharp_item hatom)) fun w ds rest hds => ?_)
    obtain ⟨d, ds, w', rfl, hd, -⟩ := hds.exists_cons
    obtain ⟨s, t, rfl, hs⟩ := hd.starts starts_item
    exact fun s' hs' => Option.some.inj hs' ▸ fun hblank => hblank.not_startsAtom hs
  refine sharp_seq rfl (.cons (sharp_item hatom) (sharpAll_singleton (sharp_rep rfl hnext
    (fun _ _ _ _ => endsItem_of_nextItems)
    fun _ _ _ _ hn => not_endsBranch_of_nextItems hatom hn)) fun w ds rest hds => ?_)
  obtain ⟨d, ds, w', rfl, hd, hnil⟩ := hds.exists_cons
  obtain ⟨-, rfl⟩ := hnil.eq_nil
  obtain ⟨parts, rfl, -, hparts⟩ := (hd.mono hnil.follows).of_rep rfl
  exact endsItem_of_nextItems hparts

/-- An item that ends a branch is **not the first of a sequence**. A sequence has two items at
least. -/
theorem not_sequence_of_item {d' : Derivation} {rest' : List String}
    (hatom : Sharp written n Part.atom EndsAtom) (hn : w.length ≤ n)
    (h : Begins written Part.item EndsBranch w d rest) :
    ¬ Begins written Part.sequence EndsBranch w d' rest' := by
  intro h'
  obtain ⟨parts, rfl, hparts⟩ := h'.of_seq rfl
  obtain ⟨di, ds, w₁, rfl, hi, hds⟩ := hparts.exists_cons
  obtain ⟨dn, ds, w₂, rfl, hnext, hnil⟩ := hds.exists_cons
  obtain ⟨-, rfl⟩ := hnil.eq_nil
  obtain ⟨parts, rfl, hmin, hparts⟩ := (hnext.mono hnil.follows).of_rep rfl
  have hi' := hi.mono (endsItem_of_nextItems hparts)
  have hd : Begins written Part.item EndsItem w d rest := h.mono h.follows.item
  obtain rfl := hd.rest_eq hi' (sharp_item hatom w d di rest w₁ hn hd hi')
  obtain ⟨k, hk⟩ := Nat.exists_eq_add_of_le' hmin
  rw [hk] at hparts
  have hlen := congrArg List.length hi.word
  rw [List.length_append] at hlen
  exact not_endsBranch_of_nextItems hatom (by omega) hparts h.follows

/-! ### Branches -/

/-- The three kinds of branches **keep apart**: an atom alone, one with a quantifier, and several
items. -/
theorem apart_branches (hatom : Sharp written n Part.atom EndsAtom) :
    [Part.atom, Part.quantified, Part.sequence].Pairwise (Apart written n EndsBranch) := by
  have hitem : ∀ c ∈ [Part.atom, Part.quantified], Apart written n EndsBranch c Part.sequence :=
    fun c hc w d d' rest rest' hn hd => not_sequence_of_item hatom hn (hd.choice rfl hc)
  simp only [List.forall_mem_cons] at hitem
  have hfirst : Apart written n EndsBranch Part.atom Part.quantified :=
    fun w d d' rest rest' hn hd hd' => apart_atom_quantified hatom w d d' rest rest' hn
      (hd.mono hd.follows.item) (hd'.mono hd'.follows.item)
  simpa using ⟨⟨hfirst, hitem.1⟩, hitem.2.1⟩

/-- Branches are sharp **if atoms are**. -/
theorem sharp_branch (hatom : Sharp written n Part.atom EndsAtom) :
    Sharp written n Part.branch EndsBranch := by
  refine sharp_alt_of_apart rfl ?_ (apart_branches hatom)
  simp only [List.forall_mem_cons]
  exact ⟨hatom.mono fun _ h => h.item.atom, sharp_quantified hatom, sharp_sequence hatom, by simp⟩

/-- The next branch comes **after a bar**. -/
theorem exists_bar_of_nextBranch (h : Begins written Part.nextBranch ok w d rest) :
    ∃ t, skipBlanks w = "|" :: t := by
  obtain ⟨parts, rfl, hparts⟩ := h.of_seq rfl
  obtain ⟨db, ds, w₁, rfl, hb, -⟩ := hparts.exists_cons
  obtain ⟨part, rfl, hroot, hpart⟩ := hb.valid.of_omitted hb.root rfl
  have hspaced : Begins written Part.spacedBar (· = w₁) w part w₁ := ⟨hpart, hroot, hb.word, rfl⟩
  obtain ⟨parts', rfl, hparts'⟩ := hspaced.of_seq rfl
  obtain ⟨du, ds', w₂, rfl, hu, hds⟩ := hparts'.exists_cons
  obtain ⟨dt, ds', w₃, rfl, ht, -⟩ := hds.exists_cons
  obtain ⟨s, t, rfl, rfl⟩ := ht.starts (starts_token rfl)
  refine ⟨t, ?_⟩
  rw [← hu.word, skipBlanks_append (madeOf_spaces du hu.valid hu.root), skipBlanks_cons (by decide)]

/-- More branches, or what may follow a phrase, **may stand after a branch**. -/
theorem endsBranch_of_nextBranches {ds : List Derivation}
    (h : BeginsAll written (List.replicate k Part.nextBranch) EndsPhrase w ds rest) :
    EndsBranch w := by
  cases k with
  | zero =>
    obtain ⟨-, rfl⟩ := h.eq_nil
    exact .inl h.follows
  | succ k =>
    obtain ⟨d, ds, w', rfl, hd, -⟩ := h.exists_cons
    exact .inr (exists_bar_of_nextBranch hd)

/-- Where another branch follows **the phrase does not end**. -/
theorem not_endsPhrase_of_nextBranches {ds : List Derivation}
    (h : BeginsAll written (List.replicate (k + 1) Part.nextBranch) ok w ds rest) :
    ¬ EndsPhrase w := by
  obtain ⟨d, ds, w', rfl, hd, -⟩ := h.exists_cons
  obtain ⟨t, ht⟩ := exists_bar_of_nextBranch hd
  intro hend
  rcases hend.after with hnil | ⟨s', t', ht', hclose⟩ | hrule
  · rw [ht] at hnil
    cases hnil
  · obtain ⟨rfl, -⟩ := List.cons.inj (ht.symm.trans ht')
    exact absurd hclose (by decide)
  · obtain ⟨s', t', ht', hstart⟩ := hrule.starts
    obtain ⟨rfl, -⟩ := List.cons.inj (ht.symm.trans ht')
    exact absurd hstart (by decide)

/-- Alternations are sharp **if atoms are**. -/
theorem sharp_alternation (hatom : Sharp written n Part.atom EndsAtom) :
    Sharp written n Part.alternation EndsPhrase := by
  have hbar : Sharp written n Part.bar fun rest => ∀ s ∈ rest.head?, ¬ (Blank s ∨ s = "|") :=
    sharp_omitted rfl madeOf_spacedBar fun _ h => h
  have hnext : Sharp written n Part.nextBranch EndsBranch := by
    refine sharp_seq rfl (.cons hbar (sharpAll_singleton (sharp_branch hatom))
      fun w ds rest hds => ?_)
    obtain ⟨d, ds, w', rfl, hd, -⟩ := hds.exists_cons
    obtain ⟨s, t, rfl, hs⟩ := hd.starts starts_branch
    rintro s' hs' (hblank | rfl)
    · exact hblank.not_startsAtom (Option.some.inj hs' ▸ hs)
    · exact absurd (Option.some.inj hs' ▸ hs) (by decide)
  refine sharp_seq rfl (.cons (sharp_branch hatom) (sharpAll_singleton (sharp_rep rfl hnext
    (fun _ _ _ _ => endsBranch_of_nextBranches)
    fun _ _ _ _ _ => not_endsPhrase_of_nextBranches)) fun w ds rest hds => ?_)
  obtain ⟨d, ds, w', rfl, hd, hnil⟩ := hds.exists_cons
  obtain ⟨-, rfl⟩ := hnil.eq_nil
  obtain ⟨parts, rfl, -, hparts⟩ := (hd.mono hnil.follows).of_rep rfl
  exact endsBranch_of_nextBranches hparts

/-- A branch that ends a phrase is **not the first of an alternation**. -/
theorem not_alternation_of_branch {d' : Derivation} {rest' : List String}
    (hatom : Sharp written n Part.atom EndsAtom) (hn : w.length ≤ n)
    (h : Begins written Part.branch EndsPhrase w d rest) :
    ¬ Begins written Part.alternation EndsPhrase w d' rest' := by
  intro h'
  obtain ⟨parts, rfl, hparts⟩ := h'.of_seq rfl
  obtain ⟨db, ds, w₁, rfl, hb, hds⟩ := hparts.exists_cons
  obtain ⟨dn, ds, w₂, rfl, hnext, hnil⟩ := hds.exists_cons
  obtain ⟨-, rfl⟩ := hnil.eq_nil
  obtain ⟨parts, rfl, hmin, hparts⟩ := (hnext.mono hnil.follows).of_rep rfl
  have hb' := hb.mono (endsBranch_of_nextBranches hparts)
  have hd : Begins written Part.branch EndsBranch w d rest := h.mono (.inl h.follows)
  obtain rfl := hd.rest_eq hb' (sharp_branch hatom w d db rest w₁ hn hd hb')
  obtain ⟨k, hk⟩ := Nat.exists_eq_add_of_le' hmin
  rw [hk] at hparts
  exact not_endsPhrase_of_nextBranches hparts h.follows

/-! ### Phrases -/

/-- Phrases are sharp if atoms are. With `sharp_atom` this closes **the circle** that runs through
brackets. -/
theorem sharp_phrase_of_atom (hatom : Sharp written n Part.atom EndsAtom) :
    Sharp written n Part.phrase EndsPhrase := by
  refine sharp_alt_of_apart rfl ?_ ?_
  · simp only [List.forall_mem_cons]
    exact ⟨hatom.mono fun _ h => h.item.atom, sharp_quantified hatom,
      (sharp_sequence hatom).mono fun _ => .inl, sharp_alternation hatom, by simp⟩
  · have hbranch : ∀ c ∈ [Part.atom, Part.quantified, Part.sequence],
        Apart written n EndsPhrase c Part.alternation :=
      fun c hc w d d' rest rest' hn hd => not_alternation_of_branch hatom hn (hd.choice rfl hc)
    have hpair := (apart_branches hatom).imp (S := Apart written n EndsPhrase)
      fun h w d d' rest rest' hn hd hd' => h w d d' rest rest' hn (hd.mono (.inl hd.follows))
        (hd'.mono (.inl hd'.follows))
    change List.Pairwise _ ([Part.atom, Part.quantified, Part.sequence] ++ [Part.alternation])
    exact List.pairwise_append.mpr ⟨hpair, List.pairwise_singleton _ _, by simpa using hbranch⟩

/-- **Phrases are sharp.** The induction is on the length of the word: brackets make what is inside
shorter. -/
theorem sharp_phrase (n : Nat) : Sharp written n Part.phrase EndsPhrase := by
  induction n with
  | zero => exact sharp_zero starts_phrase
  | succ n ih => exact sharp_phrase_of_atom (sharp_atom ih)

end GeneralParsing.Dialect
