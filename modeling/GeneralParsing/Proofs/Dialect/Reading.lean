import GeneralParsing.Proofs.Derivation.Yields
import GeneralParsing.Proofs.Dialect.Words
import GeneralParsing.Proofs.Dialect.Writing

/-!
# Reading what was written

Where a text writes a phrase there is a derivation of the text whose tree holds the phrase. Level by
level, `Reads` says this of the expressions of the dialect: names, strings and numbers come out as
values, blanks and parentheses leave no trace, and the quantifiers, sequences and alternations have
nodes of their own. The main results are `reads_phrase` for phrases and `exists_yields_text` for
whole texts.
-/

namespace GeneralParsing

/-! ### Marks make no difference -/

section

variable {ι : Type}

/-- A bound is read **from the value**, and marks have no part in it. -/
theorem Quantifier.boundOfTree_plain (t : Tree ι) : boundOfTree t.plain = boundOfTree t := by
  rw [boundOfTree, boundOfTree, Tree.label_plain, Tree.children_plain, List.map_map]
  simp only [Function.comp_def, Tree.label_plain]

/-- Phrases are put together alike **whatever the marks**. -/
theorem Phrase.assemble_map_plain (label : Label) (ts : List (Tree ι))
    (phrases : List (Except Error Phrase)) :
    assemble label (ts.map Tree.plain) phrases = assemble label ts phrases := by
  unfold assemble
  dsimp only
  split <;> try rfl
  next =>
    match ts with
    | [] => simp only [List.map_nil]
    | [_] =>
      simp only [List.map_cons, List.map_nil]
      split <;> simp_all
    | [_, n] =>
      simp only [List.map_cons, List.map_nil]
      split <;> simp_all [← Quantifier.boundOfTree_plain n]
    | [_, n, m] =>
      simp only [List.map_cons, List.map_nil]
      split <;> simp_all [← Quantifier.boundOfTree_plain n, ← Quantifier.boundOfTree_plain m]
    | _ :: _ :: _ :: _ :: _ => simp only [List.map_cons]

theorem Phrase.ofTrees_eq_map (ts : List (Tree ι)) : ofTrees ts = ts.map ofTree := by
  induction ts with
  | nil => rfl
  | cons t ts ih => rw [ofTrees, ih, List.map_cons]

/-- The phrase of a tree depends on **the plain tree** only. -/
theorem Phrase.ofTree_plain (t : Tree ι) : ofTree t.plain = ofTree t := by
  induction t using Tree.induct with
  | leaf label =>
    rw [Tree.plain_leaf, ofTree, ofTree]
    exact assemble_map_plain label [] []
  | branch label family children ih =>
    rw [Tree.plain_branch, ofTree, ofTree, assemble_map_plain, ofTrees_eq_map, ofTrees_eq_map,
      List.map_map]
    exact congrArg _ (List.map_congr_left ih)

/-- Rules are read off trees alike **whatever the marks**. -/
theorem Rule.ofTree_plain (t : Tree ι) : ofTree t.plain = ofTree t := by
  rw [ofTree, ofTree, Tree.label_plain, Tree.children_plain]
  match t.children with
  | [name, body] =>
    simp only [List.map_cons, List.map_nil]
    split <;> simp_all [← Phrase.ofTree_plain body, ← Tree.label_plain name]
  | [] | [_] | _ :: _ :: _ :: _ => simp

/-- The rules of a tree depend on **the plain tree** only. -/
theorem Rule.listOfTree_plain (t : Tree ι) : listOfTree t.plain = listOfTree t := by
  rw [listOfTree, listOfTree, Tree.label_plain, Tree.children_plain, List.mapM_map]
  simp only [Function.comp_def, Rule.ofTree_plain]

/-- Phrases that are all there **come together**. -/
theorem Phrase.mapM_id_ok (ps : List Phrase) :
    (ps.map Except.ok).mapM id = (.ok ps : Except Error (List Phrase)) := by
  induction ps with
  | nil => rfl
  | cons p ps ih =>
    rw [List.map_cons, List.mapM_cons, ih]
    rfl

end

namespace Dialect

open GeneralParsing.Derivation Forest

variable {t u v w : List Char} {s : String} {n m : Nat} {id token : ExprId}
variable {p : Phrase} {ps : List Phrase} {tree : PlainTree}

/-! ### Words -/

/-- The pattern of a class accepts **every character of the class**, as a symbol of one character.
-/
theorem accepts_characters {pattern : Pattern} {ofClass : Char → Bool}
    (hp : pattern.accepts = single ofClass) (h : ∀ c ∈ t, ofClass c = true) :
    ∀ s ∈ characters t, (Expr.pattern pattern).accepts s = true := by
  intro s hs
  obtain ⟨c, hc, rfl⟩ := List.mem_map.mp hs
  simpa [Expr.accepts, hp] using h c hc

theorem length_characters_pos (h : t ≠ []) : 1 ≤ (characters t).length := by
  rw [characters, List.length_map]
  exact List.length_pos_iff.mpr h

/-- A mark **leaves no trace**. -/
theorem yields_mark (c : Char) (id : ExprId) (he : written.expr? id = some (.omitted token))
    (ht : written.expr? token = some (.token (String.singleton c))) :
    Yields written true id (characters [c]) [] :=
  (yields_token token ht).omitted id he

/-- A name is **read off its characters**, as a value. -/
theorem yields_name (h : IsName s) :
    Yields written true Part.name (characters s.toList) [PlainTree.value s] := by
  have hall : SpellsAll written _ _ _ := spellsAll_terminal Part.nameCharacter rfl
    (accepts_characters accepts_namePattern h.2)
  rw [join_characters, String.ofList_toList] at hall
  exact (hall.rep Part.nameCharacters rfl (length_characters_pos h.1) (by simp)).lexical _ rfl

/-- A symbol is **its name under a tag**. -/
theorem yields_symbol (h : IsName s) : Yields written true Part.symbol (characters s.toList)
    [PlainTree.taggedValue "symbol" s] :=
  (yields_name h).singleton.seq Part.symbol rfl

/-- A name that is hidden in brackets is **told from others by the tag** alone. The brackets are
omitted. -/
theorem yields_hiddenSymbol (h : IsName s) :
    Yields written true Part.hiddenSymbol (characters ('<' :: (s.toList ++ ['>'])))
      [PlainTree.taggedValue "hiddenSymbol" s] := by
  have hopen := yields_mark '<' Part.openAngle rfl rfl
  have hclose := yields_mark '>' Part.closeAngle rfl rfl
  have hall := (hopen.cons ((yields_name h).cons hclose.singleton)).seq Part.hiddenSymbol rfl
  rwa [← characters_append, ← characters_append] at hall

/-- A piece of a string stands for the character **that it was escaped from**. Most characters stand
for themselves. -/
theorem spells_piece (c : Char) :
    Spells written Part.piece (characters (escaped c)) (String.singleton c) := by
  have hpair : ∀ {mark : ExprId} (both : ExprId),
      written.expr? mark = some (.token (String.singleton c)) →
      written.expr? both = some (.seq none [Part.escapeMark, mark]) →
      Spells written both (characters ['\\', c]) (String.singleton c) := by
    intro mark both hmark hboth
    have hescape : Spells written Part.escapeMark (characters ['\\']) "" :=
      (spells_token Part.escape rfl).omitted _ rfl
    have hall := (hescape.cons ((spells_token mark hmark).cons spellsAll_nil)).seq both hboth
    rwa [String.append_empty, String.empty_append] at hall
  rw [escaped]
  split
  next h =>
    rcases h with rfl | rfl
    · exact (hpair Part.escapedQuote rfl rfl).alt Part.piece rfl (by decide)
    · exact (hpair Part.escapedEscape rfl rfl).alt Part.piece rfl (by decide)
  next h =>
    have hplain : ∀ x ∈ [c], isPlain x = true := by simpa [isPlain] using h
    have hone : Spells written Part.plain (characters [c]) (String.singleton c) :=
      spells_terminal _ rfl (accepts_characters accepts_plainPattern hplain _ List.mem_cons_self)
    exact hone.alt Part.piece rfl (by decide)

/-- The pieces of a string **spell the string**, however its characters were escaped. -/
theorem spellsAll_pieces (t : List Char) :
    SpellsAll written (List.replicate t.length Part.piece) (characters (t.flatMap escaped))
      (String.ofList t) := by
  induction t with
  | nil => exact spellsAll_nil
  | cons c t ih =>
    have h := (spells_piece c).cons ih
    rw [List.flatMap_cons, characters_append]
    simpa [List.replicate_succ] using h

/-- A quoted text yields **the text** as a value. The quotes are omitted and the escapes are undone.
-/
theorem yields_quoted (s : String) :
    Yields written true Part.quoted (characters (quotedText s)) [PlainTree.value s] := by
  have hquote := yields_mark '"' Part.quoteMark rfl rfl
  have hpieces := (spellsAll_pieces s.toList).rep Part.pieces rfl (Nat.zero_le _) (by simp)
  rw [String.ofList_toList] at hpieces
  have hstring : Yields written true Part.string _ _ := hpieces.lexical _ rfl
  have hall := (hquote.cons (hstring.cons hquote.singleton)).seq Part.quoted rfl
  rwa [← characters_append, ← characters_append] at hall

/-- A literal yields **its text under the tag** of tokens. -/
theorem yields_literal (s : String) : Yields written true Part.literal (characters (quotedText s))
    [PlainTree.taggedValue "token" s] :=
  (yields_quoted s).singleton.seq Part.literal rfl

/-- A pattern yields **its source under the tag** of patterns. -/
theorem yields_pattern (s : String) :
    Yields written true Part.pattern (characters ('#' :: quotedText s))
      [PlainTree.taggedValue "regexp" s] :=
  ((yields_mark '#' Part.hash rfl rfl).cons (yields_quoted s).singleton).seq Part.pattern rfl

/-! ### Blanks -/

/-- Each blank yields **a value of its own**, which is why blanks are omitted where they stand. -/
theorem yieldsAll_blanks (child : ExprId)
    (he : written.expr? child = some (.pattern blankPattern)) (hu : Blanks u) :
    YieldsAll written true (List.replicate (characters u).length child) (characters u)
      ((characters u).map PlainTree.value) :=
  yieldsAll_terminal child he (accepts_characters accepts_blankPattern hu)

theorem yields_spaces (hu : Blanks u) : Yields written true Part.spaces (characters u)
    ((characters u).map PlainTree.value) :=
  (yieldsAll_blanks Part.space rfl hu).rep_untagged _ rfl (Nat.zero_le _)

/-- Blanks that may be left out yield **nothing**. -/
theorem yields_optionalSpace (hu : Blanks u) :
    Yields written true Part.optionalSpace (characters u) [] :=
  (yields_spaces hu).omitted _ rfl

/-- Blanks that must be there yield **nothing**, either. -/
theorem yields_gap (hu : Blanks u) (hne : u ≠ []) :
    Yields written true Part.gap (characters u) [] :=
  ((yieldsAll_blanks Part.space rfl hu).rep_untagged Part.someSpace rfl
    (length_characters_pos hne)).omitted _ rfl

/-- A bar yields nothing, **with any blanks** around it. So branches come out one right after
another. -/
theorem yields_bar (hu : Blanks u) (hv : Blanks v) :
    Yields written true Part.bar (characters (u ++ '|' :: v)) [] := by
  have hbar : Yields written true Part.barToken (characters ['|']) [PlainTree.value "|"] :=
    yields_token _ rfl
  have hall := ((yields_spaces hu).cons (hbar.cons (yields_spaces hv).singleton)).seq
    Part.spacedBar rfl
  rw [← characters_append, ← characters_append] at hall
  exact hall.omitted _ rfl

/-! ### Numbers -/

/-- Digits are **the number they stand for**, if that fits in 64 bits. Zeros in front are allowed.
-/
theorem number?_of_digits (hne : t ≠ []) (hdigit : ∀ c ∈ t, c.isDigit = true) :
    number? t = if Nat.ofDigitChars 10 t 0 < 2 ^ 64 then some (Nat.ofDigitChars 10 t 0)
      else none := by
  have hplus : ∀ rest, t = '+' :: rest → False := by
    rintro rest rfl
    exact absurd (hdigit '+' List.mem_cons_self) (by decide)
  have hsome : (t.isEmpty || !t.all Char.isDigit) = false := by
    simpa [hne] using hdigit
  rw [number?, hsome]
  · rfl
  · exact hplus

/-- A number that is written in digits **is read back**. -/
theorem number?_of_writes (h : WritesNumber n t) : number? t = some n := by
  rw [number?_of_digits h.ne_nil h.digit, h.value, if_pos h.lt]

/-- **The digits of a number** are the values of the tree, however many there are. With one digit
the tag joins the value, and so there are two shapes of trees to be read. -/
theorem exists_boundOfTree (hne : t ≠ []) : ∃ tree : PlainTree,
    PlainTree.labelled true (some "integer") ((characters t).map PlainTree.value) = [tree] ∧
      Quantifier.boundOfTree tree = match number? t with
        | some n => .ok n
        | none => .error (.malformedSyntax .badInteger (some "integer")) := by
  match t, hne with
  | [c], _ =>
    refine ⟨PlainTree.taggedValue "integer" (String.singleton c), rfl, ?_⟩
    have hdigits : (String.singleton c).toList = [c] := String.toList_singleton c
    simp only [Quantifier.boundOfTree, PlainTree.taggedValue, Tree.label, hdigits, ne_eq,
      not_true_eq_false, if_false]
    rfl
  | c :: d :: t, _ =>
    refine ⟨PlainTree.node "integer" ((characters (c :: d :: t)).map PlainTree.value), rfl, ?_⟩
    have hvalues : ((((characters (c :: d :: t)).map PlainTree.value).map Tree.label).filterMap
        Label.value) = characters (c :: d :: t) := by
      simp [List.filterMap_map, Function.comp_def, PlainTree.value, Tree.label]
    simp only [Quantifier.boundOfTree, PlainTree.node, Tree.label, Tree.children, hvalues,
      join_characters, String.toList_ofList, ne_eq, not_true_eq_false, if_false]
    rfl

/-- A number yields a tree **of which its value is read**. -/
theorem exists_yields_integer (h : WritesNumber n t) :
    ∃ tree, Yields written true Part.integer (characters t) [tree] ∧
      Quantifier.boundOfTree tree = .ok n := by
  have hall : YieldsAll written true _ _ _ := yieldsAll_terminal Part.digit rfl
    (accepts_characters accepts_digitPattern h.digit)
  obtain ⟨c, rest, rfl⟩ := List.exists_cons_of_ne_nil h.ne_nil
  have hyields := hall.rep Part.integer rfl (Nat.succ_le_succ (Nat.zero_le _)) (by simp)
  obtain ⟨tree, hout, hbound⟩ := exists_boundOfTree h.ne_nil
  rw [number?_of_writes h] at hbound
  exact ⟨tree, hout ▸ hyields, hbound⟩

/-! ### Phrases -/

/-- An expression **reads** a text as a phrase. -/
def Reads (id : ExprId) (t : List Char) (p : Phrase) : Prop :=
  ∃ tree, Yields written true id (characters t) [tree] ∧ Phrase.ofTree tree = .ok p

/-- Expressions in order read a text as **phrases in order**. -/
def ReadsAll (ids : List ExprId) (t : List Char) (ps : List Phrase) : Prop :=
  ∃ trees, YieldsAll written true ids (characters t) trees ∧
    trees.map Phrase.ofTree = ps.map Except.ok

/-- What holds a phrase has a tag, so it is **no untagged value**. A tag around it makes a node,
then. -/
theorem isValueLeaf_of_ofTree {ι : Type} {t : Tree ι} (h : Phrase.ofTree t = .ok p) :
    t.isValueLeaf = false := by
  have htag : t.label.tag ≠ none := by
    intro hnone
    cases t <;> simp_all [Phrase.ofTree, Phrase.assemble, Tree.label, ShapeFault.at]
  cases ht : t.label.tag <;> simp_all [Tree.isValueLeaf]

/-- A tag over trees makes a node if the first of them is **no untagged value**. -/
theorem labelled_of_isValueLeaf (h : tree.isValueLeaf = false) (tag : String)
    (ts : List PlainTree) :
    PlainTree.labelled true (some tag) (tree :: ts) = [PlainTree.node tag (tree :: ts)] := by
  cases ts with
  | nil => simp [PlainTree.labelled, PlainTree.tagged, h]
  | cons t ts => rfl

/-- A choice reads **whatever its alternatives read**, since it has no tag. -/
theorem Reads.alt (h : Reads token t p) (id : ExprId) {ids : List ExprId}
    (he : written.expr? id = some (.alt none ids)) (hc : token ∈ ids) : Reads id t p := by
  obtain ⟨tree, hyields, htree⟩ := h
  exact ⟨tree, hyields.alt id he hc, htree⟩

/-- **Brackets** around a phrase, with blanks inside. -/
theorem yields_bracketed {opening closing : ExprId} {tag : Option String} {c c' : Char}
    (hopening : Yields written true opening (characters [c]) [])
    (hclosing : Yields written true closing (characters [c']) []) (hu : Blanks u)
    (hv : Blanks v) (h : Yields written true Part.phrase (characters t) [tree]) (id : ExprId)
    (he : written.expr? id = some
      (.seq tag [opening, Part.optionalSpace, Part.phrase, Part.optionalSpace, closing])) :
    Yields written true id (characters (c :: (u ++ (t ++ (v ++ [c'])))))
      (PlainTree.labelled true tag [tree]) := by
  have hall := (hopening.cons ((yields_optionalSpace hu).cons (h.cons
    ((yields_optionalSpace hv).cons hclosing.singleton)))).seq id he
  simp only [← characters_append] at hall
  exact hall

/-- Parentheses leave **the phrase as it is**. There is no tag, so the tree is that of the phrase
inside. -/
theorem reads_paren (h : Reads Part.phrase t p) (hu : Blanks u) (hv : Blanks v) :
    Reads Part.atom ('(' :: (u ++ (t ++ (v ++ [')'])))) p := by
  obtain ⟨tree, hyields, htree⟩ := h
  have hparen := yields_bracketed (yields_mark '(' Part.openParen rfl rfl)
    (yields_mark ')' Part.closeParen rfl rfl) hu hv hyields Part.paren rfl
  exact ⟨tree, hparen.alt Part.atom rfl (by decide), htree⟩

/-- Angle brackets **omit** the phrase in them. They are not to be seen in the tree but for the tag.
-/
theorem reads_omitted (h : Reads Part.phrase t p) (hu : Blanks u) (hv : Blanks v) :
    Reads Part.atom ('<' :: (u ++ (t ++ (v ++ ['>'])))) (.omitted p) := by
  obtain ⟨tree, hyields, htree⟩ := h
  have hangles := yields_bracketed (yields_mark '<' Part.openAngle rfl rfl)
    (yields_mark '>' Part.closeAngle rfl rfl) hu hv hyields Part.omittedPhrase rfl
  rw [labelled_of_isValueLeaf (isValueLeaf_of_ofTree htree)] at hangles
  refine ⟨_, hangles.alt Part.atom rfl (by decide), ?_⟩
  rw [PlainTree.node, Phrase.ofTree, Phrase.ofTrees_eq_map, List.map_singleton, htree]
  rfl

/-- Square brackets make the phrase in them **lexical**. -/
theorem reads_lexical (h : Reads Part.phrase t p) (hu : Blanks u) (hv : Blanks v) :
    Reads Part.atom ('[' :: (u ++ (t ++ (v ++ [']'])))) (.lexical p) := by
  obtain ⟨tree, hyields, htree⟩ := h
  have hbrackets := yields_bracketed (yields_mark '[' Part.openBracket rfl rfl)
    (yields_mark ']' Part.closeBracket rfl rfl) hu hv hyields Part.lexicalPhrase rfl
  rw [labelled_of_isValueLeaf (isValueLeaf_of_ofTree htree)] at hbrackets
  refine ⟨_, hbrackets.alt Part.atom rfl (by decide), ?_⟩
  rw [PlainTree.node, Phrase.ofTree, Phrase.ofTrees_eq_map, List.map_singleton, htree]
  rfl

/-! ### Quantifiers -/

/-- What stands **after an atom** gives the bounds. -/
theorem reads_repeated {q : Quantifier} {tag : String} {ids : List ExprId}
    {bounds : List PlainTree} (h : Reads Part.atom t p)
    (hrest : YieldsAll written true ids (characters u) bounds) (id : ExprId)
    (he : written.expr? id = some (.seq (some tag) (Part.atom :: ids)))
    (htag : ∀ tree : PlainTree, Phrase.assemble { tag := some tag } (tree :: bounds)
      (.ok p :: Phrase.ofTrees bounds) = .ok (.repeated p q)) :
    Reads id (t ++ u) (.repeated p q) := by
  obtain ⟨tree, hyields, htree⟩ := h
  have hall := (hyields.cons hrest).seq id he
  rw [List.singleton_append, labelled_of_isValueLeaf (isValueLeaf_of_ofTree htree),
    ← characters_append] at hall
  refine ⟨_, hall, ?_⟩
  rw [PlainTree.node, Phrase.ofTree, Phrase.ofTrees, htree]
  exact htag tree

/-- An atom with a quantifier behind it reads as the phrase **repeated**. The tag of the node says
which quantifier it is, and the numbers come as children behind the phrase. -/
theorem reads_quantified {q : Quantifier} (h : Reads Part.atom t p)
    (hq : WritesQuantifier q u) : Reads Part.quantified (t ++ u) (.repeated p q) := by
  have hopening := yields_mark '\x7b' Part.openBrace rfl rfl
  have hclosing := (yields_mark '\x7d' Part.closeBrace rfl rfl).singleton
  have hcomma := yields_mark ',' Part.comma rfl rfl
  cases hq with
  -- the three quantifiers of one character are alternatives of one mark each
  | star =>
    exact (reads_repeated h (yields_mark '*' Part.star rfl rfl).singleton Part.repStar rfl
      fun _ => rfl).alt _ rfl (by decide)
  | plus =>
    exact (reads_repeated h (yields_mark '+' Part.plus rfl rfl).singleton Part.repPlus rfl
      fun _ => rfl).alt _ rfl (by decide)
  | question =>
    exact (reads_repeated h (yields_mark '?' Part.question rfl rfl).singleton Part.repQuestion rfl
      fun _ => rfl).alt _ rfl (by decide)
  -- the braced ones read back the bound that their digits write
  | @exact n digits hn =>
    obtain ⟨number, hnumber, hbound⟩ := exists_yields_integer hn
    have hrest := hopening.cons (hnumber.cons hclosing)
    rw [← characters_append, ← characters_append] at hrest
    refine (reads_repeated h hrest Part.repExact rfl fun tree => ?_).alt _ rfl (by decide)
    show (do return Phrase.repeated p (.exact (← Quantifier.boundOfTree number))) = _
    rw [hbound]
    rfl
  | @min n digits hn =>
    obtain ⟨number, hnumber, hbound⟩ := exists_yields_integer hn
    have hrest := hopening.cons (hnumber.cons (hcomma.cons hclosing))
    rw [← characters_append, ← characters_append, ← characters_append] at hrest
    refine (reads_repeated h hrest Part.repMin rfl fun tree => ?_).alt _ rfl (by decide)
    show (do return Phrase.repeated p (.min (← Quantifier.boundOfTree number))) = _
    rw [hbound]
    rfl
  | @minMax n m digits digits' hn hm =>
    obtain ⟨least, hleast, hmin⟩ := exists_yields_integer hn
    obtain ⟨most, hmost, hmax⟩ := exists_yields_integer hm
    have hrest := hopening.cons (hleast.cons (hcomma.cons (hmost.cons hclosing)))
    rw [← characters_append, ← characters_append, ← characters_append, ← characters_append] at hrest
    refine (reads_repeated h hrest Part.repMinMax rfl fun tree => ?_).alt _ rfl (by decide)
    show (do
      let n ← Quantifier.boundOfTree least
      return Phrase.repeated p (.minMax n (← Quantifier.boundOfTree most))) = _
    rw [hmin, hmax]
    rfl

/-! ### Sequences and alternations -/

theorem readsAll_nil : ReadsAll [] [] [] := ⟨[], yieldsAll_nil, rfl⟩

/-- Phrases in order are **read one after another**. -/
theorem Reads.cons {ids : List ExprId} (h : Reads id t p) (hs : ReadsAll ids u ps) :
    ReadsAll (id :: ids) (t ++ u) (p :: ps) := by
  obtain ⟨tree, hyields, htree⟩ := h
  obtain ⟨trees, hall, htrees⟩ := hs
  refine ⟨tree :: trees, ?_, ?_⟩
  · rw [characters_append]
    exact hyields.cons hall
  · rw [List.map_cons, List.map_cons, htree, htrees]

/-- **A part after a separator** is read as the part. So a list is read as its parts, whatever
stands between them. -/
theorem Reads.after {separator : ExprId} (h : Reads token t p)
    (hseparator : Yields written true separator (characters u) []) (id : ExprId)
    (he : written.expr? id = some (.seq none [separator, token])) : Reads id (u ++ t) p := by
  obtain ⟨tree, hyields, htree⟩ := h
  refine ⟨tree, ?_, htree⟩
  rw [characters_append]
  exact (hseparator.cons hyields.singleton).seq id he

/-- **A part and further parts** are read as one phrase. There are two parts at least, or the first
would stand for the whole. -/
theorem reads_parts {part next more : ExprId} {tag : String} {wrap : List Phrase → Phrase}
    (h : Reads part t p) (hs : ReadsAll (List.replicate ps.length next) u ps) (hne : ps ≠ [])
    (hmore : written.expr? more = some (.rep none next 1 none)) (id : ExprId)
    (he : written.expr? id = some (.seq (some tag) [part, more]))
    (htag : ∀ trees : List PlainTree, Phrase.assemble { tag := some tag } trees
      ((p :: ps).map .ok) = .ok (wrap (p :: ps))) : Reads id (t ++ u) (wrap (p :: ps)) := by
  obtain ⟨tree, hyields, htree⟩ := h
  obtain ⟨trees, hall, htrees⟩ := hs
  have hparts := hall.rep_untagged more hmore (List.length_pos_iff.mpr hne)
  have hboth := (hyields.cons hparts.singleton).seq id he
  rw [List.singleton_append, labelled_of_isValueLeaf (isValueLeaf_of_ofTree htree),
    ← characters_append] at hboth
  refine ⟨_, hboth, ?_⟩
  rw [PlainTree.node, Phrase.ofTree, Phrase.ofTrees_eq_map, List.map_cons, htree, htrees,
    ← List.map_cons]
  exact htag _

/-! ### Every way to write a phrase -/

mutual

/-- What writes an atom **is read as one**. This and the following five go by the way in which the
text is written, all at once. -/
theorem reads_atom {p : Phrase} {t : List Char} : WritesAtom p t → Reads Part.atom t p
  | .symbol h => ⟨_, (yields_symbol h).alt Part.atom rfl (by decide), rfl⟩
  | .literal s => ⟨_, (yields_literal s).alt Part.atom rfl (by decide), rfl⟩
  | .pattern s => ⟨_, (yields_pattern s).alt Part.atom rfl (by decide), rfl⟩
  | .paren hu h hv => reads_paren (reads_phrase h) hu hv
  | .omitted hu h hv => reads_omitted (reads_phrase h) hu hv
  | .lexical hu h hv => reads_lexical (reads_phrase h) hu hv

/-- What writes an item is read as **an atom with or without a quantifier**. -/
theorem reads_item {p : Phrase} {t : List Char} :
    WritesItem p t → ∃ id ∈ [Part.atom, Part.quantified], Reads id t p
  | .atom h => ⟨Part.atom, by decide, reads_atom h⟩
  | .repeated h hq => ⟨Part.quantified, by decide, reads_quantified (reads_atom h) hq⟩

/-- What writes items is read **item by item**. -/
theorem reads_items {ps : List Phrase} {t : List Char} :
    WritesItems ps t → ReadsAll (List.replicate ps.length Part.nextItem) t ps
  | .nil => readsAll_nil
  | .cons hu hne h hs => by
    obtain ⟨id, hid, hread⟩ := reads_item h
    have hitem := hread.alt Part.item rfl hid
    rw [← List.append_assoc]
    exact (hitem.after (yields_gap hu hne) Part.nextItem rfl).cons (reads_items hs)

/-- What writes a branch is read as **an item or a sequence**. -/
theorem reads_branch {p : Phrase} {t : List Char} :
    WritesBranch p t → ∃ id ∈ [Part.atom, Part.quantified, Part.sequence], Reads id t p
  | .item h => by
    obtain ⟨id, hid, hread⟩ := reads_item h
    exact ⟨id, List.mem_append_left [Part.sequence] hid, hread⟩
  | .seq h hs => by
    obtain ⟨id, hid, hread⟩ := reads_item h
    have hitem := hread.alt Part.item rfl hid
    refine ⟨Part.sequence, by decide, reads_parts hitem (reads_items hs) (List.cons_ne_nil _ _)
      rfl Part.sequence rfl fun trees => ?_⟩
    exact congrArg (Phrase.seq <$> ·) (Phrase.mapM_id_ok _)

/-- What writes branches is read **branch by branch**. -/
theorem reads_branches {ps : List Phrase} {t : List Char} :
    WritesBranches ps t → ReadsAll (List.replicate ps.length Part.nextBranch) t ps
  | .nil => readsAll_nil
  | .cons hu hv h hs => by
    obtain ⟨id, hid, hread⟩ := reads_branch h
    have hbranch := hread.alt Part.branch rfl hid
    have hall := (hbranch.after (yields_bar hu hv) Part.nextBranch rfl).cons (reads_branches hs)
    rw [List.append_assoc, List.append_assoc] at hall
    exact hall

/-- **What writes a phrase is read as the phrase.** It is read as a branch or an alternation, and
those read as a branch have no tag of their own. -/
theorem reads_phrase {p : Phrase} {t : List Char} : WritesPhrase p t → Reads Part.phrase t p
  | .branch h => by
    obtain ⟨id, hid, hread⟩ := reads_branch h
    exact hread.alt Part.phrase rfl (List.mem_append_left [Part.alternation] hid)
  | .alt h hs => by
    obtain ⟨id, hid, hread⟩ := reads_branch h
    have hbranch := hread.alt Part.branch rfl hid
    have hall := reads_parts hbranch (reads_branches hs) (List.cons_ne_nil _ _) rfl
      Part.alternation rfl fun trees => congrArg (Phrase.alt <$> ·) (Phrase.mapM_id_ok _)
    exact hall.alt Part.phrase rfl (by decide)

end

/-! ### Rules -/

variable {r : Rule} {rs : List Rule} {sign : List Char}

/-- The signs of definition yield nothing, so it **does not matter which** is written. -/
theorem yields_definedAs (h : sign ∈ definitionSigns) :
    Yields written true Part.definedAs (characters sign) [] := by
  have hcolon : Yields written true Part.colon (characters [':']) [PlainTree.value ":"] :=
    yields_token _ rfl
  have hequals : Yields written true Part.equals (characters ['=']) [PlainTree.value "="] :=
    yields_token _ rfl
  simp only [definitionSigns, List.mem_cons, List.not_mem_nil, or_false] at h
  rcases h with rfl | rfl | rfl
  · exact (hequals.alt Part.definition rfl (by decide)).omitted _ rfl
  · have hsign := (hcolon.cons hequals.singleton).seq Part.colonEquals rfl
    exact (hsign.alt Part.definition rfl (by decide)).omitted _ rfl
  · have hsign := (hcolon.cons (hcolon.cons hequals.singleton)).seq Part.colonColonEquals rfl
    exact (hsign.alt Part.definition rfl (by decide)).omitted _ rfl

/-- The **name of a rule** says whether the rule is hidden. -/
theorem yields_ruleName (h : IsName r.name) :
    Yields written true Part.ruleName (characters (nameText r))
      [PlainTree.taggedValue (if r.hidden then "hiddenSymbol" else "symbol") r.name] := by
  rw [nameText]
  split
  · exact (yields_hiddenSymbol h).alt Part.ruleName rfl (by decide)
  · exact (yields_symbol h).alt Part.ruleName rfl (by decide)

/-- **What writes a rule is read as the rule.** The tree is a node over the name and the body. -/
theorem exists_yields_rule (h : WritesRule r t) :
    ∃ tree, Yields written true Part.rule (characters t) [tree] ∧ Rule.ofTree tree = .ok r := by
  obtain ⟨hname, hu, hsign, hv, hbody⟩ := h
  obtain ⟨tree, hyields, htree⟩ := reads_phrase hbody
  have hall := ((yields_ruleName hname).cons ((yields_optionalSpace hu).cons
    ((yields_definedAs hsign).cons ((yields_optionalSpace hv).cons hyields.singleton)))).seq
      Part.rule rfl
  simp only [← characters_append] at hall
  refine ⟨_, hall, ?_⟩
  have hrule : ∀ (hidden : Bool) (name : String), Rule.ofTree (PlainTree.node "rule"
      [PlainTree.taggedValue (if hidden then "hiddenSymbol" else "symbol") name, tree]) =
      (do return ⟨name, hidden, ← Phrase.ofTree tree⟩) := by
    intro hidden name
    cases hidden <;> rfl
  exact (hrule r.hidden r.name).trans (by rw [htree]; rfl)

/-- What writes more rules is read **rule by rule**. -/
theorem exists_yields_nextRules (h : WritesRules rs t) : ∃ trees,
    YieldsAll written true (List.replicate rs.length Part.nextRule) (characters t) trees ∧
      trees.mapM Rule.ofTree = .ok rs := by
  induction h with
  | nil => exact ⟨[], yieldsAll_nil, rfl⟩
  | @cons r rs u v t ts mark hu hmark hv hr _ ih =>
    obtain ⟨tree, hyields, htree⟩ := exists_yields_rule hr
    obtain ⟨trees, hall, htrees⟩ := ih
    have hmark : ∃ out, Yields written true Part.separatorMark (characters [mark]) out := by
      rcases hmark with rfl | rfl
      · have hnewline : Yields written true Part.newline (characters ['\n']) _ := yields_token _ rfl
        exact ⟨_, hnewline.alt _ rfl (by decide)⟩
      · have hsemicolon : Yields written true Part.semicolon (characters [';']) _ :=
          yields_token _ rfl
        exact ⟨_, hsemicolon.alt _ rfl (by decide)⟩
    obtain ⟨out, hmark⟩ := hmark
    have hseparator := ((yields_optionalSpace hu).cons (hmark.cons
      (yields_optionalSpace hv).singleton)).seq Part.spacedSeparator rfl
    have hnext := ((hseparator.omitted Part.separator rfl).cons hyields.singleton).seq
      Part.nextRule rfl
    have hcons := hnext.cons hall
    simp only [← characters_append, List.append_assoc] at hcons
    refine ⟨tree :: trees, hcons, ?_⟩
    rw [List.mapM_cons, htree, htrees]
    rfl

/-- What holds a rule is **no untagged value**. -/
theorem isValueLeaf_of_ofTree_rule {ι : Type} {t : Tree ι} (h : Rule.ofTree t = .ok r) :
    t.isValueLeaf = false := by
  have htag : t.label.tag ≠ none := by
    intro hnone
    rw [Rule.ofTree, hnone] at h
    cases h
  cases ht : t.label.tag <;> simp_all [Tree.isValueLeaf]

/-- **What writes rules is read as the rules.** A single rule is under the same tag as several are.
-/
theorem exists_yields_rules (h : WritesRule r t) (hs : WritesRules rs u) :
    ∃ tree, Yields written true Part.rules (characters (t ++ u)) [tree] ∧
      Rule.listOfTree tree = .ok (r :: rs) := by
  obtain ⟨tree, hyields, htree⟩ := exists_yields_rule h
  obtain ⟨trees, hall, htrees⟩ := exists_yields_nextRules hs
  have hmore := hall.rep_untagged Part.nextRules rfl (Nat.zero_le _)
  have hboth := (hyields.cons hmore.singleton).seq Part.rules rfl
  rw [List.singleton_append, labelled_of_isValueLeaf (isValueLeaf_of_ofTree_rule htree),
    ← characters_append] at hboth
  refine ⟨_, hboth, ?_⟩
  show (tree :: trees).mapM Rule.ofTree = _
  rw [List.mapM_cons, htree, htrees]
  rfl

/-- Blanks and a semicolon **after the rules** leave no trace. So the tree of a text is that of its
rules. -/
theorem yields_text (h : Yields written true Part.rules (characters t) [tree]) (hv : Blanks v) :
    Yields written true Part.text (characters (t ++ v)) [tree] ∧
      Yields written true Part.text (characters (t ++ (v ++ [';']))) [tree] := by
  have htext : ∀ {z}, Yields written true Part.trailing (characters z) [] →
      Yields written true Part.text (characters (t ++ (v ++ z))) [tree] := by
    intro z htrailing
    have hall := (h.cons ((yields_optionalSpace hv).cons htrailing.singleton)).seq Part.text rfl
    rwa [← characters_append, ← characters_append] at hall
  constructor
  · have hnone : Yields written true Part.lastSemicolon (characters []) [] := yields_rep_nil _ rfl
    have hall := htext (hnone.omitted Part.trailing rfl)
    rwa [List.append_nil] at hall
  · have hsemicolon : Yields written true Part.semicolon (characters [';']) _ :=
      yields_token _ rfl
    exact htext ((hsemicolon.singleton.rep (k := 0) Part.lastSemicolon rfl (Nat.zero_le _)
      (by simp)).omitted _ rfl)

end Dialect

end GeneralParsing
