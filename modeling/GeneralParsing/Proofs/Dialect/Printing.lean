import GeneralParsing.Proofs.Dialect.Writing

/-!
# The plain way to write rules

Of the many ways to write rules one is **plain**: a rule to a line, one blank where blanks are
needed, and parentheses only around what stands in a place for something smaller
(`plainRules`). Only the blanks around the bars of an alternation are left open. What comes out
writes the rules, if they can be written at all (`writesText_plainRules`).
-/

namespace GeneralParsing.Dialect

variable {t gap : List Char} {p : Phrase} {r : Rule} {rs : List Rule}

/-! ### Places for phrases -/

/-- A **place for a phrase**, from the smallest to the largest. -/
inductive Place where
  /-- Before a quantifier. -/
  | atom
  /-- Among the items of a sequence. -/
  | item
  /-- Among the branches of an alternation. -/
  | branch
  /-- In brackets, or after a definition sign. -/
  | phrase
  deriving DecidableEq

namespace Place

/-- **How much** fits in a place. -/
def room : Place → Nat
  | atom => 0
  | item => 1
  | branch => 2
  | phrase => 3

/-- A text writes a phrase **in a place**. -/
def Writes : Place → Phrase → List Char → Prop
  | atom => WritesAtom
  | item => WritesItem
  | branch => WritesBranch
  | phrase => WritesPhrase

/-- Whatever the place, what is written there **writes a phrase**. -/
theorem Writes.phrase {place : Place} (h : place.Writes p t) : WritesPhrase p t := by
  cases place with
  | atom => exact .branch (.item (.atom h))
  | item => exact .branch (.item h)
  | branch => exact .branch h
  | phrase => exact h

/-- What is written where there is little room may stand **where there is more**. An item is a
branch of one item, and a branch is a phrase of one branch. -/
theorem Writes.mono {place other : Place} (h : place.Writes p t) (hle : place.room ≤ other.room) :
    other.Writes p t := by
  cases place with
  | atom =>
    cases other with
    | atom => exact h
    | item => exact .atom h
    | branch => exact .item (.atom h)
    | phrase => exact h.phrase
  | item =>
    cases other with
    | atom => exact absurd hle (by decide)
    | item => exact h
    | branch => exact .item h
    | phrase => exact h.phrase
  | branch =>
    cases other with
    | atom | item => exact absurd hle (by decide)
    | branch => exact h
    | phrase => exact h.phrase
  | phrase =>
    cases other with
    | atom | item | branch => exact absurd hle (by decide)
    | phrase => exact h

/-- An atom **fits everywhere**. -/
theorem writes_of_atom (h : WritesAtom p t) (place : Place) : place.Writes p t := by
  have hatom : atom.Writes p t := h
  exact hatom.mono (Nat.zero_le _)

/-- What is written for one place, **in parentheses** in a place that is smaller. -/
def fit (place other : Place) (text : List Char) : List Char :=
  if place.room ≤ other.room then text else '(' :: (text ++ [')'])

/-- Parentheses make a phrase fit **wherever there is not enough room** for it. If there is room
enough nothing is put around it. -/
theorem Writes.fit {place : Place} (h : place.Writes p t) (other : Place) :
    other.Writes p (place.fit other t) := by
  rw [Place.fit]
  split
  · next hle => exact h.mono hle
  · have hparen : WritesAtom p ('(' :: ([] ++ (t ++ ([] ++ [')'])))) :=
      .paren blanks_nil h.phrase blanks_nil
    exact writes_of_atom hparen other

end Place

/-! ### Plain text -/

/-- The text of a **quantifier**. -/
def plainQuantifier : Quantifier → List Char
  | .star => ['*']
  | .plus => ['+']
  | .question => ['?']
  | .exact n => '\x7b' :: (Nat.toDigits 10 n ++ ['\x7d'])
  | .min n => '\x7b' :: (Nat.toDigits 10 n ++ [',', '\x7d'])
  | .minMax n m => '\x7b' :: (Nat.toDigits 10 n ++ ',' :: (Nat.toDigits 10 m ++ ['\x7d']))

mutual

/-- The plain text of a **phrase in a place**, with a gap on both sides of every bar. -/
def plainPhrase (gap : List Char) (place : Place) : Phrase → List Char
  | .symbol name => name.toList
  | .literal s => quotedText s
  | .pattern s => '#' :: quotedText s
  | .seq parts => Place.branch.fit place (List.intercalate [' '] (plainPhrases gap .item parts))
  | .alt parts =>
    Place.phrase.fit place (List.intercalate (gap ++ '|' :: gap) (plainPhrases gap .branch parts))
  | .repeated part q => Place.item.fit place (plainPhrase gap .atom part ++ plainQuantifier q)
  | .omitted part => '<' :: (plainPhrase gap .phrase part ++ ['>'])
  | .lexical part => '[' :: (plainPhrase gap .phrase part ++ [']'])

/-- The plain texts of phrases in places **of one kind**. -/
def plainPhrases (gap : List Char) (place : Place) : List Phrase → List (List Char)
  | [] => []
  | p :: ps => plainPhrase gap place p :: plainPhrases gap place ps

end

/-- The plain text of a **rule**. -/
def plainRule (gap : List Char) (r : Rule) : List Char :=
  nameText r ++ [' ', '=', ' '] ++ plainPhrase gap .phrase r.body

/-- The plain text of **rules**, one to a line. The gap at the bars may depend on the rule. -/
def plainRules (gap : Rule → List Char) (rs : List Rule) : List Char :=
  List.intercalate ['\n'] (rs.map fun r => plainRule (gap r) r)

/-! ### What plain text writes -/

theorem intercalate_cons (separator text : List Char) (texts : List (List Char)) :
    List.intercalate separator (text :: texts) = text ++ texts.flatMap (separator ++ ·) := by
  induction texts generalizing text with
  | nil => rw [List.intercalate_singleton, List.flatMap_nil, List.append_nil]
  | cons next texts ih =>
    rw [List.intercalate_cons_cons, ih, List.flatMap_cons, List.append_assoc, List.append_assoc]

theorem plainPhrases_eq_map (gap : List Char) (place : Place) (ps : List Phrase) :
    plainPhrases gap place ps = ps.map (plainPhrase gap place) := by
  induction ps with
  | nil => rfl
  | cons p ps ih => rw [plainPhrases, ih, List.map_cons]

/-- Plain text writes **quantifiers**. -/
theorem writesQuantifier_plain {q : Quantifier} (h : FitsQuantifier q) :
    WritesQuantifier q (plainQuantifier q) := by
  obtain ⟨hmin, hmax⟩ := h
  cases q with
  | star => exact .star
  | plus => exact .plus
  | question => exact .question
  | exact n => exact .exact (writesNumber_toDigits hmin)
  | min n => exact .min (writesNumber_toDigits hmin)
  | minMax n m => exact .minMax (writesNumber_toDigits hmin) (writesNumber_toDigits (hmax m rfl))

/-- Plain text writes **items**, each after one blank. -/
theorem writesItems_plain {ps : List Phrase}
    (h : ∀ p ∈ ps, WritesItem p (plainPhrase gap .item p)) :
    WritesItems ps ((ps.map (plainPhrase gap .item)).flatMap ([' '] ++ ·)) := by
  induction ps with
  | nil => exact .nil
  | cons p ps ih =>
    obtain ⟨hp, hps⟩ := List.forall_mem_cons.mp h
    have hblank : Blanks [' '] := by decide
    rw [List.map_cons, List.flatMap_cons, List.append_assoc]
    exact .cons hblank (List.cons_ne_nil _ _) hp (ih hps)

/-- Plain text writes **branches**, each after a bar between gaps. -/
theorem writesBranches_plain (hgap : Blanks gap) {ps : List Phrase}
    (h : ∀ p ∈ ps, WritesBranch p (plainPhrase gap .branch p)) :
    WritesBranches ps ((ps.map (plainPhrase gap .branch)).flatMap (gap ++ '|' :: gap ++ ·)) := by
  induction ps with
  | nil => exact .nil
  | cons p ps ih =>
    obtain ⟨hp, hps⟩ := List.forall_mem_cons.mp h
    have hcons := WritesBranches.cons hgap hgap hp (ih hps)
    simpa using hcons

/-- The plain text of a phrase **writes it**, in whatever place. The induction is on the phrase;
parts are written for the places where they stand. -/
theorem writes_plainPhrase (hgap : Blanks gap) (h : WritablePhrase p) (place : Place) :
    place.Writes p (plainPhrase gap place p) := by
  induction h generalizing place with
  | symbol h => exact Place.writes_of_atom (.symbol h) place
  | literal s => exact Place.writes_of_atom (.literal s) place
  | pattern s => exact Place.writes_of_atom (.pattern s) place
  | @seq p q ps _ ih =>
    obtain ⟨hp, hps⟩ := List.forall_mem_cons.mp ih
    have hitems := writesItems_plain fun r hr => hps r hr .item
    have hseq : Place.branch.Writes (.seq (p :: q :: ps)) _ := .seq (hp .item) hitems
    rw [plainPhrase, plainPhrases_eq_map, List.map_cons, intercalate_cons]
    exact hseq.fit place
  | @alt p q ps _ ih =>
    obtain ⟨hp, hps⟩ := List.forall_mem_cons.mp ih
    have hbranches := writesBranches_plain hgap fun r hr => hps r hr .branch
    have halt : Place.phrase.Writes (.alt (p :: q :: ps)) _ := .alt (hp .branch) hbranches
    rw [plainPhrase, plainPhrases_eq_map, List.map_cons, intercalate_cons]
    exact halt.fit place
  | @repeated p q _ hq ih =>
    have hrepeated : Place.item.Writes (.repeated p q) _ :=
      .repeated (ih .atom) (writesQuantifier_plain hq)
    exact hrepeated.fit place
  | omitted _ ih => exact Place.writes_of_atom (.omitted blanks_nil (ih .phrase) blanks_nil) place
  | lexical _ ih => exact Place.writes_of_atom (.lexical blanks_nil (ih .phrase) blanks_nil) place

/-- Plain text writes **a rule**, with one blank on either side of the sign. -/
theorem writesRule_plain (hgap : Blanks gap) (hname : IsName r.name)
    (hbody : WritablePhrase r.body) : WritesRule r (plainRule gap r) := by
  have hblank : Blanks [' '] := by decide
  have hequals : ['='] ∈ definitionSigns := by decide
  have hrule := WritesRule.rule hname hblank hequals hblank (writes_plainPhrase hgap hbody .phrase)
  simpa [plainRule] using hrule

/-- **Plain text writes the rules** that it is the text of. What is writable has a text, therefore,
and it can be had by computing it. -/
theorem writesText_plainRules {gap : Rule → List Char} (hgap : ∀ r, Blanks (gap r))
    (h : Writable rs) : WritesText rs (plainRules gap rs) := by
  have hrules : ∀ r ∈ rs, WritesRule r (plainRule (gap r) r) := fun r hr =>
    writesRule_plain (hgap r) (h.name r hr) (h.body r hr)
  have hmore : ∀ rs : List Rule, (∀ r ∈ rs, WritesRule r (plainRule (gap r) r)) →
      WritesRules rs ((rs.map fun r => plainRule (gap r) r).flatMap (['\n'] ++ ·)) := by
    intro rs hrs
    induction rs with
    | nil => exact .nil
    | cons r rs ih =>
      obtain ⟨hr, hrs⟩ := List.forall_mem_cons.mp hrs
      rw [List.map_cons, List.flatMap_cons, List.append_assoc]
      exact .cons blanks_nil (.inl rfl) blanks_nil hr (ih hrs)
  match rs, h.ne_nil with
  | r :: rs, _ =>
    obtain ⟨hr, hrs⟩ := List.forall_mem_cons.mp hrules
    have htext := WritesText.plain blanks_nil hr (hmore rs hrs) blanks_nil
    rw [plainRules, List.map_cons, intercalate_cons]
    simpa using htext

end GeneralParsing.Dialect
