import GeneralParsing.Proofs.Dialect.Layout

/-!
# Ways to write rules

`WritesText rules text` says that a text is a way to write rules in the dialect. Names and strings
are written in one way only, numbers also with zeros in front. Blanks may stand where the dialect
allows them, and have to between the items of a sequence; parentheses may stand around every
phrase. A phrase is an alternation of branches, a branch is a sequence of items, and an item is an
atom with or without a quantifier, so parentheses are needed where a phrase stands in a place for
something smaller.

Every list of rules that is `Writable` has a way to be written (`exists_writesText`): names have to
be names, numbers have to fit, and sequences and alternations have at least two parts.
-/

namespace GeneralParsing.Dialect

/-- A text of **blanks**, possibly empty. -/
def Blanks (u : List Char) : Prop := ∀ c ∈ u, isBlank c = true

/-- A **name** that a rule can have. -/
def IsName (name : String) : Prop :=
  name.toList ≠ [] ∧ ∀ c ∈ name.toList, isNameCharacter c = true

instance : DecidablePred Blanks := fun u => List.decidableBAll _ u

instance : DecidablePred IsName := fun _ => @instDecidableAnd _ _ _ (List.decidableBAll _ _)

/-- How a character is written **in a string**: quotes and escapes are escaped. -/
def escaped (c : Char) : List Char := if c = '"' ∨ c = '\\' then ['\\', c] else [c]

/-- How a **string** is written. -/
def quotedText (s : String) : List Char := '"' :: (s.toList.flatMap escaped ++ ['"'])

/-- Digits that **write a number**. The number has to fit in 64 bits. -/
structure WritesNumber (n : Nat) (digits : List Char) : Prop where
  ne_nil : digits ≠ []
  digit : ∀ c ∈ digits, c.isDigit = true
  value : Nat.ofDigitChars 10 digits 0 = n
  lt : n < 2 ^ 64

/-- A text that **writes a quantifier**. -/
inductive WritesQuantifier : Quantifier → List Char → Prop
  | star : WritesQuantifier .star ['*']
  | plus : WritesQuantifier .plus ['+']
  | question : WritesQuantifier .question ['?']
  | exact {n : Nat} {t : List Char} (h : WritesNumber n t) :
      WritesQuantifier (.exact n) ('\x7b' :: (t ++ ['\x7d']))
  | min {n : Nat} {t : List Char} (h : WritesNumber n t) :
      WritesQuantifier (.min n) ('\x7b' :: (t ++ [',', '\x7d']))
  | minMax {n m : Nat} {t u : List Char} (h : WritesNumber n t) (h' : WritesNumber m u) :
      WritesQuantifier (.minMax n m) ('\x7b' :: (t ++ ',' :: (u ++ ['\x7d'])))

/-! ### Phrases -/

mutual

/-- A text that writes a phrase **as an atom**. -/
inductive WritesAtom : Phrase → List Char → Prop
  | symbol {name : String} (h : IsName name) : WritesAtom (.symbol name) name.toList
  | literal (s : String) : WritesAtom (.literal s) (quotedText s)
  | pattern (s : String) : WritesAtom (.pattern s) ('#' :: quotedText s)
  | paren {p : Phrase} {u t v : List Char} (hu : Blanks u) (h : WritesPhrase p t) (hv : Blanks v) :
      WritesAtom p ('(' :: (u ++ (t ++ (v ++ [')']))))
  | omitted {p : Phrase} {u t v : List Char} (hu : Blanks u) (h : WritesPhrase p t)
      (hv : Blanks v) : WritesAtom (.omitted p) ('<' :: (u ++ (t ++ (v ++ ['>']))))
  | lexical {p : Phrase} {u t v : List Char} (hu : Blanks u) (h : WritesPhrase p t)
      (hv : Blanks v) : WritesAtom (.lexical p) ('[' :: (u ++ (t ++ (v ++ [']']))))

/-- A text that writes a phrase **as an item of a sequence**. -/
inductive WritesItem : Phrase → List Char → Prop
  | atom {p : Phrase} {t : List Char} (h : WritesAtom p t) : WritesItem p t
  | repeated {p : Phrase} {q : Quantifier} {t u : List Char} (h : WritesAtom p t)
      (hq : WritesQuantifier q u) : WritesItem (.repeated p q) (t ++ u)

/-- A text that writes a phrase **as a branch of an alternation**. -/
inductive WritesBranch : Phrase → List Char → Prop
  | item {p : Phrase} {t : List Char} (h : WritesItem p t) : WritesBranch p t
  | seq {p q : Phrase} {ps : List Phrase} {t ts : List Char} (h : WritesItem p t)
      (hs : WritesItems (q :: ps) ts) : WritesBranch (.seq (p :: q :: ps)) (t ++ ts)

/-- A text that writes **items**, each after blanks. -/
inductive WritesItems : List Phrase → List Char → Prop
  | nil : WritesItems [] []
  | cons {p : Phrase} {ps : List Phrase} {u t ts : List Char} (hu : Blanks u) (hne : u ≠ [])
      (h : WritesItem p t) (hs : WritesItems ps ts) : WritesItems (p :: ps) (u ++ (t ++ ts))

/-- A text that writes **a phrase**. -/
inductive WritesPhrase : Phrase → List Char → Prop
  | branch {p : Phrase} {t : List Char} (h : WritesBranch p t) : WritesPhrase p t
  | alt {p q : Phrase} {ps : List Phrase} {t ts : List Char} (h : WritesBranch p t)
      (hs : WritesBranches (q :: ps) ts) : WritesPhrase (.alt (p :: q :: ps)) (t ++ ts)

/-- A text that writes **branches**, each after a bar. -/
inductive WritesBranches : List Phrase → List Char → Prop
  | nil : WritesBranches [] []
  | cons {p : Phrase} {ps : List Phrase} {u v t ts : List Char} (hu : Blanks u) (hv : Blanks v)
      (h : WritesBranch p t) (hs : WritesBranches ps ts) :
      WritesBranches (p :: ps) (u ++ '|' :: (v ++ (t ++ ts)))

end

/-! ### Rules -/

/-- The **signs** between the name and the body of a rule. -/
def definitionSigns : List (List Char) := [['='], [':', '='], [':', ':', '=']]

/-- How the **name of a rule** is written: in angles if the rule is hidden. -/
def nameText (r : Rule) : List Char :=
  if r.hidden then '<' :: (r.name.toList ++ ['>']) else r.name.toList

/-- A text that writes **a rule**. -/
inductive WritesRule : Rule → List Char → Prop
  | rule {r : Rule} {u sign v t : List Char} (hname : IsName r.name) (hu : Blanks u)
      (hsign : sign ∈ definitionSigns) (hv : Blanks v) (h : WritesPhrase r.body t) :
      WritesRule r (nameText r ++ (u ++ (sign ++ (v ++ t))))

/-- A text that writes **more rules**, each after a newline or a semicolon. -/
inductive WritesRules : List Rule → List Char → Prop
  | nil : WritesRules [] []
  | cons {r : Rule} {rs : List Rule} {u v t ts : List Char} {mark : Char} (hu : Blanks u)
      (hmark : mark = '\n' ∨ mark = ';') (hv : Blanks v) (h : WritesRule r t)
      (hs : WritesRules rs ts) : WritesRules (r :: rs) (u ++ mark :: (v ++ (t ++ ts)))

/-- **A text that writes rules**, with blanks around them and possibly a semicolon after them. -/
inductive WritesText : List Rule → List Char → Prop
  | plain {r : Rule} {rs : List Rule} {u t ts v : List Char} (hu : Blanks u) (h : WritesRule r t)
      (hs : WritesRules rs ts) (hv : Blanks v) : WritesText (r :: rs) (u ++ (t ++ ts ++ v))
  | semicolon {r : Rule} {rs : List Rule} {u t ts v z : List Char} (hu : Blanks u)
      (h : WritesRule r t) (hs : WritesRules rs ts) (hv : Blanks v) (hz : Blanks z) :
      WritesText (r :: rs) (u ++ (t ++ ts ++ v ++ ';' :: z))

/-! ### What can be written -/

/-- A quantifier **whose numbers fit**. -/
def FitsQuantifier (q : Quantifier) : Prop :=
  q.bounds.1 < 2 ^ 64 ∧ ∀ m, q.bounds.2 = some m → m < 2 ^ 64

/-- A phrase that **can be written**. -/
inductive WritablePhrase : Phrase → Prop
  | symbol {name : String} (h : IsName name) : WritablePhrase (.symbol name)
  | literal (s : String) : WritablePhrase (.literal s)
  | pattern (s : String) : WritablePhrase (.pattern s)
  | seq {p q : Phrase} {ps : List Phrase} (h : ∀ r ∈ p :: q :: ps, WritablePhrase r) :
      WritablePhrase (.seq (p :: q :: ps))
  | alt {p q : Phrase} {ps : List Phrase} (h : ∀ r ∈ p :: q :: ps, WritablePhrase r) :
      WritablePhrase (.alt (p :: q :: ps))
  | repeated {p : Phrase} {q : Quantifier} (h : WritablePhrase p) (hq : FitsQuantifier q) :
      WritablePhrase (.repeated p q)
  | omitted {p : Phrase} (h : WritablePhrase p) : WritablePhrase (.omitted p)
  | lexical {p : Phrase} (h : WritablePhrase p) : WritablePhrase (.lexical p)

section

variable {name text source : String} {p q : Phrase} {ps : List Phrase} {quantifier : Quantifier}

@[simp] theorem writablePhrase_symbol : WritablePhrase (.symbol name) ↔ IsName name :=
  ⟨fun h => by cases h with | symbol h => exact h, .symbol⟩

@[simp] theorem writablePhrase_literal : WritablePhrase (.literal text) := .literal text
@[simp] theorem writablePhrase_pattern : WritablePhrase (.pattern source) := .pattern source

@[simp] theorem writablePhrase_seq : WritablePhrase (.seq (p :: q :: ps)) ↔
    ∀ r ∈ p :: q :: ps, WritablePhrase r :=
  ⟨fun h => by cases h with | seq h => exact h, .seq⟩

@[simp] theorem writablePhrase_alt : WritablePhrase (.alt (p :: q :: ps)) ↔
    ∀ r ∈ p :: q :: ps, WritablePhrase r :=
  ⟨fun h => by cases h with | alt h => exact h, .alt⟩

@[simp] theorem writablePhrase_repeated : WritablePhrase (.repeated p quantifier) ↔
    WritablePhrase p ∧ FitsQuantifier quantifier :=
  ⟨fun h => by cases h with | repeated h hq => exact ⟨h, hq⟩, fun h => .repeated h.1 h.2⟩

@[simp] theorem writablePhrase_omitted : WritablePhrase (.omitted p) ↔ WritablePhrase p :=
  ⟨fun h => by cases h with | omitted h => exact h, .omitted⟩

@[simp] theorem writablePhrase_lexical : WritablePhrase (.lexical p) ↔ WritablePhrase p :=
  ⟨fun h => by cases h with | lexical h => exact h, .lexical⟩

end

/-- **Rules that can be written**: there are some, and their names and bodies can be. -/
structure Writable (rs : List Rule) : Prop where
  ne_nil : rs ≠ []
  name : ∀ r ∈ rs, IsName r.name
  body : ∀ r ∈ rs, WritablePhrase r.body

/-- A number is written **by its digits** in base ten, without leading zeros. -/
theorem writesNumber_toDigits {n : Nat} (h : n < 2 ^ 64) : WritesNumber n (Nat.toDigits 10 n) where
  ne_nil := Nat.toDigits_ne_nil
  digit _ hc := Nat.isDigit_of_mem_toDigits (by decide) (by decide) hc
  value := Nat.ofDigitChars_toDigits (by decide) (by decide)
  lt := h

/-- Every quantifier whose numbers fit **can be written**. -/
theorem exists_writesQuantifier {q : Quantifier} (h : FitsQuantifier q) :
    ∃ t, WritesQuantifier q t := by
  obtain ⟨hmin, hmax⟩ := h
  cases q with
  | star => exact ⟨_, .star⟩
  | plus => exact ⟨_, .plus⟩
  | question => exact ⟨_, .question⟩
  | exact n => exact ⟨_, .exact (writesNumber_toDigits hmin)⟩
  | min n => exact ⟨_, .min (writesNumber_toDigits hmin)⟩
  | minMax n m =>
    exact ⟨_, .minMax (writesNumber_toDigits hmin) (writesNumber_toDigits (hmax m rfl))⟩

theorem blanks_nil : Blanks [] := by decide

/-- Items can be written if each of them can be **as an atom**, which parentheses make of any
phrase. -/
theorem exists_writesItems {ps : List Phrase} (h : ∀ p ∈ ps, ∃ t, WritesAtom p t) :
    ∃ t, WritesItems ps t := by
  induction ps with
  | nil => exact ⟨[], .nil⟩
  | cons p ps ih =>
    obtain ⟨⟨t, ht⟩, hps⟩ := List.forall_mem_cons.mp h
    obtain ⟨ts, hts⟩ := ih hps
    have hblank : Blanks [' '] := by decide
    exact ⟨_, .cons hblank (List.cons_ne_nil _ _) (.atom ht) hts⟩

/-- Branches can be written if each of them can be **as an atom**. -/
theorem exists_writesBranches {ps : List Phrase} (h : ∀ p ∈ ps, ∃ t, WritesAtom p t) :
    ∃ t, WritesBranches ps t := by
  induction ps with
  | nil => exact ⟨[], .nil⟩
  | cons p ps ih =>
    obtain ⟨⟨t, ht⟩, hps⟩ := List.forall_mem_cons.mp h
    obtain ⟨ts, hts⟩ := ih hps
    exact ⟨_, .cons blanks_nil blanks_nil (.item (.atom ht)) hts⟩

/-- What can be written can be written **as an atom**, in parentheses if need be. The induction is
on the phrase, and parentheses are put around whatever needs them. -/
theorem exists_writesAtom {p : Phrase} (h : WritablePhrase p) : ∃ t, WritesAtom p t := by
  have hparen : ∀ {p t}, WritesPhrase p t → ∃ u, WritesAtom p u :=
    fun ht => ⟨_, .paren blanks_nil ht blanks_nil⟩
  induction h with
  | symbol h => exact ⟨_, .symbol h⟩
  | literal s => exact ⟨_, .literal s⟩
  | pattern s => exact ⟨_, .pattern s⟩
  | seq _ ih =>
    obtain ⟨⟨t, ht⟩, hps⟩ := List.forall_mem_cons.mp ih
    obtain ⟨ts, hts⟩ := exists_writesItems hps
    exact hparen (.branch (.seq (.atom ht) hts))
  | alt _ ih =>
    obtain ⟨⟨t, ht⟩, hps⟩ := List.forall_mem_cons.mp ih
    obtain ⟨ts, hts⟩ := exists_writesBranches hps
    exact hparen (.alt (.item (.atom ht)) hts)
  | repeated _ hq ih =>
    obtain ⟨t, ht⟩ := ih
    obtain ⟨u, hu⟩ := exists_writesQuantifier hq
    exact hparen (.branch (.item (.repeated ht hu)))
  | omitted _ ih =>
    obtain ⟨t, ht⟩ := ih
    exact ⟨_, .omitted blanks_nil (.branch (.item (.atom ht))) blanks_nil⟩
  | lexical _ ih =>
    obtain ⟨t, ht⟩ := ih
    exact ⟨_, .lexical blanks_nil (.branch (.item (.atom ht))) blanks_nil⟩

/-- A rule can be written if **its name and its body** can be. -/
theorem exists_writesRule {r : Rule} (hname : IsName r.name) (hbody : WritablePhrase r.body) :
    ∃ t, WritesRule r t := by
  obtain ⟨t, ht⟩ := exists_writesAtom hbody
  exact ⟨_, .rule hname blanks_nil List.mem_cons_self blanks_nil (.branch (.item (.atom ht)))⟩

/-- More rules can be written, **each on a line** of its own. -/
theorem exists_writesRules {rs : List Rule} (hname : ∀ r ∈ rs, IsName r.name)
    (hbody : ∀ r ∈ rs, WritablePhrase r.body) : ∃ t, WritesRules rs t := by
  induction rs with
  | nil => exact ⟨[], .nil⟩
  | cons r rs ih =>
    obtain ⟨hr, hnames⟩ := List.forall_mem_cons.mp hname
    obtain ⟨hp, hbodies⟩ := List.forall_mem_cons.mp hbody
    obtain ⟨t, ht⟩ := exists_writesRule hr hp
    obtain ⟨ts, hts⟩ := ih hnames hbodies
    exact ⟨_, .cons blanks_nil (.inl rfl) blanks_nil ht hts⟩

/-- **Rules that can be written have a text.** So the dialect can express all rules but those with
names that are no names or numbers that do not fit. -/
theorem exists_writesText {rs : List Rule} (h : Writable rs) : ∃ t, WritesText rs t := by
  match rs, h.ne_nil with
  | r :: rs, _ =>
    obtain ⟨hr, hnames⟩ := List.forall_mem_cons.mp h.name
    obtain ⟨hp, hbodies⟩ := List.forall_mem_cons.mp h.body
    obtain ⟨t, ht⟩ := exists_writesRule hr hp
    obtain ⟨ts, hts⟩ := exists_writesRules hnames hbodies
    exact ⟨_, .plain blanks_nil ht hts blanks_nil⟩

/-! ### An example -/

/-- Rules for **sums of numbers**, with a sign between two of them. -/
def sumRules : List Rule :=
  [⟨"sum", false, .alt [.seq [.symbol "sum", .pattern "[+\\-]", .symbol "num"], .symbol "num"]⟩,
    ⟨"num", true, .lexical (.repeated (.pattern "[0-9]") (.min 1))⟩]

theorem isName_sum : IsName "sum" := by decide

theorem isName_num : IsName "num" := by decide

/-- The rules for sums **can be written**. -/
theorem writable_sumRules : Writable sumRules where
  ne_nil := List.cons_ne_nil _ _
  name := by simp [sumRules, isName_sum, isName_num]
  body := by
    have hfits : FitsQuantifier (.min 1) := by simp [FitsQuantifier, Quantifier.bounds]
    simp only [sumRules, List.forall_mem_cons]
    refine ⟨.alt ?_, .lexical (.repeated (.pattern _) hfits), by simp⟩
    simp only [List.forall_mem_cons]
    refine ⟨.seq ?_, .symbol isName_num, by simp⟩
    simp only [List.forall_mem_cons]
    exact ⟨.symbol isName_sum, .pattern _, .symbol isName_num, by simp⟩

/-- A text for them with blanks, **needless parentheses**, an escape and a leading zero. -/
def sumText : List Char :=
  "\n sum = sum #\"[+\\\\-]\" (num)| num ; <num> ::=[#\"[0-9]\"\x7b01,\x7d] ;\n".toList

/-- The text **writes the rules for sums**, needless parentheses and all. -/
theorem writes_sumText : WritesText sumRules sumText := by
  have hblank : Blanks [' '] := by decide
  have hone : WritesNumber 1 ['0', '1'] := ⟨by decide, by simp, by decide, by decide⟩
  have hnum : WritesItem (.symbol "num") _ := .atom (.symbol isName_num)
  have hsigned : WritesBranch (.seq [.symbol "sum", .pattern "[+\\-]", .symbol "num"]) _ :=
    .seq (.atom (.symbol isName_sum)) (.cons hblank (List.cons_ne_nil _ _) (.atom (.pattern _))
      (.cons hblank (List.cons_ne_nil _ _)
        (.atom (.paren blanks_nil (.branch (.item hnum)) blanks_nil)) .nil))
  have hequals : ['='] ∈ definitionSigns := by decide
  have hcolons : [':', ':', '='] ∈ definitionSigns := by decide
  have hsum : WritesRule _ _ := .rule (r := ⟨"sum", false, _⟩) isName_sum hblank hequals hblank
    (.alt hsigned (.cons blanks_nil hblank (.item hnum) .nil))
  have hdigits : WritesRule _ _ := .rule (r := ⟨"num", true, _⟩) isName_num hblank hcolons
    blanks_nil (.branch (.item (.atom (.lexical blanks_nil
      (.branch (.item (.repeated (.pattern "[0-9]") (.min hone)))) blanks_nil))))
  have hstart : Blanks ['\n', ' '] := by decide
  have hend : Blanks ['\n'] := by decide
  exact .semicolon hstart hsum (.cons hblank (.inr rfl) hblank hdigits .nil) hblank hend

end GeneralParsing.Dialect
