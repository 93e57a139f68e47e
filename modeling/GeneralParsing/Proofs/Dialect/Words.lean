import GeneralParsing.Proofs.Derivation.Sharp
import GeneralParsing.Proofs.Dialect.Layout

/-!
# Words of the dialect

How the words begin that the expressions of the dialect derive, and what may stand after them. An
atom may be followed by anything but a character of names, an item neither by a quantifier nor by
what would make it the name of a rule. A phrase is followed by the end of the text, by a closing
bracket, by a semicolon, or by a name with its definition after blanks. Each of these conditions
is weaker than the next (`EndsPhrase.item`, `EndsItem.atom`).
-/

namespace GeneralParsing

/-- A test for **single characters** passes for symbols of just one character, and only if that is
of the class. -/
theorem single_eq_true_iff {ofClass : Char → Bool} {s : String} :
    single ofClass s = true ↔ ∃ c, s = String.singleton c ∧ ofClass c = true := by
  constructor
  · intro h
    unfold single oneOf at h
    split at h
    · next c hs => exact ⟨c, String.toList_inj.mp (by rw [hs, String.toList_singleton]), h⟩
    · cases h
  · rintro ⟨c, rfl, h⟩
    rw [single, String.toList_singleton]
    exact h

@[simp] theorem single_singleton (ofClass : Char → Bool) (c : Char) :
    single ofClass (String.singleton c) = ofClass c := by
  rw [single, String.toList_singleton, oneOf]

namespace Forest

theorem characters_cons (c : Char) (t : List Char) :
    characters (c :: t) = String.singleton c :: characters t := rfl

theorem characters_append (t u : List Char) :
    characters (t ++ u) = characters t ++ characters u :=
  List.map_append

/-- Splitting a text into characters **loses nothing**: together they are the text again. One may
therefore speak of texts or of words, as is convenient. -/
theorem join_characters (t : List Char) : String.join (characters t) = String.ofList t := by
  induction t with
  | nil => rfl
  | cons c t ih => simp [characters_cons, String.join_cons, ih]

/-- Texts of the **same characters** are the same. -/
theorem characters_injective : Function.Injective characters := by
  refine List.map_injective_iff.mpr fun c d h => ?_
  have hlist := congrArg String.toList h
  rw [String.toList_singleton, String.toList_singleton] at hlist
  exact (List.cons.inj hlist).1

end Forest

namespace Dialect

open GeneralParsing.Derivation

variable {s : String} {w u v t rest : List String} {d : Derivation} {n k : Nat} {id : ExprId}
variable {ok : List String → Prop}

/-- A symbol is **blank**. -/
def Blank (s : String) : Prop := single isBlank s = true

/-- A symbol is a character **of names**. -/
def OfNames (s : String) : Prop := single isNameCharacter s = true

/-- A symbol is a **digit**. -/
def Digit (s : String) : Prop := single Char.isDigit s = true

/-- A symbol that an atom **starts with**. -/
def StartsAtom (s : String) : Prop := OfNames s ∨ s ∈ ["\"", "#", "(", "<", "["]

/-- A symbol that a quantifier **starts with**. -/
def StartsQuantifier (s : String) : Prop := s ∈ ["*", "+", "?", "\x7b"]

/-- A symbol that **closes** a phrase. -/
def Closes (s : String) : Prop := s ∈ [")", ">", "]", ";"]

instance : DecidablePred Blank := fun s => inferInstanceAs (Decidable (single isBlank s = true))

instance : DecidablePred OfNames :=
  fun s => inferInstanceAs (Decidable (single isNameCharacter s = true))

instance : DecidablePred Digit :=
  fun s => inferInstanceAs (Decidable (single Char.isDigit s = true))

instance : DecidablePred StartsAtom := fun _ => inferInstanceAs (Decidable (_ ∨ _))

instance : DecidablePred StartsQuantifier := fun s => inferInstanceAs (Decidable (s ∈ _))

instance : DecidablePred Closes := fun s => inferInstanceAs (Decidable (s ∈ _))

/-- The characters of names lie **in one stretch** of the code points, which settles all comparisons
with them. -/
theorem toNat_of_isNameCharacter {c : Char} (h : isNameCharacter c = true) :
    45 ≤ c.toNat ∧ c.toNat < 123 := by
  simp only [isNameCharacter, Char.isAlphanum, Char.isAlpha, Char.isUpper, Char.isLower,
    Char.isDigit, Bool.or_eq_true, Bool.and_eq_true, decide_eq_true_eq, beq_iff_eq, ge_iff_le,
    UInt32.le_iff_toNat_le] at h
  rcases h with (((h | h) | h) | rfl) | rfl
  · exact ⟨Nat.le_trans (by decide) h.1, Nat.lt_of_le_of_lt h.2 (by decide)⟩
  · exact ⟨Nat.le_trans (by decide) h.1, Nat.lt_of_le_of_lt h.2 (by decide)⟩
  · exact ⟨Nat.le_trans (by decide) h.1, Nat.lt_of_le_of_lt h.2 (by decide)⟩
  · decide
  · decide

/-- No blank is among the **printable characters** of the lower half. -/
theorem toNat_of_isBlank {c : Char} (h : isBlank c = true) : c.toNat < 33 ∨ 127 < c.toNat := by
  obtain ⟨range, hmem, hle⟩ := CodeRanges.contains_iff.mp h
  have hall : ∀ range ∈ blankRanges, range.2 < 33 ∨ 127 < range.1 := by decide
  have hrange := hall range hmem
  omega

/-! ### Classes that have nothing in common -/

/-- A blank is **no character of names**, so a name ends where a blank stands. -/
theorem Blank.not_ofNames (h : Blank s) : ¬ OfNames s := by
  obtain ⟨c, rfl, hc⟩ := single_eq_true_iff.mp h
  intro hname
  have hlt := toNat_of_isNameCharacter ((single_singleton _ c).symm.trans hname)
  have hfar := toNat_of_isBlank hc
  omega

/-- **No atom begins with a blank**: blanks in front of it belong to what stands before. That is why
blanks never make a text ambiguous. -/
theorem Blank.not_startsAtom (h : Blank s) : ¬ StartsAtom s := by
  rintro (hname | hmark)
  · exact h.not_ofNames hname
  · have hall : ∀ s ∈ ["\"", "#", "(", "<", "["], ¬ Blank s := by decide
    exact hall s hmark h

/-- Where a phrase is closed **no further item** begins. -/
theorem Closes.not_startsAtom (h : Closes s) : ¬ StartsAtom s := by
  have hall : ∀ s ∈ [")", ">", "]", ";"], ¬ StartsAtom s := by decide
  exact hall s h

/-- What closes a phrase is **no blank** that could be skipped on the way to it. -/
theorem Closes.not_blank (h : Closes s) : ¬ Blank s := by
  have hall : ∀ s ∈ [")", ">", "]", ";"], ¬ Blank s := by decide
  exact hall s h

/-- A quantifier stands **right behind** its item, with no blank between. -/
theorem StartsQuantifier.not_blank (h : StartsQuantifier s) : ¬ Blank s := by
  have hall : ∀ s ∈ ["*", "+", "?", "\x7b"], ¬ Blank s := by decide
  exact hall s h

/-- A quantifier **ends the name** that it stands behind. -/
theorem StartsQuantifier.not_ofNames (h : StartsQuantifier s) : ¬ OfNames s := by
  have hall : ∀ s ∈ ["*", "+", "?", "\x7b"], ¬ OfNames s := by decide
  exact hall s h

/-! ### Blanks in front -/

/-- The word **after the blanks** in front of it. -/
def skipBlanks (w : List String) : List String := w.dropWhile (single isBlank)

/-- Blanks in front **do not matter** once blanks are skipped. -/
theorem skipBlanks_append (hu : ∀ s ∈ u, Blank s) (w : List String) :
    skipBlanks (u ++ w) = skipBlanks w :=
  List.dropWhile_append_of_pos hu

/-- Where no blank stands in front there is **nothing to skip**. Both of these are used to see what
comes next in a word. -/
theorem skipBlanks_of_head (h : ∀ s ∈ w.head?, ¬ Blank s) : skipBlanks w = w := by
  cases w with
  | nil => rfl
  | cons s w => exact List.dropWhile_cons_of_neg (h s rfl)

theorem skipBlanks_cons (h : ¬ Blank s) (w : List String) : skipBlanks (s :: w) = s :: w :=
  skipBlanks_of_head fun _ hs => Option.some.inj hs ▸ h

/-! ### What the expressions start with -/

theorem starts_nameCharacters : Starts written Part.nameCharacters OfNames := by
  have hpattern : Starts written Part.nameCharacter _ := starts_pattern rfl
  rw [accepts_namePattern] at hpattern
  exact starts_rep rfl Nat.one_pos hpattern

/-- A name **begins with a character of names**, and so does a symbol, which is nothing else. -/
theorem starts_name : Starts written Part.name OfNames :=
  starts_lexical rfl starts_nameCharacters

theorem starts_symbol : Starts written Part.symbol OfNames := starts_seq rfl starts_name

theorem starts_openAngle : Starts written Part.openAngle (· = "<") :=
  starts_omitted rfl (starts_token rfl)

theorem starts_openParen : Starts written Part.openParen (· = "(") :=
  starts_omitted rfl (starts_token rfl)

theorem starts_openBracket : Starts written Part.openBracket (· = "[") :=
  starts_omitted rfl (starts_token rfl)

/-- A quoted text begins with **its opening quote**, and a literal is a quoted text. -/
theorem starts_quoted : Starts written Part.quoted (· = "\"") :=
  starts_seq rfl (starts_omitted rfl (starts_token rfl))

theorem starts_literal : Starts written Part.literal (· = "\"") := starts_seq rfl starts_quoted

/-- A pattern begins with **the mark** that tells it from a literal. -/
theorem starts_pattern_part : Starts written Part.pattern (· = "#") :=
  starts_seq rfl (starts_omitted rfl (starts_token rfl))

theorem starts_paren : Starts written Part.paren (· = "(") := starts_seq rfl starts_openParen

theorem starts_omittedPhrase : Starts written Part.omittedPhrase (· = "<") :=
  starts_seq rfl starts_openAngle

theorem starts_lexicalPhrase : Starts written Part.lexicalPhrase (· = "[") :=
  starts_seq rfl starts_openBracket

theorem starts_hiddenSymbol : Starts written Part.hiddenSymbol (· = "<") :=
  starts_seq rfl starts_openAngle

/-- An atom begins with one of **the characters that start one**, whichever of the kinds of atoms it
is. -/
theorem starts_atom : Starts written Part.atom StartsAtom := by
  refine starts_alt rfl ?_
  have hmark : ∀ {c : ExprId} {mark : String}, mark ∈ ["\"", "#", "(", "<", "["] →
      Starts written c (· = mark) → Starts written c StartsAtom :=
    fun hmark hc => hc.mono fun _ hs => .inr (hs ▸ hmark)
  simp only [List.forall_mem_cons]
  exact ⟨starts_symbol.mono fun _ => .inl, hmark (by decide) starts_literal,
    hmark (by decide) starts_pattern_part, hmark (by decide) starts_paren,
    hmark (by decide) starts_omittedPhrase, hmark (by decide) starts_lexicalPhrase, by simp⟩

/-- What has a quantifier begins **as its atom does**, and all larger phrases begin with one. -/
theorem starts_quantified : Starts written Part.quantified StartsAtom := by
  refine starts_alt rfl ?_
  simp only [List.forall_mem_cons]
  exact ⟨starts_seq rfl starts_atom, starts_seq rfl starts_atom, starts_seq rfl starts_atom,
    starts_seq rfl starts_atom, starts_seq rfl starts_atom, starts_seq rfl starts_atom, by simp⟩

theorem starts_item : Starts written Part.item StartsAtom := by
  refine starts_alt rfl ?_
  simp only [List.forall_mem_cons]
  exact ⟨starts_atom, starts_quantified, by simp⟩

theorem starts_sequence : Starts written Part.sequence StartsAtom := starts_seq rfl starts_item

theorem starts_branch : Starts written Part.branch StartsAtom := by
  refine starts_alt rfl ?_
  simp only [List.forall_mem_cons]
  exact ⟨starts_atom, starts_quantified, starts_sequence, by simp⟩

theorem starts_alternation : Starts written Part.alternation StartsAtom :=
  starts_seq rfl starts_branch

/-- A phrase begins **as an atom does**, at whatever level it stands. No blank comes in front. What
phrases begin with is all that has to be known to tell them from what may follow another phrase. -/
theorem starts_phrase : Starts written Part.phrase StartsAtom := by
  refine starts_alt rfl ?_
  simp only [List.forall_mem_cons]
  exact ⟨starts_atom, starts_quantified, starts_sequence, starts_alternation, by simp⟩

/-- The name of a rule starts with **a character of names or an angle**. -/
theorem starts_ruleName : Starts written Part.ruleName fun s => OfNames s ∨ s = "<" := by
  refine starts_alt rfl ?_
  simp only [List.forall_mem_cons]
  exact ⟨starts_symbol.mono fun _ => .inl, starts_hiddenSymbol.mono fun _ => .inr, by simp⟩

/-- A rule begins with **the name** it defines, or with the bracket that hides the name. -/
theorem starts_rule : Starts written Part.rule fun s => OfNames s ∨ s = "<" :=
  starts_seq rfl starts_ruleName

theorem starts_integer : Starts written Part.integer Digit := by
  have hpattern : Starts written Part.digit _ := starts_pattern rfl
  rw [accepts_digitPattern] at hpattern
  exact starts_rep rfl Nat.one_pos hpattern

/-- A gap starts with **a blank**. -/
theorem starts_gap : Starts written Part.gap Blank := by
  have hpattern : Starts written Part.space _ := starts_pattern rfl
  rw [accepts_blankPattern] at hpattern
  exact starts_omitted rfl (starts_rep rfl Nat.one_pos hpattern)

/-- Either of the **signs of definition** begins with a colon or an equals sign. -/
theorem starts_definedAs : Starts written Part.definedAs fun s => s = ":" ∨ s = "=" := by
  refine starts_omitted rfl (starts_alt rfl ?_)
  have hcolon : Starts written Part.colon fun s => s = ":" ∨ s = "=" :=
    (starts_token rfl).mono fun _ => .inl
  simp only [List.forall_mem_cons]
  exact ⟨(starts_token rfl).mono fun _ => .inr, starts_seq rfl hcolon,
    starts_seq rfl hcolon, by simp⟩

/-! ### What the expressions are made of -/

theorem madeOf_space : MadeOf written Part.space Blank :=
  madeOf_pattern rfl fun s hs => by rwa [accepts_blankPattern] at hs

theorem madeOf_spaces : MadeOf written Part.spaces Blank := madeOf_rep rfl madeOf_space

theorem madeOf_optionalSpace : MadeOf written Part.optionalSpace Blank :=
  madeOf_omitted rfl madeOf_spaces

/-- What holds of blanks and of the next symbol holds of the first symbol **with or without blanks
before it**. -/
theorem head_of_optionalSpace {P : String → Prop}
    (h : Begins written Part.optionalSpace ok w d rest) (hblank : ∀ s, Blank s → P s)
    (hrest : ∀ s ∈ rest.head?, P s) : ∀ s ∈ w.head?, P s := by
  have hmade := madeOf_optionalSpace d h.valid h.root
  intro s hs
  rw [← h.word] at hs
  cases hyield : d.yield with
  | nil =>
    rw [hyield] at hs
    exact hrest s hs
  | cons s' t =>
    rw [hyield] at hs hmade
    cases hs
    exact hblank _ (hmade _ List.mem_cons_self)

/-- What separates the items of a sequence consists of **blanks only**, as all spaces do. -/
theorem madeOf_gap : MadeOf written Part.gap Blank :=
  madeOf_omitted rfl (madeOf_rep rfl madeOf_space)

/-- Around a bar there are **only blanks**. Where blanks end and a bar stands, no item follows. -/
theorem madeOf_spacedBar : MadeOf written Part.spacedBar fun s => Blank s ∨ s = "|" := by
  refine madeOf_seq rfl ?_
  have hspaces : MadeOf written Part.spaces fun s => Blank s ∨ s = "|" :=
    fun d hd hroot s hs => .inl (madeOf_spaces d hd hroot s hs)
  simp only [List.forall_mem_cons]
  exact ⟨hspaces, madeOf_token rfl (.inr rfl), hspaces, by simp⟩

/-- A sign of definition consists of **colons and equals signs**, which no name contains. -/
theorem madeOf_definition : MadeOf written Part.definition fun s => s = ":" ∨ s = "=" := by
  refine madeOf_alt rfl ?_
  have hcolon : MadeOf written Part.colon fun s => s = ":" ∨ s = "=" := madeOf_token rfl (.inl rfl)
  have hequals : MadeOf written Part.equals fun s => s = ":" ∨ s = "=" :=
    madeOf_token rfl (.inr rfl)
  simp only [List.forall_mem_cons]
  refine ⟨hequals, madeOf_seq rfl ?_, madeOf_seq rfl ?_, by simp⟩
  · simpa using ⟨hcolon, hequals⟩
  · simpa using ⟨hcolon, hequals⟩

/-- Between rules there are **only blanks and semicolons**. -/
theorem madeOf_spacedSeparator : MadeOf written Part.spacedSeparator fun s =>
    Blank s ∨ s = ";" := by
  refine madeOf_seq rfl ?_
  have hspace : MadeOf written Part.optionalSpace fun s => Blank s ∨ s = ";" :=
    fun d hd hroot s hs => .inl (madeOf_optionalSpace d hd hroot s hs)
  simp only [List.forall_mem_cons]
  refine ⟨hspace, madeOf_alt rfl ?_, hspace, by simp⟩
  simp only [List.forall_mem_cons]
  exact ⟨madeOf_token rfl (.inl (by decide)), madeOf_token rfl (.inr rfl), by simp⟩

theorem madeOf_lastSemicolon : MadeOf written Part.lastSemicolon (· = ";") :=
  madeOf_rep rfl (madeOf_token rfl rfl)

end Dialect

end GeneralParsing
