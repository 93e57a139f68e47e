import GeneralParsing.Proofs.Pattern.CommonReader
import GeneralParsing.Proofs.Pattern.Known

/-!
# The reader to run knows the patterns that are used

The reader that is run makes of the patterns in use what it should (`Common.knownReader`). Those for
names, blanks and digits it just reads. A bracket that is negated and holds a text, escaped, is a
pattern for every character that is not in the text (`Common.readsClass_excluding`): escaping makes
each character an element of its own, be it an operator of patterns or not. None of them ends the
bracket, opens another, or makes a range or a set operation with its neighbours
(`Common.elementOrRange_escapeCharacter`).
-/

namespace GeneralParsing

namespace Common

open GeneralParsing.Pattern

variable {c : Char} {text rest : List Char}

/-- After a backslash an operator **stands for itself**. -/
theorem escaped_operator (hc : isOperator c = true) (rest : List Char) :
    escaped {} (c :: rest) = some (.char c, rest) := by
  have hmem : c ∈ operators := by simpa [isOperator] using hc
  simp only [operators, List.mem_cons, List.not_mem_nil, or_false] at hmem
  rcases hmem with rfl | rfl | rfl | rfl | rfl | rfl | rfl | rfl | rfl | rfl | rfl | rfl | rfl |
    rfl | rfl | rfl | rfl | rfl <;> rfl

/-- An escaped character is **read as itself**, whatever follows it, operators of patterns included.
-/
theorem element_escapeCharacter (c : Char) (rest : List Char) :
    element {} (escapeCharacter c ++ rest) = some (.char c, rest) := by
  rw [escapeCharacter]
  split
  · next hc => exact escaped_operator hc rest
  · next hc =>
    have hne : c ≠ '\\' := by
      rintro rfl
      exact hc rfl
    simp [element]

@[simp] theorem skip_default (cs : List Char) : Flags.skip {} cs = cs := rfl

@[simp] theorem cased_default (chars : CharSet) : Flags.cased {} chars = chars := rfl

/-- An escaped character **makes no range** with what comes after it, unless a hyphen does. A range
would need another element behind it. -/
theorem elementOrRange_escapeCharacter (c : Char) (hne : rest ≠ [])
    (hhyphen : rest.head? ≠ some '-') :
    elementOrRange {} (escapeCharacter c ++ rest) = some (.single c, rest) := by
  obtain ⟨d, rest, rfl⟩ := List.exists_cons_of_ne_nil hne
  have hd : d ≠ '-' := by simpa using hhyphen
  simp [elementOrRange, element_escapeCharacter, hd]

/-- What an escaped character **begins with**: a backslash, or a character that is no operator. So
it is never taken for a part of the bracket around it. -/
theorem exists_escapeCharacter_eq (c : Char) :
    ∃ first more, escapeCharacter c = first :: more ∧ first ∉ ['-', ']', '[', '&', '~', '^'] := by
  rw [escapeCharacter]
  split
  · exact ⟨_, _, rfl, by decide⟩
  · next hc =>
    refine ⟨c, [], rfl, fun hmem => hc ?_⟩
    simp only [List.mem_cons, List.not_mem_nil, or_false] at hmem
    rcases hmem with rfl | rfl | rfl | rfl | rfl | rfl <;> rfl

theorem escape_cons (c : Char) (text : List Char) :
    escape (c :: text) = escapeCharacter c ++ escape text := List.flatMap_cons

/-- The **characters of a text** as a set, added to a set. -/
def withCharacters (items : CharSet) (text : List Char) : CharSet :=
  text.foldl (fun items c => .union items (.single c)) items

/-- A character is in the set with a text if it was **in the set before or is in the text**. -/
theorem mem_withCharacters (items : CharSet) (text : List Char) (c : Char) :
    (withCharacters items text).mem c = (items.mem c || text.contains c) := by
  induction text generalizing items with
  | nil => simp [withCharacters]
  | cons d text ih =>
    have hd : (CharSet.single d).mem c = (c == d) := by
      rw [Bool.eq_iff_iff, CharSet.mem_single, beq_iff_eq]
    rw [withCharacters, List.foldl_cons, ← withCharacters, ih, CharSet.mem, hd, List.contains_cons,
      Bool.or_assoc]

/-- An element that begins with no operator **is added** to the bracket. -/
theorem bracketFrom_element {negated : Bool} {items chars : CharSet} {first : Char}
    {cs : List Char} (fuel : Nat) (hfirst : first ∉ ['-', ']', '[', '&', '~', '^'])
    (helement : elementOrRange {} (first :: cs) = some (chars, rest)) :
    bracketFrom {} (fuel + 1) negated none items (first :: cs) =
      bracketFrom {} fuel negated none (.union items chars) rest := by
  simp only [List.mem_cons, List.not_mem_nil, or_false, not_or] at hfirst
  obtain ⟨h₁, h₂, h₃, h₄, h₅, -⟩ := hfirst
  rw [bracketFrom, skip_default]
  split
  case h_7 =>
    rw [helement]
    rfl
  all_goals simp_all

/-- The rest of a bracket that holds an **escaped text**. -/
theorem bracketFrom_escape (negated : Bool) (items : CharSet) (text rest : List Char) {fuel : Nat}
    (hfuel : text.length < fuel) :
    bracketFrom {} fuel negated none items (escape text ++ ']' :: rest) =
      some (.negateIf negated (withCharacters items text), rest) := by
  induction text generalizing items fuel with
  | nil =>
    obtain ⟨fuel, rfl⟩ := Nat.exists_eq_add_one.mpr hfuel
    simp [bracketFrom, escape, applyWaiting, withCharacters]
  | cons c text ih =>
    rw [List.length_cons] at hfuel
    obtain ⟨fuel, rfl⟩ := Nat.exists_eq_add_one.mpr (Nat.zero_lt_of_lt hfuel)
    obtain ⟨first, more, hfirst, hmem⟩ := exists_escapeCharacter_eq c
    have hhyphen : (escape text ++ ']' :: rest).head? ≠ some '-' := by
      cases text with
      | nil => simp [escape]
      | cons d text =>
        obtain ⟨first, more, hfirst, hmem⟩ := exists_escapeCharacter_eq d
        rw [escape_cons, hfirst]
        rintro ⟨⟩
        exact hmem List.mem_cons_self
    have helement := elementOrRange_escapeCharacter c (by simp) hhyphen
    rw [hfirst] at helement
    rw [escape_cons, List.append_assoc, hfirst]
    exact (bracketFrom_element fuel hmem helement).trans (ih _ (by omega))

/-- Escaping makes a text **no shorter**, which is what bounds the reading of it. -/
theorem length_le_length_escape (text : List Char) : text.length ≤ (escape text).length := by
  induction text with
  | nil => exact Nat.zero_le _
  | cons c text ih =>
    obtain ⟨first, more, hfirst, -⟩ := exists_escapeCharacter_eq c
    simp only [escape_cons, hfirst, List.length_append, List.length_cons]
    omega

/-- A **negated bracket** that holds an escaped text. -/
theorem bracket_escape (hne : text ≠ []) (rest : List Char) :
    bracket {} ('^' :: escape text ++ ']' :: rest) =
      some (.compl (withCharacters .empty text), rest) := by
  obtain ⟨c, text, rfl⟩ := List.exists_cons_of_ne_nil hne
  obtain ⟨first, more, hfirst, hmem⟩ := exists_escapeCharacter_eq c
  have hopen : openBracket {} ('^' :: escape (c :: text) ++ ']' :: rest) =
      some (true, .empty, escape (c :: text) ++ ']' :: rest) := by
    simp only [List.mem_cons, List.not_mem_nil, or_false, not_or] at hmem
    obtain ⟨h₁, h₂, -⟩ := hmem
    rw [escape_cons, hfirst]
    simp [openBracket, openBracket.hyphens, h₁, h₂]
  have hlength : (c :: text).length < ('^' :: escape (c :: text) ++ ']' :: rest).length + 1 := by
    have hle := length_le_length_escape (c :: text)
    simp only [List.length_append, List.length_cons] at hle ⊢
    omega
  rw [bracket, hopen]
  exact bracketFrom_escape true .empty (c :: text) rest hlength

/-! ### One character of a set -/

/-- One character of a set, **between anchors**. -/
def anchoredSet (chars : CharSet) : Regex Item :=
  .between (.look .textStart) (.look .textEnd) (.item (.set chars))

/-- Between anchors a set matches the texts **of one of its characters**. -/
theorem occursIn_anchoredSet {chars : CharSet} {ofClass : Char → Bool}
    (hclass : ∀ c, chars.mem c = ofClass c) :
    (anchoredSet chars).occursIn Item.ends = oneOf ofClass := by
  funext text
  have hiff : (anchoredSet chars).occursIn Item.ends text = true ↔
      Cursor.finish text ∈ (Item.set chars).ends (.start text) :=
    occursIn_iff.trans vocabulary.occurs_anchored_iff
  rw [Bool.eq_iff_iff, hiff, Item.ends]
  rcases text with _ | ⟨x, _ | ⟨y, more⟩⟩
  · simp [Cursor.start, oneOf]
  · simp [Cursor.start, Cursor.finish, oneOf, hclass]
  · simp [Cursor.start, Cursor.finish, oneOf]

/-- A source that is read as a set, with anchors and without, is read **as the class of its
characters**. -/
theorem readsClass_of_read? {source : List Char} {chars : CharSet} {ofClass : Char → Bool}
    (hself : read? source = some (.item (.set chars)))
    (hanchor : read? (anchor source) = some (anchoredSet chars))
    (hclass : ∀ c, chars.mem c = ofClass c) : ReadsClass reader.read? source ofClass := by
  refine ⟨?_, ?_⟩
  · change ((read? source).map _).isSome = true
    rw [hself, Option.map_some, Option.isSome_some]
  · change (read? (anchor source)).map _ = _
    rw [hanchor, Option.map_some, occursIn_anchoredSet hclass]

/-! ### Reading on after a bracket -/

section

variable {p q : Progress Item Flags} {cs : List Char} {r : Regex Item} {fuel : Nat}

/-- The reader **goes on** after a lexeme. -/
theorem finish?_cons {l : Lexeme Item Flags} (hmodes : p.modes = {})
    (hl : lexeme? {} c cs = some (l, rest)) (hq : p.take l = some q) :
    Progress.finish? next (fuel + 1) p (c :: cs) = Progress.finish? next fuel q rest := by
  have hnext : next p.modes (c :: cs) = .lexeme l rest := by
    rw [hmodes]
    exact next_of_lexeme? (skip_default _) hl
  rw [Progress.finish?, hnext]
  simp only [hq, Option.bind_eq_bind, Option.bind_some]

/-- A bracket **is its set**. -/
theorem lexeme?_bracket {chars : CharSet} (h : bracket {} cs = some (chars, rest)) :
    lexeme? {} '[' cs = some (.item (.set chars), rest) := by
  rw [lexeme?, h]
  rfl

/-- The bracket that excludes a text is read **as one set**, the complement of its characters. -/
theorem read?_excluding (hne : text ≠ []) : read? ('[' :: '^' :: escape text ++ [']']) =
    some (.item (.set (.compl (withCharacters .empty text)))) := by
  have hbracket := bracket_escape hne []
  have hlength : ('[' :: '^' :: escape text ++ [']']).length + 1 =
      (escape text).length + 2 + 2 := by simp
  rw [read?, hlength, List.cons_append, finish?_cons rfl (lexeme?_bracket hbracket) rfl]
  rfl

/-- With the anchors around it the bracket is **still read as one set**. -/
theorem read?_anchor_excluding (hne : text ≠ []) :
    read? (anchor ('[' :: '^' :: escape text ++ [']'])) =
      some (anchoredSet (.compl (withCharacters .empty text))) := by
  have hbracket := bracket_escape hne [')', '$']
  have hlength : (anchor ('[' :: '^' :: escape text ++ [']'])).length + 1 =
      (escape text).length + 4 + 6 := by simp [anchor]
  have hanchor : anchor ('[' :: '^' :: escape text ++ [']']) =
      '^' :: '(' :: '?' :: ':' :: '[' :: ('^' :: escape text ++ ']' :: [')', '$']) := by
    simp [anchor]
  rw [read?, hlength, hanchor, finish?_cons rfl rfl rfl, finish?_cons rfl rfl rfl,
    finish?_cons rfl (lexeme?_bracket hbracket) rfl]
  rfl

end

/-! ### The patterns in use -/

/-- A negated bracket of a text is read as the class of **all other characters**. -/
theorem readsClass_excluding (hne : text ≠ []) :
    ReadsClass reader.read? ('[' :: '^' :: escape text ++ [']'])
      fun c => !text.contains c := by
  refine readsClass_of_read? (read?_excluding hne) (read?_anchor_excluding hne) fun c => ?_
  rw [CharSet.mem, mem_withCharacters]
  rfl

theorem le_and_le_iff_eq {a c : Char} : a ≤ c ∧ c ≤ a ↔ c = a :=
  ⟨fun h => Char.le_antisymm h.2 h.1, fun h => h ▸ ⟨Char.le_refl _, Char.le_refl _⟩⟩

/-- The **characters of names** as a set. -/
def nameCharacters : CharSet :=
  .union (.union (.union (.union (.union .empty (.range 'A' 'Z')) (.range 'a' 'z'))
    (.range '0' '9')) (.range '_' '_')) (.range '-' '-')

/-- The **digits** as a set. -/
def digits : CharSet := .union .empty (.range '0' '9')

/-- Characters of names are told **by two ranges of letters, one of digits, and two signs**. -/
theorem readsClass_name :
    ReadsClass reader.read? "[A-Za-z0-9_-]".toList isNameCharacter := by
  have hself : read? "[A-Za-z0-9_-]".toList = some (.item (.set nameCharacters)) := by
    decide +kernel
  have hanchor : read? (anchor "[A-Za-z0-9_-]".toList) = some (anchoredSet nameCharacters) := by
    decide +kernel
  refine readsClass_of_read? hself hanchor fun c => ?_
  rw [Bool.eq_iff_iff]
  simp only [nameCharacters, CharSet.mem, isNameCharacter, Char.isAlphanum, Char.isAlpha,
    Char.isUpper, Char.isLower, Char.isDigit, Bool.false_or, Bool.or_eq_true, Bool.and_eq_true,
    decide_eq_true_eq, beq_iff_eq, le_and_le_iff_eq]
  rfl

/-- Blanks are told **by the class of them** that patterns have. -/
theorem readsClass_blank : ReadsClass reader.read? "\\s".toList isBlank := by
  have hself : read? "\\s".toList = some (.item (.set .blank)) := by decide +kernel
  have hanchor : read? (anchor "\\s".toList) = some (anchoredSet .blank) := by decide +kernel
  exact readsClass_of_read? hself hanchor fun _ => rfl

/-- Digits are told **by their range**. -/
theorem readsClass_digit : ReadsClass reader.read? "[0-9]".toList Char.isDigit := by
  have hself : read? "[0-9]".toList = some (.item (.set digits)) := by decide +kernel
  have hanchor : read? (anchor "[0-9]".toList) = some (anchoredSet digits) := by decide +kernel
  refine readsClass_of_read? hself hanchor fun c => ?_
  simp only [digits, CharSet.mem, Char.isDigit, Bool.false_or, Char.le_def]

/-- The reader **knows the patterns in use**. -/
scoped instance knownReader : KnownPatterns where
  toPatternReader := reader
  name := readsClass_name
  blank := readsClass_blank
  digit := readsClass_digit
  others c d := by
    have hclass : (fun x => !([c, d] : List Char).contains x) = fun x => x != c && x != d := by
      funext x
      simp only [List.contains_cons, List.contains_nil, Bool.or_false, Bool.not_or, bne]
    exact hclass ▸ readsClass_excluding (List.cons_ne_nil c [d])

end Common

end GeneralParsing
