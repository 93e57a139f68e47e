import GeneralParsing.Pattern.Basic
import GeneralParsing.Pattern.Lexeme
import GeneralParsing.Proofs.Pattern.Matching

/-!
# What a regular expression means

Which items regular expressions are made from, how an item is written and what it matches is a
matter of the reader at hand. A `Vocabulary` says it: it has items and modes, tells what stands
first in a text, and what a match of an item leads to. From that the meaning of a whole text
follows, lexeme by lexeme (`Vocabulary.Means`), and a text means one expression at most
(`Vocabulary.Means.eq`).

What is asked of a vocabulary is how the pieces of text are read that patterns put around a source,
and that a lexeme ends by itself: with a closing parenthesis behind the text it is read as it is
without (`Left`). The exception is a remark that goes on to the end of the text: the parenthesis is
then lost in it.

A reader is described by a vocabulary (`Vocabulary.Describes`) when a text that it accepts has a
meaning, and its test finds the matches of that meaning. It may refuse texts that have a meaning,
those that are too large for instance.
-/

namespace GeneralParsing

/-! ### What is left of a text -/

/-- What **closes** a group at the end of a pattern: a parenthesis, and then dollar signs only. -/
def Closing (t : List Char) : Prop := ∃ u, t = ')' :: u ∧ ∀ c ∈ u, c = '$'

theorem closing_paren : Closing [')'] := ⟨[], rfl, by simp⟩

theorem closing_paren_dollar : Closing [')', '$'] := ⟨['$'], rfl, by simp⟩

/-- What is **left of a text** by a reader when something that closes stands behind the text: what
is left without it, and then what closes, or nothing at all if the text ends in a remark. -/
def Left (rest : List Char) (reads : List Char → List Char → Prop) : Prop :=
  (∀ t, Closing t → reads t (rest ++ t)) ∨ rest = [] ∧ ∀ t, Closing t → reads t []

theorem Left.of_forall {rest : List Char} {P : List Char → List Char → Prop}
    (h : ∀ t, Closing t → P t (rest ++ t)) : Left rest P := .inl h

theorem Left.mono {rest : List Char} {P Q : List Char → List Char → Prop} (h : Left rest P)
    (himp : ∀ t left, Closing t → P t left → Q t left) : Left rest Q :=
  h.imp (fun h t ht => himp t _ ht (h t ht)) fun ⟨hrest, h⟩ =>
    ⟨hrest, fun t ht => himp t _ ht (h t ht)⟩

/-! ### Vocabularies -/

/-- A **vocabulary** of regular expressions: their items and modes, what stands first in a text, and
what items match. -/
structure Vocabulary where
  /-- What matches without being put together from parts. -/
  Item : Type
  /-- What may change in the middle of an expression. -/
  Modes : Type
  /-- The modes that an expression begins in. -/
  initial : Modes
  /-- What stands first in a text. -/
  next : Modes → List Char → Lexed Item Modes
  /-- A match of an item leads from the first place to the second. -/
  holds : Item → Cursor → Cursor → Prop
  /-- The beginning of the text. -/
  textStart : Item
  /-- The end of the text. -/
  textEnd : Item
  /-- Matches of items never go back. -/
  ahead : ∀ {i c d}, holds i c d → c.Ahead d
  holds_textStart : ∀ {c d}, holds textStart c d ↔ c.before = [] ∧ d = c
  holds_textEnd : ∀ {c d}, holds textEnd c d ↔ c.after = [] ∧ d = c
  /-- Where there is no text nothing stands first. -/
  next_nil : ∀ modes, next modes [] = .done
  next_caret : ∀ cs, next initial ('^' :: cs) = .lexeme (.item textStart) cs
  next_dollar : ∀ cs, next initial ('$' :: cs) = .lexeme (.item textEnd) cs
  /-- A parenthesis, a question mark and a colon begin a group in which the modes stay the same. -/
  next_group : ∀ cs, next initial ('(' :: '?' :: ':' :: cs) = .lexeme (.opening initial none) cs
  /-- A closing parenthesis ends a group, whatever the modes are. -/
  next_paren : ∀ modes cs, next modes (')' :: cs) = .lexeme .closing cs
  /-- A lexeme is read alike with what closes behind the text. -/
  left_lexeme : ∀ {modes cs l rest}, next modes cs = .lexeme l rest →
    Left rest fun t left => next modes (cs ++ t) = .lexeme l left
  /-- A text in which nothing stands leaves what closes behind it, or covers it. -/
  left_done : ∀ {modes cs}, next modes cs = .done →
    Left [] fun t left => next modes (cs ++ t) = next modes left

/-- The text **means an expression** when it is read on from there to its end. -/
inductive Progress.Reads {ι μ : Type} (next : μ → List Char → Lexed ι μ) :
    Progress ι μ → List Char → Regex ι → Prop
  | done {p : Progress ι μ} {cs : List Char} (h : next p.modes cs = .done) (houter : p.outer = []) :
      Reads next p cs p.layer.regex
  | more {p q : Progress ι μ} {cs rest : List Char} {l : Lexeme ι μ} {r : Regex ι}
      (h : next p.modes cs = .lexeme l rest) (hq : p.take l = some q) (hr : Reads next q rest r) :
      Reads next p cs r

namespace Progress

variable {ι μ : Type} {next : μ → List Char → Lexed ι μ} {p q : Progress ι μ}
variable {cs ds rest : List Char} {l : Lexeme ι μ} {r r' : Regex ι}

theorem reads_of_done (h : next p.modes cs = .done) :
    Reads next p cs r ↔ p.outer = [] ∧ p.layer.regex = r := by
  constructor
  · intro hr
    cases hr with
    | done _ houter => exact ⟨houter, rfl⟩
    | more hl => exact nomatch h.symm.trans hl
  · rintro ⟨houter, rfl⟩
    exact .done h houter

theorem reads_of_lexeme (h : next p.modes cs = .lexeme l rest) :
    Reads next p cs r ↔ ∃ q, p.take l = some q ∧ Reads next q rest r := by
  constructor
  · intro hr
    cases hr with
    | done hdone => exact nomatch h.symm.trans hdone
    | more hl hq hr =>
      obtain ⟨rfl, rfl⟩ := Lexed.lexeme.inj (h.symm.trans hl)
      exact ⟨_, hq, hr⟩
  · rintro ⟨q, hq, hr⟩
    exact .more h hq hr

/-- Reading on depends on **what stands first** only. -/
theorem reads_congr (h : next p.modes cs = next p.modes ds) :
    Reads next p cs r ↔ Reads next p ds r := by
  constructor
  · intro hr
    cases hr with
    | done hdone houter => exact .done (h ▸ hdone) houter
    | more hl hq hr => exact .more (h ▸ hl) hq hr
  · intro hr
    cases hr with
    | done hdone houter => exact .done (h ▸ hdone) houter
    | more hl hq hr => exact .more (h ▸ hl) hq hr

/-- A text is read as **one expression** only. -/
theorem Reads.eq (h : Reads next p cs r) (h' : Reads next p cs r') : r = r' := by
  induction h with
  | done hdone _ => exact ((reads_of_done hdone).mp h').2
  | more hl hq _ ih =>
    obtain ⟨q, hq', hr⟩ := (reads_of_lexeme hl).mp h'
    obtain rfl := Option.some.inj (hq.symm.trans hq')
    exact ih hr

/-- What the reader comes to in a number of steps **is what the text means**. -/
theorem reads_of_finish? {fuel : Nat} (h : finish? next fuel p cs = some r) :
    Reads next p cs r := by
  induction fuel generalizing p cs with
  | zero => cases h
  | succ fuel ih =>
    rw [finish?] at h
    split at h
    · next hdone =>
      split at h
      · next houter =>
        obtain rfl := Option.some.inj h
        exact .done hdone (List.isEmpty_iff.mp houter)
      · cases h
    · cases h
    · next hl =>
      obtain ⟨q, hq, h⟩ := Option.bind_eq_some_iff.mp h
      exact .more hl hq (ih h)

end Progress

namespace Vocabulary

variable (V : Vocabulary)

/-- A text **means a regular expression**. -/
def Means (text : List Char) (r : Regex V.Item) : Prop :=
  Progress.Reads V.next { modes := V.initial } text r

variable {V} in
theorem Means.eq {text : List Char} {r r' : Regex V.Item} (h : V.Means text r)
    (h' : V.Means text r') : r = r' :=
  Progress.Reads.eq h h'

/-- A reader is **described** by the vocabulary: the texts that it accepts have a meaning, and it
finds the matches of that. -/
def Describes (read? : List Char → Option (List Char → Bool)) : Prop :=
  ∀ source found, read? source = some found →
    ∃ r, V.Means source r ∧ ∀ text, found text = true ↔ r.Occurs V.holds text

end Vocabulary

end GeneralParsing
