import GeneralParsing.Proofs.Pattern.Anchoring
import GeneralParsing.Proofs.Pattern.Items

/-!
# The reader to run is described by a vocabulary

All that is asked of a vocabulary holds of the lexemes and items of the reader that is run: a lexeme
is read alike with what closes behind the text (`Common.left_lexeme?`), and a match of an item
leads to the places that are listed. So `Common.vocabulary` is a vocabulary, and the reader is
described by it (`Common.describes_commonReader`).
-/

namespace GeneralParsing

namespace Common

/-! ### What items match -/

variable {i : Item} {c d : Cursor}

/-- Items match **forward**: a match ends where it began or later. -/
theorem ahead_of_mem_ends (h : d ∈ i.ends c) : c.Ahead d := by
  cases i with
  | set chars =>
    rw [Item.ends] at h
    split at h
    · cases h
    · next x rest hafter =>
      split at h
      · rw [List.mem_singleton.mp h]
        exact ⟨[x], hafter, rfl⟩
      · cases h
  | look anchor =>
    rw [Item.ends] at h
    split at h
    · rw [List.mem_singleton.mp h]
      exact .refl c
    · cases h

/-- An anchor matches **nothing**, where it holds. -/
theorem mem_ends_look_iff {anchor : Anchor} :
    d ∈ (Item.look anchor).ends c ↔ anchor.holds c = true ∧ d = c := by
  rw [Item.ends]
  split
  · next h => simp [h]
  · next h => simp [h]

/-! ### Lexemes with what closes behind the text -/

section

variable {flags : Flags} {cs rest : List Char} {l : Lexeme Item Flags}

/-- A mark behind a quantifier, which makes it lazy, **belongs to the lexeme**. -/
theorem dropLazyMark_left {x : Char} {min : Nat} {max : Option Nat}
    (hx : ∀ cs, lexeme? flags x cs = some (.repeated min max, dropLazyMark cs))
    (h : lexeme? flags x cs = some (l, rest)) :
    Left rest fun t left => lexeme? flags x (cs ++ t) = some (l, left) := by
  rw [hx] at h
  obtain ⟨rfl, rfl⟩ := Prod.mk.inj (Option.some.inj h)
  refine (drops_dropLazyMark.left cs).mono fun t left _ hleft => ?_
  rw [hx, hleft]

/-- **A lexeme** is read alike. -/
theorem left_lexeme? {x : Char} (h : lexeme? flags x cs = some (l, rest)) :
    Left rest fun t left => lexeme? flags x (cs ++ t) = some (l, left) := by
  have hhere : ∀ {l' : Lexeme Item Flags} {more : List Char}, some (l', more) = some (l, rest) →
      l' = l ∧ more = rest := fun h => Prod.mk.inj (Option.some.inj h)
  -- one case for each character that a lexeme can begin with
  have hcopy := h
  unfold lexeme? at h
  split at h
  · obtain ⟨⟨o, more⟩, hopening, h⟩ := Option.map_eq_some_iff.mp h
    obtain ⟨rfl, rfl⟩ := Prod.mk.inj h
    refine (left_opening hopening).mono fun t left _ hread => ?_
    change (opening flags (cs ++ t)).map _ = _
    rw [hread]
    rfl
  · obtain ⟨rfl, rfl⟩ := hhere h
    exact .of_forall fun _ _ => rfl
  · obtain ⟨rfl, rfl⟩ := hhere h
    exact .of_forall fun _ _ => rfl
  · obtain ⟨⟨chars, more⟩, hbracket, h⟩ := Option.map_eq_some_iff.mp h
    obtain ⟨rfl, rfl⟩ := Prod.mk.inj h
    refine .of_forall fun t ht => ?_
    change (bracket flags (cs ++ t)).map _ = _
    rw [bracket_append ht hbracket]
    rfl
  · exact dropLazyMark_left (fun _ => rfl) hcopy
  · exact dropLazyMark_left (fun _ => rfl) hcopy
  · exact dropLazyMark_left (fun _ => rfl) hcopy
  · -- behind the counts there may be blanks and a lazy mark, and any of these may be missing
    obtain ⟨⟨⟨min, max⟩, more⟩, hcounts, h⟩ := Option.map_eq_some_iff.mp h
    obtain ⟨rfl, rfl⟩ := Prod.mk.inj h
    refine (((drops_skip flags).left more).drops drops_dropLazyMark).mono
      fun t left ht hleft => ?_
    obtain ⟨before, hskip, rfl⟩ := hleft
    change (counts flags (cs ++ t)).map _ = _
    rw [counts_append ht hcounts, Option.map_some, ← hskip]
  · obtain ⟨⟨e, more⟩, hescaped, h⟩ := Option.map_eq_some_iff.mp h
    obtain ⟨rfl, rfl⟩ := Prod.mk.inj h
    refine (left_escaped hescaped).mono fun t left _ hread => ?_
    change (escaped flags (cs ++ t)).map _ = _
    rw [hread]
    rfl
  · obtain ⟨rfl, rfl⟩ := hhere h
    exact .of_forall fun _ _ => rfl
  · obtain ⟨rfl, rfl⟩ := hhere h
    exact .of_forall fun _ _ => rfl
  · obtain ⟨rfl, rfl⟩ := hhere h
    exact .of_forall fun _ _ => rfl
  · obtain ⟨rfl, rfl⟩ := hhere h
    refine .of_forall fun t _ => ?_
    unfold lexeme?
    simp only

theorem skip_closing (flags : Flags) {t : List Char} (ht : Closing t) : flags.skip t = t := by
  obtain ⟨u, rfl, -⟩ := ht
  rw [Flags.skip]
  split <;> rfl

theorem next_of_skip_nil (h : flags.skip cs = []) : next flags cs = .done := by
  rw [next, h]

/-- The next lexeme begins with **the first character that is not skipped**. -/
theorem next_of_lexeme? {x : Char} {more : List Char} (h : flags.skip cs = x :: more)
    (hl : lexeme? flags x more = some (l, rest)) : next flags cs = .lexeme l rest := by
  rw [next, h]
  simp only [hl]

/-- What stands first is a lexeme that **begins with what is not skipped**. -/
theorem lexeme?_of_next (h : next flags cs = .lexeme l rest) :
    ∃ x more, flags.skip cs = x :: more ∧ lexeme? flags x more = some (l, rest) := by
  rw [next] at h
  split at h
  · cases h
  · next x more hskip =>
    split at h
    · next hl =>
      obtain ⟨rfl, rfl⟩ := Lexed.lexeme.inj h
      exact ⟨x, more, hskip, hl⟩
    · cases h

theorem skip_of_next_done (h : next flags cs = .done) : flags.skip cs = [] := by
  rw [next] at h
  split at h
  · next hskip => exact hskip
  · split at h <;> cases h

/-- What stands first depends on **what is not skipped** only. -/
theorem next_congr {ds : List Char} (h : flags.skip cs = flags.skip ds) :
    next flags cs = next flags ds := by
  rw [next, next, h]

/-- A lexeme is read alike with more text behind, but for **what is left**. -/
theorem left_next_lexeme (h : next flags cs = .lexeme l rest) :
    Left rest fun t left => next flags (cs ++ t) = .lexeme l left := by
  obtain ⟨x, more, hskip, hlexeme⟩ := lexeme?_of_next h
  refine (left_lexeme? hlexeme).mono fun t left ht hread => ?_
  refine next_of_lexeme? ?_ hread
  rw [skip_append ht (by simp [hskip]), hskip, List.cons_append]

/-- Where nothing is left to read, reading goes on **with what stands behind**. -/
theorem left_next_done (h : next flags cs = .done) :
    Left [] fun t left => next flags (cs ++ t) = next flags left := by
  have hleft := (drops_skip flags).left cs
  rw [skip_of_next_done h] at hleft
  refine hleft.imp (fun hshown t ht => next_congr ?_) fun ⟨_, hlost⟩ =>
    ⟨rfl, fun t ht => next_congr ?_⟩
  · exact (hshown t ht).trans (skip_closing flags ht).symm
  · exact (hlost t ht).trans (skip_nil flags).symm

end

/-! ### The vocabulary -/

/-- The **vocabulary** of the reader that is run. -/
def vocabulary : Vocabulary where
  Item := Item
  Modes := Flags
  initial := {}
  next := next
  holds i c d := d ∈ i.ends c
  textStart := .look .textStart
  textEnd := .look .textEnd
  ahead := ahead_of_mem_ends
  holds_textStart := by
    intro c d
    rw [mem_ends_look_iff]
    exact and_congr_left' List.isEmpty_iff
  holds_textEnd := by
    intro c d
    rw [mem_ends_look_iff]
    exact and_congr_left' List.isEmpty_iff
  next_nil flags := next_of_skip_nil (skip_nil flags)
  next_caret _ := rfl
  next_dollar _ := rfl
  next_group _ := rfl
  next_paren flags cs := by
    have hskip : flags.skip (')' :: cs) = ')' :: cs := by
      rw [Flags.skip]
      split <;> rfl
    exact next_of_lexeme? hskip rfl
  left_lexeme := left_next_lexeme
  left_done := left_next_done

/-- The search finds a match just where **there is one** in the sense of the vocabulary. -/
theorem occursIn_iff {r : Regex Item} {text : List Char} :
    r.occursIn Item.ends text = true ↔ r.Occurs vocabulary.holds text :=
  Regex.occursIn_iff ahead_of_mem_ends Iff.rfl

/-- The reader that is run is **described by its vocabulary**. -/
theorem describes_reader : vocabulary.Describes reader.read? := by
  intro source found h
  obtain ⟨r, hr, rfl⟩ := Option.map_eq_some_iff.mp h
  exact ⟨r, Progress.reads_of_finish? hr, fun _ => occursIn_iff⟩

end Common

end GeneralParsing
