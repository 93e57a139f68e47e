import GeneralParsing.Pattern.Regex
import Mathlib

/-!
# What it means to match

`Regex.Matches holds r c d` says that a match of the expression leads from one place of a text to
another, by the meaning of the expression alone, given what the items mean: a repetition matches any
number of rounds that its bounds allow. `Regex.ends` lists exactly the places that matches lead to,
if the ends of items are listed (`Regex.mem_ends_iff`). For a repetition without a bound this rests
on matches never going back: rounds that stay where they are can be left out, and there are no more
others than characters ahead (`Cursor.Rounds.exists_short`).
-/

namespace GeneralParsing

namespace Cursor

/-! ### Places ahead -/

/-- A place is the same as another or **further on** in the same text. -/
def Ahead (c d : Cursor) : Prop :=
  ∃ taken, c.after = taken ++ d.after ∧ d.before = taken.reverse ++ c.before

section

variable {c d e : Cursor} {text before : List Char}

theorem Ahead.refl (c : Cursor) : c.Ahead c := ⟨[], rfl, rfl⟩

/-- Going ahead **goes on**. -/
theorem Ahead.trans (h : c.Ahead d) (h' : d.Ahead e) : c.Ahead e := by
  obtain ⟨taken, hafter, hbefore⟩ := h
  obtain ⟨taken', hafter', hbefore'⟩ := h'
  exact ⟨taken ++ taken', by rw [hafter, hafter', List.append_assoc],
    by rw [hbefore', hbefore, List.reverse_append, List.append_assoc]⟩

/-- A place ahead is the same one, or there are **fewer characters** after it. -/
theorem Ahead.eq_or_lt (h : c.Ahead d) : c = d ∨ d.after.length < c.after.length := by
  obtain ⟨taken, hafter, hbefore⟩ := h
  cases taken with
  | nil =>
    cases c
    cases d
    simp_all
  | cons x taken =>
    rw [hafter]
    simp

/-- Going ahead leaves **no more to read**. -/
theorem Ahead.length_le (h : c.Ahead d) : d.after.length ≤ c.after.length := by
  rcases h.eq_or_lt with rfl | hlt
  · exact Nat.le_refl _
  · exact Nat.le_of_lt hlt

/-- The places onward are **ahead**. -/
theorem ahead_of_mem_onward (h : c ∈ onward before text) : Ahead ⟨before, text⟩ c := by
  induction text generalizing before with
  | nil =>
    obtain rfl := List.mem_singleton.mp h
    exact .refl _
  | cons x text ih =>
    rcases List.mem_cons.mp h with rfl | h
    · exact .refl _
    · exact Ahead.trans ⟨[x], rfl, rfl⟩ (ih h)

theorem start_mem_places (text : List Char) : start text ∈ places text := by
  cases text <;> exact List.mem_cons_self

/-- Only the beginning of a text has **nothing before it**. -/
theorem eq_start_of_before (hc : c ∈ places text) (hbefore : c.before = []) : c = start text := by
  obtain ⟨taken, hafter, htaken⟩ := ahead_of_mem_onward hc
  rw [hbefore, List.append_nil] at htaken
  obtain rfl : taken = [] := List.reverse_eq_nil_iff.mp htaken.symm
  cases c
  simp_all [start]

/-- Ahead of the beginning, only the end of the text has **nothing after it**. -/
theorem eq_finish_of_after (hc : (start text).Ahead c) (hafter : c.after = []) :
    c = finish text := by
  obtain ⟨taken, htaken, hbefore⟩ := hc
  rw [hafter, List.append_nil] at htaken
  cases c
  simp_all [start, finish]

end

/-! ### Rounds -/

/-- A number of **rounds in a row**, each from one place to another. -/
inductive Rounds (round : Cursor → Cursor → Prop) : Nat → Cursor → Cursor → Prop
  | none (c : Cursor) : Rounds round 0 c c
  | more {n : Nat} {c d e : Cursor} (h : round c d) (hs : Rounds round n d e) :
      Rounds round (n + 1) c e

section

variable {round : Cursor → Cursor → Prop} {step : Cursor → List Cursor} {m n : Nat}
variable {c d : Cursor} {cs : List Cursor}

/-- Rounds in a row are **some of them and then the others**. -/
theorem rounds_add_iff :
    Rounds round (m + n) c d ↔ ∃ e, Rounds round m c e ∧ Rounds round n e d := by
  induction m generalizing c with
  | zero =>
    rw [Nat.zero_add]
    constructor
    · exact fun h => ⟨c, .none c, h⟩
    · rintro ⟨e, ⟨⟩, h⟩
      exact h
  | succ m ih =>
    rw [Nat.add_right_comm]
    constructor
    · rintro (_ | ⟨h, hs⟩)
      obtain ⟨e, hm, hn⟩ := ih.mp hs
      exact ⟨e, .more h hm, hn⟩
    · rintro ⟨e, _ | ⟨h, hs⟩, hn⟩
      exact .more h (ih.mpr ⟨e, hs, hn⟩)

/-- Rounds of a step that goes ahead **go ahead**. -/
theorem Rounds.ahead (hround : ∀ c d, round c d → c.Ahead d) (h : Rounds round n c d) :
    c.Ahead d := by
  induction h with
  | none c => exact .refl c
  | more h _ ih => exact (hround _ _ h).trans ih

/-- Where rounds never go back, **no more of them are needed** than there are characters ahead. -/
theorem Rounds.exists_short (hround : ∀ c d, round c d → c.Ahead d) (h : Rounds round n c d) :
    ∃ k ≤ c.after.length, Rounds round k c d := by
  induction h with
  | none c => exact ⟨0, Nat.zero_le _, .none c⟩
  | @more _ c d _ h _ ih =>
    obtain ⟨k, hk, hs⟩ := ih
    -- a round that stays where it is can be left out
    rcases (hround _ _ h).eq_or_lt with rfl | hlt
    · exact ⟨k, hk, hs⟩
    · exact ⟨k + 1, Nat.lt_of_le_of_lt hk hlt, .more h hs⟩

/-- A number of steps reaches what **as many rounds** reach. -/
theorem mem_exactly_iff :
    d ∈ exactly step n cs ↔ ∃ c ∈ cs, Rounds (fun c d => d ∈ step c) n c d := by
  induction n generalizing cs with
  | zero =>
    constructor
    · exact fun h => ⟨d, h, .none d⟩
    · rintro ⟨c, hc, ⟨⟩⟩
      exact hc
  | succ n ih =>
    rw [exactly, ih]
    constructor
    · rintro ⟨e, he, hs⟩
      obtain ⟨c, hc, hstep⟩ := List.mem_flatMap.mp (List.mem_eraseDups.mp he)
      exact ⟨c, hc, .more hstep hs⟩
    · rintro ⟨c, hc, _ | ⟨h, hs⟩⟩
      exact ⟨_, List.mem_eraseDups.mpr (List.mem_flatMap.mpr ⟨c, hc, h⟩), hs⟩

/-- From places that no step leaves **rounds do not lead away**. -/
theorem Rounds.mem_of_closed (hclosed : ∀ c ∈ cs, ∀ d, round c d → d ∈ cs)
    (h : Rounds round n c d) (hc : c ∈ cs) : d ∈ cs := by
  induction h with
  | none => exact hc
  | more h _ ih => exact ih (hclosed _ hc _ h)

/-- Up to a number of steps reach what **some number of rounds** up to it reaches. -/
theorem mem_within_iff :
    d ∈ within step n cs ↔ ∃ c ∈ cs, ∃ k ≤ n, Rounds (fun c d => d ∈ step c) k c d := by
  induction n generalizing cs with
  | zero =>
    constructor
    · exact fun h => ⟨d, h, 0, Nat.le_refl 0, .none d⟩
    · rintro ⟨c, hc, k, hk, hs⟩
      obtain rfl := Nat.le_zero.mp hk
      cases hs
      exact hc
  | succ n ih =>
    -- only places that are new are gone on from
    generalize hfresh : (cs.flatMap step).eraseDups.filter (!cs.contains ·) = fresh
    have hmem : ∀ e, e ∈ fresh ↔ (∃ c ∈ cs, e ∈ step c) ∧ e ∉ cs := by
      intro e
      rw [← hfresh]
      simp
    rw [within, hfresh]
    by_cases hnone : fresh = []
    · -- nothing is new, so the places are closed under another round
      rw [hnone, List.isEmpty_nil, if_pos rfl]
      constructor
      · exact fun h => ⟨d, h, 0, Nat.zero_le _, .none d⟩
      · rintro ⟨c, hc, k, -, hs⟩
        refine hs.mem_of_closed (fun c hc e he => ?_) hc
        by_contra hnot
        exact List.not_mem_nil (hnone ▸ (hmem e).mpr ⟨⟨c, hc, he⟩, hnot⟩)
    · rw [if_neg (by simpa using hnone), ih]
      constructor
      · rintro ⟨c, hc, k, hk, hs⟩
        rcases List.mem_append.mp hc with hc | hc
        · exact ⟨c, hc, k, Nat.le_succ_of_le hk, hs⟩
        · obtain ⟨⟨c', hc', hstep⟩, -⟩ := (hmem c).mp hc
          exact ⟨c', hc', k + 1, Nat.succ_le_succ hk, .more hstep hs⟩
      · rintro ⟨c, hc, k, hk, hs⟩
        cases hs with
        | none => exact ⟨_, List.mem_append_left _ hc, 0, Nat.zero_le _, .none _⟩
        | @more k _ e _ h hs =>
          refine ⟨e, ?_, k, Nat.le_of_succ_le_succ hk, hs⟩
          by_cases he : e ∈ cs
          · exact List.mem_append_left _ he
          · exact List.mem_append_right _ ((hmem e).mpr ⟨⟨c, hc, h⟩, he⟩)

end

end Cursor

namespace Regex

open Cursor

variable {ι : Type} {holds : ι → Cursor → Cursor → Prop}

/-- A **match** of the expression leads from the first place to the second, where `holds` says so
of items. A repetition takes at least `min` rounds, and at most `max` where that is given and not
less than `min`. -/
def Matches (holds : ι → Cursor → Cursor → Prop) : Regex ι → Cursor → Cursor → Prop
  | empty, c, d => d = c
  | item i, c, d => holds i c d
  | seq a b, c, d => ∃ e, a.Matches holds c e ∧ b.Matches holds e d
  | alt a b, c, d => a.Matches holds c d ∨ b.Matches holds c d
  | rep a min max, c, d =>
    ∃ n, min ≤ n ∧ (∀ m ∈ max, n ≤ Nat.max min m) ∧ Rounds (a.Matches holds) n c d

/-- The expression **matches somewhere** in a text. -/
def Occurs (holds : ι → Cursor → Cursor → Prop) (r : Regex ι) (text : List Char) : Prop :=
  ∃ c ∈ places text, ∃ d, r.Matches holds c d

variable {r : Regex ι} {c d : Cursor} {text : List Char}

/-- Matches **never go back** when those of items do not. -/
theorem Matches.ahead (hitem : ∀ {i c d}, holds i c d → c.Ahead d) (h : r.Matches holds c d) :
    c.Ahead d := by
  induction r generalizing c d with
  | empty =>
    obtain rfl := h
    exact .refl _
  | item i => exact hitem h
  | seq a b iha ihb =>
    obtain ⟨e, ha, hb⟩ := h
    exact (iha ha).trans (ihb hb)
  | alt a b iha ihb => exact h.elim iha ihb
  | rep a min max ih =>
    obtain ⟨n, -, -, hs⟩ := h
    exact hs.ahead fun _ _ => ih

section

variable {step : ι → Cursor → List Cursor}

/-- The places that are listed are **those that matches lead to**, if this is so for items. -/
theorem mem_ends_iff (hitem : ∀ {i c d}, holds i c d → c.Ahead d)
    (hstep : ∀ {i c d}, d ∈ step i c ↔ holds i c d) :
    d ∈ r.ends step c ↔ r.Matches holds c d := by
  induction r generalizing c d with
  | empty => exact List.mem_singleton
  | item i => exact hstep
  | seq a b iha ihb => simp [ends, Matches, iha, ihb]
  | alt a b iha ihb => simp [ends, Matches, iha, ihb]
  | rep a min max ih =>
    have hround : (fun c d => d ∈ a.ends step c) = a.Matches holds := by
      funext c d
      exact propext ih
    change d ∈ within (a.ends step) _ (exactly (a.ends step) min [c]) ↔ _
    rw [mem_within_iff, Matches]
    simp only [mem_exactly_iff, List.mem_singleton, exists_eq_left, hround]
    constructor
    · rintro ⟨e, hmin, k, hk, hs⟩
      refine ⟨min + k, Nat.le_add_right _ _, ?_, rounds_add_iff.mpr ⟨e, hmin, hs⟩⟩
      rintro m rfl
      have hle : k ≤ m - min := hk
      simp only [Nat.max_def]
      split <;> omega
    · rintro ⟨n, hn, hmax, hs⟩
      obtain ⟨k, rfl⟩ := Nat.exists_eq_add_of_le hn
      obtain ⟨e, hmin, hs⟩ := rounds_add_iff.mp hs
      refine ⟨e, hmin, ?_⟩
      cases max with
      | none =>
        obtain ⟨k', hk', hs'⟩ := hs.exists_short fun _ _ => Matches.ahead hitem
        have hle := (hmin.ahead fun _ _ => Matches.ahead hitem).length_le
        exact ⟨k', Nat.le_trans hk' hle, hs'⟩
      | some m =>
        have hle := hmax m rfl
        refine ⟨k, (?_ : k ≤ m - min), hs⟩
        simp only [Nat.max_def] at hle
        split at hle <;> omega

/-- The search decides **whether the expression occurs**, if the steps do so for its items. -/
theorem occursIn_iff (hitem : ∀ {i c d}, holds i c d → c.Ahead d)
    (hstep : ∀ {i c d}, d ∈ step i c ↔ holds i c d) :
    r.occursIn step text = true ↔ r.Occurs holds text := by
  rw [occursIn, List.any_eq_true]
  refine exists_congr fun c => and_congr_right fun _ => ?_
  rw [Bool.not_eq_true', List.isEmpty_eq_false_iff_exists_mem]
  exact exists_congr fun d => mem_ends_iff hitem hstep

end

/-- Items that hold **at either end** of a text, with an expression between them. -/
def between (first last : ι) (r : Regex ι) : Regex ι := .seq (.item first) (.seq r (.item last))

/-- Between items that hold at the ends of a text only, an expression matches **if it matches the
whole text**. -/
theorem occurs_between_iff (hitem : ∀ {i c d}, holds i c d → c.Ahead d) {first last : ι}
    (hfirst : ∀ {c d}, holds first c d ↔ c.before = [] ∧ d = c)
    (hlast : ∀ {c d}, holds last c d ↔ c.after = [] ∧ d = c) :
    (between first last r).Occurs holds text ↔ r.Matches holds (start text) (finish text) := by
  constructor
  · rintro ⟨c, hc, d, e, hstart, e', hmatch, hend⟩
    obtain ⟨hbefore, rfl⟩ := hfirst.mp hstart
    obtain ⟨hafter, rfl⟩ := hlast.mp hend
    obtain rfl := eq_start_of_before hc hbefore
    rwa [eq_finish_of_after (hmatch.ahead hitem) hafter] at hmatch
  · intro h
    exact ⟨_, start_mem_places text, _, _, hfirst.mpr ⟨rfl, rfl⟩, _, h, hlast.mpr ⟨rfl, rfl⟩⟩

end Regex

end GeneralParsing
