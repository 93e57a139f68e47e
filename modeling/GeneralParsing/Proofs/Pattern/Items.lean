import GeneralParsing.Proofs.Pattern.Closing

/-!
# Items with a closing parenthesis behind the text

What stands in brackets or braces ends with a closing bracket or brace, so such an item is read
alike whatever closes behind the text (`Common.bracket_append`, `Common.counts_append`). Only the
beginning of a group can end in a remark: after a parenthesis that no question mark follows, blanks
and remarks are skipped (`Common.left_opening`).

A reader whose cases overlap is taken apart first, for one case each: what a bracket begins with
(`Common.openItems`), what follows the first element of a range (`Common.rangeFrom`), and what
follows the question mark of a group (`Common.openingMark`).
-/

namespace GeneralParsing.Common

variable {flags : Flags} {cs rest t : List Char} {fuel : Nat} {items chars : CharSet}

/-! ### Classes in brackets -/

/-- Where a test fails on a character of a text, **what stands behind** the text does not matter to
the parts before and from there. -/
theorem span_append {p : Char → Bool} (h : cs.dropWhile p ≠ []) (t : List Char) :
    (cs ++ t).dropWhile p = cs.dropWhile p ++ t ∧ (cs ++ t).takeWhile p = cs.takeWhile p := by
  induction cs with
  | nil => exact absurd rfl h
  | cons c cs ih =>
    by_cases hc : p c = true
    · simp only [List.cons_append, List.dropWhile_cons, List.takeWhile_cons, if_pos hc] at h ⊢
      exact (ih h).imp_right (congrArg _)
    · simp [hc]

/-- Reads the name of a named class and **what ends it**. -/
def className? (negated : Bool) (cs : List Char) : Option (CharSet × List Char) :=
  match cs.dropWhile (· != ':') with
  | ':' :: ']' :: rest =>
    (asciiClass? (String.ofList (cs.takeWhile (· != ':')))).map fun chars =>
      (.negateIf negated chars, rest)
  | _ => none

/-- A named class without a caret is read **right by its name**. -/
theorem namedClass?_colon {c : Char} (hc : c ≠ '^') (cs : List Char) :
    namedClass? (':' :: c :: cs) = className? false (c :: cs) := by
  have hcaret : ∀ more, c :: cs ≠ '^' :: more := by simp [hc]
  unfold namedClass?
  simp only
  rfl

/-- The name of a class is read alike **with more text behind it**, as it ends by itself. -/
theorem className?_append (ht : Closing t) (negated : Bool) (cs : List Char) :
    className? negated (cs ++ t) =
      (className? negated cs).map fun (chars, rest) => (chars, rest ++ t) := by
  by_cases hne : cs.dropWhile (· != ':') = []
  · have hnone : (cs ++ t).dropWhile (· != ':') = [] := by
      rw [List.dropWhile_append, hne, List.isEmpty_nil, if_pos rfl, List.dropWhile_eq_nil_iff]
      intro c hc
      rcases ht.mem hc with rfl | rfl <;> rfl
    rw [className?, hnone, className?, hne]
    rfl
  · obtain ⟨hdrop, htake⟩ := span_append hne t
    rw [className?, hdrop, htake, className?]
    obtain ⟨u, rfl, -⟩ := ht
    generalize cs.dropWhile (· != ':') = ds at hne
    match ds, hne with
    | [c], _ =>
      by_cases hc : c = ':'
      · subst hc
        rfl
      · simp [hc]
    | c :: d :: ds, _ =>
      by_cases hcd : c = ':' ∧ d = ']'
      · obtain ⟨rfl, rfl⟩ := hcd
        cases asciiClass? (String.ofList (cs.takeWhile (· != ':'))) <;> rfl
      · simp only [List.cons_append]
        split
        · simp_all
        · split
          · simp_all
          · rfl

/-- A named class is read alike **with more text behind it**. -/
theorem namedClass?_append (ht : Closing t) (cs : List Char) :
    namedClass? (cs ++ t) = (namedClass? cs).map fun (chars, rest) => (chars, rest ++ t) := by
  match cs with
  | [] =>
    obtain ⟨u, rfl, -⟩ := ht
    rfl
  | c :: cs =>
    by_cases hc : c = ':'
    · subst hc
      match cs with
      | [] =>
        have happend := className?_append ht false []
        obtain ⟨u, rfl, -⟩ := ht
        exact happend
      | d :: cs =>
        by_cases hd : d = '^'
        · subst hd
          exact className?_append ht true cs
        · rw [List.cons_append, List.cons_append, namedClass?_colon hd, namedClass?_colon hd]
          exact className?_append ht false (d :: cs)
    · simp [namedClass?, hc]

theorem hyphens_nil (flags : Flags) (fuel : Nat) (items : CharSet) :
    openBracket.hyphens flags fuel items [] = (items, []) := by
  cases fuel <;> rfl

theorem hyphens_cons {c : Char} (hc : c ≠ '-') (flags : Flags) (fuel : Nat) (items : CharSet)
    (cs : List Char) : openBracket.hyphens flags fuel items (c :: cs) = (items, c :: cs) := by
  cases fuel with
  | zero => rfl
  | succ fuel => simp [openBracket.hyphens, hc]

/-- The hyphens at the beginning of a bracket are read alike with more behind, **if something
follows them**. -/
theorem hyphens_append (ht : Closing t) {items' : CharSet}
    (h : openBracket.hyphens flags fuel items cs = (items', rest)) (hne : rest ≠ [])
    (hfuel : cs.length ≤ fuel) {fuel' : Nat} (hle : fuel ≤ fuel') :
    openBracket.hyphens flags fuel' items (cs ++ t) = (items', rest ++ t) := by
  induction fuel generalizing items cs fuel' with
  | zero =>
    obtain rfl := List.length_eq_zero_iff.mp (Nat.le_zero.mp hfuel)
    rw [hyphens_nil] at h
    exact absurd (Prod.mk.inj h).2.symm hne
  | succ fuel ih =>
    obtain ⟨fuel', rfl⟩ := Nat.exists_eq_add_one.mpr (Nat.zero_lt_of_lt hle)
    cases cs with
    | nil =>
      rw [hyphens_nil] at h
      exact absurd (Prod.mk.inj h).2.symm hne
    | cons c cs =>
      by_cases hc : c = '-'
      · subst hc
        simp only [openBracket.hyphens, List.cons_append] at h ⊢
        by_cases hnil : flags.skip cs = []
        · rw [hnil, hyphens_nil] at h
          exact absurd (Prod.mk.inj h).2.symm hne
        · rw [skip_append ht hnil]
          refine ih h ?_ (Nat.le_of_succ_le_succ hle)
          exact Nat.le_trans (length_skip_le flags cs) (Nat.le_of_succ_le_succ hfuel)
      · rw [hyphens_cons hc] at h
        obtain ⟨rfl, rfl⟩ := Prod.mk.inj h
        exact hyphens_cons hc flags _ items (cs ++ t)

/-- Reads what comes **after the caret** of a bracket. -/
def openItems (flags : Flags) (negated : Bool) (cs : List Char) :
    Option (Bool × CharSet × List Char) :=
  let (items, cs) := openBracket.hyphens flags cs.length .empty cs
  match items, cs with
  | .empty, ']' :: rest => some (negated, .single ']', rest)
  | _, [] => none
  | items, cs => some (negated, items, cs)

theorem openBracket_caret {cs more : List Char} (h : flags.skip cs = '^' :: more) :
    openBracket flags cs = openItems flags true (flags.skip more) := by
  unfold openBracket
  simp only [h]
  rfl

theorem openBracket_plain {cs : List Char} (h : ∀ more, flags.skip cs ≠ '^' :: more) :
    openBracket flags cs = openItems flags false (flags.skip cs) := by
  unfold openBracket
  generalize flags.skip cs = ds at h
  simp only
  rfl

/-- What comes after the caret is read alike **with more text behind it**. -/
theorem openItems_append (ht : Closing t) {negated negated' : Bool}
    (h : openItems flags negated cs = some (negated', items, rest)) :
    openItems flags negated (cs ++ t) = some (negated', items, rest ++ t) := by
  obtain ⟨items', ds, hhyphens⟩ : ∃ items' ds,
      openBracket.hyphens flags cs.length .empty cs = (items', ds) := ⟨_, _, rfl⟩
  rw [openItems, hhyphens] at h
  have hne : ds ≠ [] := by
    rintro rfl
    cases items' <;> cases h
  have happend : openBracket.hyphens flags (cs ++ t).length .empty (cs ++ t) = (items', ds ++ t) :=
    hyphens_append ht hhyphens hne (Nat.le_refl _) (by simp)
  rw [openItems, happend]
  obtain ⟨d, ds, rfl⟩ := List.exists_cons_of_ne_nil hne
  by_cases hbracket : items' = .empty ∧ d = ']'
  · obtain ⟨rfl, rfl⟩ := hbracket
    obtain ⟨rfl, rfl, rfl⟩ := by simpa using h
    rfl
  · have hplain : ∀ ds rest, items' = .empty → d :: ds ≠ ']' :: rest :=
      fun ds rest hitems heq => hbracket ⟨hitems, (List.cons.inj heq).1⟩
    have hplain' := hplain ds
    have hplain'' := hplain (ds ++ t)
    simp only [Option.some.injEq, Prod.mk.injEq] at h
    obtain ⟨rfl, rfl, rfl⟩ := h
    simp only [List.cons_append]

/-- The opening of a bracket is read alike **with more text behind it**. -/
theorem openBracket_append (ht : Closing t) {negated : Bool}
    (h : openBracket flags cs = some (negated, items, rest)) :
    openBracket flags (cs ++ t) = some (negated, items, rest ++ t) := by
  by_cases hcaret : ∃ more, flags.skip cs = '^' :: more
  · obtain ⟨more, hskip⟩ := hcaret
    rw [openBracket_caret hskip] at h
    have hne : flags.skip more ≠ [] := by
      intro hnil
      rw [hnil] at h
      cases h
    have hskip' : flags.skip (cs ++ t) = '^' :: (more ++ t) := by
      rw [skip_append ht (by simp [hskip]), hskip, List.cons_append]
    rw [openBracket_caret hskip', skip_append ht hne]
    exact openItems_append ht h
  · have hplain : ∀ more, flags.skip cs ≠ '^' :: more := fun more hskip => hcaret ⟨more, hskip⟩
    rw [openBracket_plain hplain] at h
    have hne : flags.skip cs ≠ [] := by
      intro hnil
      rw [hnil] at h
      cases h
    rw [openBracket_plain (skip_append_ne ht (by decide) hplain), skip_append ht hne]
    exact openItems_append ht h

/-- An element is read alike with more text behind, but for **what is left**. -/
theorem left_element {e : Escaped} (h : element flags cs = some (e, rest)) :
    Left rest fun t left => element flags (cs ++ t) = some (e, left) := by
  cases cs with
  | nil => cases h
  | cons c cs =>
    by_cases hc : c = '\\'
    · subst hc
      exact left_escaped h
    · simp only [element, List.cons_append] at h ⊢
      obtain ⟨rfl, rfl⟩ := Prod.mk.inj (Option.some.inj h)
      exact .of_forall fun _ _ => rfl

/-- An element that makes **no range**, with what is left behind it. -/
def Escaped.alone (ds : List Char) : Escaped → Option (CharSet × List Char)
  | .char c => some (.single c, ds)
  | .set chars => some (chars, ds)
  | .anchor _ => none

/-- The **range** between two elements, with what is left behind it. -/
def Escaped.upTo (first last : Escaped) (rest : List Char) : Option (CharSet × List Char) :=
  match first, last with
  | .char a, .char b => if a ≤ b then some (.range a b, rest) else none
  | _, _ => none

/-- Reads the **rest of an element or range** that has begun with an element. -/
def rangeFrom (flags : Flags) (first : Escaped) (ds : List Char) : Option (CharSet × List Char) :=
  match ds with
  | [] => none
  | '-' :: more =>
    match flags.skip more with
    | [] => none
    | ']' :: _ => first.alone ds
    | '-' :: _ => first.alone ds
    | more => (element flags more).bind fun (last, rest) => first.upTo last rest
  | _ => first.alone ds

/-- An element or a range begins **with an element**, and what follows decides which it is. -/
theorem elementOrRange_eq (flags : Flags) (cs : List Char) :
    elementOrRange flags cs =
      (element flags cs).bind fun (first, rest) => rangeFrom flags first (flags.skip rest) := by
  rw [elementOrRange]
  cases element flags cs with
  | none => rfl
  | some pair =>
    obtain ⟨first, rest⟩ := pair
    cases first with
    | char c => rfl
    | set chars => rfl
    | anchor a => rfl

theorem Escaped.alone_append {first : Escaped} {ds : List Char}
    (h : first.alone ds = some (chars, rest)) (t : List Char) :
    first.alone (ds ++ t) = some (chars, rest ++ t) := by
  cases first with
  | char c | set chars =>
    obtain ⟨rfl, rfl⟩ := Prod.mk.inj (Option.some.inj h)
    rfl
  | anchor a => cases h

/-- Whether there is a range does not depend on **what is left behind it**. -/
theorem Escaped.upTo_eq_some {first last : Escaped} {ds : List Char}
    (h : first.upTo last ds = some (chars, rest)) :
    rest = ds ∧ ∀ left, first.upTo last left = some (chars, left) := by
  cases first with
  | char a =>
    cases last with
    | char b =>
      by_cases hle : a ≤ b
      · rw [upTo, if_pos hle] at h
        obtain ⟨rfl, rfl⟩ := Prod.mk.inj (Option.some.inj h)
        exact ⟨rfl, fun left => if_pos hle⟩
      · rw [upTo, if_neg hle] at h
        cases h
    | set chars | anchor a => cases h
  | set chars | anchor a => cases h

/-- A hyphen makes **a range** unless the bracket ends there or another hyphen follows. -/
theorem rangeFrom_hyphen {first : Escaped} {ds : List Char} (hne : flags.skip ds ≠ [])
    (hbracket : ∀ more, flags.skip ds ≠ ']' :: more)
    (hhyphen : ∀ more, flags.skip ds ≠ '-' :: more) :
    rangeFrom flags first ('-' :: ds) =
      (element flags (flags.skip ds)).bind fun (last, rest) => first.upTo last rest := by
  rw [rangeFrom]
  generalize flags.skip ds = es at hne hbracket hhyphen
  cases es with
  | nil => exact absurd rfl hne
  | cons d es => simp only

/-- Without a hyphen the element **stands alone**. -/
theorem rangeFrom_cons {c : Char} (hc : c ≠ '-') (flags : Flags) (first : Escaped)
    (ds : List Char) : rangeFrom flags first (c :: ds) = first.alone (c :: ds) := by
  simp [rangeFrom, hc]

/-- The rest of an element or range is read alike, but for **what is left**. -/
theorem left_rangeFrom {first : Escaped} {ds : List Char}
    (h : rangeFrom flags first ds = some (chars, rest)) :
    Left rest fun t left => rangeFrom flags first (ds ++ t) = some (chars, left) := by
  cases ds with
  | nil => cases h
  | cons c ds =>
    by_cases hc : c = '-'
    · subst hc
      by_cases halone : ∃ d more, flags.skip ds = d :: more ∧ (d = ']' ∨ d = '-')
      · -- a bracket or a hyphen behind the hyphen: the element makes no range
        obtain ⟨d, more, hskip, hd⟩ := halone
        refine .of_forall fun t ht => ?_
        rw [List.cons_append, rangeFrom, skip_append ht (by simp [hskip]), hskip]
        rw [rangeFrom, hskip] at h
        rcases hd with rfl | rfl <;> exact Escaped.alone_append h t
      · have hbracket : ∀ more, flags.skip ds ≠ ']' :: more :=
          fun more hskip => halone ⟨_, _, hskip, .inl rfl⟩
        have hhyphen : ∀ more, flags.skip ds ≠ '-' :: more :=
          fun more hskip => halone ⟨_, _, hskip, .inr rfl⟩
        have hne : flags.skip ds ≠ [] := by
          intro hnil
          simp only [rangeFrom, hnil] at h
          cases h
        rw [rangeFrom_hyphen hne hbracket hhyphen] at h
        obtain ⟨⟨last, more⟩, hlast, h⟩ := Option.bind_eq_some_iff.mp h
        obtain ⟨rfl, hrange⟩ := Escaped.upTo_eq_some h
        refine (left_element hlast).mono fun t left ht hread => ?_
        have hskip := skip_append ht hne
        have hne : flags.skip (ds ++ t) ≠ [] := by simp [hskip, hne]
        rw [List.cons_append, rangeFrom_hyphen hne (skip_append_ne ht (by decide) hbracket)
          (skip_append_ne ht (by decide) hhyphen), hskip, hread]
        exact hrange left
    · rw [rangeFrom_cons hc] at h
      refine .of_forall fun t ht => ?_
      rw [List.cons_append, rangeFrom_cons hc]
      exact Escaped.alone_append h t

/-- An element or a range is read alike with more text behind, but for **what is left**. -/
theorem left_elementOrRange (h : elementOrRange flags cs = some (chars, rest)) :
    Left rest fun t left => elementOrRange flags (cs ++ t) = some (chars, left) := by
  rw [elementOrRange_eq] at h
  obtain ⟨⟨first, more⟩, hfirst, h⟩ := Option.bind_eq_some_iff.mp h
  have hne : flags.skip more ≠ [] := by
    intro hnil
    simp only [hnil] at h
    cases h
  have hmore : more ≠ [] := by
    rintro rfl
    exact hne (skip_nil flags)
  refine (left_rangeFrom h).mono fun t left ht hread => ?_
  have hfirst : element flags (cs ++ t) = some (first, more ++ t) :=
    (left_element hfirst).append hmore ht
  rw [elementOrRange_eq, hfirst, Option.bind_some]
  change rangeFrom flags first (flags.skip (more ++ t)) = _
  rw [skip_append ht hne]
  exact hread

/-- What begins with **an element or a range**, and with no bracket or set operator. -/
structure BeginsElement (cs : List Char) : Prop where
  ne_nil : cs ≠ []
  not_close (more : List Char) : cs ≠ ']' :: more
  not_open (more : List Char) : cs ≠ '[' :: more
  not_inter (more : List Char) : cs ≠ '&' :: '&' :: more
  not_diff (more : List Char) : cs ≠ '-' :: '-' :: more
  not_symmDiff (more : List Char) : cs ≠ '~' :: '~' :: more

/-- What begins with an element does so **with more text behind it**, too. -/
theorem BeginsElement.append (h : BeginsElement cs) (ht : Closing t) : BeginsElement (cs ++ t) where
  ne_nil := List.append_ne_nil_of_left_ne_nil h.ne_nil t
  not_close := ht.append_ne (by decide) h.not_close
  not_open := ht.append_ne (by decide) h.not_open
  not_inter := ht.append_ne_pair (by decide) (by decide) h.not_inter
  not_diff := ht.append_ne_pair (by decide) (by decide) h.not_diff
  not_symmDiff := ht.append_ne_pair (by decide) (by decide) h.not_symmDiff

variable {negated : Bool} {waiting : Option (SetOperator × CharSet)}

/-- Where an element begins, a bracket takes **the element and goes on**. -/
theorem bracketFrom_of_beginsElement (h : BeginsElement (flags.skip cs)) :
    bracketFrom flags (fuel + 1) negated waiting items cs =
      (elementOrRange flags (flags.skip cs)).bind fun (chars, rest) =>
        bracketFrom flags fuel negated waiting (.union items chars) rest := by
  obtain ⟨h₀, h₁, h₂, h₃, h₄, h₅⟩ := h
  rw [bracketFrom]
  generalize flags.skip cs = ds at h₀ h₁ h₂ h₃ h₄ h₅
  obtain ⟨d, ds, rfl⟩ := List.exists_cons_of_ne_nil h₀
  simp only
  rfl

theorem bracketFrom_nil (flags : Flags) (fuel : Nat) (negated : Bool)
    (waiting : Option (SetOperator × CharSet)) (items : CharSet) :
    bracketFrom flags fuel negated waiting items [] = none := by
  cases fuel with
  | zero => rfl
  | succ fuel => rw [bracketFrom, skip_nil]

/-- A bracket that is closed is read alike **with more text behind it**. -/
theorem bracketFrom_append (ht : Closing t)
    (h : bracketFrom flags fuel negated waiting items cs = some (chars, rest)) {fuel' : Nat}
    (hle : fuel ≤ fuel') :
    bracketFrom flags fuel' negated waiting items (cs ++ t) = some (chars, rest ++ t) := by
  induction fuel generalizing negated waiting items cs chars rest fuel' with
  | zero => cases h
  | succ fuel ih =>
    obtain ⟨fuel', rfl⟩ := Nat.exists_eq_add_one.mpr (Nat.zero_lt_of_lt hle)
    have hle : fuel ≤ fuel' := Nat.le_of_succ_le_succ hle
    have hrest : ∀ {more : List Char} {items'} {waiting'},
        bracketFrom flags fuel negated waiting' items' more = some (chars, rest) →
        bracketFrom flags fuel' negated waiting' items' (more ++ t) = some (chars, rest ++ t) :=
      fun hread => ih hread hle
    by_cases hplain : BeginsElement (flags.skip cs)
    · rw [bracketFrom_of_beginsElement hplain] at h
      obtain ⟨⟨first, more⟩, hfirst, h⟩ := Option.bind_eq_some_iff.mp h
      have hskip := skip_append ht hplain.ne_nil
      have hmore : more ≠ [] := by
        rintro rfl
        simp only [bracketFrom_nil] at h
        cases h
      have hplain' := hplain.append ht
      rw [← hskip] at hplain'
      have hfirst := (left_elementOrRange hfirst).append hmore ht
      rw [bracketFrom_of_beginsElement hplain', hskip, hfirst]
      exact hrest h
    · have hskip : ∀ {d : Char} {more : List Char}, flags.skip cs = d :: more →
          flags.skip (cs ++ t) = d :: (more ++ t) := by
        intro d more hskip
        rw [skip_append ht (by simp [hskip]), hskip, List.cons_append]
      rw [bracketFrom] at h
      split at h
      · cases h
      · next more hclose =>
        obtain ⟨rfl, rfl⟩ := Prod.mk.inj (Option.some.inj h)
        rw [bracketFrom, hskip hclose]
        rfl
      · next more hopen =>
        rw [bracketFrom, hskip hopen]
        simp only [namedClass?_append ht]
        cases hnamed : namedClass? more with
        | some named =>
          rw [hnamed] at h
          exact hrest h
        | none =>
          rw [hnamed] at h
          obtain ⟨⟨negated', items', more'⟩, hopened, h⟩ := Option.bind_eq_some_iff.mp h
          obtain ⟨⟨inner, after⟩, hinner, h⟩ := Option.bind_eq_some_iff.mp h
          simp only [Option.map_none, openBracket_append ht hopened, ih hinner hle,
            Option.bind_eq_bind, Option.bind_some]
          exact hrest h
      · -- the operators between sets
        next hoperator =>
        rw [bracketFrom, hskip hoperator]
        exact hrest h
      · next hoperator =>
        rw [bracketFrom, hskip hoperator]
        exact hrest h
      · next hoperator =>
        rw [bracketFrom, hskip hoperator]
        exact hrest h
      · next h₀ h₁ h₂ h₃ h₄ h₅ => exact absurd ⟨h₀, h₁, h₂, h₃, h₄, h₅⟩ hplain

/-- **A class in brackets** is read alike. -/
theorem bracket_append (ht : Closing t) (h : bracket flags cs = some (chars, rest)) :
    bracket flags (cs ++ t) = some (chars, rest ++ t) := by
  obtain ⟨⟨negated, items, more⟩, hopened, h⟩ := Option.bind_eq_some_iff.mp h
  rw [bracket, openBracket_append ht hopened]
  exact bracketFrom_append ht h (by simp)

/-! ### Repetition counts -/

section

variable {n : Nat} {value value' : Option Nat}

theorem decimalDigits_nil (flags : Flags) (fuel : Nat) (value : Option Nat) :
    decimalDigits flags fuel value [] = (value, []) := by
  cases fuel <;> rfl

/-- Digits are read alike with more text behind, **if something ends them**. -/
theorem decimalDigits_append (ht : Closing t)
    (h : decimalDigits flags fuel value cs = (value', rest)) (hne : rest ≠ [])
    (hfuel : cs.length ≤ fuel) {fuel' : Nat} (hle : fuel ≤ fuel') :
    decimalDigits flags fuel' value (cs ++ t) = (value', rest ++ t) := by
  induction fuel generalizing value cs fuel' with
  | zero =>
    obtain rfl := List.length_eq_zero_iff.mp (Nat.le_zero.mp hfuel)
    exact absurd (Prod.mk.inj h).2.symm hne
  | succ fuel ih =>
    obtain ⟨fuel', rfl⟩ := Nat.exists_eq_add_one.mpr (Nat.zero_lt_of_lt hle)
    cases cs with
    | nil => exact absurd (Prod.mk.inj h).2.symm hne
    | cons c cs =>
      simp only [decimalDigits, List.cons_append] at h ⊢
      by_cases hdigit : c.isDigit
      · rw [if_pos hdigit] at h ⊢
        by_cases hnil : flags.skip cs = []
        · rw [hnil, decimalDigits_nil] at h
          exact absurd (Prod.mk.inj h).2.symm hne
        · rw [skip_append ht hnil]
          refine ih h ?_ (Nat.le_of_succ_le_succ hle)
          exact Nat.le_trans (length_skip_le flags cs) (Nat.le_of_succ_le_succ hfuel)
      · rw [if_neg hdigit] at h ⊢
        obtain ⟨rfl, rfl⟩ := Prod.mk.inj h
        rfl

theorem decimal_nil (flags : Flags) : decimal flags [] = none := rfl

/-- A number is read alike with more text behind, **if something ends it**. -/
theorem decimal_append (ht : Closing t) (h : decimal flags cs = some (n, rest)) (hne : rest ≠ []) :
    decimal flags (cs ++ t) = some (n, rest ++ t) := by
  obtain ⟨value, more, hdigits⟩ : ∃ value more,
      decimalDigits flags (cs.dropWhile isBlank).length none (cs.dropWhile isBlank) =
        (value, more) := ⟨_, _, rfl⟩
  rw [decimal, hdigits] at h
  cases value with
  | none => cases h
  | some m =>
    by_cases hm : m < Nat.pow 2 32
    · simp only [if_pos hm] at h
      obtain ⟨rfl, rfl⟩ := Prod.mk.inj (Option.some.inj h)
      have hmore : more ≠ [] := by
        rintro rfl
        exact hne rfl
      have hcs : cs.dropWhile isBlank ≠ [] := by
        intro hnil
        rw [hnil, decimalDigits_nil] at hdigits
        exact hmore (Prod.mk.inj hdigits).2.symm
      have happend := decimalDigits_append ht hdigits hmore (Nat.le_refl _)
        (Nat.le_add_right _ t.length)
      rw [decimal, drops_dropWhile_isBlank.append hcs ht, List.length_append, happend]
      simp only [if_pos hm, drops_dropWhile_isBlank.append hne ht]
    · simp only [if_neg hm] at h
      cases h

/-- **Counts in braces** are read alike. -/
theorem counts_append {bounds : Nat × Option Nat} (ht : Closing t)
    (h : counts flags cs = some (bounds, rest)) :
    counts flags (cs ++ t) = some (bounds, rest ++ t) := by
  obtain ⟨⟨low, more⟩, hlow, h⟩ := Option.bind_eq_some_iff.mp h
  -- digits have been read, so the text goes on behind the blanks
  have hskip : flags.skip cs ≠ [] := by
    intro hnil
    rw [hnil, decimal_nil] at hlow
    cases hlow
  have hmore : more ≠ [] := by
    rintro rfl
    cases h
  rw [counts, skip_append ht hskip, decimal_append ht hlow hmore]
  simp only [Option.bind_eq_bind, Option.bind_some] at h ⊢
  -- one number and the brace
  split at h
  · next after =>
    obtain ⟨rfl, rfl⟩ := Prod.mk.inj (Option.some.inj h)
    rfl
  · -- a number and a comma, with a second number or without
    next after =>
    simp only [List.cons_append]
    split at h
    · next after' hbrace =>
      obtain ⟨rfl, rfl⟩ := Prod.mk.inj (Option.some.inj h)
      rw [skip_append ht (by simp [hbrace]), hbrace]
      rfl
    · next hbrace =>
      obtain ⟨⟨high, more⟩, hhigh, h⟩ := Option.bind_eq_some_iff.mp h
      have hne : flags.skip after ≠ [] := by
        intro hnil
        rw [hnil, decimal_nil] at hhigh
        cases hhigh
      have hmore : more ≠ [] := by
        rintro rfl
        cases h
      split
      · next hbrace' => exact absurd hbrace' (skip_append_ne ht (by decide) hbrace _)
      · rw [skip_append ht hne, decimal_append ht hhigh hmore]
        simp only [Option.bind_some]
        split at h
        · next heq =>
          obtain ⟨rfl, rfl⟩ := Prod.mk.inj heq
          simp only [List.cons_append]
          split at h
          · next hle =>
            obtain ⟨rfl, rfl⟩ := Prod.mk.inj (Option.some.inj h)
            exact if_pos hle
          · cases h
        · cases h
  · cases h

end

/-! ### Groups and modes -/

/-- Letters of modes are read alike **with more text behind them**, whatever it is. -/
theorem modeLetters_append {seen : List Char} {off dangling none? : Bool} {flags' : Flags}
    (h : modeLetters seen off dangling flags cs = some (flags', none?, rest)) (t : List Char) :
    modeLetters seen off dangling flags (cs ++ t) = some (flags', none?, rest ++ t) := by
  induction cs generalizing seen off dangling flags with
  | nil => cases h
  | cons c cs ih =>
    simp only [modeLetters, List.cons_append] at h ⊢
    by_cases hend : c = ':' ∨ c = ')'
    · simp only [if_pos hend] at h ⊢
      cases dangling with
      | true => cases h
      | false =>
        obtain ⟨rfl, rfl, rfl⟩ := by simpa using h
        rfl
    · simp only [if_neg hend] at h ⊢
      split
      · next hminus =>
        rw [if_pos hminus] at h
        split at h
        · cases h
        · next hoff =>
          rw [if_neg hoff]
          exact ih h
      · next hminus =>
        rw [if_neg hminus] at h
        split at h
        · cases h
        · next hseen =>
          rw [if_neg hseen]
          split at h
          all_goals first
            | exact ih h
            | cases h

/-- The name of a group is read alike **with more text behind it**, whatever it is. -/
theorem groupName?_append {name : List Char} (h : groupName? cs = some (name, rest))
    (t : List Char) : groupName? (cs ++ t) = some (name, rest ++ t) := by
  rw [groupName?] at h
  split at h
  · next c name' rest' htake hdrop =>
    have hne : cs.dropWhile (· != '>') ≠ [] := by simp [hdrop]
    obtain ⟨hdrop', htake'⟩ := span_append hne t
    rw [groupName?, hdrop', htake', htake, hdrop]
    simp only [List.cons_append]
    split at h
    · next hname =>
      obtain ⟨rfl, rfl⟩ := Prod.mk.inj (Option.some.inj h)
      exact if_pos hname
    · cases h
  · cases h

/-- Reads the **modes** after an opening parenthesis and a question mark. -/
def openingModes (flags : Flags) (cs : List Char) : Option (Opening × List Char) :=
  (modeLetters [] false false flags cs).bind fun (flags, none?, rest) =>
    match rest with
    | ':' :: rest => some (.group flags none, rest)
    | ')' :: rest => if none? then none else some (.modes flags, rest)
    | _ => none

/-- Reads what comes **after an opening parenthesis and a question mark**. -/
def openingMark (flags : Flags) (cs : List Char) : Option (Opening × List Char) :=
  let named (cs : List Char) :=
    (groupName? cs).map fun (name, rest) => (Opening.group flags (some name), rest)
  match cs with
  | '=' :: _ => none
  | '!' :: _ => none
  | '<' :: '=' :: _ => none
  | '<' :: '!' :: _ => none
  | 'P' :: '<' :: rest => named rest
  | '<' :: rest => named rest
  | cs => openingModes flags cs

theorem opening_mark {more : List Char} (h : flags.skip cs = '?' :: more) :
    opening flags cs = openingMark flags more := by
  generalize hmark : openingMark flags more = mark
  unfold opening
  simp only [h]
  unfold openingMark at hmark
  simp only at hmark
  split at hmark
  case h_7 =>
    subst hmark
    simp only
    rfl
  all_goals
    subst hmark
    simp only

theorem opening_plain (h : ∀ more, flags.skip cs ≠ '?' :: more) :
    opening flags cs = some (.group flags none, flags.skip cs) := by
  unfold opening
  generalize flags.skip cs = ds at h
  cases ds with
  | nil => rfl
  | cons d ds =>
    have hd : d ≠ '?' := fun hd => h ds (by rw [hd])
    simp [hd]

variable {o : Opening}

/-- Modes of a group are read alike **with more text behind them**. -/
theorem openingModes_append (h : openingModes flags cs = some (o, rest)) (t : List Char) :
    openingModes flags (cs ++ t) = some (o, rest ++ t) := by
  obtain ⟨⟨flags', none?, more⟩, hletters, h⟩ := Option.bind_eq_some_iff.mp h
  rw [openingModes, modeLetters_append hletters]
  simp only [Option.bind_some] at h ⊢
  split at h
  · obtain ⟨rfl, rfl⟩ := Prod.mk.inj (Option.some.inj h)
    rfl
  · split at h
    · cases h
    · next hnone =>
      obtain ⟨rfl, rfl⟩ := Prod.mk.inj (Option.some.inj h)
      exact if_neg hnone
  · cases h

/-- What a question mark opens is read alike **with more text behind it**. -/
theorem openingMark_append (ht : Closing t) (h : openingMark flags cs = some (o, rest)) :
    openingMark flags (cs ++ t) = some (o, rest ++ t) := by
  have hname : ∀ {more : List Char},
      (groupName? more).map (fun (name, rest) => (Opening.group flags (some name), rest)) =
        some (o, rest) →
      (groupName? (more ++ t)).map (fun (name, rest) => (Opening.group flags (some name), rest)) =
        some (o, rest ++ t) := by
    intro more h
    obtain ⟨⟨name, after⟩, hname, h⟩ := Option.map_eq_some_iff.mp h
    obtain ⟨rfl, rfl⟩ := Prod.mk.inj h
    rw [groupName?_append hname]
    rfl
  unfold openingMark at h ⊢
  simp only at h ⊢
  split at h
  · cases h
  · cases h
  · cases h
  · cases h
  · exact hname h
  · next more hahead hnot =>
    simp only [List.cons_append]
    split
    · next heq => cases heq
    · next heq => cases heq
    · next heq => exact absurd (List.cons.inj heq).2 (ht.append_ne (by decide) hahead _)
    · next heq => exact absurd (List.cons.inj heq).2 (ht.append_ne (by decide) hnot _)
    · next heq => cases heq
    · next heq =>
      obtain ⟨-, rfl⟩ := List.cons.inj heq
      exact hname h
    · next hangle => exact absurd rfl (hangle _)
  · next h₁ h₂ h₃ h₄ h₅ h₆ =>
    split
    · next heq => exact absurd heq (ht.append_ne (by decide) h₁ _)
    · next heq => exact absurd heq (ht.append_ne (by decide) h₂ _)
    · next heq => exact absurd heq (ht.append_ne_pair (by decide) (by decide) h₃ _)
    · next heq => exact absurd heq (ht.append_ne_pair (by decide) (by decide) h₄ _)
    · next heq => exact absurd heq (ht.append_ne_pair (by decide) (by decide) h₅ _)
    · next heq => exact absurd heq (ht.append_ne (by decide) h₆ _)
    · exact openingModes_append h t

/-- **The beginning of a group** is read alike. -/
theorem left_opening (h : opening flags cs = some (o, rest)) :
    Left rest fun t left => opening flags (cs ++ t) = some (o, left) := by
  by_cases hmark : ∃ more, flags.skip cs = '?' :: more
  · obtain ⟨more, hmark⟩ := hmark
    refine .of_forall fun t ht => ?_
    have hmark' : flags.skip (cs ++ t) = '?' :: (more ++ t) := by
      rw [skip_append ht (by simp [hmark]), hmark, List.cons_append]
    rw [opening_mark hmark] at h
    rw [opening_mark hmark']
    exact openingMark_append ht h
  · have hplain : ∀ more, flags.skip cs ≠ '?' :: more := fun more heq => hmark ⟨more, heq⟩
    rw [opening_plain hplain] at h
    obtain ⟨rfl, rfl⟩ := Prod.mk.inj (Option.some.inj h)
    refine ((drops_skip flags).left cs).mono fun t left ht hskip => ?_
    rw [opening_plain (skip_append_ne ht (by decide) hplain), hskip]

end GeneralParsing.Common
