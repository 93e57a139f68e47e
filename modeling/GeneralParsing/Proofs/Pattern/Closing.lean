import GeneralParsing.Pattern.Common
import GeneralParsing.Proofs.Pattern.Vocabulary

/-!
# Reading with a closing parenthesis behind the text

With a closing parenthesis behind the text, which may be followed by dollar signs, the reader reads
every item of the text as it does without, and what is left of the text keeps the parenthesis behind
it. There is one exception: where the text ends in a remark of a verbose pattern the remark goes on,
and the parenthesis is lost in it. `Left` says which of the two is the case. Here it is proved of
blanks, remarks and escapes.
-/

namespace GeneralParsing

section

variable {rest cs : List Char} {P Q : List Char → List Char → Prop} {t : List Char} {c : Char}

/-- What closes behind a text consists of **closing parentheses and an anchor** at the end. -/
theorem Closing.mem (h : Closing t) (hc : c ∈ t) : c = ')' ∨ c = '$' := by
  obtain ⟨u, rfl, hu⟩ := h
  exact (List.mem_cons.mp hc).imp_right (hu c)

/-- With what closes behind it a text **begins with another character** only if it did before. -/
theorem Closing.append_ne (h : Closing t) (hc : c ≠ ')') (hcs : ∀ more, cs ≠ c :: more)
    (more : List Char) : cs ++ t ≠ c :: more := by
  obtain ⟨u, rfl, -⟩ := h
  cases cs with
  | nil => exact fun heq => hc (List.cons.inj heq).1.symm
  | cons d cs => exact fun heq => hcs cs (by rw [(List.cons.inj heq).1])

/-- With what closes behind it a text **begins with two other characters** only if it did before. -/
theorem Closing.append_ne_pair {d : Char} (h : Closing t) (hc : c ≠ ')') (hd : d ≠ ')')
    (hcs : ∀ more, cs ≠ c :: d :: more) (more : List Char) : cs ++ t ≠ c :: d :: more := by
  cases cs with
  | nil => exact h.append_ne hc (fun _ => (List.cons_ne_nil _ _).symm) _
  | cons e cs =>
    intro heq
    obtain ⟨rfl, hds⟩ := List.cons.inj heq
    exact h.append_ne hd (fun more hmore => hcs more (congrArg _ hmore)) more hds

/-- Where something is left of the text **nothing is lost**. Only a remark at the end of the text
covers what comes behind it. -/
theorem Left.append (h : Left rest P) (hne : rest ≠ []) (ht : Closing t) : P t (rest ++ t) :=
  h.elim (fun h => h t ht) fun ⟨hrest, _⟩ => absurd hrest hne

/-- A function that **drops characters** at the front does the same with what closes behind. -/
structure Drops (trim : List Char → List Char) : Prop where
  nil : trim [] = []
  left : ∀ cs, Left (trim cs) fun t left => trim (cs ++ t) = left

variable {trim : List Char → List Char}

/-- What is trimmed in front is trimmed **with more text behind it**, too, if something is left. -/
theorem Drops.append (h : Drops trim) (hne : trim cs ≠ []) (ht : Closing t) :
    trim (cs ++ t) = trim cs ++ t :=
  (h.left cs).append hne ht

/-- What is left may **have characters dropped**. -/
theorem Left.drops (h : Left rest P) (htrim : Drops trim) :
    Left (trim rest) fun t left => ∃ before, P t before ∧ trim before = left := by
  rcases h with h | ⟨rfl, h⟩
  · exact (htrim.left rest).mono fun t left ht heq => ⟨rest ++ t, h t ht, heq⟩
  · exact .inr ⟨htrim.nil, fun t ht => ⟨[], h t ht, htrim.nil⟩⟩

/-- A reader reads what is left when **characters have been dropped**, if it leaves nothing of
nothing. -/
theorem Drops.reads {α : Type} {read : List Char → Option (α × List Char)} {a : α}
    (htrim : Drops trim) (hread : read (trim cs) = some (a, rest))
    (hleft : Left rest fun t left => read (trim cs ++ t) = some (a, left))
    (hnil : ∀ {a : α} {rest}, read [] = some (a, rest) → rest = []) :
    Left rest fun t left => read (trim (cs ++ t)) = some (a, left) := by
  rcases htrim.left cs with hcs | ⟨hcs, hlost⟩
  · refine hleft.mono fun t left ht hread => ?_
    rw [hcs t ht]
    exact hread
  · rw [hcs] at hread
    obtain rfl := hnil hread
    refine .inr ⟨rfl, fun t ht => ?_⟩
    have hlost : trim (cs ++ t) = [] := hlost t ht
    change read (trim (cs ++ t)) = some (a, [])
    rw [hlost, hread]

end

namespace Common

/-! ### Blanks and remarks -/

section

variable {flags : Flags} {cs rest : List Char} {t : List Char}

/-- Dropping remarks is alike with more text behind, but for **what is left**. A remark that is
still open at the end takes in what closes. -/
theorem left_dropRemarks (within : Bool) (cs : List Char) :
    Left (dropRemarks within cs) fun t left => dropRemarks within (cs ++ t) = left := by
  induction cs generalizing within with
  | nil =>
    cases within with
    | false =>
      refine .of_forall fun t ht => ?_
      obtain ⟨u, rfl, -⟩ := ht
      rfl
    | true =>
      refine .inr ⟨rfl, fun t ht => ?_⟩
      have hline : ∀ c ∈ t, c ≠ '\n' := by
        intro c hc
        rcases ht.mem hc with rfl | rfl <;> decide
      clear ht
      change dropRemarks true t = []
      induction t with
      | nil => rfl
      | cons c t ih =>
        obtain ⟨hc, hline⟩ := List.forall_mem_cons.mp hline
        rw [dropRemarks, bne_iff_ne.mpr hc]
        exact ih hline
  | cons c cs ih =>
    cases within with
    | true => exact ih _
    | false =>
      simp only [List.cons_append, dropRemarks]
      split
      · exact ih false
      · split
        · exact ih true
        · exact .of_forall fun _ _ => rfl

theorem drops_skip (flags : Flags) : Drops flags.skip := by
  refine ⟨?_, fun cs => ?_⟩ <;> simp only [Flags.skip]
  · split <;> rfl
  · split
    · exact left_dropRemarks false cs
    · exact .of_forall fun _ _ => rfl

theorem skip_nil (flags : Flags) : flags.skip [] = [] := (drops_skip flags).nil

/-- Skipping stops **at the same place** with more text behind it, if there is something to stop at.
-/
theorem skip_append (ht : Closing t) (hne : flags.skip cs ≠ []) :
    flags.skip (cs ++ t) = flags.skip cs ++ t :=
  (drops_skip flags).append hne ht

/-- With what closes behind it a text **begins with another item** only if it did before. -/
theorem skip_append_ne {c : Char} (ht : Closing t) (hc : c ≠ ')')
    (hcs : ∀ more, flags.skip cs ≠ c :: more) (more : List Char) :
    flags.skip (cs ++ t) ≠ c :: more := by
  by_cases hnil : flags.skip cs = []
  · rcases (drops_skip flags).left cs with hleft | ⟨-, hleft⟩
    · have heq : flags.skip (cs ++ t) = flags.skip cs ++ t := hleft t ht
      rw [heq]
      exact ht.append_ne hc hcs more
    · have heq : flags.skip (cs ++ t) = [] := hleft t ht
      rw [heq]
      exact (List.cons_ne_nil _ _).symm
  · rw [skip_append ht hnil]
    exact ht.append_ne hc hcs more

theorem drops_dropWhile_isBlank : Drops (List.dropWhile isBlank) := by
  refine ⟨rfl, fun cs => .of_forall fun t ht => ?_⟩
  rw [List.dropWhile_append]
  split
  · next hempty =>
    obtain ⟨u, rfl, -⟩ := ht
    rw [List.isEmpty_iff.mp hempty]
    rfl
  · rfl

theorem drops_dropLazyMark : Drops dropLazyMark := by
  refine ⟨rfl, fun cs => .of_forall fun t ht => ?_⟩
  obtain ⟨u, rfl, -⟩ := ht
  cases cs with
  | nil => rfl
  | cons c cs =>
    by_cases hc : c = '?'
    · subst hc
      rfl
    · simp [dropLazyMark, hc]

/-- Dropping remarks never makes a text **longer**, so readers that do so end. -/
theorem length_dropRemarks_le (within : Bool) (cs : List Char) :
    (dropRemarks within cs).length ≤ cs.length := by
  induction cs generalizing within with
  | nil => cases within <;> exact Nat.le_refl _
  | cons c cs ih =>
    cases within with
    | true => exact Nat.le_succ_of_le (ih _)
    | false =>
      simp only [dropRemarks]
      split
      · exact Nat.le_succ_of_le (ih false)
      · split
        · exact Nat.le_succ_of_le (ih true)
        · exact Nat.le_refl _

theorem length_skip_le (flags : Flags) (cs : List Char) : (flags.skip cs).length ≤ cs.length := by
  rw [Flags.skip]
  split
  · exact length_dropRemarks_le false cs
  · exact Nat.le_refl _

end

/-! ### Escapes -/

section

variable {flags : Flags} {cs rest : List Char} {value : Nat}

/-- Digits that are read from nothing **leave nothing**. This takes care of numbers that are cut
off. -/
theorem rest_of_hexDigits_nil {width n : Nat}
    (h : hexDigits flags width value [] = some (n, rest)) : rest = [] := by
  cases width with
  | zero =>
    rw [hexDigits] at h
    exact (Prod.mk.inj (Option.some.inj h)).2.symm
  | succ width => cases h

/-- Hexadecimal digits are read alike with more text behind, but for **what is left**. -/
theorem left_hexDigits {width n : Nat} (h : hexDigits flags width value cs = some (n, rest)) :
    Left rest fun t left => hexDigits flags width value (cs ++ t) = some (n, left) := by
  induction width generalizing value cs with
  | zero =>
    rw [hexDigits] at h
    obtain ⟨rfl, rfl⟩ := Prod.mk.inj (Option.some.inj h)
    exact .of_forall fun _ _ => rfl
  | succ width ih =>
    cases cs with
    | nil => cases h
    | cons c cs =>
      simp only [List.cons_append, hexDigits] at h ⊢
      cases hdigit : hexValue? c with
      | none =>
        rw [hdigit] at h
        cases h
      | some digit =>
        rw [hdigit] at h
        exact (drops_skip flags).reads h (ih h) rest_of_hexDigits_nil

/-- More fuel than is needed **does not matter**. It is given by the length of the text, and that
grows with what is behind. -/
theorem left_bracedHex {fuel n : Nat} {value : Option Nat}
    (h : bracedHex flags fuel value cs = some (n, rest)) :
    Left rest fun t left => ∀ fuel' ≥ fuel,
      bracedHex flags fuel' value (cs ++ t) = some (n, left) := by
  induction fuel generalizing value cs with
  | zero => cases h
  | succ fuel ih =>
    rw [bracedHex] at h
    have hfuel : ∀ {fuel'}, fuel' ≥ fuel + 1 → ∃ k, fuel' = k + 1 ∧ k ≥ fuel := by
      intro fuel' hle
      exact ⟨fuel' - 1, by omega, by omega⟩
    split at h
    · cases h
    · next more hskip =>
      cases value with
      | none => cases h
      | some v =>
        obtain ⟨rfl, rfl⟩ := Prod.mk.inj (Option.some.inj h)
        refine ((drops_skip flags).left more).mono fun t left ht hleft fuel' hle => ?_
        obtain ⟨k, rfl, -⟩ := hfuel hle
        rw [bracedHex, skip_append ht (by simp [hskip]), hskip]
        simp [hleft]
    · next c more hc hskip =>
      cases hdigit : hexValue? c with
      | none =>
        rw [hdigit] at h
        cases h
      | some digit =>
        rw [hdigit] at h
        refine (ih h).mono fun t left ht hread fuel' hle => ?_
        obtain ⟨k, rfl, hk⟩ := hfuel hle
        rw [bracedHex, skip_append ht (by simp [hskip]), hskip]
        simp only [List.cons_append, hdigit]
        exact hread k hk

/-- A code point is read alike with more text behind, but for **what is left**. -/
theorem left_codePoint {width : Nat} {c : Char} (h : codePoint flags width cs = some (c, rest)) :
    Left rest fun t left => codePoint flags width (cs ++ t) = some (c, left) := by
  have hcode : ∀ {digits : Option (Nat × List Char)},
      (digits.bind fun read => (charOfCode? read.1).bind fun code => some (code, read.2)) =
        some (c, rest) →
      ∃ n, digits = some (n, rest) ∧ charOfCode? n = some c := by
    rintro (_ | ⟨n, more⟩) h
    · cases h
    · simp only [Option.bind_some] at h
      obtain ⟨code, hcode, h⟩ := Option.bind_eq_some_iff.mp h
      obtain ⟨rfl, rfl⟩ := Prod.mk.inj (Option.some.inj h)
      exact ⟨n, rfl, hcode⟩
  rw [codePoint] at h
  split at h
  · next digits hskip =>
    obtain ⟨n, hread, hn⟩ := hcode h
    refine (left_bracedHex hread).mono fun t left ht hread => ?_
    have hread := hread ((digits ++ t).length + 1) (by simp)
    rw [codePoint, skip_append ht (by simp [hskip]), hskip]
    simp only [List.cons_append, hread, Option.bind_eq_bind, Option.bind_some, hn]
    rfl
  · next hbrace =>
    obtain ⟨n, hread, hn⟩ := hcode h
    have hleft := (drops_skip flags).reads hread (left_hexDigits hread) rest_of_hexDigits_nil
    refine hleft.mono fun t left ht hread => ?_
    rw [codePoint]
    split
    · next digits hskip => exact absurd hskip (skip_append_ne ht (by decide) hbrace digits)
    · simp only [hread, Option.bind_eq_bind, Option.bind_some, hn]
      rfl

/-- **An escape** is read alike. Each kind of escape has its own end, and none of them looks
further. -/
theorem left_escaped {e : Escaped} (h : escaped flags cs = some (e, rest)) :
    Left rest fun t left => escaped flags (cs ++ t) = some (e, left) := by
  cases cs with
  | nil => cases h
  | cons c cs =>
    have hcode : ∀ width,
        (codePoint flags width cs).map (fun read => (Escaped.char read.1, read.2)) =
          some (e, rest) → Left rest fun t left => (codePoint flags width (cs ++ t)).map
            (fun read => (Escaped.char read.1, read.2)) = some (e, left) := by
      intro width h
      obtain ⟨⟨c, more⟩, hread, h⟩ := Option.map_eq_some_iff.mp h
      obtain ⟨rfl, rfl⟩ := Prod.mk.inj h
      exact (left_codePoint hread).mono fun t left _ hread => by rw [hread]; rfl
    simp only [List.cons_append, escaped] at h ⊢
    split at h
    case h_22 =>
      split at h
      · next hescapable =>
        obtain ⟨rfl, rfl⟩ := Prod.mk.inj (Option.some.inj h)
        exact .of_forall fun _ _ => if_pos hescapable
      · cases h
    all_goals first
      | exact hcode _ h
      | (obtain ⟨rfl, rfl⟩ := Prod.mk.inj (Option.some.inj h)
         exact .of_forall fun _ _ => rfl)

end

end Common

end GeneralParsing
