import GeneralParsing.Text.Quoted
import Mathlib

/-!
# Quoted texts can be told apart

What a character looks like between quotes tells which character it is and where it ends
(`quoteCharacter_append_inj`), and it never looks like the closing quote. So a quoted text tells
what the text is and where it ends, whatever comes behind it (`quote_append_inj`). It stays on one
line.
-/

namespace GeneralParsing.Text

variable {m n : Nat} {c d : Char} {s t : String} {u v : List Char}

/-! ### Pieces of a text -/

/-- A piece and what comes behind it can be told apart if **the piece ends where a condition
fails**. -/
theorem append_inj_of_ends {p : Char → Prop} {x y : List Char} (hx : ∀ c ∈ x, p c)
    (hy : ∀ c ∈ y, p c) (hu : ∀ c ∈ u.head?, ¬ p c) (hv : ∀ c ∈ v.head?, ¬ p c)
    (h : x ++ u = y ++ v) : x = y ∧ u = v := by
  induction x generalizing y with
  | nil =>
    cases y with
    | nil => exact ⟨rfl, h⟩
    | cons d y =>
      obtain rfl : u = d :: (y ++ v) := h
      exact absurd (hy d List.mem_cons_self) (hu d rfl)
  | cons c x ih =>
    obtain ⟨hc, hx⟩ := List.forall_mem_cons.mp hx
    cases y with
    | nil =>
      obtain rfl : c :: (x ++ u) = v := h
      exact absurd hc (hv c rfl)
    | cons d y =>
      obtain ⟨rfl, hrest⟩ := List.cons.inj h
      obtain ⟨rfl, huv⟩ := ih hx (List.forall_mem_cons.mp hy).2 hrest
      exact ⟨rfl, huv⟩

/-! ### Hexadecimal digits -/

theorem hexadecimal_of_lt (h : n < 16) : hexadecimal n = [n.digitChar] :=
  Nat.toDigits_of_lt_base h

theorem hexadecimal_of_le (h : 16 ≤ n) :
    hexadecimal n = hexadecimal (n / 16) ++ [(n % 16).digitChar] :=
  Nat.toDigits_of_base_le (by decide) h

theorem mem_hexadecimal : ∀ n, ∀ c ∈ hexadecimal n, ∃ k < 16, c = k.digitChar := by
  intro n
  induction n using Nat.strongRecOn with
  | ind n ih =>
    rcases Nat.lt_or_ge n 16 with hlt | hle
    · simpa [hexadecimal_of_lt hlt] using ⟨n, hlt, rfl⟩
    · rw [hexadecimal_of_le hle]
      intro c hc
      rcases List.mem_append.mp hc with hc | hc
      · exact ih (n / 16) (by omega) c hc
      · exact ⟨n % 16, by omega, List.mem_singleton.mp hc⟩

/-- Hexadecimal digits **tell the number**. -/
theorem hexadecimal_inj (h : hexadecimal m = hexadecimal n) : m = n := by
  have hdigit : ∀ i < 16, ∀ j < 16, Nat.digitChar i = Nat.digitChar j → i = j := by decide
  have hlen : ∀ n, 0 < (hexadecimal n).length := fun n => Nat.length_toDigits_pos
  induction m using Nat.strongRecOn generalizing n with
  | ind m ih =>
    rcases Nat.lt_or_ge m 16 with hm | hm <;> rcases Nat.lt_or_ge n 16 with hn | hn
    · rw [hexadecimal_of_lt hm, hexadecimal_of_lt hn] at h
      exact hdigit m hm n hn (List.singleton_inj.mp h)
    · -- one digit against two or more
      have hone := congrArg List.length h
      rw [hexadecimal_of_lt hm, hexadecimal_of_le hn, List.length_append, List.length_singleton,
        List.length_singleton] at hone
      have hpos := hlen (n / 16)
      omega
    · have hone := congrArg List.length h
      rw [hexadecimal_of_le hm, hexadecimal_of_lt hn, List.length_append, List.length_singleton,
        List.length_singleton] at hone
      have hpos := hlen (m / 16)
      omega
    · rw [hexadecimal_of_le hm, hexadecimal_of_le hn] at h
      obtain ⟨hfront, hlast⟩ := List.append_inj' h rfl
      have hdiv := ih (m / 16) (by omega) hfront
      have hmod := hdigit _ (Nat.mod_lt m (by decide)) _ (Nat.mod_lt n (by decide))
        (List.singleton_inj.mp hlast)
      omega

/-! ### Single characters -/

/-- The characters that are written by **a letter or themselves** behind a backslash. -/
def marks : List (Char × Char) :=
  [('"', '"'), ('\\', '\\'), ('\n', 'n'), ('\r', 'r'), ('\t', 't'), ('\x00', '0')]

/-- A character is written **by a mark, by its code point, or as itself**. -/
theorem quoteCharacter_cases (c : Char) :
    (∃ mark, (c, mark) ∈ marks ∧ quoteCharacter c = ['\\', mark]) ∨
      quoteCharacter c = '\\' :: 'u' :: '\x7b' :: (hexadecimal c.toNat ++ ['\x7d']) ∨
      quoteCharacter c = [c] ∧ c ≠ '"' ∧ c ≠ '\\' ∧ c ≠ '\n' := by
  unfold quoteCharacter
  split_ifs with hquote hslash hnewline hreturn htab hnull hshown
  · exact .inl ⟨'"', by simp [hquote, marks], rfl⟩
  · exact .inl ⟨'\\', by simp [hslash, marks], rfl⟩
  · exact .inl ⟨'n', by simp [hnewline, marks], rfl⟩
  · exact .inl ⟨'r', by simp [hreturn, marks], rfl⟩
  · exact .inl ⟨'t', by simp [htab, marks], rfl⟩
  · exact .inl ⟨'0', by simp [hnull, marks], rfl⟩
  · exact .inr (.inl rfl)
  · exact .inr (.inr ⟨rfl, hquote, hslash, hnewline⟩)

/-- A character is not written like **the closing quote**. -/
theorem quoteCharacter_append_ne (c : Char) (u v : List Char) :
    quoteCharacter c ++ u ≠ '"' :: v := by
  rcases quoteCharacter_cases c with ⟨mark, -, h⟩ | h | ⟨h, hquote, -⟩ <;> rw [h]
  · simp
  · simp
  · simpa using fun heq => absurd heq hquote

/-- **A character and where it ends** can be told from what is written. -/
theorem quoteCharacter_append_inj (h : quoteCharacter c ++ u = quoteCharacter d ++ v) :
    c = d ∧ u = v := by
  have hmarks : ∀ p ∈ marks, p.2 ≠ 'u' ∧ ∀ q ∈ marks, p.2 = q.2 → p.1 = q.1 := by decide
  have hdigit : ∀ k < 16, Nat.digitChar k ≠ '\x7d' := by decide
  have hbrace : ∀ n, ∀ c ∈ hexadecimal n, c ≠ '\x7d' := by
    intro n c hc
    obtain ⟨k, hk, rfl⟩ := mem_hexadecimal n c hc
    exact hdigit k hk
  -- a backslash stands for itself nowhere, and `u` behind it is no mark
  rcases quoteCharacter_cases c with ⟨mark, hmark, hc⟩ | hc | ⟨hc, -, hslash, -⟩ <;>
    rcases quoteCharacter_cases d with ⟨mark', hmark', hd⟩ | hd | ⟨hd, -, hslash', -⟩ <;>
    rw [hc, hd] at h
  · simp only [List.cons_append, List.nil_append, List.cons.injEq, true_and] at h
    exact ⟨(hmarks _ hmark).2 _ hmark' h.1, h.2⟩
  · simp only [List.cons_append, List.nil_append, List.cons.injEq, true_and] at h
    exact absurd h.1 (hmarks _ hmark).1
  · simp only [List.cons_append, List.cons.injEq] at h
    exact absurd h.1.symm hslash'
  · simp only [List.cons_append, List.nil_append, List.cons.injEq, true_and] at h
    exact absurd h.1.symm (hmarks _ hmark').1
  · simp only [List.cons_append, List.append_assoc, List.nil_append, List.cons.injEq,
      true_and] at h
    obtain ⟨hdigits, hrest⟩ := append_inj_of_ends (hbrace _) (hbrace _) (by simp) (by simp) h
    exact ⟨Char.toNat_inj.mp (hexadecimal_inj hdigits), (List.cons.inj hrest).2⟩
  · simp only [List.cons_append, List.cons.injEq] at h
    exact absurd h.1.symm hslash'
  · simp only [List.cons_append, List.cons.injEq] at h
    exact absurd h.1 hslash
  · simp only [List.cons_append, List.cons.injEq] at h
    exact absurd h.1 hslash
  · simpa using h

theorem newline_not_mem_quoteCharacter (c : Char) : '\n' ∉ quoteCharacter c := by
  have hmarks : ∀ p ∈ marks, p.2 ≠ '\n' := by decide
  rcases quoteCharacter_cases c with ⟨mark, hmark, h⟩ | h | ⟨h, -, -, hnewline⟩ <;> rw [h]
  · simpa using (hmarks _ hmark).symm
  · have hdigit : ∀ k < 16, '\n' ≠ Nat.digitChar k := by decide
    have hdigits : '\n' ∉ hexadecimal c.toNat := fun hmem =>
      let ⟨k, hk, heq⟩ := mem_hexadecimal _ _ hmem
      hdigit k hk heq
    simp [hdigits]
  · simpa using hnewline.symm

/-! ### Whole texts -/

theorem flatMap_quoteCharacter_inj {cs ds : List Char}
    (h : cs.flatMap quoteCharacter ++ '"' :: u = ds.flatMap quoteCharacter ++ '"' :: v) :
    cs = ds ∧ u = v := by
  induction cs generalizing ds with
  | nil =>
    cases ds with
    | nil => exact ⟨rfl, (List.cons.inj h).2⟩
    | cons d ds =>
      rw [List.flatMap_cons, List.append_assoc] at h
      exact absurd h.symm (quoteCharacter_append_ne d _ _)
  | cons c cs ih =>
    cases ds with
    | nil =>
      rw [List.flatMap_cons, List.append_assoc] at h
      exact absurd h (quoteCharacter_append_ne c _ _)
    | cons d ds =>
      rw [List.flatMap_cons, List.flatMap_cons, List.append_assoc, List.append_assoc] at h
      obtain ⟨rfl, hrest⟩ := quoteCharacter_append_inj h
      obtain ⟨rfl, huv⟩ := ih hrest
      exact ⟨rfl, huv⟩

theorem toList_quote (s : String) :
    (quote s).toList = '"' :: (s.toList.flatMap quoteCharacter ++ ['"']) := by
  rw [quote, String.toList_ofList, List.cons_append]

/-- **A quoted text and where it ends** can be told from what is written. -/
theorem quote_append_inj (h : (quote s).toList ++ u = (quote t).toList ++ v) : s = t ∧ u = v := by
  rw [toList_quote, toList_quote, List.cons_append, List.cons_append, List.append_assoc,
    List.append_assoc] at h
  obtain ⟨hst, huv⟩ := flatMap_quoteCharacter_inj (List.cons.inj h).2
  exact ⟨String.toList_inj.mp hst, huv⟩

/-- A quoted text **stays on one line**. -/
theorem newline_not_mem_quote (s : String) : '\n' ∉ (quote s).toList := by
  rw [toList_quote]
  simp only [List.mem_cons, List.mem_append, List.mem_flatMap, List.not_mem_nil, or_false, not_or,
    not_exists, not_and]
  exact ⟨by decide, fun c _ => newline_not_mem_quoteCharacter c, by decide⟩

end GeneralParsing.Text
