import GeneralParsing.Proofs.Dialect.Reading
import GeneralParsing.Proofs.Dialect.Words

/-!
# The edges of written text

The blanks around a text are trimmed before it is parsed, and only those: what writes rules starts
and ends with characters that are no blanks. So there is a derivation of the trimmed text, and its
tree holds the rules (`exists_yields_of_writes`).
-/

namespace GeneralParsing.Dialect

open GeneralParsing.Derivation Forest

variable {t u v : List Char} {c : Char} {r : Rule} {rs : List Rule}

/-! ### Where blanks end -/

/-- A text whose last character is **no blank**. -/
def EndsSolid (t : List Char) : Prop := ∃ s c, t = s ++ [c] ∧ isBlank c = false

/-- A text whose first character is **no blank**. -/
def StartsSolid (t : List Char) : Prop := ∃ c s, t = c :: s ∧ isBlank c = false

theorem EndsSolid.append_left (h : EndsSolid t) (u : List Char) : EndsSolid (u ++ t) := by
  obtain ⟨s, c, rfl, hc⟩ := h
  exact ⟨u ++ s, c, (List.append_assoc u s [c]).symm, hc⟩

/-- A text ends as **what stands last in it** does. -/
theorem EndsSolid.append (h : EndsSolid t) (hs : u = [] ∨ EndsSolid u) : EndsSolid (t ++ u) := by
  rcases hs with rfl | hs
  · rwa [List.append_nil]
  · exact hs.append_left t

/-- It depends on **the last character**. -/
theorem endsSolid_of_last (u : List Char) (hc : isBlank c = false) : EndsSolid (u ++ [c]) :=
  ⟨u, c, rfl, hc⟩

theorem StartsSolid.append_right (h : StartsSolid t) (u : List Char) : StartsSolid (t ++ u) := by
  obtain ⟨c, s, rfl, hc⟩ := h
  exact ⟨c, s ++ u, rfl, hc⟩

/-- Trimming at the end is **dropping blanks from behind**. -/
theorem trimEnd_eq_rdropWhile (t : List Char) : Text.trimEnd t = t.rdropWhile isBlank := rfl

/-- Trimming at the end takes away **the blanks that were put there**, and no more. -/
theorem trimEnd_append (ht : EndsSolid t) (hv : Blanks v) : Text.trimEnd (t ++ v) = t := by
  obtain ⟨s, c, rfl, hc⟩ := ht
  induction v using List.reverseRecOn with
  | nil =>
    rw [List.append_nil, trimEnd_eq_rdropWhile, List.rdropWhile_concat_neg]
    exact Bool.eq_false_iff.mp hc
  | append_singleton v x ih =>
    have hx : isBlank x = true := hv x (by simp)
    have hv : Blanks v := fun y hy => hv y (by simp [hy])
    rw [← List.append_assoc, trimEnd_eq_rdropWhile, List.rdropWhile_concat_pos _ _ _ hx]
    exact ih hv

/-- Trimming gives back **what stands between blanks**, if it has none at its own ends. So blanks
around the text do not matter to what is parsed. -/
theorem trim_eq (hu : Blanks u) (ht : StartsSolid t) (ht' : EndsSolid t) (hv : Blanks v) :
    Text.trim (u ++ (t ++ v)) = t := by
  have hstart : Text.trimStart (u ++ (t ++ v)) = t ++ v := by
    obtain ⟨c, s, hcs, hc⟩ := ht.append_right v
    rw [Text.trimStart, List.dropWhile_append_of_pos hu, hcs,
      List.dropWhile_cons_of_neg (by simp [hc])]
  rw [Text.trim, hstart, trimEnd_append ht' hv]

/-- No character of names **is trimmed away**. -/
theorem not_isBlank_of_isNameCharacter (h : isNameCharacter c = true) : isBlank c = false := by
  refine Bool.eq_false_iff.mpr fun hblank => ?_
  have hlt := toNat_of_isNameCharacter h
  have hfar := toNat_of_isBlank hblank
  omega

theorem startsSolid_nameText (h : IsName r.name) : StartsSolid (nameText r) := by
  obtain ⟨hne, hclass⟩ := h
  rw [nameText]
  split
  · exact ⟨_, _, rfl, by decide⟩
  · obtain ⟨c, s, hs⟩ := List.exists_cons_of_ne_nil hne
    exact ⟨c, s, hs, not_isBlank_of_isNameCharacter (hclass c (hs ▸ List.mem_cons_self))⟩

theorem endsSolid_quotedText (s : String) : EndsSolid (quotedText s) :=
  endsSolid_of_last ('"' :: s.toList.flatMap escaped) (by decide)

theorem endsSolid_quantifier {q : Quantifier} (h : WritesQuantifier q t) : EndsSolid t := by
  cases h with
  | star => exact endsSolid_of_last [] (by decide)
  | plus => exact endsSolid_of_last [] (by decide)
  | question => exact endsSolid_of_last [] (by decide)
  | @exact n t h => exact endsSolid_of_last ('\x7b' :: t) (by decide)
  | @min n t h =>
    exact (endsSolid_of_last [','] (by decide)).append_left ('\x7b' :: t)
  | @minMax n m t u h h' =>
    exact (endsSolid_of_last (',' :: u) (by decide)).append_left ('\x7b' :: t)

mutual

theorem endsSolid_atom {p : Phrase} {t : List Char} : WritesAtom p t → EndsSolid t
  | .symbol h => by
    have hlast := h.2 _ (List.getLast_mem h.1)
    rw [← List.dropLast_append_getLast h.1]
    exact endsSolid_of_last _ (not_isBlank_of_isNameCharacter hlast)
  | .literal s => endsSolid_quotedText s
  | .pattern s => (endsSolid_quotedText s).append_left ['#']
  | .paren (u := u) (t := t) (v := v) _ _ _ =>
    (endsSolid_of_last v (by decide)).append_left t |>.append_left ('(' :: u)
  | .omitted (u := u) (t := t) (v := v) _ _ _ =>
    (endsSolid_of_last v (by decide)).append_left t |>.append_left ('<' :: u)
  | .lexical (u := u) (t := t) (v := v) _ _ _ =>
    (endsSolid_of_last v (by decide)).append_left t |>.append_left ('[' :: u)

theorem endsSolid_item {p : Phrase} {t : List Char} : WritesItem p t → EndsSolid t
  | .atom h => endsSolid_atom h
  | .repeated _ hq => (endsSolid_quantifier hq).append_left _

theorem endsSolid_items {ps : List Phrase} {t : List Char} :
    WritesItems ps t → t = [] ∨ EndsSolid t
  | .nil => .inl rfl
  | .cons _ _ h hs => .inr (((endsSolid_item h).append (endsSolid_items hs)).append_left _)

theorem endsSolid_branch {p : Phrase} {t : List Char} : WritesBranch p t → EndsSolid t
  | .item h => endsSolid_item h
  | .seq h hs => (endsSolid_item h).append (endsSolid_items hs)

theorem endsSolid_branches {ps : List Phrase} {t : List Char} :
    WritesBranches ps t → t = [] ∨ EndsSolid t
  | .nil => .inl rfl
  | .cons (u := u) (v := v) _ _ h hs =>
    .inr ((((endsSolid_branch h).append (endsSolid_branches hs)).append_left
      ('|' :: v)).append_left u)

/-- A written phrase ends **with a solid character**, so that blanks behind it are told apart from
it. -/
theorem endsSolid_phrase {p : Phrase} {t : List Char} : WritesPhrase p t → EndsSolid t
  | .branch h => endsSolid_branch h
  | .alt h hs => (endsSolid_branch h).append (endsSolid_branches hs)

end

/-- A written rule begins **with its name** or the bracket around it. Trimming takes nothing away
from it, therefore. -/
theorem startsSolid_rule (h : WritesRule r t) : StartsSolid t := by
  obtain ⟨hname, -, -, -, -⟩ := h
  exact (startsSolid_nameText hname).append_right _

/-- A written rule ends as its body does, or **with a semicolon**. -/
theorem endsSolid_rule (h : WritesRule r t) : EndsSolid t := by
  obtain ⟨-, -, -, -, hbody⟩ := h
  exact ((((endsSolid_phrase hbody).append_left _).append_left _).append_left _).append_left _

/-- Rules that are written in order **end as the last of them** does. Blanks between rules are
inside, where trimming does not come. -/
theorem endsSolid_rules (h : WritesRules rs t) : t = [] ∨ EndsSolid t := by
  induction h with
  | nil => exact .inl rfl
  | @cons r rs u v t ts mark _ _ _ hr _ ih =>
    exact .inr ((((endsSolid_rule hr).append ih).append_left (mark :: v)).append_left u)

/-! ### Whole texts -/

/-- What writes rules has a derivation, without the blanks around it, whose tree **holds the
rules**. -/
theorem exists_yields_of_writes (h : WritesText rs t) :
    ∃ tree, Yields written true Part.text (characters (Text.trim t)) [tree] ∧
      Rule.listOfTree tree = .ok rs := by
  cases h with
  | @plain r rs u t ts v hu h hs hv =>
    obtain ⟨tree, hyields, htree⟩ := exists_yields_rules h hs
    have htrim := trim_eq hu ((startsSolid_rule h).append_right ts)
      ((endsSolid_rule h).append (endsSolid_rules hs)) hv
    refine ⟨tree, ?_, htree⟩
    have htext := (yields_text hyields blanks_nil).1
    rwa [htrim, ← List.append_nil (t ++ ts)]
  | @semicolon r rs u t ts v z hu h hs hv hz =>
    obtain ⟨tree, hyields, htree⟩ := exists_yields_rules h hs
    have hend : EndsSolid (t ++ ts ++ (v ++ [';'])) :=
      (endsSolid_of_last v (by decide)).append_left (t ++ ts)
    have htrim := trim_eq hu (((startsSolid_rule h).append_right ts).append_right _) hend hz
    refine ⟨tree, ?_, htree⟩
    have hsplit : u ++ (t ++ ts ++ v ++ ';' :: z) = u ++ (t ++ ts ++ (v ++ [';']) ++ z) := by simp
    rw [hsplit, htrim]
    exact (yields_text hyields hv).2

end GeneralParsing.Dialect
