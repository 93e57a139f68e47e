import GeneralParsing.Proofs.Dialect.Edges

/-!
# What stands after the rules

After the rules of a text there may be blanks and one semicolon, which leave no trace. Rules end
with neither, so it can be told from the text alone where they end: `withoutSemicolon` is what is
left of a text without the blanks around it and without the semicolon. The grammar of the dialect
derives a text just when its expression for rules derives what is left, with the same output
(`yields_text_iff`).
-/

namespace GeneralParsing.Dialect

open GeneralParsing.Derivation Forest

variable {t u v z : List Char} {w : List String} {out : List PlainTree} {collapse : Bool}

/-! ### How rules end -/

/-- A symbol that rules **can end with**: no blank and no semicolon. -/
def Solid (s : String) : Prop := ¬ Blank s ∧ s ≠ ";"

instance : DecidablePred Solid := fun _ => inferInstanceAs (Decidable (_ ∧ _))

theorem solid_of_ofNames {s : String} (h : OfNames s) : Solid s := by
  refine ⟨fun hblank => hblank.not_ofNames h, ?_⟩
  rintro rfl
  exact absurd h (by decide)

/-- Expressions that end with **a mark that leaves no trace**. -/
theorem ends_of_mark {id last child : ExprId} {tag : Option String} {mark : String}
    (front : List ExprId) (he : written.expr? id = some (.seq tag (front ++ [last])))
    (hlast : written.expr? last = some (.omitted child))
    (hchild : written.expr? child = some (.token mark)) (h : Solid mark) :
    Ends written id Solid :=
  ends_seq_last front he (madeOf_omitted hlast (madeOf_token hchild h)).ends
    (starts_omitted hlast (starts_token hchild))

theorem ends_quoted : Ends written Part.quoted Solid :=
  ends_of_mark [Part.quoteMark, Part.string] rfl rfl rfl (by decide)

theorem ends_atom : Ends written Part.atom Solid := by
  have hcharacter : MadeOf written Part.nameCharacter Solid := by
    refine madeOf_pattern rfl fun s hs => solid_of_ofNames ?_
    rwa [accepts_namePattern] at hs
  have hname : MadeOf written Part.name Solid := madeOf_lexical rfl (madeOf_rep rfl hcharacter)
  refine ends_alt rfl ?_
  simp only [List.forall_mem_cons]
  exact ⟨ends_seq_last [] rfl hname.ends starts_name,
    ends_seq_last [] rfl ends_quoted starts_quoted,
    ends_seq_last [Part.hash] rfl ends_quoted starts_quoted,
    ends_of_mark [Part.openParen, Part.optionalSpace, Part.phrase, Part.optionalSpace] rfl rfl rfl
      (by decide),
    ends_of_mark [Part.openAngle, Part.optionalSpace, Part.phrase, Part.optionalSpace] rfl rfl rfl
      (by decide),
    ends_of_mark [Part.openBracket, Part.optionalSpace, Part.phrase, Part.optionalSpace] rfl rfl rfl
      (by decide),
    by simp⟩

theorem ends_quantified : Ends written Part.quantified Solid := by
  refine ends_alt rfl ?_
  simp only [List.forall_mem_cons]
  exact ⟨ends_of_mark [Part.atom] rfl rfl rfl (by decide),
    ends_of_mark [Part.atom] rfl rfl rfl (by decide),
    ends_of_mark [Part.atom] rfl rfl rfl (by decide),
    ends_of_mark [Part.atom, Part.openBrace, Part.integer] rfl rfl rfl (by decide),
    ends_of_mark [Part.atom, Part.openBrace, Part.integer, Part.comma] rfl rfl rfl (by decide),
    ends_of_mark [Part.atom, Part.openBrace, Part.integer, Part.comma, Part.integer] rfl rfl rfl
      (by decide),
    by simp⟩

theorem ends_sequence : Ends written Part.sequence Solid := by
  have hitem : Ends written Part.item Solid := by
    refine ends_alt rfl ?_
    simpa using ⟨ends_atom, ends_quantified⟩
  have hnext : Ends written Part.nextItem Solid := ends_seq_last [Part.gap] rfl hitem starts_item
  refine ends_seq rfl ?_
  simpa using ⟨hitem, ends_rep rfl hnext⟩

theorem ends_alternation : Ends written Part.alternation Solid := by
  have hbranch : Ends written Part.branch Solid := by
    refine ends_alt rfl ?_
    simpa using ⟨ends_atom, ends_quantified, ends_sequence⟩
  have hnext : Ends written Part.nextBranch Solid :=
    ends_seq_last [Part.bar] rfl hbranch starts_branch
  refine ends_seq rfl ?_
  simpa using ⟨hbranch, ends_rep rfl hnext⟩

/-- Rules end with **neither a blank nor a semicolon**. -/
theorem ends_rules : Ends written Part.rules Solid := by
  have hphrase : Ends written Part.phrase Solid := by
    refine ends_alt rfl ?_
    simpa using ⟨ends_atom, ends_quantified, ends_sequence, ends_alternation⟩
  have hrule : Ends written Part.rule Solid :=
    ends_seq_last [Part.ruleName, Part.optionalSpace, Part.definedAs, Part.optionalSpace] rfl
      hphrase starts_phrase
  have hnext : Ends written Part.nextRule Solid :=
    ends_seq_last [Part.separator] rfl hrule starts_rule
  refine ends_seq rfl ?_
  simpa using ⟨hrule, ends_rep rfl hnext⟩

/-! ### Rules and what stands after them -/

/-- A text is derived **as rules**, blanks and possibly a semicolon. What is left without a trace
stands behind the rules. -/
theorem exists_rules_of_text (h : Yields written collapse Part.text w out) :
    ∃ x s z, w = x ++ (s ++ z) ∧ Yields written collapse Part.rules x out ∧
      (∀ y ∈ s, Blank y) ∧ (z = [] ∨ z = [";"]) := by
  obtain ⟨d, hd, hroot, rfl, rfl⟩ := h
  obtain ⟨parts, rfl, hroots, hparts⟩ := hd.of_seq hroot rfl
  obtain ⟨r, _, rfl, hr, hroots⟩ := List.map_eq_cons_iff.mp hroots
  obtain ⟨o, _, rfl, ho, hroots⟩ := List.map_eq_cons_iff.mp hroots
  obtain ⟨z, _, rfl, hz, hroots⟩ := List.map_eq_cons_iff.mp hroots
  obtain rfl := List.map_eq_nil_iff.mp hroots
  simp only [List.forall_mem_cons] at hparts
  obtain ⟨hrules, hspace, htrailing, -⟩ := hparts
  have hblank := madeOf_optionalSpace o hspace ho
  obtain ⟨spaces, rfl, -⟩ := hspace.of_omitted ho rfl
  obtain ⟨last, rfl, hlast, hvalid⟩ := htrailing.of_omitted hz rfl
  obtain ⟨marks, rfl, hmarks, -, hmax, hvalids⟩ := hvalid.of_rep hlast rfl
  refine ⟨r.yield, spaces.yield, marks.flatMap yield, ?_, ⟨r, hrules, hr, rfl, ?_⟩, hblank, ?_⟩
  · simp [Derivation.yield, yieldAll, yieldAll_eq_flatMap]
  · exact (List.append_nil _).symm
  · rcases marks with _ | ⟨mark, _ | ⟨_, _⟩⟩
    · exact .inl rfl
    · obtain rfl := (hvalids mark List.mem_cons_self).of_token (hmarks mark List.mem_cons_self) rfl
      exact .inr rfl
    · exact absurd (hmax 1 rfl) (by simp)

/-- The output of rules is **one tree**. -/
theorem exists_tree_of_rules (h : Yields written collapse Part.rules w out) :
    ∃ tree, out = [tree] := by
  obtain ⟨d, hd, hroot, -, rfl⟩ := h
  obtain ⟨parts, rfl, hroots, -⟩ := hd.of_seq hroot rfl
  cases parts with
  | nil => cases hroots
  | cons part parts => exact ⟨_, rfl⟩

/-- What is left of a text **without the blanks around it** and without a semicolon at its end. -/
def withoutSemicolon (source : List Char) : List Char :=
  if (Text.trim source).getLast? = some ';' then Text.trimEnd (Text.trim source).dropLast
  else Text.trim source

/-- Before blanks at the end **there is what is left** without them. -/
theorem exists_blanks_of_trimEnd (t : List Char) : ∃ v, Blanks v ∧ t = Text.trimEnd t ++ v :=
  ⟨t.rtakeWhile isBlank, fun _ hx => List.mem_rtakeWhile_imp hx,
    List.rdropWhile_append_rtakeWhile.symm⟩

/-- Without the blanks at its end a text **has none** there. -/
theorem trimEnd_trim (t : List Char) : Text.trimEnd (Text.trim t) = Text.trim t :=
  List.rdropWhile_idempotent isBlank _

/-- What is left of a text **is what it begins with**, if that ends with neither a blank nor a
semicolon and there are only blanks and possibly a semicolon after it. -/
theorem withoutSemicolon_eq (htrim : Text.trim t = u ++ (v ++ z)) (hu : EndsSolid u)
    (hlast : u.getLast? ≠ some ';') (hv : Blanks v) (hz : z = [] ∨ z = [';']) :
    withoutSemicolon t = u := by
  have hfront : Text.trimEnd (u ++ v) = u := trimEnd_append hu hv
  rcases hz with rfl | rfl
  · -- without a semicolon there are no blanks either, for the text is trimmed
    rw [List.append_nil] at htrim
    have hnone : Text.trim t = u := by rw [← trimEnd_trim, htrim, hfront]
    rw [withoutSemicolon, hnone, if_neg hlast]
  · have hsemicolon : Text.trim t = u ++ v ++ [';'] := by rw [htrim, List.append_assoc]
    rw [withoutSemicolon, hsemicolon, if_pos List.getLast?_concat, List.dropLast_concat, hfront]

/-- Rules end with **neither a blank nor a semicolon**, as texts. They end with a name, a bracket, a
quote or a quantifier. -/
theorem endsSolid_of_rules (h : Yields written collapse Part.rules (characters t) out) :
    EndsSolid t ∧ t.getLast? ≠ some ';' := by
  obtain ⟨d, hd, hroot, hyield, -⟩ := h
  obtain ⟨first, rest, hfirst, -⟩ := starts_seq rfl starts_rule d hd hroot
  rcases List.eq_nil_or_concat' t with rfl | ⟨s, c, rfl⟩
  · rw [hyield] at hfirst
    cases hfirst
  · have hlast : Solid (String.singleton c) :=
      ends_rules d hd hroot _ (by simp [hyield, characters])
    have hblank : ¬ single isBlank (String.singleton c) = true := hlast.1
    rw [single_singleton, Bool.not_eq_true] at hblank
    refine ⟨⟨s, c, rfl, hblank⟩, fun hsemicolon => hlast.2 ?_⟩
    rw [List.getLast?_concat] at hsemicolon
    rw [Option.some.inj hsemicolon]
    rfl

/-- **A text is derived with the output of its rules**, which are what is left of it. So a semicolon
at the end of a text may be left out or put there, and nothing changes. -/
theorem yields_text_iff : Yields written true Part.text (characters (Text.trim t)) out ↔
    Yields written true Part.rules (characters (withoutSemicolon t)) out := by
  constructor
  · intro h
    obtain ⟨x, s, z, hw, hrules, hs, hz⟩ := exists_rules_of_text h
    obtain ⟨u, y, htrim, rfl, hy⟩ := List.map_eq_append_iff.mp hw
    obtain ⟨v, z, rfl, rfl, rfl⟩ := List.map_eq_append_iff.mp hy
    obtain ⟨hu, hlast⟩ := endsSolid_of_rules hrules
    have hv : Blanks v := fun c hc => by
      simpa [Blank] using hs (String.singleton c) (List.mem_map_of_mem hc)
    have hz : z = [] ∨ z = [';'] :=
      hz.imp List.map_eq_nil_iff.mp fun hz => characters_injective hz
    rwa [withoutSemicolon_eq htrim hu hlast hv hz]
  · intro h
    obtain ⟨tree, rfl⟩ := exists_tree_of_rules h
    rw [withoutSemicolon] at h
    split at h
    · next hlast =>
      obtain ⟨v, hv, hfront⟩ := exists_blanks_of_trimEnd (Text.trim t).dropLast
      obtain ⟨front, htrim⟩ := List.getLast?_eq_some_iff.mp hlast
      have htext := (yields_text h hv).2
      rwa [← List.append_assoc, ← hfront, htrim, List.dropLast_concat, ← htrim] at htext
    · have htext := (yields_text h blanks_nil).1
      rwa [List.append_nil] at htext

end GeneralParsing.Dialect
