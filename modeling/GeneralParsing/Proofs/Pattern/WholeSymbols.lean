import GeneralParsing.Proofs.Pattern.CommonReader

/-!
# Patterns match whole symbols

A pattern is kept between anchors, by putting pieces of text around its source. For any reader that
is described by a vocabulary this does what it is meant to (`Pattern.matches_whole_symbols`): the
anchors stand around all that the source means by itself, whatever alternatives, groups, modes and
remarks there are in it, and a source whose text would get the better of the anchors is refused.
-/

namespace GeneralParsing

namespace Pattern

section

variable [PatternReader] {V : Vocabulary} {source : String} {p : Pattern}

/-- What is accepted as a pattern **means something by itself**, and the reader finds that; between
anchors it means the same between anchors, and the pattern finds this. -/
theorem exists_means_of_read (hV : V.Describes PatternReader.read?) (h : read source = .ok p) :
    ∃ r found, V.Means source.toList r ∧ V.Means (anchor source.toList) (V.anchored r) ∧
      PatternReader.read? source.toList = some found ∧
      (∀ text, found text = true ↔ r.Occurs V.holds text) ∧
      ∀ text, p.anchored text = true ↔ (V.anchored r).Occurs V.holds text := by
  obtain ⟨hsome, hanchor, -⟩ := read_eq_ok_iff.mp h
  obtain ⟨found, hfound⟩ := Option.isSome_iff_exists.mp hsome
  obtain ⟨r, hr, hoccurs⟩ := hV _ found hfound
  obtain ⟨r', hr', hoccurs'⟩ := hV _ p.anchored hanchor
  obtain rfl := hr.anchor hr'
  exact ⟨r, found, hr, hr', hfound, hoccurs, hoccurs'⟩

theorem read_eq_error (h : ∀ p, read source ≠ .ok p) :
    read source = .error (.invalidPattern source) := by
  cases hread : read source with
  | ok p => exact (h p hread).elim
  | error e => rw [read_error hread]

/-- **Patterns match whole symbols.** Suppose that a vocabulary describes the reader. A source that
is accepted means a regular expression by itself, for which the reader searches where it is given
the source alone; the anchors stand around that expression, and the pattern accepts a symbol exactly
if the expression has a match from its beginning to its end. A source is refused if it means nothing
by itself, as where it closes a group that it has not opened, and if a parenthesis behind it does
not matter, as where a remark goes on at its end and would hide the anchor. -/
theorem matches_whole_symbols (hV : V.Describes PatternReader.read?) (source : String) :
    (∀ p, read source = .ok p → p.source = source ∧ ∃ r found,
      V.Means source.toList r ∧ V.Means (anchor source.toList) (V.anchored r) ∧
      PatternReader.read? source.toList = some found ∧
      (∀ text, found text = true ↔ r.Occurs V.holds text) ∧
      ∀ symbol, p.accepts symbol = true ↔
        r.Matches V.holds (.start symbol.toList) (.finish symbol.toList)) ∧
    (∀ e, read source = .error e → e = .invalidPattern source) ∧
    ((∀ r, ¬ V.Means source.toList r) ∨ (∃ r, V.Means (source.toList ++ [')']) r) →
      read source = .error (.invalidPattern source)) := by
  refine ⟨fun p h => ⟨source_of_read h, ?_⟩, fun e => read_error, fun h => ?_⟩
  · obtain ⟨r, found, hr, hanchor, hfound, hoccurs, hoccurs'⟩ := exists_means_of_read hV h
    exact ⟨r, found, hr, hanchor, hfound, hoccurs, fun symbol =>
      (hoccurs' _).trans Vocabulary.occurs_anchored_iff⟩
  · refine read_eq_error fun p hread => ?_
    obtain ⟨r, found, hr, hanchor, -⟩ := exists_means_of_read hV hread
    rcases h with hnone | ⟨r', hparen⟩
    · exact hnone r hr
    · -- a source that still means something with the parenthesis means nothing between anchors
      obtain ⟨hstray, -⟩ | ⟨-, hlost⟩ := hr.append_paren
      · exact hstray r' hparen
      · exact hlost _ hanchor

end

open scoped Common in
/-- Neither of the alternatives of a verbose pattern escapes the anchors, and where a remark of the
pattern goes on at its end the pattern is refused. -/
theorem matches_whole_symbols_verbose :
    Common.vocabulary.Describes PatternReader.read? ∧
    (∃ p, read "(?x) a | b c # or both\n" = .ok p ∧
      (∃ r, Common.vocabulary.Means "(?x) a | b c # or both\n".toList r ∧ ∀ symbol,
        p.accepts symbol = true ↔ r.Matches Common.vocabulary.holds
          (.start symbol.toList) (.finish symbol.toList)) ∧
      p.accepts "bc" = true ∧ p.accepts "abc" = false) ∧
    read "(?x) a | b c # or both" = .error (.invalidPattern "(?x) a | b c # or both") := by
  have hV : Common.vocabulary.Describes PatternReader.read? := Common.describes_reader
  have hread : (read "(?x) a | b c # or both\n").toOption.any
      (fun p => p.accepts "bc" && !p.accepts "abc") = true := by decide +kernel
  refine ⟨hV, ?_, (matches_whole_symbols hV _).2.2 (.inr ?_)⟩
  · cases h : read "(?x) a | b c # or both\n" with
    | error e =>
      rw [h] at hread
      cases hread
    | ok p =>
      rw [h, Except.toOption, Option.any_some, Bool.and_eq_true, Bool.not_eq_true'] at hread
      obtain ⟨-, r, -, hr, -, -, -, hmatches⟩ := (matches_whole_symbols hV _).1 p h
      exact ⟨p, rfl, ⟨r, hr, hmatches⟩, hread⟩
  · have hsome : (Common.read? ("(?x) a | b c # or both".toList ++ [')'])).isSome = true := by
      decide +kernel
    obtain ⟨r, hr⟩ := Option.isSome_iff_exists.mp hsome
    exact ⟨r, Progress.reads_of_finish? hr⟩

end Pattern

end GeneralParsing
