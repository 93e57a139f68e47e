import GeneralParsing.Proofs.Pattern.Vocabulary

/-!
# Anchors around a pattern

A pattern is read a second time as the text of a group, with an anchor before the group and one
behind it. Nothing in the text can end that group: every lexeme of the text is read as it is without
the group, so where the text means a regular expression by itself, each group that is closed in it
has been opened in it (`Progress.Reads.exists_within`). What is left to read behind the text is then
the end of the group and the second anchor, or nothing where a remark goes on; in that case the
group is never closed, and the text between anchors has no meaning.

So a text between anchors means what it means by itself, between anchors
(`Vocabulary.Means.means_anchor_iff`), and this has a match just where the text matches from the
beginning to the end (`Vocabulary.occurs_anchored_iff`). All of this holds in any vocabulary.
-/

namespace GeneralParsing

variable {V : Vocabulary}

namespace Progress

variable {p q : Progress V.Item V.Modes} {cs rest t : List Char} {r r' : Regex V.Item}
variable {l : Lexeme V.Item V.Modes} {base : List (Layer V.Item × V.Modes)}

/-- The same progress with **more groups around** the open ones. -/
def within (p : Progress V.Item V.Modes) (base : List (Layer V.Item × V.Modes)) :
    Progress V.Item V.Modes :=
  { p with outer := p.outer ++ base }

/-- A lexeme that fits **fits within more groups** as well. A lexeme looks at the innermost group
only, and at the names so far. -/
theorem take_within (h : p.take l = some q) (base : List (Layer V.Item × V.Modes)) :
    (p.within base).take l = some (q.within base) := by
  obtain ⟨layer, modes, outer, names⟩ := p
  cases l with
  | item i | bar | switch modes' =>
    obtain rfl := Option.some.inj h
    rfl
  | repeated min max =>
    obtain ⟨layer', hlayer, rfl⟩ := Option.map_eq_some_iff.mp h
    change (layer.repeatLast min max).map _ = _
    rw [hlayer]
    rfl
  | opening modes' name =>
    simp only [take] at h
    split at h
    · cases h
    · next hname =>
      obtain rfl := Option.some.inj h
      exact if_neg hname
  | closing =>
    cases outer with
    | nil => cases h
    | cons group outer =>
      obtain rfl := Option.some.inj h
      rfl

/-- Where the text of a pattern has been read, **every group is closed** that it has opened. With
what closes behind the text the reader gets as far, within any groups, and has left what closes, or
nothing. -/
theorem Reads.exists_within (h : Reads V.next p cs r) :
    ∃ q : Progress V.Item V.Modes, q.outer = [] ∧ q.layer.regex = r ∧ Left [] fun t left =>
      ∀ base r', Reads V.next (p.within base) (cs ++ t) r' ↔
        Reads V.next (q.within base) left r' := by
  induction h with
  | @done p cs hdone houter =>
    refine ⟨p, houter, rfl, (V.left_done hdone).mono fun t left _ hleft base r' => ?_⟩
    exact reads_congr hleft
  | @more p q cs rest l r hl hq hr ih =>
    have hstep : ∀ {t left}, V.next p.modes (cs ++ t) = .lexeme l left → ∀ base r',
        Reads V.next (p.within base) (cs ++ t) r' ↔ Reads V.next (q.within base) left r' := by
      intro t left hleft base r'
      rw [reads_of_lexeme (p := p.within base) hleft]
      simp only [take_within hq, Option.some.injEq, exists_eq_left']
    rcases V.left_lexeme hl with hshown | ⟨rfl, hlost⟩
    · obtain ⟨q', houter, hregex, hleft⟩ := ih
      refine ⟨q', houter, hregex, hleft.mono fun t left ht hread base r' => ?_⟩
      exact (hstep (hshown t ht) base r').trans (hread base r')
    · -- a remark has begun within the lexeme, and nothing is left to read
      obtain ⟨houter, hregex⟩ := (reads_of_done (V.next_nil _)).mp hr
      exact ⟨q, houter, hregex, .inr ⟨rfl, fun t ht => hstep (hlost t ht)⟩⟩

/-- With no group open **a closing parenthesis** is refused. So a source with such a parenthesis
means nothing by itself. -/
theorem not_reads_stray_paren (houter : p.outer = []) :
    ¬ Reads V.next (p.within []) (')' :: cs) r := by
  rw [reads_of_lexeme (V.next_paren _ _)]
  rintro ⟨q, hq, -⟩
  obtain ⟨layer, modes, outer, names⟩ := p
  subst houter
  cases hq

theorem reads_nil_iff : Reads V.next p [] r ↔ p.outer = [] ∧ p.layer.regex = r :=
  reads_of_done (V.next_nil _)

end Progress

namespace Vocabulary

open Progress

variable {text : List Char} {r r' : Regex V.Item}

/-- An expression **between anchors**. -/
def anchored (V : Vocabulary) (r : Regex V.Item) : Regex V.Item :=
  .between V.textStart V.textEnd r

/-- The group that the **anchors stand around**: a group opened after the first of them. -/
def anchorBase (V : Vocabulary) : List (Layer V.Item × V.Modes) :=
  [(⟨[], [some (.item V.textStart)]⟩, V.initial)]

theorem means_anchor_iff : V.Means (Pattern.anchor text) r ↔
    Reads V.next (within { modes := V.initial } V.anchorBase) (text ++ [')', '$']) r := by
  rw [Means, reads_of_lexeme (V.next_caret _)]
  simp only [take, Option.some.injEq, exists_eq_left']
  rw [reads_of_lexeme (V.next_group _)]
  simp only [take, Option.any_none, Bool.false_eq_true, if_false, Option.some.injEq,
    exists_eq_left']
  rfl

/-- Where the group between the anchors has been read, what closes it **ends the pattern**. It is
one parenthesis and one anchor, and then the text is at its end. -/
theorem reads_anchored_iff {p : Progress V.Item V.Modes} (houter : p.outer = []) :
    Reads V.next (p.within V.anchorBase) [')', '$'] r' ↔ r' = V.anchored p.layer.regex := by
  obtain ⟨layer, modes, outer, names⟩ := p
  subst houter
  rw [reads_of_lexeme (V.next_paren _ _)]
  simp only [take, within, anchorBase, List.nil_append, Option.some.injEq, exists_eq_left']
  rw [reads_of_lexeme (V.next_dollar _)]
  simp only [take, Option.some.injEq, exists_eq_left']
  rw [reads_nil_iff, eq_comm (a := r')]
  exact and_iff_right rfl

/-- With a parenthesis behind it a text that means something **means nothing**, and between anchors
it means the same, between anchors; unless its last remark goes on, then the parenthesis does not
matter and between anchors the text means nothing. -/
theorem Means.append_paren (h : V.Means text r) :
    ((∀ r', ¬ V.Means (text ++ [')']) r') ∧
        ∀ r', V.Means (Pattern.anchor text) r' ↔ r' = V.anchored r) ∨
      V.Means (text ++ [')']) r ∧ ∀ r', ¬ V.Means (Pattern.anchor text) r' := by
  obtain ⟨q, houter, rfl, hleft⟩ := Reads.exists_within h
  simp only [means_anchor_iff]
  rcases hleft with hshown | ⟨-, hlost⟩
  · refine .inl ⟨fun r' hr' => ?_, fun r' => ?_⟩
    · exact not_reads_stray_paren houter ((hshown _ closing_paren [] r').mp hr')
    · exact (hshown _ closing_paren_dollar _ r').trans (reads_anchored_iff houter)
  · refine .inr ⟨?_, fun r' hr' => ?_⟩
    · refine (hlost _ closing_paren [] _).mpr (reads_nil_iff.mpr ⟨?_, rfl⟩)
      rw [within, houter, List.append_nil]
    · have hopen := (reads_nil_iff.mp ((hlost _ closing_paren_dollar _ r').mp hr')).1
      rw [within, houter] at hopen
      cases hopen

/-- Between anchors a text that means something means **the same between anchors**, if it still
means anything. -/
theorem Means.anchor (h : V.Means text r) (h' : V.Means (Pattern.anchor text) r') :
    r' = V.anchored r := by
  obtain ⟨-, hanchor⟩ | ⟨-, hnone⟩ := h.append_paren
  · exact (hanchor r').mp h'
  · exact (hnone r' h').elim

/-- Between anchors an expression has a match **if it matches the whole text**. -/
theorem occurs_anchored_iff {symbol : List Char} : (V.anchored r).Occurs V.holds symbol ↔
    r.Matches V.holds (.start symbol) (.finish symbol) :=
  Regex.occurs_between_iff V.ahead V.holds_textStart V.holds_textEnd

end Vocabulary

end GeneralParsing
