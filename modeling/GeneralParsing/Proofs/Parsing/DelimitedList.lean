import GeneralParsing.Pattern.Common
import GeneralParsing.Proofs.Derivation.Outcomes
import GeneralParsing.Proofs.Derivation.Sharp
import GeneralParsing.Proofs.Grammar.Extending
import GeneralParsing.Proofs.Parsing.WordTree

/-!
# Delimited lists

A delimited list is an item, and a repetition of separators with an item behind each. What is asked
of the terminals is that no symbol is accepted by two of them (`Grammar.Delimits`). Then the list
derives items with separators between them and nothing else (`Listing.yields_list_iff`), and in one
way only, because the symbol after a separator is an item and can neither be a delimiter nor stand
around one (`Listing.clear_list`). So every policy extracts the items, in order
(`Forest.delimitedList_exact`).

This does not depend on when the terminals are defined, nor on what else is in the grammar.
-/

namespace GeneralParsing

namespace Listing

/-! ### Words that are lists -/

variable {isItem isDelimiter isBlank : String → Bool} {w items : List String}

/-- **One delimiter**, with any blanks before and after it. -/
def Separator (isDelimiter isBlank : String → Bool) (w : List String) : Prop :=
  ∃ u s v, w = u ++ s :: v ∧ (∀ x ∈ u, isBlank x = true) ∧ isDelimiter s = true ∧
    ∀ x ∈ v, isBlank x = true

/-- Items **with separators between them**: the items, and the whole word. -/
inductive Listed (isItem isDelimiter isBlank : String → Bool) : List String → List String → Prop
  | single {s : String} (hs : isItem s = true) : Listed isItem isDelimiter isBlank [s] [s]
  | cons {s : String} {sep items rest : List String} (hs : isItem s = true)
      (hsep : Separator isDelimiter isBlank sep)
      (h : Listed isItem isDelimiter isBlank items rest) :
      Listed isItem isDelimiter isBlank (s :: items) (s :: (sep ++ rest))

/-- A list **starts with its first item**. -/
theorem Listed.exists_cons (h : Listed isItem isDelimiter isBlank items w) :
    ∃ s more rest, items = s :: more ∧ w = s :: rest ∧ isItem s = true := by
  cases h with
  | single hs => exact ⟨_, _, _, rfl, rfl, hs⟩
  | cons hs => exact ⟨_, _, _, rfl, rfl, hs⟩

end Listing

namespace Grammar

/-! ### Terminals for lists -/

/-- An expression is a **terminal that accepts** these symbols. -/
def Accepting (g : Grammar) (id : ExprId) (accepted : String → Bool) : Prop :=
  ∃ e, g.expr? id = some e ∧ e.isTerminal = true ∧ e.accepts = accepted

/-- What may stand **around delimiters**: nothing, or any number of symbols of a terminal. -/
inductive Spacing (g : Grammar) : Option ExprId → (String → Bool) → Prop
  | none : Spacing g none fun _ => false
  | some {id blank : ExprId} {tag : Option String} {isBlank : String → Bool}
      (he : g.expr? id = some (.rep tag blank 0 none)) (hblank : g.Accepting blank isBlank) :
      Spacing g (some id) isBlank

/-- Terminals for items, delimiters and blanks, **no two of which accept the same symbol**. -/
structure Delimits (g : Grammar) (item delimiter : ExprId) (space : Option ExprId)
    (isItem isDelimiter isBlank : String → Bool) : Prop where
  item : g.Accepting item isItem
  delimiter : g.Accepting delimiter isDelimiter
  space : g.Spacing space isBlank
  apart : [isItem, isDelimiter, isBlank].Pairwise fun p q => ∀ s, p s = true → q s = false

/-- An item is **neither a delimiter nor a blank**. So an input can be taken apart into items in one
way only. -/
theorem Delimits.of_item {g : Grammar} {item delimiter : ExprId} {space : Option ExprId}
    {isItem isDelimiter isBlank : String → Bool} {s : String}
    (h : g.Delimits item delimiter space isItem isDelimiter isBlank) (hs : isItem s = true) :
    isDelimiter s = false ∧ isBlank s = false := by
  obtain ⟨hitem, -⟩ := List.pairwise_cons.mp h.apart
  exact ⟨hitem isDelimiter (by simp) s hs, hitem isBlank (by simp) s hs⟩

end Grammar

namespace Listing

/-! ### The pieces of a list -/

variable {item delimiter spaced base : ExprId} {space : Option ExprId} {min : Nat}
variable {tag : Option String}

/-- What stands between items: the delimiter, **between blanks** if there are any. -/
def Around (lookup : ExprId → Option Expr) (delimiter : ExprId) (space : Option ExprId)
    (spaced : ExprId) : Prop :=
  match space with
  | none => spaced = delimiter
  | some space => lookup spaced = some (.seq none [space, delimiter, space])

/-- The **expressions of a list** behind what stands between items, from `base` on. -/
def pieces (item : ExprId) (min : Nat) (tag : Option String) (spaced base : ExprId) : List Expr :=
  [.omitted spaced, .seq none [base, item], .rep none (base + 1) (min - 1) none,
    .seq tag [item, base + 2]]

/-- A list **is there**, with its expressions from `base` on. -/
structure Assembled (lookup : ExprId → Option Expr) (item delimiter : ExprId)
    (space : Option ExprId) (min : Nat) (tag : Option String) (spaced base : ExprId) : Prop where
  around : Around lookup delimiter space spaced
  between : lookup base = some (.omitted spaced)
  next : lookup (base + 1) = some (.seq none [base, item])
  others : lookup (base + 2) = some (.rep none (base + 1) (min - 1) none)
  list : lookup (base + 3) = some (.seq tag [item, base + 2])

/-- What is assembled stays so **when more is looked up**. -/
theorem Assembled.mono {lookup lookup' : ExprId → Option Expr}
    (h : Assembled lookup item delimiter space min tag spaced base)
    (hmono : ∀ id e, lookup id = some e → lookup' id = some e) :
    Assembled lookup' item delimiter space min tag spaced base where
  around := by
    have haround := h.around
    cases space with
    | none => exact haround
    | some space => exact hmono _ _ haround
  between := hmono _ _ h.between
  next := hmono _ _ h.next
  others := hmono _ _ h.others
  list := hmono _ _ h.list

section

open Builder

variable {b : Builder} {es : List Expr}

/-- What is added **stands behind what was there**. -/
theorem filled?_extend_append (es more : List Expr) (k : Nat) :
    (b.extend (es ++ more)).filled? (b.slots.size + es.length + k) = more[k]? := by
  rw [filled?, Nat.add_assoc, getElem?_extend, List.getElem?_append_right (Nat.le_add_right _ _),
    Nat.add_sub_cancel_left]
  cases more[k]? <;> rfl

/-- The expressions of a list are added **one by one**. With the separator at hand, three
expressions are added. -/
theorem run_separated (hbase : base = b.slots.size + es.length) :
    (separated item spaced min tag).run.run (b.extend es) =
      (.ok (base + 3), b.extend (es ++ pieces item min tag spaced base)) := by
  subst hbase
  simp only [separated, run_bind, omitted, seq, rep, add_run_extend]
  simp [pieces, Nat.add_assoc]

/-- The pieces that the builder adds **are a list's**, where they stand. -/
theorem assembled_pieces (hbase : base = b.slots.size + es.length)
    (haround : Around (b.extend (es ++ pieces item min tag spaced base)).filled? delimiter space
      spaced) :
    Assembled (b.extend (es ++ pieces item min tag spaced base)).filled? item delimiter space min
      tag spaced base := by
  have hpieces : ∀ k, (b.extend (es ++ pieces item min tag spaced base)).filled? (base + k) =
      (pieces item min tag spaced base)[k]? := by
    rw [hbase]
    exact filled?_extend_append es _
  exact ⟨haround, hpieces 0, hpieces 1, hpieces 2, hpieces 3⟩

/-- A delimited list **is there when the call returns**. How many expressions it adds depends on
whether there is space around delimiters. -/
theorem run_delimitedList (b : Builder) (hmin : 1 ≤ min) : ∃ es base,
    (delimitedList item delimiter space min tag).run.run b = (.ok (base + 3), b.extend es) ∧
      base + 3 < b.slots.size + es.length ∧
      ∃ spaced, Assembled (b.extend es).filled? item delimiter space min tag spaced base := by
  have hnot : ¬ min < 1 := Nat.not_lt_of_le hmin
  have hlt : ∀ {es spaced base}, base = b.slots.size + es.length →
      base + 3 < b.slots.size + (es ++ pieces item min tag spaced base).length := by
    rintro es spaced base rfl
    simp [pieces, Nat.add_assoc]
  unfold delimitedList
  rw [if_neg hnot]
  cases space with
  | none =>
    have hrun : (separated item delimiter min tag).run.run (b.extend []) = _ := run_separated rfl
    rw [extend_nil] at hrun
    exact ⟨_, _, hrun, hlt rfl, delimiter, assembled_pieces rfl rfl⟩
  | some space =>
    have hseq : (seq [space, delimiter, space] none).run.run b =
        (.ok b.slots.size, b.extend [.seq none [space, delimiter, space]]) := by
      have hadd := add_run_extend (b := b) (.seq none [space, delimiter, space]) []
      rwa [extend_nil] at hadd
    rw [run_bind, hseq]
    exact ⟨_, _, run_separated rfl, hlt rfl, b.slots.size,
      assembled_pieces rfl (filled?_extend_append [] _ 0)⟩

end

/-! ### What a list derives -/

section

open GeneralParsing.Derivation

variable {g : Grammar} {collapse : Bool} {id : ExprId} {w rest : List String} {s : String}
variable {accepted isItem isDelimiter isBlank : String → Bool} {out : List PlainTree}

/-- A terminal spells **one symbol that it accepts**. -/
theorem spells_accepting_iff (h : g.Accepting id accepted) :
    (∃ t, Spells g id w t) ↔ ∃ s, w = [s] ∧ accepted s = true := by
  obtain ⟨e, he, ht, rfl⟩ := h
  simp only [spells_terminal_iff he ht]

/-- A terminal yields **the symbol it accepts**, as a value. -/
theorem yields_accepting_iff (h : g.Accepting id accepted) : Yields g collapse id w out ↔
    ∃ s, accepted s = true ∧ w = [s] ∧ out = [PlainTree.value s] := by
  obtain ⟨e, he, ht, rfl⟩ := h
  exact yields_terminal_iff he ht

theorem starts_accepting (h : g.Accepting id accepted) : Starts g id (accepted · = true) := by
  intro d hd hroot
  obtain ⟨e, he, ht, rfl⟩ := h
  obtain ⟨s, rfl, hs⟩ := hd.of_terminal hroot he ht
  exact ⟨s, [], rfl, hs⟩

/-- Space spells **any number of blanks**. -/
theorem spells_spacing_iff (h : g.Spacing (some id) isBlank) :
    (∃ t, Spells g id w t) ↔ ∀ s ∈ w, isBlank s = true := by
  cases h with
  | some he hblank =>
    obtain ⟨e, hterminal, ht, rfl⟩ := hblank
    simp only [spells_rep_iff he, spellsAll_terminal_iff hterminal ht]
    constructor
    · rintro ⟨t, k, -, -, -, hall, -⟩
      exact hall
    · exact fun hall => ⟨String.join w, w.length, Nat.zero_le _, nofun, rfl, hall, rfl⟩

/-- A terminal may stand **before anything**. -/
theorem sharp_accepting {n : Nat} {ok : List String → Prop} (h : g.Accepting id accepted) :
    Sharp g n id ok := by
  obtain ⟨e, he, ht, -⟩ := h
  cases e with
  | token => exact sharp_token he
  | pattern => exact sharp_pattern he
  | _ => cases ht

variable (h : Assembled g.expr? item delimiter space min tag spaced base)
variable (hd : g.Delimits item delimiter space isItem isDelimiter isBlank)
include h hd

/-- Between items there is **a separator**. It is a delimiter, with blanks on either side if these
are allowed. -/
theorem spells_spaced_iff : (∃ t, Spells g spaced w t) ↔ Separator isDelimiter isBlank w := by
  have hdelimiter := fun w => spells_accepting_iff (w := w) hd.delimiter
  have haround := h.around
  have hspace := hd.space
  cases space with
  | none =>
    cases hspace
    subst haround
    rw [hdelimiter]
    constructor
    · rintro ⟨s, rfl, hs⟩
      exact ⟨[], s, [], rfl, by simp, hs, by simp⟩
    · -- no symbol is a blank, so nothing stands around the delimiter
      rintro ⟨u, s, v, rfl, hu, hs, hv⟩
      obtain rfl : u = [] := List.eq_nil_iff_forall_not_mem.mpr fun x hx => nomatch hu x hx
      obtain rfl : v = [] := List.eq_nil_iff_forall_not_mem.mpr fun x hx => nomatch hv x hx
      exact ⟨s, rfl, hs⟩
  | some space =>
    have hblank := fun w => spells_spacing_iff (w := w) hspace
    simp only [spells_seq_iff haround]
    constructor
    · rintro ⟨_, hparts⟩
      obtain ⟨u, tu, hu, _, _, hrest, rfl, -⟩ := spellsAll_cons_iff.mp hparts
      obtain ⟨_, ts, hdelim, _, _, hlast, rfl, -⟩ := spellsAll_cons_iff.mp hrest
      obtain ⟨v, tv, hv, _, _, hnil, rfl, -⟩ := spellsAll_cons_iff.mp hlast
      obtain ⟨rfl, -⟩ := spellsAll_nil_iff.mp hnil
      obtain ⟨s, rfl, hs⟩ := (hdelimiter _).mp ⟨ts, hdelim⟩
      exact ⟨u, s, v, by simp, (hblank u).mp ⟨tu, hu⟩, hs, (hblank v).mp ⟨tv, hv⟩⟩
    · rintro ⟨u, s, v, rfl, hu, hs, hv⟩
      obtain ⟨tu, hu⟩ := (hblank u).mpr hu
      obtain ⟨ts, hs⟩ := (hdelimiter [s]).mpr ⟨s, rfl, hs⟩
      obtain ⟨tv, hv⟩ := (hblank v).mpr hv
      have hparts := hu.cons (hs.cons (hv.cons spellsAll_nil))
      exact ⟨_, by simpa using hparts⟩

/-- The next item comes **behind a separator**, of which nothing is left. The separator is omitted,
so one value is all that an iteration gives. -/
theorem yields_next_iff : Yields g collapse (base + 1) w out ↔ ∃ sep s,
    Separator isDelimiter isBlank sep ∧ isItem s = true ∧ w = sep ++ [s] ∧
      out = [PlainTree.value s] := by
  have hbetween : ∀ {v ts}, Yields g collapse base v ts ↔
      ts = [] ∧ Separator isDelimiter isBlank v := by
    intro v ts
    rw [yields_omitted_iff h.between, spells_spaced_iff h hd]
  rw [yields_seq_iff h.next]
  constructor
  · rintro ⟨_, hparts, rfl⟩
    obtain ⟨sep, _, hfirst, _, _, hlast, rfl, rfl⟩ := yieldsAll_cons_iff.mp hparts
    obtain ⟨_, _, hitem, _, _, hnil, rfl, rfl⟩ := yieldsAll_cons_iff.mp hlast
    obtain ⟨rfl, rfl⟩ := yieldsAll_nil_iff.mp hnil
    obtain ⟨rfl, hsep⟩ := hbetween.mp hfirst
    obtain ⟨s, hs, rfl, rfl⟩ := (yields_accepting_iff hd.item).mp hitem
    exact ⟨sep, s, hsep, hs, by simp, rfl⟩
  · rintro ⟨sep, s, hsep, hs, rfl, rfl⟩
    have hitem : Yields g collapse item [s] [PlainTree.value s] :=
      (yields_accepting_iff hd.item).mpr ⟨s, hs, rfl, rfl⟩
    exact ⟨_, (hbetween.mpr ⟨rfl, hsep⟩).cons hitem.singleton, rfl⟩

/-- Behind an item, iterations go on **with as many items**. The induction is on the number of
iterations; each goes one item further. -/
theorem yieldsAll_next_iff {k : Nat} (hs : isItem s = true) :
    YieldsAll g collapse (List.replicate k (base + 1)) rest out ↔ ∃ items, items.length = k ∧
      Listed isItem isDelimiter isBlank (s :: items) (s :: rest) ∧
      out = items.map PlainTree.value := by
  -- from item to item: what the iterations derive makes a list only with the item before it
  induction k generalizing s rest out with
  | zero =>
    rw [List.replicate_zero, yieldsAll_nil_iff]
    constructor
    · rintro ⟨rfl, rfl⟩
      exact ⟨[], rfl, .single hs, rfl⟩
    · rintro ⟨items, hlength, hlisted, rfl⟩
      obtain rfl := List.length_eq_zero_iff.mp hlength
      cases hlisted with
      | single => exact ⟨rfl, rfl⟩
      | cons _ _ hmore => nomatch hmore.exists_cons
  | succ k ih =>
    rw [List.replicate_succ, yieldsAll_cons_iff]
    constructor
    · rintro ⟨_, _, hnext, v, ts, hmore, rfl, rfl⟩
      obtain ⟨sep, s', hsep, hs', rfl, rfl⟩ := (yields_next_iff h hd).mp hnext
      obtain ⟨items, rfl, hlisted, rfl⟩ := (ih hs').mp hmore
      refine ⟨s' :: items, rfl, ?_, rfl⟩
      rw [List.append_assoc]
      exact .cons hs hsep hlisted
    · rintro ⟨items, hlength, hlisted, rfl⟩
      obtain ⟨s', items, rfl⟩ := List.exists_cons_of_length_eq_add_one hlength
      cases hlisted with
      | cons _ hsep hmore =>
        obtain ⟨s'', more, rest, heq, rfl, hs'⟩ := hmore.exists_cons
        obtain ⟨rfl, rfl⟩ := List.cons.inj heq
        exact ⟨_, _, (yields_next_iff h hd).mpr ⟨_, s', hsep, hs', rfl, rfl⟩, rest, _,
          (ih hs').mpr ⟨items, Nat.succ.inj hlength, hmore, rfl⟩, by simp, rfl⟩

/-- **A list derives its items**, with separators between them. The tag is put on the values of the
items, unless there is just one and it collapses. -/
theorem yields_list_iff : Yields g collapse (base + 3) w out ↔ ∃ items, min ≤ items.length ∧
    Listed isItem isDelimiter isBlank items w ∧
    out = PlainTree.labelled collapse tag (items.map PlainTree.value) := by
  rw [yields_seq_iff h.list]
  constructor
  · rintro ⟨_, hparts, rfl⟩
    obtain ⟨_, _, hitem, _, _, hlast, rfl, rfl⟩ := yieldsAll_cons_iff.mp hparts
    obtain ⟨rest, _, hothers, _, _, hnil, rfl, rfl⟩ := yieldsAll_cons_iff.mp hlast
    obtain ⟨rfl, rfl⟩ := yieldsAll_nil_iff.mp hnil
    obtain ⟨s, hs, rfl, rfl⟩ := (yields_accepting_iff hd.item).mp hitem
    obtain ⟨k, hk, hmore⟩ := (yields_rep_iff h.others).mp hothers
    obtain ⟨items, rfl, hlisted, rfl⟩ := (yieldsAll_next_iff h hd hs).mp hmore
    exact ⟨s :: items, Nat.le_add_of_sub_le hk, by simpa using hlisted, by simp⟩
  · rintro ⟨items, hmin, hlisted, rfl⟩
    obtain ⟨s, items, rest, rfl, rfl, hs⟩ := hlisted.exists_cons
    have hitem : Yields g collapse item [s] [PlainTree.value s] :=
      (yields_accepting_iff hd.item).mpr ⟨s, hs, rfl, rfl⟩
    have hothers : Yields g collapse (base + 2) rest (items.map PlainTree.value) :=
      (yields_rep_iff h.others).mpr ⟨items.length, Nat.sub_le_of_le_add hmin,
        (yieldsAll_next_iff h hd hs).mpr ⟨items, rfl, hlisted, rfl⟩⟩
    exact ⟨_, hitem.cons hothers.singleton, rfl⟩

/-! ### Lists are unambiguous -/

/-- **All derivations of a list are alike.** Behind a separator there is an item, which is none of
the symbols that separators are made of. -/
theorem clear_list (w : List String) : g.Clear (base + 3) w := by
  have hitem : ∀ {n ok}, Sharp g n item ok := sharp_accepting hd.item
  have hmade : MadeOf g spaced fun s => isDelimiter s = true ∨ isBlank s = true := by
    intro d hvalid hroot x hx
    obtain ⟨u, s, v, hyield, hu, hs, hv⟩ :=
      (spells_spaced_iff h hd).mp ⟨d.text, d, hvalid, hroot, rfl, rfl⟩
    rw [hyield, List.mem_append, List.mem_cons] at hx
    rcases hx with hx | rfl | hx
    · exact .inr (hu x hx)
    · exact .inl hs
    · exact .inr (hv x hx)
  have hbetween : ∀ {n}, Sharp g n base fun rest => ∀ s ∈ rest.head?,
      ¬ (isDelimiter s = true ∨ isBlank s = true) := sharp_omitted h.between hmade fun _ h => h
  -- a separator ends where an item begins, whatever it is made of
  have hnext : ∀ {n}, Sharp g n (base + 1) fun _ => True := by
    refine sharp_seq h.next (.cons hbetween (sharpAll_singleton hitem) fun w ds rest hds => ?_)
    obtain ⟨d, ds, w', rfl, hbegins, -⟩ := hds.exists_cons
    obtain ⟨s, t, rfl, hs⟩ := hbegins.starts (starts_accepting hd.item)
    obtain ⟨hdelimiter, hblank⟩ := hd.of_item hs
    rintro _ ⟨⟩
    simp [hdelimiter, hblank]
  -- an iteration is never empty, so none begins where the word has ended
  have hothers : Sharp g w.length (base + 2) (· = []) := by
    refine sharp_rep h.others hnext (fun _ _ _ _ _ => trivial) fun k w ds rest _ hds => ?_
    obtain ⟨d, ds, w', rfl, hbegins, -⟩ := hds.exists_cons
    have hyields : Yields g true (base + 1) d.yield (d.output g true) :=
      ⟨d, hbegins.valid, hbegins.root, rfl, rfl⟩
    obtain ⟨sep, s, -, -, hyield, -⟩ := (yields_next_iff h hd).mp hyields
    simp [← hbegins.word, hyield]
  have hfirst : Sharp g w.length item fun _ => True := hitem
  exact Sharp.clear
    (sharp_seq h.list (.cons hfirst (sharpAll_singleton hothers) fun _ _ _ _ => trivial))

end

end Listing

namespace Forest

open GeneralParsing.Derivation Listing

/-- **Delimited lists keep exactly their items.** With any terminals that share no symbol, a list
of one item or more can be built, and in whatever grammar it ends up in, it accepts at least so many
items with a delimiter, and any blanks around it, between neighbours, and nothing else. Every policy
extracts the items in order, under the tag, which marks the value itself if there is one item and
values are collapsed. -/
theorem delimitedList_exact [PatternReader] {ids : List ExprId} {b : Builder}
    {item delimiter : ExprId} {space : Option ExprId} {min : Nat} (tag : String)
    (hb : Builder.Session [] {} ids b) (hgiven : item :: delimiter :: space.toList ⊆ ids)
    (hmin : 1 ≤ min) :
    ∃ list b', (Builder.delimitedList item delimiter space min (some tag)).run.run b =
        (.ok list, b') ∧
      (∀ g₀, b.finish item = .ok g₀ → ∃ g, b'.finish list = .ok g) ∧
      ∀ g, Builder.Completes (ids ++ [list]) b' list g →
        ∀ isItem isDelimiter isBlank, g.Delimits item delimiter space isItem isDelimiter isBlank →
          ∀ w, ((∃ f, parse g w = .ok f) ↔
              ∃ items, min ≤ items.length ∧ Listed isItem isDelimiter isBlank items w) ∧
            ∀ items, min ≤ items.length → Listed isItem isDelimiter isBlank items w →
              ∃ f, parse g w = .ok f ∧ ∀ o : ParseOptions,
                f.Extracts o (PlainTree.tagged o.collapse tag (items.map PlainTree.value)) := by
  obtain ⟨es, base, hrun, hlt, spaced, hpieces⟩ := run_delimitedList b hmin
  refine ⟨base + 3, b.extend es, hrun, fun g₀ hfinish => hb.exists_finish_extend hfinish es hlt,
    fun g hg isItem isDelimiter isBlank hd w => ?_⟩
  -- the call is one more of the session, so the list is among what was handed out
  have hcall : Builder.Session ids b (ids ++ [base + 3]) (b.extend es) := by
    refine .one (.delimitedList item delimiter space min (some tag)) hgiven ?_
    rw [Builder.Call.run, Builder.run_bind, hrun]
    rfl
  have hsession := hb.trans hcall
  obtain ⟨hstart, hbuilt⟩ := hg.built hsession (by simp)
  -- what the builder held at the return is in the finished grammar
  have h : Assembled g.expr? item delimiter space min (some tag) spaced base :=
    hpieces.mono fun id e he => hg.expr? hsession (Option.join_eq_some_iff.mp he)
  have hyields : ∀ {collapse out}, Yields g collapse g.start w out ↔ ∃ items, min ≤ items.length ∧
      Listed isItem isDelimiter isBlank items w ∧
      out = [PlainTree.tagged collapse tag (items.map PlainTree.value)] := by
    intro collapse out
    rw [hstart]
    exact yields_list_iff h hd
  have haccepts : (∃ f, parse g w = .ok f) ↔
      ∃ items, min ≤ items.length ∧ Listed isItem isDelimiter isBlank items w := by
    rw [exists_parse_iff_yields hbuilt.closed true]
    constructor
    · rintro ⟨out, hout⟩
      obtain ⟨items, hlength, hlisted, -⟩ := hyields.mp hout
      exact ⟨items, hlength, hlisted⟩
    · rintro ⟨items, hlength, hlisted⟩
      exact ⟨_, hyields.mpr ⟨items, hlength, hlisted, rfl⟩⟩
  refine ⟨haccepts, fun items hlength hlisted => ?_⟩
  obtain ⟨f, hf⟩ := haccepts.mpr ⟨items, hlength, hlisted⟩
  -- all derivations are alike, so that no policy has anything to choose
  have hclear : g.Clear g.start w := by
    rw [hstart]
    exact clear_list h hd w
  exact ⟨f, hf, fun o => extracts_of_yields hbuilt.closed hf hclear o
    (hyields.mpr ⟨items, hlength, hlisted, rfl⟩)⟩

example : PlainTree.tagged true "list" (["a"].map PlainTree.value) =
    PlainTree.taggedValue "list" "a" := rfl

/-- A builder that has handed out an item, a comma, and blanks. -/
def commas : Builder where
  slots := #[some (.token "a"), some (.token ","), some (.token " "), some (.rep none 2 0 none)]

section

open scoped Common

theorem session_commas : Builder.Session [] {} [0, 1, 2, 3] commas := by
  have hcalls := (((Builder.Session.nil [] {}).call (.token "a") (by decide)).call (.token ",")
    (by decide)).call (.token " ") (by decide)
  exact hcalls.call (.rep 2 none 0 none) (by decide)

/-- Of two items with a blank before the comma, **a list is left** that has the items. -/
theorem delimitedList_exact_commas : ∃ list b' g f t n,
    (Builder.delimitedList 0 1 (some 3) 2 (some "list")).run.run commas = (.ok list, b') ∧
      b'.finish list = .ok g ∧ parse g ["a", " ", ",", "a"] = .ok f ∧
      f.extract { ambiguity := .error } = .ok (t, n) ∧
      t.plain = PlainTree.node "list" [PlainTree.value "a", PlainTree.value "a"] := by
  have hgiven : 0 :: 1 :: (some 3).toList ⊆ [0, 1, 2, 3] := by decide
  have hmin : 1 ≤ 2 := by decide
  obtain ⟨list, b', hrun, hfinish, hexact⟩ :=
    delimitedList_exact "list" session_commas hgiven hmin
  obtain ⟨g, hg⟩ := hfinish _ rfl
  have hcompletes : Builder.Completes ([0, 1, 2, 3] ++ [list]) b' list g := ⟨_, b', .nil _ _, hg⟩
  have hdelimits : g.Delimits 0 1 (some 3) ("a" == ·) ("," == ·) (" " == ·) := by
    obtain ⟨hlist, rfl⟩ := Prod.mk.inj (hrun.symm.trans rfl)
    obtain rfl := Except.ok.inj hlist
    obtain rfl := Except.ok.inj (hg.symm.trans rfl)
    exact ⟨⟨.token "a", rfl, rfl, rfl⟩, ⟨.token ",", rfl, rfl, rfl⟩,
      .some rfl ⟨.token " ", rfl, rfl, rfl⟩, by simp⟩
  have hlisted : Listed ("a" == ·) ("," == ·) (" " == ·) ["a", "a"] ["a", " ", ",", "a"] :=
    .cons rfl ⟨[" "], ",", [], rfl, by simp, rfl, by simp⟩ (.single rfl)
  obtain ⟨-, htree⟩ := hexact g hcompletes _ _ _ hdelimits ["a", " ", ",", "a"]
  obtain ⟨f, hf, hall⟩ := htree ["a", "a"] (by decide) hlisted
  obtain ⟨t, n, ht, -, hplain⟩ := hall { ambiguity := .error }
  exact ⟨list, b', g, f, t, n, hrun, hg, hf, ht, hplain rfl⟩

end

end Forest

end GeneralParsing
