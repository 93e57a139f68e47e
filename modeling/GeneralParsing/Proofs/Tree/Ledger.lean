import GeneralParsing.Extraction.Shape
import GeneralParsing.Proofs.Tree.Numbering
import GeneralParsing.Proofs.Tree.Places

/-!
# Ledgers of families

A **ledger** lists the families in the order of their numbers. A tree is `Entered` when every family
in it stands in the ledger under its number. Numbering a new family adds it at the end, so a
ledger only grows and whatever is entered stays entered. `Numbering.Keeps` says that of a whole
computation; each way of putting trees together keeps the ledger.
-/

namespace GeneralParsing

namespace Tree

/-- A tree whose families **stand in the ledger** under their numbers. -/
inductive Entered (ledger : List (List NumberedTree)) : NumberedTree → Prop
  | leaf (label : Label) : Entered ledger (.leaf label)
  | branch (label : Label) {number : Nat} {ts : List NumberedTree} (h : ledger[number]? = some ts)
      (hts : ∀ t ∈ ts, Entered ledger t) : Entered ledger (.branch label number ts)

variable {ledger ledger' : List (List NumberedTree)}

/-- A ledger that has become longer keeps **the entries it had**, under their numbers. -/
theorem getElem?_of_longer (hle : ledger <+: ledger') {number : Nat} {ts : List NumberedTree}
    (h : ledger[number]? = some ts) : ledger'[number]? = some ts := by
  obtain ⟨more, rfl⟩ := hle
  obtain ⟨hlt, -⟩ := List.getElem?_eq_some_iff.mp h
  rw [List.getElem?_append_left hlt, h]

/-- What has been entered in a ledger **stays entered** when the ledger grows. -/
theorem Entered.mono (hle : ledger <+: ledger') {t : NumberedTree} (ht : Entered ledger t) :
    Entered ledger' t := by
  induction ht with
  | leaf label => exact .leaf label
  | branch label h _ ih => exact .branch label (getElem?_of_longer hle h) ih

/-- If a tree has been entered, **so have its children**, because they were made before it. A tree
is entered with a number for its children, and the number of a family is given when it is complete.
-/
theorem Entered.children {t : NumberedTree} (ht : Entered ledger t) :
    ∀ u ∈ t.children, Entered ledger u := by
  cases ht with
  | leaf label => simp [Tree.children]
  | branch label _ hts => exact hts

/-- A span makes **no new family**, so the tree stays entered. -/
theorem Entered.withSpan (span : Span) {t : NumberedTree} (ht : Entered ledger t) :
    Entered ledger (t.withSpan span) := by
  cases ht with
  | leaf label => exact .leaf _
  | branch label h hts => exact .branch _ h hts

/-- A ledger **files** the families of the trees entered in it. That is what counting and comparing
need to know about sharing. -/
theorem Entered.filed {t : NumberedTree} (ht : Entered ledger t) :
    Filed (fun number => (ledger[number]?).getD []) t := by
  induction ht with
  | leaf label => exact .leaf label
  | @branch label number ts h _ ih =>
    have hmem : (ledger[number]?).getD [] = ts := by simp [h]
    have hfiled : Filed (fun number => (ledger[number]?).getD [])
        (.branch label number ((ledger[number]?).getD [])) :=
      .branch label number (by simpa only [hmem] using ih)
    simpa only [hmem] using hfiled

end Tree

namespace Numbering

variable {α β : Type} {ledger : List (List NumberedTree)}

/-- A computation **keeps the ledger**: what it numbers is added at the end, and its result is as
it should be with the ledger it leaves. -/
def Keeps (ledger : List (List NumberedTree)) (x : Numbering α)
    (post : List (List NumberedTree) → α → Prop) : Prop :=
  ∃ ledger', ledger <+: ledger' ∧ ledger'.length = x.after ledger.length ∧
    post ledger' (x.result ledger.length)

/-- A value **keeps the ledger** as it is. -/
theorem Keeps.pure {post : List (List NumberedTree) → α → Prop} {a : α} (h : post ledger a) :
    Keeps ledger (pure a) post :=
  ⟨ledger, List.prefix_rfl, rfl, h⟩

/-- Steps that keep the ledger **may follow one another**: each may rely on what has been entered
before. -/
theorem Keeps.bind {x : Numbering α} {k : α → Numbering β}
    {post : List (List NumberedTree) → α → Prop} {post' : List (List NumberedTree) → β → Prop}
    (hx : Keeps ledger x post)
    (hk : ∀ ledger' a, ledger <+: ledger' → post ledger' a → Keeps ledger' (k a) post') :
    Keeps ledger (x >>= k) post' := by
  obtain ⟨ledger₁, hle₁, hlen₁, hpost₁⟩ := hx
  obtain ⟨ledger₂, hle₂, hlen₂, hpost₂⟩ := hk ledger₁ _ hle₁ hpost₁
  rw [hlen₁] at hlen₂ hpost₂
  exact ⟨ledger₂, hle₁.trans hle₂, hlen₂, hpost₂⟩

/-- A new family is **entered**. -/
theorem keeps_inner (label : Label) {ts : List NumberedTree}
    (hts : ∀ t ∈ ts, Tree.Entered ledger t) :
    Keeps ledger (NumberedTree.inner label ts) Tree.Entered := by
  have hle := List.prefix_append ledger [ts]
  refine ⟨ledger ++ [ts], hle, by simp, .branch label (by simp) fun t ht => (hts t ht).mono hle⟩

/-- What is entered element by element is entered **along a list**. -/
theorem keeps_mapM {f : α → Numbering β} {post : List (List NumberedTree) → β → Prop}
    (hmono : ∀ ledger ledger' b, ledger <+: ledger' → post ledger b → post ledger' b)
    {as : List α} (h : ∀ a ∈ as, ∀ ledger', ledger <+: ledger' → Keeps ledger' (f a) post) :
    Keeps ledger (as.mapM f) fun ledger' bs => ∀ b ∈ bs, post ledger' b := by
  induction as generalizing ledger with
  | nil => exact .pure (by simp)
  | cons a as ih =>
    rw [List.mapM_cons]
    refine (h a (by simp) ledger List.prefix_rfl).bind fun ledger₁ b hle₁ hb => ?_
    refine (ih fun a ha ledger' hle => h a (by simp [ha]) ledger' (hle₁.trans hle)).bind
      fun ledger₂ bs hle₂ hbs => .pure ?_
    exact List.forall_mem_cons.mpr ⟨hmono _ _ _ hle₂ hb, hbs⟩

end Numbering

/-! ### Shapes keep the ledger -/

namespace ParseOptions

open GeneralParsing.Numbering

variable (o : ParseOptions) (span : Span) {ledger : List (List NumberedTree)}

theorem entered_spanned {t : NumberedTree} (ht : t.Entered ledger) :
    (o.spanned span t).Entered ledger := by
  unfold spanned
  split
  · exact ht.withSpan span
  · exact ht

/-- A new family is entered **under the next number**, with its span or without. -/
theorem keeps_spanned_inner (label : Label) {ts : List NumberedTree}
    (hts : ∀ t ∈ ts, t.Entered ledger) :
    Keeps ledger (do return o.spanned span (← NumberedTree.inner label ts)) Tree.Entered :=
  (keeps_inner label hts).bind fun _ _ _ ht => .pure (o.entered_spanned span ht)

/-- What one derivation contributes **is entered**, be it a new group or trees that were there. -/
theorem keeps_alternatives {ts : List NumberedTree} (hts : ∀ t ∈ ts, t.Entered ledger) :
    Keeps ledger (o.alternatives span ts) fun ledger' us => ∀ u ∈ us, u.Entered ledger' := by
  unfold alternatives
  split
  · next t =>
    have ht := hts t (by simp)
    refine .pure ?_
    split
    · exact ht.children
    · simpa using ht
  · refine (keeps_inner {} hts).bind fun _ _ _ ht => .pure ?_
    simpa using o.entered_spanned span ht

/-- A packed tree is entered **after the groups in it**. Groups are made where an alternative has
several trees. -/
theorem keeps_pack {found : List (List NumberedTree)}
    (h : ∀ ts ∈ found, ∀ t ∈ ts, t.Entered ledger) :
    Keeps ledger (o.pack span found) Tree.Entered := by
  refine (keeps_mapM (fun _ _ _ hle hb u hu => (hb u hu).mono hle) fun ts hts _ hle =>
    o.keeps_alternatives span fun t ht => (h ts hts t ht).mono hle).bind fun _ parts _ hparts => ?_
  refine o.keeps_spanned_inner span { packed := true } fun t ht => ?_
  obtain ⟨us, hus, ht⟩ := List.mem_flatten.mp ht
  exact hparts us hus t ht

theorem keeps_wrap (tag : String) {ts : List NumberedTree} (hts : ∀ t ∈ ts, t.Entered ledger) :
    Keeps ledger (o.wrap span tag ts) Tree.Entered := by
  have hnode : Keeps ledger (o.spanned span <$> NumberedTree.node tag ts) Tree.Entered :=
    o.keeps_spanned_inner span { tag := some tag } hts
  unfold wrap
  split
  · split
    · split
      · exact .pure (o.entered_spanned span (.leaf _))
      · exact hnode
    · exact hnode
  · exact hnode

/-- Under a tag that moves inside **each alternative is entered** before the packed tree is. -/
theorem keeps_tagged (tag : String) {ts : List NumberedTree} (hts : ∀ t ∈ ts, t.Entered ledger) :
    Keeps ledger (o.tagged span tag ts) Tree.Entered := by
  unfold tagged
  split
  · next only =>
    split
    · have honly := (hts only (by simp)).children
      refine (keeps_mapM (fun _ _ _ hle hb => hb.mono hle) fun part hpart _ hle =>
        o.keeps_wrap span tag ?_).bind fun _ parts _ hparts =>
          o.keeps_spanned_inner span { packed := true } hparts
      have hp := (honly part hpart).mono hle
      split
      · exact hp.children
      · simpa using hp
    · exact o.keeps_wrap span tag hts
  · exact o.keeps_wrap span tag hts

theorem keeps_labelled (tag : Option String) {ts : List NumberedTree}
    (hts : ∀ t ∈ ts, t.Entered ledger) :
    Keeps ledger (o.labelled span tag ts) fun ledger' us => ∀ u ∈ us, u.Entered ledger' := by
  cases tag with
  | none => exact .pure hts
  | some tag =>
    refine (o.keeps_tagged span tag hts).bind fun _ _ _ ht => .pure ?_
    simpa using ht

end ParseOptions

end GeneralParsing
