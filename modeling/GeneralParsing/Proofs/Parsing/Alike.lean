import GeneralParsing.Proofs.Machine.Renaming
import GeneralParsing.Proofs.Parsing.Recognition

/-!
# Grammars that are parsed alike

An input that is not derived is rejected at the first position that no terminal goes by
(`Forest.parse_or_waits`). Both whether an input is derived and which positions are gone by are
said in terms of the grammar, so two grammars that agree on them accept the same inputs and reject
the others at the same positions (`Forest.parsedAlike`). Grammars with counterparts do
(`Grammar.Counterparts.parsedAlike`), however they share their expressions. Where they share alike,
too, their forests are the same (`Grammar.Counterparts.parse_eq`).
-/

namespace GeneralParsing

open Machine

/-- Two grammars either both accept an input, or both **reject it at the same position**. -/
def Forest.ParsedAlike (g h : Grammar) (w : List String) : Prop :=
  (∃ f f', Forest.parse g w = .ok f ∧ Forest.parse h w = .ok f') ∨
    ∃ position ≤ w.length, Forest.parse g w = .error (.rejected position) ∧
      Forest.parse h w = .error (.rejected position)

variable {g h : Grammar} {R : ExprId → ExprId → Prop} {a : ExprId} {w : List String}

/-! ### The position of a rejection -/

theorem Grammar.Waits.lt_length {position : Nat} (hwaits : g.Waits w position) :
    position < w.length := by
  obtain ⟨_, _, _, -, -, hsymbol, -⟩ := hwaits
  exact (List.getElem?_eq_some_iff.mp hsymbol).1

/-- An input has a forest, or it is rejected at **the first position that no terminal goes by**.
That position does not depend on how the machine works, only on what the grammar looks for. -/
theorem Forest.parse_or_waits (hg : g.Closed) (w : List String) :
    (∃ f, parse g w = .ok f) ∨
      ∃ position ≤ w.length, parse g w = .error (.rejected position) ∧
        (∀ q < position, g.Waits w q) ∧ ¬ g.Waits w position := by
  obtain ⟨L, m, hfaithful, htasks, ⟨hparse, -⟩ | ⟨hparse, hstop⟩⟩ := exists_faithful hg w
  · exact .inl ⟨_, hparse⟩
  · have hbefore : ∀ q < m.position, g.Waits w q :=
      fun _ hq => hfaithful.sound.waits_before hfaithful.rooted hq
    rcases hstop with ⟨hend, -⟩ | ⟨hlt, hnone, -⟩
    · exact .inr ⟨m.position, hend.le, hparse, hbefore,
        fun hwaits => Nat.ne_of_lt hwaits.lt_length hend⟩
    · exact .inr ⟨m.position, hlt.le, hparse, hbefore,
        fun hwaits => hfaithful.matched_of_waits htasks hwaits hnone⟩

/-- There is only one **first position** that no terminal goes by. -/
theorem Grammar.eq_of_waits {p q : Nat} (hp : ∀ position < p, g.Waits w position)
    (hq : ∀ position < q, g.Waits w position) (hnp : ¬ g.Waits w p) (hnq : ¬ g.Waits w q) :
    p = q := by
  rcases Nat.lt_trichotomy p q with hlt | heq | hlt
  · exact absurd (hq p hlt) hnp
  · exact heq
  · exact absurd (hp q hlt) hnq

/-- Grammars that derive an input alike and go by the same positions of it **parse it alike**. What
grammars derive settles whether there is a forest, and what they go by settles where there is none.
-/
theorem Forest.parsedAlike (hg : g.Closed) (hh : h.Closed)
    (hderives : g.Derives g.start w ↔ h.Derives h.start w)
    (hwaits : ∀ position, g.Waits w position ↔ h.Waits w position) : ParsedAlike g h w := by
  rcases parse_or_waits hg w with ⟨f, hf⟩ | ⟨p, hle, hp, hbefore, hnone⟩
  · obtain ⟨f', hf'⟩ := exists_parse_of_derives hh (hderives.mp (derives_of_parse hg hf))
    exact .inl ⟨f, f', hf, hf'⟩
  · rcases parse_or_waits hh w with ⟨f', hf'⟩ | ⟨q, -, hq, hbefore', hnone'⟩
    · obtain ⟨f, hf⟩ := exists_parse_of_derives hg (hderives.mpr (derives_of_parse hh hf'))
      cases hp.symm.trans hf
    · have hsame : p = q :=
        Grammar.eq_of_waits (fun r hr => (hwaits r).mp (hbefore r hr)) hbefore'
          (fun hwait => hnone ((hwaits p).mpr hwait)) hnone'
      exact .inr ⟨p, hle, hp, hsame ▸ hq⟩

/-! ### What counterparts look for -/

namespace Grammar

/-- What is related to a list with a member somewhere has **something related to it there**. -/
theorem exists_split {as rest : List ExprId} {bs : List ExprId}
    (hs : List.Forall₂ R (as ++ a :: rest) bs) :
    ∃ bs₁ b bs₂, bs = bs₁ ++ b :: bs₂ ∧ List.Forall₂ R as bs₁ ∧ R a b := by
  induction as generalizing bs with
  | nil =>
    obtain ⟨b, bs₂, hab, -, rfl⟩ := List.forall₂_cons_left_iff.mp hs
    exact ⟨[], b, bs₂, rfl, .nil, hab⟩
  | cons c as ih =>
    obtain ⟨c', bs', hc, hbs', rfl⟩ := List.forall₂_cons_left_iff.mp hs
    obtain ⟨bs₁, b, bs₂, rfl, hbs₁, hab⟩ := ih hbs'
    exact ⟨c' :: bs₁, b, bs₂, rfl, .cons hc hbs₁, hab⟩

namespace Counterparts

variable (hR : Counterparts g h R)

include hR

/-- Lists of counterparts derive **the same words** in order. -/
theorem derivesAll {as bs : List ExprId} (hs : List.Forall₂ R as bs) {v : List String}
    (hv : g.DerivesAll as v) : h.DerivesAll bs v :=
  (derivesAll_congr (hs.imp fun _ _ hab => hR.bisimulation.derives_iff hab) v).mp hv

variable (hstart : R g.start h.start)

include hstart

/-- Where an expression is looked for, **a counterpart of it** is. The induction is on how it comes
to be looked for, so the counterpart is looked for in the same way. -/
theorem exists_sought {position : Nat} (hs : g.Sought w a position) :
    ∃ b, R a b ∧ h.Sought w b position := by
  induction hs with
  | start => exact ⟨h.start, hstart, .start⟩
  | part _ he hv hw ih =>
    obtain ⟨b, hab, hb⟩ := ih
    obtain ⟨y, hy, hxy⟩ := hR.exists_matches he hab
    cases hxy with
    | seq hbs =>
      obtain ⟨bs₁, c, bs₂, rfl, hbs₁, hc⟩ := exists_split hbs
      exact ⟨c, hc, hb.part hy (hR.derivesAll hbs₁ hv) hw⟩
  | alternative _ he hc ih =>
    obtain ⟨b, hab, hb⟩ := ih
    obtain ⟨y, hy, hxy⟩ := hR.exists_matches he hab
    cases hxy with
    | alt hbs =>
      obtain ⟨c, hmem, hc⟩ := Derivation.exists_related hbs hc
      exact ⟨c, hc, hb.alternative hy hmem⟩
  | @iteration id child tag min count max v start _ he hmax hv hw ih =>
    obtain ⟨b, hab, hb⟩ := ih
    obtain ⟨y, hy, hxy⟩ := hR.exists_matches he hab
    cases hxy with
    | @rep _ _ c _ _ hc =>
      have hiterations : List.Forall₂ R (List.replicate count child) (List.replicate count c) :=
        List.forall₂_iff_get.mpr ⟨by simp, by simp [hc]⟩
      exact ⟨c, hc, hb.iteration hy hmax (hR.derivesAll hiterations hv) hw⟩
  | omitted _ he ih =>
    obtain ⟨b, hab, hb⟩ := ih
    obtain ⟨y, hy, hxy⟩ := hR.exists_matches he hab
    cases hxy with
    | omitted hc => exact ⟨_, hc, hb.omitted hy⟩
  | lexical _ he ih =>
    obtain ⟨b, hab, hb⟩ := ih
    obtain ⟨y, hy, hxy⟩ := hR.exists_matches he hab
    cases hxy with
    | lexical hc => exact ⟨_, hc, hb.lexical hy⟩

/-- A position that one grammar goes by is **gone by with the other**. -/
theorem waits {position : Nat} (hwaits : g.Waits w position) : h.Waits w position := by
  obtain ⟨a, x, symbol, hs, hx, hsymbol, ha⟩ := hwaits
  obtain ⟨b, hab, hb⟩ := hR.exists_sought hstart hs
  obtain ⟨y, hy, hxy⟩ := hR.exists_matches hx hab
  exact ⟨b, y, symbol, hb, hy, hsymbol, (hxy.accepts_eq symbol).trans ha⟩

/-- Grammars whose starts are counterparts **parse every input alike**. Being counterparts is a
simulation, in both directions. -/
theorem parsedAlike (hg : g.Closed) (hh : h.Closed) (w : List String) :
    Forest.ParsedAlike g h w :=
  Forest.parsedAlike hg hh (hR.bisimulation.derives_iff hstart w) fun _ =>
    ⟨hR.waits hstart, hR.flip.waits hstart⟩

/-- Grammars whose starts are counterparts and that **share alike** have the same forest, or reject
the input at the same position. -/
theorem parse_eq (hg : g.Closed) (hh : h.Closed) (hshare : g.SharesAlike h R w) :
    Forest.parse h w = Forest.parse g w := by
  rcases hR.parsedAlike hstart hg hh w with ⟨f, f', hf, hf'⟩ | ⟨position, -, hp, hp'⟩
  · obtain ⟨m, hread, rfl, -⟩ := Forest.exists_readAll hf
    obtain ⟨m', hread', rfl, -⟩ := Forest.exists_readAll hf'
    have hinitial : Machine.Renamed R (g.MeetAt h R w 0) (Machine.initial g)
        (Machine.initial h) := by
      refine ⟨rfl, rfl, ?_, ?_, .cons (.derive .accept hstart) .nil, rfl, rfl, rfl, rfl⟩ <;>
        simp [Machine.initial]
    have hm := (Machine.keepsStep_renamed hR hshare).readAll hinitial .start .start List.drop_zero
      hread hread'
    rw [hf, hf', hm.nodes, hm.roots, hm.position]
  · rw [hp, hp']

end Counterparts

end Grammar

end GeneralParsing
