import GeneralParsing.Proofs.Derivation.Inversion
import GeneralParsing.Proofs.Derivation.Yields

/-!
# Grammars that derive alike

A relation between the expressions of two grammars is a **bisimulation** when related expressions
are of one kind, with the same tag and the same bounds, and have related children
(`Grammar.Bisimulation`). Related expressions derive the same words with the same outputs
(`Bisimulation.yields_iff`). Grammars may share expressions differently, and may have them in any
order.

Of what is omitted only the words matter, so there the children need not be related: it is enough
that they derive the same words.
-/

namespace GeneralParsing

/-- The expression with **other references**. -/
def Expr.rename (f : ExprId → ExprId) : Expr → Expr
  | token text => .token text
  | pattern p => .pattern p
  | seq tag children => .seq tag (children.map f)
  | alt tag children => .alt tag (children.map f)
  | rep tag child min max => .rep tag (f child) min max
  | omitted child => .omitted (f child)
  | lexical child => .lexical (f child)

/-- Expressions of two grammars that **agree**: related children stand in the same places, and what
is omitted at least derives the same words. -/
inductive Expr.Agree (g h : Grammar) (R : ExprId → ExprId → Prop) : Expr → Expr → Prop
  | token (text : String) : Agree g h R (.token text) (.token text)
  | pattern (p : Pattern) : Agree g h R (.pattern p) (.pattern p)
  | seq {tag : Option String} {as bs : List ExprId} (hs : List.Forall₂ R as bs) :
      Agree g h R (.seq tag as) (.seq tag bs)
  | alt {tag : Option String} {as bs : List ExprId} (hs : List.Forall₂ R as bs) :
      Agree g h R (.alt tag as) (.alt tag bs)
  | rep {tag : Option String} {a b : ExprId} {min : Nat} {max : Option Nat} (hab : R a b) :
      Agree g h R (.rep tag a min max) (.rep tag b min max)
  | omitted {a b : ExprId} (hab : R a b) : Agree g h R (.omitted a) (.omitted b)
  | silent {a b : ExprId} (hwords : ∀ w, g.Derives a w ↔ h.Derives b w) :
      Agree g h R (.omitted a) (.omitted b)
  | lexical {a b : ExprId} (hab : R a b) : Agree g h R (.lexical a) (.lexical b)

/-- A **bisimulation**: related expressions are there, and agree. -/
def Grammar.Bisimulation (g h : Grammar) (R : ExprId → ExprId → Prop) : Prop :=
  ∀ a b, R a b → ∃ x y, g.expr? a = some x ∧ h.expr? b = some y ∧ Expr.Agree g h R x y

/-- Derivations of two grammars **resemble** each other in their symbols, text and outputs. -/
structure Derivation.Resembles (g h : Grammar) (d d' : Derivation) : Prop where
  yield : d'.yield = d.yield
  text : d'.text = d.text
  output : ∀ collapse, d'.output h collapse = d.output g collapse

variable {g h : Grammar} {R : ExprId → ExprId → Prop}

/-- Agreeing does not depend on **which grammar comes first**. -/
theorem Expr.Agree.flip {x y : Expr} (hxy : Agree g h R x y) : Agree h g (flip R) y x := by
  cases hxy with
  | token text => exact .token text
  | pattern p => exact .pattern p
  | seq hs => exact .seq hs.flip
  | alt hs => exact .alt hs.flip
  | rep hab => exact .rep hab
  | omitted hab => exact .omitted hab
  | silent hwords => exact .silent fun w => (hwords w).symm
  | lexical hab => exact .lexical hab

theorem Expr.Agree.tag?_eq {x y : Expr} (hxy : Agree g h R x y) : y.tag? = x.tag? := by
  cases hxy <;> rfl

namespace Grammar

/-- A bisimulation **can be turned around**, so that one direction is enough for every result on it.
-/
theorem Bisimulation.flip (hR : Bisimulation g h R) : Bisimulation h g (flip R) := by
  intro b a hab
  obtain ⟨x, y, hx, hy, hxy⟩ := hR a b hab
  exact ⟨y, x, hy, hx, hxy.flip⟩

/-- An expression that is related to one that is known **agrees with it**, also in the tag. -/
theorem Bisimulation.exists_agree (hR : Bisimulation g h R) {a b : ExprId} {x : Expr}
    (hx : g.expr? a = some x) (hab : R a b) :
    ∃ y, h.expr? b = some y ∧ h.tag? b = g.tag? a ∧ Expr.Agree g h R x y := by
  obtain ⟨x', y, hx', hy, hxy⟩ := hR a b hab
  obtain rfl := Option.some.inj (hx.symm.trans hx')
  exact ⟨y, hy, by rw [tag?_eq hx, tag?_eq hy, hxy.tag?_eq], hxy⟩

end Grammar

namespace Derivation

/-! ### Parts that resemble each other -/

variable {d : Derivation} {ds ds' : List Derivation} {bs : List ExprId}

/-- Parts that resemble each other have **the same symbols**. -/
theorem flatMap_yield_of_resembles (hs : List.Forall₂ (Resembles g h) ds ds') :
    ds'.flatMap yield = ds.flatMap yield := by
  induction hs with
  | nil => rfl
  | cons hd _ ih => rw [List.flatMap_cons, List.flatMap_cons, hd.yield, ih]

/-- Parts that resemble each other have **the same text**. -/
theorem textAll_of_resembles (hs : List.Forall₂ (Resembles g h) ds ds') :
    textAll ds' = textAll ds := by
  induction hs with
  | nil => rfl
  | cons hd _ ih => rw [textAll, textAll, hd.text, ih]

/-- Parts that resemble each other have **the same output**. -/
theorem flatMap_output_of_resembles (hs : List.Forall₂ (Resembles g h) ds ds') (collapse : Bool) :
    ds'.flatMap (output h collapse) = ds.flatMap (output g collapse) := by
  induction hs with
  | nil => rfl
  | cons hd _ ih => rw [List.flatMap_cons, List.flatMap_cons, hd.output, ih]

/-- Parts that resemble each other **make sequences** that do, where the tags are the same. A
resemblance is made from the leaves to the root, and this is one step of it. -/
theorem resembles_sequence {a b : ExprId} (hs : List.Forall₂ (Resembles g h) ds ds')
    (htag : h.tag? b = g.tag? a) : Resembles g h (.sequence a ds) (.sequence b ds') where
  yield := by rw [yield_sequence, yield_sequence, flatMap_yield_of_resembles hs]
  text := textAll_of_resembles hs
  output collapse := by
    have houtput := flatMap_output_of_resembles hs collapse
    cases hs with
    | nil => rw [output, output, htag]
    | cons hd hs =>
      rw [output_sequence_of_ne_nil collapse a (List.cons_ne_nil _ _),
        output_sequence_of_ne_nil collapse b (List.cons_ne_nil _ _), htag, houtput]

/-- Parts of which each has one that resembles it **have such parts in order**. They are chosen one
by one, in the order of the expressions. -/
theorem exists_parts (hparts : ∀ d ∈ ds, ∀ b, R d.root b →
      ∃ d' : Derivation, d'.Valid h ∧ d'.root = b ∧ Resembles g h d d')
    (hs : List.Forall₂ R (ds.map root) bs) :
    ∃ ds' : List Derivation, (∀ d' ∈ ds', d'.Valid h) ∧ ds'.map root = bs ∧
      List.Forall₂ (Resembles g h) ds ds' := by
  induction ds generalizing bs with
  | nil =>
    cases hs
    exact ⟨[], by simp, rfl, .nil⟩
  | cons d ds ih =>
    obtain ⟨hd, hds⟩ := List.forall_mem_cons.mp hparts
    obtain ⟨b, bs, hb, hbs, rfl⟩ := List.forall₂_cons_left_iff.mp hs
    obtain ⟨d', hd', hroot, hsame⟩ := hd b hb
    obtain ⟨ds', hds', hroots, hsames⟩ := ih hds hbs
    exact ⟨d' :: ds', List.forall_mem_cons.mpr ⟨hd', hds'⟩, by rw [List.map_cons, hroot, hroots],
      .cons hsame hsames⟩

theorem forall₂_replicate {a b : ExprId} (hroots : ∀ d ∈ ds, d.root = a) (hab : R a b) :
    List.Forall₂ R (ds.map root) (List.replicate ds.length b) := by
  induction ds with
  | nil => exact .nil
  | cons d ds ih =>
    obtain ⟨rfl, hroots⟩ := List.forall_mem_cons.mp hroots
    exact .cons hab (ih hroots)

/-- What is among related expressions is **related to one of the others**. -/
theorem exists_related {as : List ExprId} {a : ExprId} (hs : List.Forall₂ R as bs) (ha : a ∈ as) :
    ∃ b ∈ bs, R a b := by
  induction hs with
  | nil => cases ha
  | cons hab _ ih =>
    rcases List.mem_cons.mp ha with rfl | ha
    · exact ⟨_, List.mem_cons_self, hab⟩
    · obtain ⟨b, hb, hab⟩ := ih ha
      exact ⟨b, List.mem_cons_of_mem _ hb, hab⟩

/-! ### Derivations -/

/-- For a derivation of an expression there is **one of a related expression** that resembles it.
The induction is on the derivation, and each of its expressions has one that agrees with it. -/
theorem Valid.exists_resembling (hR : g.Bisimulation h R) (hd : d.Valid g) {b : ExprId}
    (hb : R d.root b) : ∃ d' : Derivation, d'.Valid h ∧ d'.root = b ∧ Resembles g h d d' := by
  -- what is related is of one kind, so a derivation is answered by one of its own kind
  induction hd generalizing b with
  | @symbol id e text he ha =>
    obtain ⟨y, hy, -, hxy⟩ := hR.exists_agree he hb
    have hy' : y.accepts text = true := by
      cases hxy with
      | token | pattern => exact ha
      | seq | alt | rep | omitted | silent | lexical => cases ha
    exact ⟨.symbol b text, .symbol hy hy', rfl, rfl, rfl, fun _ => rfl⟩
  | @sequence id tag parts he _ ih =>
    obtain ⟨y, hy, htag, hxy⟩ := hR.exists_agree he hb
    cases hxy with
    | seq hs =>
      obtain ⟨parts', hparts', rfl, hsames⟩ := exists_parts (fun d hd b => ih d hd) hs
      exact ⟨.sequence b parts', .sequence hy hparts', rfl, resembles_sequence hsames htag⟩
  | @repetition id tag child min max parts he hroots hmin hmax _ ih =>
    obtain ⟨y, hy, htag, hxy⟩ := hR.exists_agree he hb
    cases hxy with
    | @rep _ _ child' _ _ hab =>
      obtain ⟨parts', hparts', hroots', hsames⟩ :=
        exists_parts (fun d hd b => ih d hd) (forall₂_replicate hroots hab)
      have hlen : parts'.length = parts.length := hsames.length_eq.symm
      have hchild : ∀ d' ∈ parts', d'.root = child' := fun d' hd' =>
        List.eq_of_mem_replicate (hroots' ▸ List.mem_map_of_mem hd')
      exact ⟨.sequence b parts', .repetition hy hchild (hlen ▸ hmin) (hlen ▸ hmax) hparts', rfl,
        resembles_sequence hsames htag⟩
  | @choice id tag children part he hc _ ih =>
    obtain ⟨y, hy, htag, hxy⟩ := hR.exists_agree he hb
    cases hxy with
    | alt hs =>
      obtain ⟨c, hc', hab⟩ := exists_related hs hc
      obtain ⟨d', hd', rfl, hsame⟩ := ih hab
      exact ⟨.choice b d', .choice hy hc' hd', rfl, hsame.yield, hsame.text,
        fun collapse => by rw [output, output, htag, hsame.output]⟩
  | @omitted id part he hpart ih =>
    obtain ⟨y, hy, -, hxy⟩ := hR.exists_agree he hb
    cases hxy with
    | omitted hab =>
      obtain ⟨d', hd', rfl, hsame⟩ := ih hab
      exact ⟨.omitted b d', .omitted hy hd', rfl, hsame.yield, rfl, fun _ => rfl⟩
    | silent hwords =>
      -- the parts are not related, but nothing is seen of them besides their symbols
      have hderives := (hwords _).mp (Grammar.derives_of_valid hpart)
      obtain ⟨d', hd', rfl, hyield⟩ := Grammar.derives_iff.mp hderives
      exact ⟨.omitted b d', .omitted hy hd', rfl, hyield, rfl, fun _ => rfl⟩
  | @lexical id part he _ ih =>
    obtain ⟨y, hy, -, hxy⟩ := hR.exists_agree he hb
    cases hxy with
    | lexical hab =>
      obtain ⟨d', hd', rfl, hsame⟩ := ih hab
      exact ⟨.lexical b d', .lexical hy hd', rfl, hsame.yield, hsame.text,
        fun collapse => by rw [output, output, hsame.text]⟩

/-- Expressions that go together yield **the same outputs** for the same symbols. Outputs are made
from tags, symbols and texts, and a resemblance keeps all three. -/
theorem Yields.of_bisimulation (hR : g.Bisimulation h R) {a b : ExprId} (hab : R a b)
    {collapse : Bool} {w : List String} {out : List PlainTree} (hw : Yields g collapse a w out) :
    Yields h collapse b w out := by
  obtain ⟨d, hd, rfl, rfl, rfl⟩ := hw
  obtain ⟨d', hd', hroot, hsame⟩ := hd.exists_resembling hR hab
  exact ⟨d', hd', hroot, hsame.yield, hsame.output collapse⟩

end Derivation

namespace Grammar

open GeneralParsing.Derivation

/-- **Related expressions derive alike**: the same words with the same outputs. The references of
the one grammar may well be fewer, as expressions can be shared. -/
theorem Bisimulation.yields_iff (hR : g.Bisimulation h R) {a b : ExprId} (hab : R a b)
    {collapse : Bool} {w : List String} {out : List PlainTree} :
    Yields g collapse a w out ↔ Yields h collapse b w out :=
  ⟨.of_bisimulation hR hab, .of_bisimulation hR.flip hab⟩

/-- What is derived is what is derived **with some output**. -/
theorem derives_iff_yields {id : ExprId} {w : List String} (collapse : Bool) :
    g.Derives id w ↔ ∃ out, Yields g collapse id w out := by
  rw [derives_iff]
  constructor
  · rintro ⟨d, hd, hroot, hyield⟩
    exact ⟨_, d, hd, hroot, hyield, rfl⟩
  · rintro ⟨_, d, hd, hroot, hyield, -⟩
    exact ⟨d, hd, hroot, hyield⟩

/-- A sequence derives **what its parts derive in order**. -/
theorem derives_seq_iff {id : ExprId} {tag : Option String} {ids : List ExprId} {w : List String}
    (he : g.expr? id = some (.seq tag ids)) : g.Derives id w ↔ g.DerivesAll ids w := by
  refine ⟨fun hw => ?_, .sequence he⟩
  obtain ⟨d, hd, hroot, rfl⟩ := derives_iff.mp hw
  obtain ⟨parts, rfl, rfl, hparts⟩ := hd.of_seq hroot he
  rw [yield_sequence]
  exact derivesAll_of_parts fun part hpart => derives_of_valid (hparts part hpart)

/-- Omitting an expression does not change **what it derives**. It changes what is given for it
only. -/
theorem derives_omitted_iff {id child : ExprId} {w : List String}
    (he : g.expr? id = some (.omitted child)) : g.Derives id w ↔ g.Derives child w := by
  refine ⟨fun hw => ?_, .omitted he⟩
  obtain ⟨d, hd, hroot, rfl⟩ := derives_iff.mp hw
  obtain ⟨part, rfl, rfl, hpart⟩ := hd.of_omitted hroot he
  exact derives_of_valid hpart

/-- What derives the same words one by one derives **the same in order**. -/
theorem derivesAll_congr {as bs : List ExprId}
    (hs : List.Forall₂ (fun a b => ∀ w, g.Derives a w ↔ h.Derives b w) as bs) (w : List String) :
    g.DerivesAll as w ↔ h.DerivesAll bs w := by
  induction hs generalizing w with
  | nil =>
    constructor
    · rintro ⟨⟩
      exact .nil
    · rintro ⟨⟩
      exact .nil
  | cons hab _ ih =>
    constructor
    · rintro (_ | ⟨hd, hds⟩)
      exact .cons ((hab _).mp hd) ((ih _).mp hds)
    · rintro (_ | ⟨hd, hds⟩)
      exact .cons ((hab _).mpr hd) ((ih _).mpr hds)

/-- Related expressions derive **the same words**. -/
theorem Bisimulation.derives_iff (hR : g.Bisimulation h R) {a b : ExprId} (hab : R a b)
    (w : List String) : g.Derives a w ↔ h.Derives b w := by
  rw [derives_iff_yields true, derives_iff_yields true]
  exact exists_congr fun _ => hR.yields_iff hab

end Grammar

end GeneralParsing
