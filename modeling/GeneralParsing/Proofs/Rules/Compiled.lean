import GeneralParsing.Proofs.Derivation.Inversion
import GeneralParsing.Proofs.Rules.Compile
import GeneralParsing.Proofs.Rules.Derivation

/-!
# Derivations in compiled grammars

Rules that have a grammar are compiled into it (`exists_compiled`), and a derivation of an
expression in it **mirrors** a derivation by the rules of the phrase that the expression implements,
with the same symbols, the same text and the same trees (`Compiled.exists_mirrors`).

The slot of a symbol has the expression that was built for the body of some rule, perhaps by way of
other symbols that stand alone as bodies. Links never run in a circle, so the proof goes by
induction along them, inside an induction over the derivation: each link is an application of a
rule, and the expression at the end was built in place for a phrase.
-/

namespace GeneralParsing

theorem exists_of_forall₂_of_mem {α β : Type} {R : α → β → Prop} {as : List α} {bs : List β}
    (h : List.Forall₂ R as bs) {a : α} (ha : a ∈ as) : ∃ b ∈ bs, R a b := by
  induction h with
  | nil => simp at ha
  | cons hab _ ih =>
    rcases List.mem_cons.mp ha with rfl | ha
    · exact ⟨_, List.mem_cons_self, hab⟩
    · obtain ⟨b, hb, h⟩ := ih ha
      exact ⟨b, List.mem_cons_of_mem _ hb, h⟩

theorem literalSymbols_eq_nil {split : Bool} {text : String} :
    literalSymbols split text = [] ↔ text.isEmpty = true := by
  rw [literalSymbols]
  split
  · next hempty => simp [hempty]
  · next hempty =>
    split <;> simp_all

theorem join_literalSymbols (split : Bool) (text : String) :
    String.join (literalSymbols split text) = text := by
  rw [literalSymbols]
  split
  · next hempty => simpa using (String.isEmpty_iff.mp hempty).symm
  · split
    · have hletter : String.toList ∘ String.singleton = ([·]) := funext String.toList_singleton
      rw [String.join_eq, List.map_map, hletter, ← List.flatMap_def, List.flatMap_singleton',
        String.ofList_toList]
    · simp

namespace Compile

variable {split : Bool} {rs : List Rule} {links : List (ExprId × ExprId)} {g : Grammar}
variable {s : Scope} {b : Builder} {p : Phrase} {id inner : ExprId} {tag : Option String}

variable [PatternReader]

/-- Rules that are compiled to the end **are linked** one to one, the first from the start. Each
link comes from just one rule, so that one can go back from slots to rules. -/
theorem exists_links {start : ExprId} (hx : Comes (rules split rs) {} {} start s b) :
    ∃ r rest links body, rs = r :: rest ∧ Tidy links s b ∧
      (∀ r ∈ rs, ∃ link ∈ links, Defines split s b r link) ∧
      (∀ link ∈ links, ∃ r ∈ rs, Defines split s b r link) ∧
      (start, body) ∈ links ∧ Defines split s b r (start, body) := by
  obtain ⟨r, rest, body, more, rfl, htidy, hdefines⟩ := rules_spec hx
  refine ⟨r, rest, _, body, rfl, htidy, fun r hr => ?_, fun link hlink => ?_,
    List.mem_reverse.mpr List.mem_cons_self, (List.forall₂_cons.mp hdefines).1⟩
  · obtain ⟨link, hlink, hlr⟩ := exists_of_forall₂_of_mem hdefines hr
    exact ⟨link, List.mem_reverse.mpr hlink, hlr⟩
  · exact exists_of_forall₂_of_mem hdefines.flip (List.mem_reverse.mp hlink)

/-- A grammar that was finished after **all rules** had been compiled. -/
structure Compiled (split : Bool) (rs : List Rule) (links : List (ExprId × ExprId)) (s : Scope)
    (b : Builder) (g : Grammar) : Prop where
  tidy : Tidy links s b
  rule : ∀ r ∈ rs, ∃ link ∈ links, Defines split s b r link
  link : ∀ link ∈ links, ∃ r ∈ rs, Defines split s b r link
  size : g.size = b.slots.size
  expr : ∀ (id : ExprId) e, b.slots[id]? = some (some e) → g.expr? id = some e
  linked : ∀ link ∈ links, ∃ e, g.expr? link.1 = some e ∧ g.expr? link.2 = some e
  grounded : ∀ id e, g.expr? id = some e → Builder.Grounded s.Declares links id

/-- A compiled grammar **is closed**. -/
theorem Compiled.closed (h : Compiled split rs links s b g) : g.Closed := by
  intro e he child hchild
  obtain ⟨id, hid⟩ := Array.getElem?_of_mem he
  have hchildren : ∀ {id}, Builder.Grounded s.Declares links id → g.expr? id = some e →
      child < b.slots.size := by
    intro id hgrounded
    induction hgrounded with
    | @built id hd =>
      intro hid
      have hlt : id < b.slots.size := by
        rw [← h.size]
        exact (Array.getElem?_eq_some_iff.mp hid).1
      obtain ⟨e', he'⟩ := h.tidy.built id hlt hd
      cases hid.symm.trans (h.expr id e' he')
      exact h.tidy.child_lt id e he' child hchild
    | link hlink _ ih =>
      intro hid
      obtain ⟨e', hslot, hbody⟩ := h.linked _ hlink
      cases hid.symm.trans hslot
      exact ih hbody
  rw [← Grammar.size, h.size]
  exact hchildren (h.grounded id e hid) hid

/-- Rules that have a grammar **are compiled into it**, and there is a first one. It is the first
rule that the start is linked with. -/
theorem exists_compiled (h : Grammar.ofRules split rs = .ok g) :
    ∃ r rest links s b body, rs = r :: rest ∧ Compiled split rs links s b g ∧
      (g.start, body) ∈ links ∧ Implements s.Names (Builds s b) split r.tag? r.body body := by
  rw [Grammar.ofRules] at h
  split at h
  next start b hrun =>
    obtain ⟨s, hcomes⟩ := exists_comes_of_run' hrun
    obtain ⟨r, rest, links, body, rfl, htidy, hrule, hlink, hstart, hdefines⟩ :=
      exists_links hcomes
    obtain ⟨rfl, hsize, hexpr, hlinked, hgrounded⟩ := htidy.linked.finish h
    exact ⟨r, rest, links, s, b, body, rfl,
      ⟨htidy, hrule, hlink, hsize, hexpr, hlinked, hgrounded⟩, hstart, hdefines.2⟩
  next => cases h

/-- **Text that compiles** has rules that are compiled into its grammar. -/
theorem exists_compiled_of_compile {source : List Char} (h : Grammar.compile split source = .ok g) :
    ∃ r rest links s b body, Dialect.rules source = .ok (r :: rest) ∧
      Compiled split (r :: rest) links s b g ∧ (g.start, body) ∈ links ∧
      Implements s.Names (Builds s b) split r.tag? r.body body := by
  obtain ⟨rs, hrules, h⟩ := Grammar.exists_rules_of_compile h
  obtain ⟨r, rest, links, s, b, body, rfl, hcompiled⟩ := exists_compiled h
  exact ⟨r, rest, links, s, b, body, hrules, hcompiled⟩

/-! ### Mirrors -/

/-- A derivation in a grammar **mirrors** one by the rules, under a tag. -/
structure Mirrors (split : Bool) (rs : List Rule) (g : Grammar) (d : Derivation)
    (tag : Option String) (p : Phrase) (e : Rule.Derivation) : Prop where
  derives : e.By rs p
  yield : e.yield split = d.yield
  text : e.text = d.text
  output : ∀ collapse, d.output g collapse = e.labelled collapse tag (e.output split collapse)

/-- Derivations in a grammar mirror ones by the rules **in order**, without tags. -/
structure MirrorsAll (split : Bool) (rs : List Rule) (g : Grammar) (ds : List Derivation)
    (ps : List Phrase) (es : List Rule.Derivation) : Prop where
  derives : Rule.Derivation.ByAll rs ps es
  length : es.length = ds.length
  yield : Rule.Derivation.yieldAll split es = ds.flatMap Derivation.yield
  text : Rule.Derivation.textAll es = Derivation.textAll ds
  output : ∀ collapse, Rule.Derivation.outputAll split collapse es =
    ds.flatMap (Derivation.output g collapse)

variable {d x : Derivation} {ds : List Derivation} {ps : List Phrase} {e : Rule.Derivation}
variable {es : List Rule.Derivation}

omit [PatternReader] in
/-- The output of a sequence with a tag, where its **parts are as blank** as what it mirrors. -/
theorem output_sequence (htag : g.tag? id = tag) (hblank : e.isBlank = true ↔ ds = [])
    (collapse : Bool) : (Derivation.sequence id ds).output g collapse =
      e.labelled collapse tag (ds.flatMap (Derivation.output g collapse)) := by
  by_cases hds : ds = []
  · subst hds
    rw [Derivation.output, htag]
    cases tag with
    | none => rfl
    | some tag =>
      rw [Rule.Derivation.labelled, if_pos (hblank.mpr rfl)]
      rfl
  · rw [Derivation.output_sequence_of_ne_nil collapse id hds, htag]
    cases tag with
    | none => rfl
    | some tag => rw [Rule.Derivation.labelled, if_neg (mt hblank.mp hds), PlainTree.labelled]

/-- Parts in order mirror **a sequence** of parts. Parts correspond one by one, in order. -/
theorem MirrorsAll.sequence (h : MirrorsAll split rs g ds ps es) (htag : g.tag? id = tag)
    (hby : Rule.Derivation.By rs p (.sequence es)) :
    Mirrors split rs g (.sequence id ds) tag p (.sequence es) where
  derives := hby
  yield := h.yield.trans (Derivation.yield_sequence id ds).symm
  text := h.text
  output collapse := by
    have hblank : (Rule.Derivation.sequence es).isBlank = true ↔ ds = [] := by
      rw [← List.length_eq_zero_iff, ← h.length, List.length_eq_zero_iff]
      cases es <;> simp [Rule.Derivation.isBlank]
    rw [output_sequence htag hblank, ← h.output]
    rfl

/-- A sequence of one mirrors what its part mirrors, **under its own tag**. That is how a visible
rule puts its name around the body. -/
theorem Mirrors.carried (h : Mirrors split rs g x none p e) (hfull : e.isBlank = false)
    (htag : g.tag? id = tag) : Mirrors split rs g (.sequence id [x]) tag p e where
  derives := h.derives
  yield := by simpa using h.yield
  text := by simpa [Derivation.text, Derivation.textAll] using h.text
  output collapse := by
    rw [output_sequence htag (e := e) (by simp [hfull]), List.flatMap_singleton, h.output]
    rfl

/-- Parts mirror phrases in order if **each of them** mirrors each phrase it implements. The parts
are dealt with one by one, since each implements a phrase of its own. -/
theorem exists_mirrorsAll
    (hps : ImplementsAll s.Names (Builds s b) split ps (ds.map Derivation.root))
    (hds : ∀ d ∈ ds, ∀ p, Implements s.Names (Builds s b) split none p d.root →
      ∃ e, Mirrors split rs g d none p e) : ∃ es, MirrorsAll split rs g ds ps es := by
  induction ds generalizing ps with
  | nil =>
    cases hps
    exact ⟨[], .nil, rfl, rfl, rfl, fun _ => rfl⟩
  | cons d ds ih =>
    cases hps with
    | cons hp hps =>
      obtain ⟨hd, hds⟩ := List.forall_mem_cons.mp hds
      obtain ⟨e, he⟩ := hd _ hp
      obtain ⟨es, hes⟩ := ih hps hds
      refine ⟨e :: es, .cons he.derives hes.derives, congrArg (· + 1) hes.length, ?_, ?_,
        fun collapse => ?_⟩
      · rw [Rule.Derivation.yieldAll, he.yield, hes.yield, List.flatMap_cons]
      · rw [Rule.Derivation.textAll, he.text, hes.text, Derivation.textAll]
      · rw [Rule.Derivation.outputAll, hes.output, List.flatMap_cons, he.output]
        rfl

/-- The letters of a literal **stand for themselves**. So for a literal in letters there is only one
derivation. -/
theorem Compiled.eq_of_letters (h : Compiled split rs links s b g) {symbols : List String}
    (hds : ∀ d ∈ ds, d.Valid g)
    (hids : List.Forall₂ (fun id symbol => Builds s b id (.token symbol))
      (ds.map Derivation.root) symbols) :
    ds.flatMap Derivation.yield = symbols ∧ Derivation.textAll ds = String.join symbols ∧
      ∀ collapse, ds.flatMap (Derivation.output g collapse) = symbols.map PlainTree.value := by
  induction ds generalizing symbols with
  | nil =>
    cases hids
    exact ⟨rfl, rfl, fun _ => rfl⟩
  | cons d ds ih =>
    cases hids with
    | cons hb hbs =>
      obtain ⟨hd, hds⟩ := List.forall_mem_cons.mp hds
      obtain ⟨hyield, htext, houtput⟩ := ih hds hbs
      rw [hd.of_token rfl (h.expr _ _ hb.1)]
      refine ⟨?_, ?_, fun collapse => ?_⟩
      · rw [List.flatMap_cons, hyield]
        rfl
      · rw [Derivation.textAll, htext, String.join_cons]
        rfl
      · rw [List.flatMap_cons, houtput]
        rfl

/-! ### Whatever is derived mirrors -/

/-- A derivation that is **carried** mirrors what its one part mirrors, or else has no tag. In the
second case the expression gives what it carries directly. -/
theorem Compiled.exists_mirrors_of_carries (h : Compiled split rs links s b g) (hd : d.Valid g)
    (hid : g.expr? id = g.expr? d.root) (hc : Carries (Builds s b) id inner tag)
    (hpart : ∀ x ∈ d.parts, x.root = inner → ∃ e, Mirrors split rs g x none p e)
    (hfull : ∀ e : Rule.Derivation, e.By rs p → e.isBlank = false)
    (hbare : id = inner → ∃ e, Mirrors split rs g d none p e) :
    ∃ e, Mirrors split rs g d tag p e := by
  cases tag with
  | none => exact hbare hc
  | some tag =>
    generalize hroot : d.root = root at hid
    have hexpr : g.expr? root = some (.seq (some tag) [inner]) :=
      hid.symm.trans (h.expr id _ hc.1)
    obtain ⟨parts, rfl, hroots, -⟩ := hd.of_seq hroot hexpr
    obtain ⟨x, rfl, rfl⟩ := List.map_eq_singleton_iff.mp hroots
    obtain ⟨e, he⟩ := hpart x List.mem_cons_self rfl
    exact ⟨e, he.carried (hfull e he.derives) (Grammar.tag?_eq hexpr)⟩

/-- A derivation of an expression **that was built** in place mirrors one by the rules, if its parts
do. -/
theorem Compiled.exists_mirrors_of_builds (h : Compiled split rs links s b g) (hd : d.Valid g)
    (hid : g.expr? id = g.expr? d.root) (hbuilt : ¬ s.Declares id)
    (hp : Implements s.Names (Builds s b) split tag p id)
    (hparts : ∀ x ∈ d.parts, ∀ p, Implements s.Names (Builds s b) split none p x.root →
      ∃ e, Mirrors split rs g x none p e) : ∃ e, Mirrors split rs g d tag p e := by
  have hexpr : ∀ {e}, Builds s b id e → g.expr? d.root = some e :=
    fun hb => hid.symm.trans (h.expr id _ hb.1)
  have htag : ∀ {e}, Builds s b id e → g.tag? d.root = e.tag? :=
    fun hb => Grammar.tag?_eq (hexpr hb)
  have hpart : ∀ {inner}, Implements s.Names (Builds s b) split none p inner →
      ∀ x ∈ d.parts, x.root = inner → ∃ e, Mirrors split rs g x none p e :=
    fun himpl x hx hroot => hparts x hx p (hroot ▸ himpl)
  generalize hroot : d.root = root at hexpr htag
  cases hp with
  | symbol hname hc =>
    -- without a tag this would be the slot of the symbol, and not built
    refine h.exists_mirrors_of_carries hd hid hc (hpart (.symbol hname rfl)) ?_ ?_
    · rintro _ ⟨⟩
      rfl
    rintro rfl
    exact absurd ⟨_, hname⟩ hbuilt
  | @token _ text _ _ ht hb hc =>
    refine h.exists_mirrors_of_carries hd hid hc (hpart (.token ht hb rfl)) ?_ ?_
    · rintro _ ⟨⟩
      have hne : literalSymbols split text ≠ [] := by simp [ht]
      exact Bool.eq_false_iff.mpr (mt literalSymbols_eq_nil.mpr hne)
    · rintro rfl
      rw [hd.of_token hroot (hexpr hb)]
      refine ⟨.literal text, .literal text, ht, rfl, fun _ => ?_⟩
      rw [Rule.Derivation.output, ht]
      rfl
  | @letters _ text ids _ hids hb =>
    obtain ⟨parts, rfl, rfl, hvalid⟩ := hd.of_seq hroot (hexpr hb)
    obtain ⟨hyield, htext, houtput⟩ := h.eq_of_letters hvalid hids
    -- there are no letters just where the literal is empty
    have hblank : (Rule.Derivation.literal text).isBlank = true ↔ parts = [] := by
      rw [Rule.Derivation.isBlank, ← @literalSymbols_eq_nil split text,
        ← List.length_eq_zero_iff, ← hids.length_eq, List.length_map, List.length_eq_zero_iff]
    refine ⟨.literal text, .literal text, ?_, ?_, fun collapse => ?_⟩
    · rw [Derivation.yield_sequence, hyield, Rule.Derivation.yield]
    · rw [Derivation.text, htext, join_literalSymbols, Rule.Derivation.text]
    · rw [output_sequence (htag hb) hblank, houtput, Rule.Derivation.output]
      rfl
  | pattern hp hb hc =>
    refine h.exists_mirrors_of_carries hd hid hc (hpart (.pattern hp hb rfl)) ?_ ?_
    · rintro _ ⟨⟩
      rfl
    rintro rfl
    obtain ⟨text, rfl, ha⟩ := hd.of_pattern hroot (hexpr hb)
    exact ⟨.pattern text, .pattern hp ha, rfl, rfl, fun _ => rfl⟩
  | seq hb hs =>
    obtain ⟨parts, rfl, rfl, -⟩ := hd.of_seq hroot (hexpr hb)
    obtain ⟨es, hes⟩ := exists_mirrorsAll hs hparts
    exact ⟨.sequence es, hes.sequence (htag hb) (.seq hes.derives)⟩
  | alt hb hs =>
    obtain ⟨part, rfl, hc, -⟩ := hd.of_alt hroot (hexpr hb)
    obtain ⟨p, hp, himpl⟩ := hs.exists_of_mem_ids hc
    obtain ⟨e, he⟩ := hparts part List.mem_cons_self p himpl
    refine ⟨.choice e, .alt hp he.derives, he.yield, he.text, fun collapse => ?_⟩
    rw [Derivation.output, htag hb, he.output]
    cases tag <;> rfl
  | repeated hb hs =>
    obtain ⟨parts, rfl, hroots, hmin, hmax, -⟩ := hd.of_rep hroot (hexpr hb)
    -- the parts are those of a sequence of copies
    have hcopies := hs.replicate parts.length
    rw [← List.length_map (f := Derivation.root),
      ← List.eq_replicate_of_mem (List.forall_mem_map.mpr hroots)] at hcopies
    obtain ⟨es, hes⟩ := exists_mirrorsAll hcopies hparts
    have hderives := hes.derives
    rw [List.length_map, ← hes.length] at hderives
    exact ⟨.sequence es, hes.sequence (htag hb)
      (.repeated (hes.length ▸ hmin) (hes.length ▸ hmax) hderives)⟩
  | omitted hb hs hc =>
    refine h.exists_mirrors_of_carries hd hid hc (hpart (.omitted hb hs rfl)) ?_ ?_
    · rintro _ ⟨⟩
      rfl
    rintro rfl
    obtain ⟨part, rfl, rfl, -⟩ := hd.of_omitted hroot (hexpr hb)
    obtain ⟨e, he⟩ := hparts part List.mem_cons_self _ hs
    exact ⟨.omitted e, .omitted he.derives, he.yield, rfl, fun _ => rfl⟩
  | lexical hb hs hc =>
    refine h.exists_mirrors_of_carries hd hid hc (hpart (.lexical hb hs rfl)) ?_ ?_
    · rintro _ ⟨⟩
      rfl
    rintro rfl
    obtain ⟨part, rfl, rfl, -⟩ := hd.of_lexical hroot (hexpr hb)
    obtain ⟨e, he⟩ := hparts part List.mem_cons_self _ hs
    refine ⟨.lexical e, .lexical he.derives, he.yield, he.text, fun collapse => ?_⟩
    rw [Derivation.output, ← he.text]
    rfl

/-- **A derivation in a compiled grammar mirrors one by the rules**, for what an expression
implements that is the same as its root. -/
theorem Compiled.exists_mirrors (h : Compiled split rs links s b g) (hd : d.Valid g)
    (hid : g.expr? id = g.expr? d.root) (hp : Implements s.Names (Builds s b) split tag p id) :
    ∃ e, Mirrors split rs g d tag p e := by
  induction d using Derivation.induct_parts generalizing tag p id with
  | step d ih =>
  have hparts : ∀ x ∈ d.parts, ∀ p, Implements s.Names (Builds s b) split none p x.root →
      ∃ e, Mirrors split rs g x none p e := fun x hx _ => ih x hx (hd.of_mem_parts hx) rfl
  obtain ⟨expr, hexpr⟩ := hd.exists_expr
  have hgrounded := h.grounded id expr (hid.trans hexpr)
  induction hgrounded generalizing tag p with
  | built hbuilt => exact h.exists_mirrors_of_builds hd hid hbuilt hp hparts
  | @link slot body hlink _ ihlink =>
    -- the slot of a symbol stands for an application of its rule
    obtain ⟨r, hr, hname, hbody⟩ := h.link _ hlink
    obtain ⟨rfl, rfl⟩ := h.tidy.eq_symbol hp hname
    obtain ⟨expr', hslot', hbody'⟩ := h.linked _ hlink
    obtain ⟨e, he⟩ := ihlink ((hbody'.trans hslot'.symm).trans hid) hbody
    exact ⟨.rule r e, .rule hr he.derives, he.yield, he.text, he.output⟩

end Compile

end GeneralParsing
