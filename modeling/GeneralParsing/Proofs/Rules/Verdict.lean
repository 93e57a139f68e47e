import GeneralParsing.Proofs.Rules.Compiled
import GeneralParsing.Proofs.Rules.Outcome

/-!
# Which rules have a grammar

A hidden rule whose body is a symbol has no expression of its own: its slot is to hold what the
slot of that symbol holds. So where such rules follow one another in a circle, there is nothing for
any of them to hold, and that is all that can go wrong once the rules have been compiled
(`Compile.Ready.resolves`, `Compile.Ready.not_resolves`).

Together with how compiling ends this tells what becomes of any rules (`verdict_ofRules`).
-/

namespace GeneralParsing

open Relation

namespace Rule

/-- A hidden rule whose body is a symbol **leads to** the rule of that symbol. -/
structure Follows (rs : List Rule) (r r' : Rule) : Prop where
  mem : r ∈ rs
  mem_next : r' ∈ rs
  hidden : r.hidden = true
  body : r.body = .symbol r'.name

/-- Rules lead **in a circle**. -/
def Circular (rs : List Rule) : Prop := ∃ r, TransGen (Follows rs) r r

/-- **Sound rules**: what is asked of rules apart from the names that they refer to. -/
structure Sound [PatternReader] (rs : List Rule) : Prop where
  /-- No visible rule has itself as an alternative. -/
  kept : ∀ r ∈ rs, r.hidden = false → ∀ parts, r.body = .alt parts → .symbol r.name ∉ parts
  /-- No two rules have the same name. -/
  distinct : (rs.map Rule.name).Nodup
  /-- Every pattern can be read. -/
  readable : ∀ r ∈ rs, ∀ source, .pattern source ∈ r.body.subphrases →
    ∃ p, Pattern.read source = .ok p
  /-- The bounds of every repetition are the right way round. -/
  ordered : ∀ r ∈ rs, ∀ part n m, .repeated part (.minMax n m) ∈ r.body.subphrases → n ≤ m

/-- What is asked of rules **altogether**. -/
structure Compilable [PatternReader] (rs : List Rule) : Prop extends Sound rs where
  /-- Every name that is referred to is that of a rule. -/
  defined : ∀ r ∈ rs, ∀ name, .symbol name ∈ r.body.subphrases → ∃ r' ∈ rs, r'.name = name
  /-- No hidden rule leads into a circle. -/
  acyclic : ∀ r ∈ rs, r.hidden = true → ∀ r', ReflTransGen (Follows rs) r r' →
    ¬ TransGen (Follows rs) r' r'

variable {rs : List Rule} {r : Rule} {motive : Rule → Prop}

theorem listsItself_iff : r.listsItself = true ↔
    ∃ parts, r.body = .alt parts ∧ .symbol r.name ∈ parts := by
  have hsymbol : ∀ {p : Phrase}, Phrase.isSymbol r.name p = true ↔ p = .symbol r.name := by
    intro p
    cases p <;> simp [Phrase.isSymbol]
  rw [listsItself]
  split
  · next parts hbody => simp [hbody, hsymbol]
  · next hbody => simpa using fun parts heq => absurd heq (hbody parts)

/-- **Rules without flaws are sound.** The one says what is asked of rules in one sentence, and the
other how it is found to be missing. -/
theorem sound_iff [PatternReader] : Sound rs ↔ ∀ e, ¬ Flawed rs e := by
  rw [not_flawed_iff]
  constructor
  · intro h
    refine ⟨h.distinct, fun r hr => ⟨fun hvisible => ?_, ?_⟩⟩
    · rw [Bool.eq_false_iff, Ne, listsItself_iff]
      rintro ⟨parts, hbody, hmem⟩
      exact h.kept r hr hvisible parts hbody hmem
    · rintro e ⟨q, hq, hflaw⟩
      cases hflaw with
      | pattern hunread =>
        obtain ⟨p, hp⟩ := h.readable r hr _ hq
        exact hunread p hp
      | bounds hlt => exact absurd (h.ordered r hr _ _ _ hq) (Nat.not_le_of_lt hlt)
  · rintro ⟨hdistinct, hrs⟩
    constructor
    · intro r hr hvisible parts hbody hmem
      exact Bool.eq_false_iff.mp ((hrs r hr).1 hvisible)
        (listsItself_iff.mpr ⟨parts, hbody, hmem⟩)
    · exact hdistinct
    · intro r hr source hq
      by_contra hunread
      exact (hrs r hr).2 _ ⟨_, hq, .pattern fun p hp => hunread ⟨p, hp⟩⟩
    · intro r hr part n m hq
      by_contra hlt
      exact (hrs r hr).2 _ ⟨_, hq, .bounds (Nat.lt_of_not_le hlt)⟩

theorem compilable_iff [PatternReader] :
    Compilable rs ↔ (∀ e, ¬ Flawed rs e) ∧ undefined rs = [] ∧ ¬ Circular rs := by
  rw [← sound_iff, undefined_eq_nil_iff]
  constructor
  · rintro ⟨hsound, hdefined, hacyclic⟩
    refine ⟨hsound, hdefined, fun ⟨r, hr⟩ => ?_⟩
    obtain ⟨_, hfollows, -⟩ := TransGen.head'_iff.mp hr
    exact hacyclic r hfollows.mem hfollows.hidden r .refl hr
  · rintro ⟨hsound, hdefined, hcircular⟩
    exact ⟨hsound, hdefined, fun r _ _ r' _ hr' => hcircular ⟨r', hr'⟩⟩

/-- Without circles, induction goes **along the rules that a rule leads to**. There are finitely
many rules, so that leading on comes to an end. -/
theorem induct_follows (h : ¬ Circular rs)
    (step : ∀ r ∈ rs, (∀ r', Follows rs r r' → motive r') → motive r) (hr : r ∈ rs) :
    motive r := by
  have : IsStrictOrder Rule fun r' r => TransGen (Follows rs) r r' :=
    { irrefl := fun r hr => h ⟨r, hr⟩
      trans := fun _ _ _ h h' => h'.trans h }
  have hwf : {r | r ∈ rs}.WellFoundedOn fun r' r => TransGen (Follows rs) r r' :=
    (List.finite_toSet rs).wellFoundedOn
  refine hwf.induction hr fun r hr ih => step r hr fun r' hr' => ?_
  exact ih r' hr'.mem_next (.single hr')

end Rule

namespace Compile

variable {split : Bool} {rs : List Rule} {links : List (ExprId × ExprId)} {s : Scope} {b : Builder}
variable {r r' : Rule} {slot body id : ExprId}

theorem Tidy.chained (h : Tidy links s b) :
    Builder.Chained s.Declares links b.slots b.aliases where
  pending := ⟨h.linked.nodup, h.linked.empty⟩
  linked := h.linked.linked
  met := h.linked.met
  declared_lt := fun id ⟨name, hname⟩ => h.slot_lt name id hname
  built := fun id hid => h.built id hid.1 hid.2
  grounded id e hid := by
    have hgrounded := h.linked.grounded id e hid
    induction hgrounded with
    | @built id hd => exact ⟨id, .refl, hd, hid⟩
    | @link slot body hlink _ ih =>
      rcases h.linked.met _ hlink with hwait | ⟨e', hslot, hbody⟩
      · have hempty := h.linked.empty _ hwait
        rw [hid] at hempty
        cases hempty
      · cases hid.symm.trans hslot
        obtain ⟨root, hleads, hroot, he⟩ := ih hbody
        exact ⟨root, hleads.head hlink, hroot, he⟩

variable [PatternReader]

/-- All rules are compiled, and **every name has a rule** of its own. -/
structure Ready (split : Bool) (rs : List Rule) (links : List (ExprId × ExprId)) (s : Scope)
    (b : Builder) : Prop where
  tidy : Tidy links s b
  rule : ∀ r ∈ rs, ∃ link ∈ links, Defines split s b r link
  link : ∀ link ∈ links, ∃ r ∈ rs, Defines split s b r link
  named : ∀ name slot, s.Names name slot → ∃ r ∈ rs, r.name = name
  nodup : (rs.map Rule.name).Nodup

omit [PatternReader] in
/-- If every name that is referred to has a rule, **every name that was met** has one. Names are met
in bodies or as the names of rules. -/
theorem exists_rule_of_knows {name : String}
    (h : Knows s (rs.flatMap Rule.mentions) (rs.map Rule.name)) (hnone : Rule.undefined rs = [])
    (hname : ∃ entry ∈ s.symbols, entry.name = name) : ∃ r ∈ rs, r.name = name := by
  obtain ⟨r, hr, hmention⟩ := List.mem_flatMap.mp (h.exists_entry.mp hname)
  rcases List.mem_cons.mp hmention with rfl | hsymbol
  · exact ⟨r, hr, rfl⟩
  · exact Rule.undefined_eq_nil_iff.mp hnone r hr name (Phrase.mem_symbols.mp hsymbol)

/-- The link from the slot of a rule is **the link of that rule**. -/
theorem Ready.implements (h : Ready split rs links s b) (hr : r ∈ rs)
    (hslot : s.Names r.name slot) (hlink : (slot, body) ∈ links) :
    Implements s.Names (Builds s b) split r.tag? r.body body := by
  obtain ⟨r', hr', hname, himpl⟩ := h.link _ hlink
  have heq : r.name = r'.name := h.tidy.name_unique _ _ _ hslot hname
  rwa [List.inj_on_of_nodup_map h.nodup hr hr' heq]

/-- If the body of a rule comes to be a slot, the rule **leads to the rule** of that slot. The body
is then nothing but a symbol, with no tag around it. -/
theorem Ready.exists_follows (h : Ready split rs links s b) (hr : r ∈ rs)
    (hslot : s.Names r.name slot) (hlink : (slot, body) ∈ links) (hbody : s.Declares body) :
    ∃ r', Rule.Follows rs r r' ∧ s.Names r'.name body := by
  obtain ⟨name, hname⟩ := hbody
  obtain ⟨htag, hsymbol⟩ := h.tidy.eq_symbol (h.implements hr hslot hlink) hname
  obtain ⟨r', hr', rfl⟩ := h.named name body hname
  refine ⟨r', ⟨hr, hr', ?_, hsymbol⟩, hname⟩
  rw [Rule.tag?] at htag
  split at htag
  · assumption
  · cases htag

/-- If a rule leads to another, its body **is the slot of that one**. -/
theorem Ready.names_of_follows (h : Ready split rs links s b) (hr : Rule.Follows rs r r')
    (hslot : s.Names r.name slot) (hlink : (slot, body) ∈ links) : s.Names r'.name body := by
  have himpl := h.implements hr.mem hslot hlink
  rw [hr.body, Rule.tag?, if_pos hr.hidden] at himpl
  cases himpl with
  | symbol hname hc =>
    obtain rfl : body = _ := hc
    exact hname

/-- Where rules do not lead in a circle **every slot resolves**. A body that is a slot resolves if
that slot does, and this ends where a body was built. -/
theorem Ready.resolves (h : Ready split rs links s b) (hrs : ¬ Rule.Circular rs)
    (hid : s.Declares id) : Builder.Resolves s.Declares links b.slots id := by
  have hrule : ∀ r ∈ rs, ∀ slot, s.Names r.name slot →
      Builder.Resolves s.Declares links b.slots slot := by
    intro r hr
    refine Rule.induct_follows (motive := fun r => ∀ slot, s.Names r.name slot →
      Builder.Resolves s.Declares links b.slots slot) hrs (fun r hr ih slot hslot => ?_) hr
    obtain ⟨⟨slot', body⟩, hlink, hname, himpl⟩ := h.rule r hr
    obtain rfl := h.tidy.slot_unique _ _ _ hslot hname
    by_cases hbody : s.Declares body
    · obtain ⟨r', hfollows, hname'⟩ := h.exists_follows hr hslot hlink hbody
      obtain ⟨root, hleads, hbuilt⟩ := ih r' hfollows body hname'
      exact ⟨root, hleads.head hlink, hbuilt⟩
    · exact ⟨body, .single hlink, h.tidy.implements_lt himpl, hbody⟩
  obtain ⟨name, hname⟩ := hid
  obtain ⟨r, hr, rfl⟩ := h.named name id hname
  exact hrule r hr id hname

/-- The slot of a rule in a circle **does not resolve**. From slot to slot one never comes to an
expression. -/
theorem Ready.not_resolves (h : Ready split rs links s b)
    (hr : TransGen (Rule.Follows rs) r r) (hid : s.Names r.name id) :
    ¬ Builder.Resolves s.Declares links b.slots id := by
  rintro ⟨root, hleads, -, hbuilt⟩
  induction hleads using ReflTransGen.head_induction_on generalizing r with
  | refl => exact hbuilt ⟨_, hid⟩
  | head hlink _ ih =>
    -- the next rule is in the circle as well
    obtain ⟨r', hfollows, hback⟩ := TransGen.head'_iff.mp hr
    exact ih (TransGen.tail' hback hfollows) (h.names_of_follows hfollows hid hlink)

end Compile

/-! ### The verdict -/

/-- The errors **that are about rules**. -/
def Error.aboutRules : Error → Bool
  | .lostNamedNode _ | .duplicateSymbol _ | .invalidPattern _ | .invalidBounds _ _
  | .undefinedSymbols _ | .undefinedExpression _ => true
  | _ => false

namespace Rule

variable [PatternReader]

/-- What **becomes of rules**: they are flawed, or some names have no rule, or they lead in a
circle, or they have a grammar. -/
inductive Verdict (rs : List Rule) : Except Error Grammar → Prop
  | flawed {e : Error} (h : Flawed rs e) : Verdict rs (.error e)
  | missing (hsound : ∀ e, ¬ Flawed rs e) (h : undefined rs ≠ []) :
      Verdict rs (.error (.undefinedSymbols (undefined rs)))
  | circular (hsound : ∀ e, ¬ Flawed rs e) (hnone : undefined rs = []) (h : Circular rs)
      (id : ExprId) : Verdict rs (.error (.undefinedExpression id))
  | grammar (hsound : ∀ e, ¬ Flawed rs e) (hnone : undefined rs = []) (h : ¬ Circular rs)
      (g : Grammar) : Verdict rs (.ok g)

variable {rs : List Rule} {x : Except Error Grammar} {e : Error}

/-- Just the rules of which everything is true that is asked **have a grammar**. That is decidable,
by compiling the rules. -/
theorem Verdict.exists_grammar_iff (h : Verdict rs x) : (∃ g, x = .ok g) ↔ Compilable rs := by
  rw [compilable_iff]
  cases h with
  | flawed h => exact iff_of_false (by simp) fun hc => hc.1 _ h
  | missing _ h => exact iff_of_false (by simp) fun hc => h hc.2.1
  | circular _ _ h => exact iff_of_false (by simp) fun hc => hc.2.2 h
  | grammar hsound hnone h g => exact iff_of_true ⟨g, rfl⟩ ⟨hsound, hnone, h⟩

/-- If only names are missing, maybe in addition to a circle, **the error tells all of them**. -/
theorem Verdict.eq_undefinedSymbols (h : Verdict rs x) (hsound : Sound rs)
    (hundefined : undefined rs ≠ []) : x = .error (.undefinedSymbols (undefined rs)) := by
  cases h with
  | flawed h => exact absurd h (sound_iff.mp hsound _)
  | missing => rfl
  | circular _ hnone | grammar _ hnone => exact absurd hnone hundefined

theorem Verdict.aboutRules (h : Verdict rs (.error e)) : e.aboutRules = true := by
  cases h with
  | flawed h =>
    cases h with
    | lost | duplicate => rfl
    | body _ hbody =>
      obtain ⟨q, -, hflaw⟩ := hbody
      cases hflaw <;> rfl
  | missing | circular => rfl

end Rule

namespace Compile

variable {split : Bool} {rs : List Rule} {links : List (ExprId × ExprId)} {s : Scope} {b : Builder}

/-- When all rules are compiled it is left **whether they lead in a circle**. The builder looks for
a slot that is left empty. -/
theorem Ready.verdict_finish [PatternReader] {name : String} {start : ExprId}
    (h : Ready split rs links s b)
    (hsound : ∀ e, ¬ Rule.Flawed rs e) (hnone : Rule.undefined rs = [])
    (hname : s.Names name start) : Rule.Verdict rs (b.finish start) := by
  have hchained := h.tidy.chained
  by_cases hcircular : Rule.Circular rs
  · obtain ⟨r, hr⟩ := hcircular
    obtain ⟨next, hfollows, -⟩ := TransGen.head'_iff.mp hr
    obtain ⟨link, -, hslot, -⟩ := h.rule r hfollows.mem
    obtain ⟨lowest, herror⟩ :=
      hchained.exists_finish_eq_error ⟨r.name, hslot⟩ (h.not_resolves hr hslot) start
    rw [herror]
    exact .circular hsound hnone ⟨r, hr⟩ lowest
  · obtain ⟨g, hg⟩ := (hchained.finish_of_resolves fun id hid => h.resolves hcircular hid).1
      (h.tidy.slot_lt name start hname)
    rw [hg]
    exact .grammar hsound hnone hcircular g

end Compile

open Compile in
/-- Each verdict is passed on **the rules that deserve it**. Verdicts exclude each other, so the
rules are exactly those. -/
theorem Grammar.verdict_ofRules [PatternReader] (split : Bool) {rs : List Rule} (hrs : rs ≠ []) :
    Rule.Verdict rs (ofRules split rs) := by
  have hends : Ends (rules split rs) {} {} _ _ := rules_ends hrs
  rw [ofRules, Builder.run, run'_run]
  cases hrun : ((rules split rs).run {}).run.run {} with
  | mk result b =>
    cases result with
    | error e =>
      rcases hends.stops e b hrun with h | ⟨hsound, hundefined, rfl⟩
      · exact .flawed h
      · exact .missing hsound hundefined
    | ok pair =>
      obtain ⟨start, s⟩ := pair
      obtain ⟨hsound, hnone, hknows⟩ := hends.comes start s b hrun
      obtain ⟨r, rest, links, body, rfl, htidy, hrule, hlink, -, hname, -⟩ := exists_links hrun
      have hready : Ready split (r :: rest) links s b := by
        refine ⟨htidy, hrule, hlink, ?_, (Rule.not_flawed_iff.mp hsound).1⟩
        rintro name slot ⟨entry, hentry, hentryname, -⟩
        exact exists_rule_of_knows hknows hnone ⟨entry, hentry, hentryname⟩
      exact hready.verdict_finish hsound hnone hname

end GeneralParsing
