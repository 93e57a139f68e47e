import GeneralParsing.Proofs.Parsing.Recorded
import GeneralParsing.Proofs.Parsing.Redirection
import GeneralParsing.Proofs.Rules.Compiled

/-!
# Which tags there are

In a compiled grammar, what can be reached from the start is built for phrases of the rules, and the
only tags there are the names of visible rules (`Compile.Compiled.exists_rule_of_reaches`). A forest
has no other tags than those that can be reached (`Forest.exists_reaches_of_hasTag`), so its tags
are names of visible rules, too.
-/

namespace GeneralParsing

namespace Compile

variable {split : Bool} {rs : List Rule} {links : List (ExprId × ExprId)} {g : Grammar}
variable {s : Scope} {b : Builder} {id inner : ExprId} {tag : Option String} {e : Expr}

/-- A tag that is **the name of a visible rule**, if there is one. -/
def Visible (rs : List Rule) (tag : Option String) : Prop :=
  ∀ name, tag = some name → ∃ r ∈ rs, r.hidden = false ∧ r.name = name

theorem visible_none : Visible rs none := nofun

theorem visible_tag? {r : Rule} (hr : r ∈ rs) : Visible rs r.tag? := by
  intro name hname
  rw [Rule.tag?] at hname
  split at hname
  · cases hname
  · next hhidden => exact ⟨r, hr, by simpa using hhidden, Option.some.inj hname⟩

/-- An expression that **was built for the rules**: for a phrase, or for a letter of a literal. -/
inductive Serves [PatternReader] (split : Bool) (rs : List Rule) (s : Scope) (b : Builder)
    (id : ExprId) : Prop
  | phrase {tag : Option String} {p : Phrase} (htag : Visible rs tag)
      (h : Implements s.Names (Builds s b) split tag p id) : Serves split rs s b id
  | letter {symbol : String} (h : Builds s b id (.token symbol)) : Serves split rs s b id

/-- What an expression carries **under a tag** is built for the rules, if it is without the tag.
Around it there is at most the sequence that has the tag. -/
theorem serves_of_carries [PatternReader] (htag : Visible rs tag) (hbuilds : Builds s b id e)
    (hc : Carries (Builds s b) id inner tag) (hinner : Serves split rs s b inner)
    (hbare : id = inner → Visible rs e.tag? ∧ ∀ child ∈ e.children, Serves split rs s b child) :
    Visible rs e.tag? ∧ ∀ child ∈ e.children, Serves split rs s b child := by
  cases tag with
  | none => exact hbare hc
  | some tag =>
    obtain rfl : e = .seq (some tag) [inner] :=
      Option.some.inj (Option.some.inj (hbuilds.1.symm.trans hc.1))
    exact ⟨htag, by simpa [Expr.children] using hinner⟩

/-- What is built in place for the rules has **the tag of a visible rule or none**, and refers to
what is built for the rules. -/
theorem Serves.of_builds [PatternReader] (h : Serves split rs s b id) (hbuilds : Builds s b id e) :
    Visible rs e.tag? ∧ ∀ child ∈ e.children, Serves split rs s b child := by
  have heq : ∀ {e'}, Builds s b id e' → e = e' := fun hb =>
    Option.some.inj (Option.some.inj (hbuilds.1.symm.trans hb.1))
  cases h with
  | letter hb =>
    obtain rfl := heq hb
    exact ⟨visible_none, by simp [Expr.children]⟩
  | @phrase tag p htag hp =>
    -- what is wrapped, or matches a symbol, has no tag of its own
    have hcarried : ∀ {inner e'}, Carries (Builds s b) id inner tag → Builds s b inner e' →
        e'.tag? = none → (∀ child ∈ e'.children, Serves split rs s b child) →
        Serves split rs s b inner →
        Visible rs e.tag? ∧ ∀ child ∈ e.children, Serves split rs s b child := by
      intro inner e' hc hb hnone hchildren hinner
      refine serves_of_carries htag hbuilds hc hinner ?_
      rintro rfl
      obtain rfl := heq hb
      exact ⟨hnone ▸ visible_none, hchildren⟩
    cases hp with
    | symbol hname hc =>
      refine serves_of_carries htag hbuilds hc (.phrase visible_none (.symbol hname rfl)) ?_
      rintro rfl
      exact absurd ⟨_, hname⟩ hbuilds.2
    | token ht hb hc =>
      exact hcarried hc hb rfl (by simp [Expr.children]) (.phrase visible_none (.token ht hb rfl))
    | pattern hp hb hc =>
      exact hcarried hc hb rfl (by simp [Expr.children]) (.phrase visible_none (.pattern hp hb rfl))
    | omitted hb hs hc =>
      exact hcarried hc hb rfl (by simpa [Expr.children] using .phrase visible_none hs)
        (.phrase visible_none (.omitted hb hs rfl))
    | lexical hb hs hc =>
      exact hcarried hc hb rfl (by simpa [Expr.children] using .phrase visible_none hs)
        (.phrase visible_none (.lexical hb hs rfl))
    | letters hids hb =>
      obtain rfl := heq hb
      refine ⟨htag, fun child hchild => ?_⟩
      obtain ⟨symbol, -, hletter⟩ := exists_of_forall₂_of_mem hids hchild
      exact .letter hletter
    | seq hb hs | alt hb hs =>
      obtain rfl := heq hb
      refine ⟨htag, fun child hchild => ?_⟩
      obtain ⟨p, -, hp⟩ := hs.exists_of_mem_ids hchild
      exact .phrase visible_none hp
    | repeated hb hs =>
      obtain rfl := heq hb
      exact ⟨htag, by simpa [Expr.children] using .phrase visible_none hs⟩

/-- What is built for the rules is **built in place** for them, perhaps by way of symbols. A slot
has got the expression of its body. -/
theorem Compiled.exists_builds [PatternReader] (h : Compiled split rs links s b g)
    (hserves : Serves split rs s b id) (he : g.expr? id = some e) :
    ∃ id', Serves split rs s b id' ∧ Builds s b id' e := by
  have hgrounded := h.grounded id e he
  induction hgrounded with
  | @built id hbuilt =>
    have hlt : id < b.slots.size := by
      rw [← h.size]
      exact (Array.getElem?_eq_some_iff.mp he).1
    obtain ⟨e', he'⟩ := h.tidy.built id hlt hbuilt
    obtain rfl : e = e' := Option.some.inj (he.symm.trans (h.expr id e' he'))
    exact ⟨id, hserves, he', hbuilt⟩
  | @link slot body hlink _ ih =>
    -- a slot holds the expression that was built for the body of its rule
    obtain ⟨r, hr, -, hbody⟩ := h.link _ hlink
    obtain ⟨e', hslot', hbody'⟩ := h.linked _ hlink
    obtain rfl : e = e' := Option.some.inj (he.symm.trans hslot')
    exact ih (.phrase (visible_tag? hr) hbody) hbody'

/-- What can be reached in a compiled grammar **is built for the rules**. This is an induction along
references: parts of a phrase serve, and symbols lead to rules. -/
theorem Compiled.serves_of_reaches [PatternReader] (h : Compiled split rs links s b g)
    {target : ExprId} (hreach : g.Reaches id target) (hid : Serves split rs s b id) :
    Serves split rs s b target := by
  refine hreach.of_closed (fun id e hserves he => ?_) hid
  obtain ⟨id', hserves, hbuilds⟩ := h.exists_builds hserves he
  exact (hserves.of_builds hbuilds).2

/-- What can be reached in a compiled grammar has **the tag of a visible rule or none**. No other
tags are ever given while rules are compiled. -/
theorem Compiled.visible_of_reaches [PatternReader] (h : Compiled split rs links s b g)
    {body : ExprId} (hlink : (g.start, body) ∈ links) (hreach : g.Reaches g.start id) :
    Visible rs (g.tag? id) := by
  obtain ⟨r, hr, hname, -⟩ := h.link _ hlink
  have hserves := h.serves_of_reaches hreach (.phrase visible_none (.symbol hname rfl))
  cases he : g.expr? id with
  | none => simp [Grammar.tag?, he, visible_none]
  | some e =>
    obtain ⟨id', hserves, hbuilds⟩ := h.exists_builds hserves he
    rw [Grammar.tag?_eq he]
    exact (hserves.of_builds hbuilds).1

end Compile

/-- The tag of a node is that of **the expression it is a result of**. -/
theorem Explains.tag? {g : Grammar} {w : List String} {L : Ledger} {node : NodeId}
    {kind : Forest.Kind} {goal : Goal} {stop : Nat} (h : Explains g w L node kind goal stop)
    {tag : String} (htag : kind.tag? = some tag) : g.tag? goal.expr = some tag := by
  cases h with
  | empty he | sequence he | repetition he | choice he =>
    obtain rfl : _ = some tag := htag
    exact Grammar.tag?_eq he
  | symbol | inner | omitted | lexical => cases htag

namespace Forest

open Machine

variable {g : Grammar} {w : List String} {f : Forest} {tag : String}

/-- A tag in a forest is the tag of something **that can be reached**. The machine has goals only
for what is reached. -/
theorem exists_reaches_of_hasTag (hg : g.Closed) (hf : parse g w = .ok f) (htag : f.HasTag tag) :
    ∃ id, g.Reaches g.start id ∧ g.tag? id = some tag := by
  obtain ⟨L, m, root, hm, rfl, -, -⟩ := exists_finished_of_parse hg hf
  obtain ⟨id, node, hnode, hkind⟩ := htag
  have hsound := hm.faithful.sound
  obtain ⟨memo, goal, stop, hn⟩ := hsound.node id node hnode
  have hsought := (hsound.sought hm.faithful.rooted hn.works).1
  exact ⟨goal.expr, hsought.reaches, hn.explained.tag? hkind⟩

end Forest

namespace Grammar

variable {split : Bool} {source : List Char} {g : Grammar} {w : List String} {f : Forest}

/-- Tags in a forest are **the names of visible rules**. -/
theorem exists_rule_of_hasTag [PatternReader] {tag : String} (h : compile split source = .ok g)
    (hf : Forest.parse g w = .ok f) (htag : f.HasTag tag) :
    ∃ rs, Dialect.rules source = .ok rs ∧ ∃ r ∈ rs, r.hidden = false ∧ r.name = tag := by
  obtain ⟨r, rest, links, s, b, body, hrules, hcompiled, hlink, -⟩ :=
    Compile.exists_compiled_of_compile h
  obtain ⟨id, hreach, hid⟩ := Forest.exists_reaches_of_hasTag hcompiled.closed hf htag
  exact ⟨r :: rest, hrules, hcompiled.visible_of_reaches hlink hreach tag hid⟩

end Grammar

end GeneralParsing
