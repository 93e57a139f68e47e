import GeneralParsing.Proofs.Grammar.Session
import GeneralParsing.Proofs.Rules.Compile

/-!
# Compiling is a session

The compiler gives the builder only what the builder has handed out. It keeps the slots of symbols
and the expressions of literals in its scope, so `Scope.Handed` says that these have been handed
out, and each part of compiling is a session that keeps this and comes to an index that has been
handed out (`phrase_session`). So every grammar that is compiled from text is built in a session
(`Grammar.built_of_compile`).
-/

namespace GeneralParsing

open Builder

/-- Everything that a scope knows **has been handed out**. -/
structure Scope.Handed (s : Scope) (ids : List ExprId) : Prop where
  symbol : ∀ entry ∈ s.symbols, entry.slot ∈ ids
  literal : ∀ entry ∈ s.literals, entry.2 ∈ ids

theorem Scope.Handed.mono {s : Scope} {ids ids' : List ExprId} (h : s.Handed ids)
    (hids : ids ⊆ ids') : s.Handed ids' :=
  ⟨fun entry hentry => hids (h.symbol entry hentry),
    fun entry hentry => hids (h.literal entry hentry)⟩

namespace Compile

variable {split : Bool} {s s' : Scope} {b b' : Builder} {ids : List ExprId} {id inner : ExprId}
variable {tag : Option String} {name text : String}

variable [PatternReader]

/-- From what has been handed out, a **session** has led to a scope and a builder, and to these
indices. -/
def LeadsTo (ids : List ExprId) (b : Builder) (s' : Scope) (b' : Builder) (new : List ExprId) :
    Prop :=
  ∃ ids', Session ids b ids' b' ∧ s'.Handed ids' ∧ new ⊆ ids'

/-- One **operation** of the builder. -/
theorem leadsTo_build (c : Call) {x : Build ExprId} (hs : s.Handed ids) (hargs : c.args ⊆ ids)
    (hc : c.run = (return [← x])) (hx : x.run.run b = (.ok id, b')) : LeadsTo ids b s b' [id] := by
  have hrun : c.run.run.run b = (.ok [id], b') := by rw [hc, run_bind, hx]; rfl
  exact ⟨ids ++ [id], .one c hargs hrun, hs.mono (List.subset_append_left _ _),
    List.subset_append_right _ _⟩

theorem symbolSlot_session (hs : s.Handed ids) (hx : Comes (symbolSlot name) s b id s' b') :
    LeadsTo ids b s' b' [id] := by
  rcases hx.symbolSlot_inv with ⟨entry, hfind, rfl, rfl, rfl⟩ | ⟨-, hdeclare, rfl⟩
  · have hentry := hs.symbol entry (List.mem_of_find?_eq_some hfind)
    exact ⟨ids, .nil ids b', hs, by simpa using hentry⟩
  · obtain ⟨ids', hsession, hs', hnew⟩ :=
      leadsTo_build .declare hs (by simp [Call.args]) rfl hdeclare
    refine ⟨ids', hsession, ⟨fun entry hentry => ?_, hs'.literal⟩, hnew⟩
    rcases List.mem_append.mp hentry with hentry | hentry
    · exact hs'.symbol entry hentry
    · obtain rfl := List.mem_singleton.mp hentry
      exact hnew (List.mem_singleton_self _)

theorem carrying_session (hs : s.Handed ids) (hinner : inner ∈ ids)
    (hx : Comes (carrying tag inner) s b id s' b') : LeadsTo ids b s' b' [id] := by
  cases tag with
  | none =>
    obtain ⟨rfl, rfl, rfl⟩ := hx.pure_inv
    exact ⟨ids, .nil ids b', hs, by simpa using hinner⟩
  | some tag =>
    obtain ⟨rfl, hseq⟩ := hx.build_inv
    exact leadsTo_build (.seq [inner] (some tag)) hs (by simpa [Call.args] using hinner) rfl hseq

theorem literalToken_session (hs : s.Handed ids) (hx : Comes (literalToken text) s b id s' b') :
    LeadsTo ids b s' b' [id] := by
  rcases hx.literalToken_inv with ⟨hfind, rfl, rfl⟩ | ⟨-, htoken, rfl⟩
  · obtain ⟨before, after, hliterals, -⟩ := List.lookup_eq_some_iff.mp hfind
    have hentry := hs.literal (text, id) (by simp [hliterals])
    exact ⟨ids, .nil ids b', hs, by simpa using hentry⟩
  · obtain ⟨ids', hsession, hs', hnew⟩ :=
      leadsTo_build (.token text) hs (by simp [Call.args]) rfl htoken
    refine ⟨ids', hsession, ⟨hs'.symbol, fun entry hentry => ?_⟩, hnew⟩
    rcases List.mem_cons.mp hentry with rfl | hentry
    · exact hnew (List.mem_singleton_self _)
    · exact hs'.literal entry hentry

/-- Sessions **one after another**, of which the first comes to an index. -/
theorem LeadsTo.and_then {new : List ExprId} {b₁ : Builder} {s₁ : Scope} {first : List ExprId}
    (h : LeadsTo ids b s₁ b₁ first)
    (hnext : ∀ ids₁, s₁.Handed ids₁ → first ⊆ ids₁ → LeadsTo ids₁ b₁ s' b' new) :
    LeadsTo ids b s' b' new := by
  obtain ⟨ids₁, hsession₁, hs₁, hfirst⟩ := h
  obtain ⟨ids', hsession, hs', hnew⟩ := hnext ids₁ hs₁ hfirst
  exact ⟨ids', hsession₁.trans hsession, hs', hnew⟩

/-- A list is compiled **one by one**, each part being a session. Whatever was handed out before can
be used in each of them. -/
theorem mapM_session {α : Type} {f : α → Compile ExprId} {as : List α} {new : List ExprId}
    (hf : ∀ {a s s' b b' id ids}, Scope.Handed s ids → Comes (f a) s b id s' b' →
      LeadsTo ids b s' b' [id])
    (hs : s.Handed ids) (hx : Comes (as.mapM f) s b new s' b') : LeadsTo ids b s' b' new := by
  induction as generalizing s b ids new with
  | nil =>
    rw [List.mapM_nil] at hx
    obtain ⟨rfl, rfl, rfl⟩ := hx.pure_inv
    exact ⟨ids, .nil ids b', hs, List.nil_subset _⟩
  | cons a as ih =>
    rw [List.mapM_cons] at hx
    obtain ⟨id, s₁, b₁, ha, hx⟩ := hx.bind_inv
    obtain ⟨rest, s₂, b₂, has, hx⟩ := hx.bind_inv
    obtain ⟨rfl, rfl, rfl⟩ := hx.pure_inv
    refine (hf hs ha).and_then fun ids₁ hs₁ hid => ?_
    obtain ⟨ids', hsession, hs', hrest⟩ := ih hs₁ has
    have hid' : id ∈ ids' := hsession.subset (hid (List.mem_singleton_self id))
    exact ⟨ids', hsession, hs', List.cons_subset.mpr ⟨hid', hrest⟩⟩

theorem literal_session (hs : s.Handed ids) (hx : Comes (literal split tag text) s b id s' b') :
    LeadsTo ids b s' b' [id] := by
  rw [literal] at hx
  split at hx
  · obtain ⟨rfl, hseq⟩ := hx.build_inv
    exact leadsTo_build (.seq [] tag) hs (by simp [Call.args]) rfl hseq
  · split at hx
    · obtain ⟨letters, s₁, b₁, hletters, hx⟩ := hx.bind_inv
      obtain ⟨rfl, hseq⟩ := hx.build_inv
      exact (mapM_session literalToken_session hs hletters).and_then fun ids₁ hs₁ hnew =>
        leadsTo_build (.seq letters tag) hs₁ hnew rfl hseq
    · obtain ⟨inner, s₁, b₁, htoken, hx⟩ := hx.bind_inv
      exact (literalToken_session hs htoken).and_then fun ids₁ hs₁ hnew =>
        carrying_session hs₁ (hnew (List.mem_singleton_self inner)) hx

/-! ### Phrases and rules -/

mutual

/-- **Compiling a phrase is a session.** Every call that compiling makes to the builder is one that
anybody could make. -/
theorem phrase_session : ∀ (p : Phrase) {s s' : Scope} {b b' : Builder} {ids : List ExprId}
    {id : ExprId} {tag : Option String}, s.Handed ids → Comes (phrase split tag p) s b id s' b' →
    LeadsTo ids b s' b' [id]
  | .symbol name, s, s', b, b', ids, id, tag, hs, hx => by
    rw [phrase] at hx
    obtain ⟨slot, s₁, b₁, hslot, hx⟩ := hx.bind_inv
    exact (symbolSlot_session hs hslot).and_then fun ids₁ hs₁ hnew =>
      carrying_session hs₁ (hnew (List.mem_singleton_self slot)) hx
  | .literal text, s, s', b, b', ids, id, tag, hs, hx => by
    rw [phrase] at hx
    exact literal_session hs hx
  | .pattern source, s, s', b, b', ids, id, tag, hs, hx => by
    rw [phrase] at hx
    obtain ⟨inner, b₁, hpattern, hx⟩ := hx.build_bind_inv
    exact (leadsTo_build (.pattern source) hs (by simp [Call.args]) rfl hpattern).and_then
      fun ids₁ hs₁ hnew => carrying_session hs₁ (hnew (List.mem_singleton_self inner)) hx
  | .seq parts, s, s', b, b', ids, id, tag, hs, hx => by
    rw [phrase] at hx
    obtain ⟨children, s₁, b₁, hchildren, hx⟩ := hx.bind_inv
    obtain ⟨rfl, hseq⟩ := hx.build_inv
    exact (phrases_session parts hs hchildren).and_then fun ids₁ hs₁ hnew =>
      leadsTo_build (.seq children tag) hs₁ hnew rfl hseq
  | .alt parts, s, s', b, b', ids, id, tag, hs, hx => by
    rw [phrase] at hx
    obtain ⟨children, s₁, b₁, hchildren, hx⟩ := hx.bind_inv
    obtain ⟨rfl, halt⟩ := hx.build_inv
    exact (phrases_session parts hs hchildren).and_then fun ids₁ hs₁ hnew =>
      leadsTo_build (.alt children tag) hs₁ hnew rfl halt
  | .repeated part quantifier, s, s', b, b', ids, id, tag, hs, hx => by
    rw [phrase] at hx
    obtain ⟨child, s₁, b₁, hchild, hx⟩ := hx.bind_inv
    obtain ⟨rfl, hrep⟩ := hx.build_inv
    exact (phrase_session part hs hchild).and_then fun ids₁ hs₁ hnew =>
      leadsTo_build (.rep child tag quantifier.bounds.1 quantifier.bounds.2) hs₁ hnew rfl hrep
  | .omitted part, s, s', b, b', ids, id, tag, hs, hx => by
    rw [phrase] at hx
    -- first the phrase inside, then the call for it, then perhaps one for the tag
    obtain ⟨child, s₁, b₁, hchild, hx⟩ := hx.bind_inv
    obtain ⟨inner, b₂, homitted, hx⟩ := hx.build_bind_inv
    exact (phrase_session part hs hchild).and_then fun ids₁ hs₁ hnew =>
      (leadsTo_build (.omitted child) hs₁ hnew rfl homitted).and_then fun ids₂ hs₂ hnew =>
        carrying_session hs₂ (hnew (List.mem_singleton_self inner)) hx
  | .lexical part, s, s', b, b', ids, id, tag, hs, hx => by
    rw [phrase] at hx
    obtain ⟨child, s₁, b₁, hchild, hx⟩ := hx.bind_inv
    obtain ⟨inner, b₂, hlexical, hx⟩ := hx.build_bind_inv
    exact (phrase_session part hs hchild).and_then fun ids₁ hs₁ hnew =>
      (leadsTo_build (.lexical child) hs₁ hnew rfl hlexical).and_then fun ids₂ hs₂ hnew =>
        carrying_session hs₂ (hnew (List.mem_singleton_self inner)) hx

theorem phrases_session : ∀ (ps : List Phrase) {s s' : Scope} {b b' : Builder}
    {ids new : List ExprId}, s.Handed ids → Comes (phrases split ps) s b new s' b' →
    LeadsTo ids b s' b' new
  | [], s, s', b, b', ids, new, hs, hx => by
    rw [phrases] at hx
    obtain ⟨rfl, rfl, rfl⟩ := hx.pure_inv
    exact ⟨ids, .nil ids b', hs, List.nil_subset _⟩
  | p :: ps, s, s', b, b', ids, new, hs, hx => by
    rw [phrases] at hx
    obtain ⟨id, s₁, b₁, hp, hx⟩ := hx.bind_inv
    obtain ⟨rest, s₂, b₂, hps, hx⟩ := hx.bind_inv
    obtain ⟨rfl, rfl, rfl⟩ := hx.pure_inv
    refine (phrase_session p hs hp).and_then fun ids₁ hs₁ hid => ?_
    obtain ⟨ids', hsession, hs', hrest⟩ := phrases_session ps hs₁ hps
    have hid' : id ∈ ids' := hsession.subset (hid (List.mem_singleton_self id))
    exact ⟨ids', hsession, hs', List.cons_subset.mpr ⟨hid', hrest⟩⟩

end

omit [PatternReader] in
/-- Noting that a symbol has a rule **hands out nothing**. -/
theorem markDefined_handed {u : Unit} (hs : s.Handed ids)
    (hx : Comes (markDefined name) s b u s' b') : s'.Handed ids ∧ b' = b := by
  rw [markDefined] at hx
  replace hx := hx.get_bind_inv
  split at hx
  · obtain ⟨rfl, rfl⟩ := hx.modify_inv
    refine ⟨⟨fun entry hentry => ?_, hs.literal⟩, rfl⟩
    obtain ⟨old, hold, rfl⟩ := List.mem_map.mp hentry
    have hslot := hs.symbol old hold
    split <;> exact hslot
  · exact absurd hx not_comes_throw

theorem rule_session {r : Rule} (hs : s.Handed ids) (hx : Comes (rule split r) s b id s' b') :
    LeadsTo ids b s' b' [id] := by
  rw [rule] at hx
  split at hx
  · exact absurd hx not_comes_throw
  rw [defineRule] at hx
  obtain ⟨slot, s₁, b₁, hslot, hx⟩ := hx.bind_inv
  obtain ⟨u, s₂, b₂, hmark, hx⟩ := hx.bind_inv
  obtain ⟨body, s₃, b₃, hbody, hx⟩ := hx.bind_inv
  obtain ⟨u, b₄, hdefine, hx⟩ := hx.build_bind_inv
  obtain ⟨rfl, rfl, rfl⟩ := hx.pure_inv
  refine (symbolSlot_session hs hslot).and_then fun ids₁ hs₁ hnew₁ => ?_
  obtain ⟨hs₂, rfl⟩ := markDefined_handed hs₁ hmark
  obtain ⟨ids₂, hsession, hs₃, hnew₂⟩ := phrase_session r.body hs₂ hbody
  have hslot : id ∈ ids₂ := hsession.subset (hnew₁ (List.mem_singleton_self id))
  have hargs : (Call.define id body).args ⊆ ids₂ := by
    simpa [Call.args] using ⟨hslot, hnew₂ (List.mem_singleton_self body)⟩
  have hrun : (Call.define id body).run.run.run b₃ = (.ok [], b') := by
    rw [Call.run, run_bind, hdefine]
    rfl
  have hlast := Session.one (.define id body) hargs hrun
  rw [List.append_nil] at hlast
  exact ⟨ids₂, hsession.trans hlast, hs₃, by simpa using hslot⟩

/-- **Compiling rules is a session** that hands out the start. So what holds of all sessions holds
of the compiler. -/
theorem rules_session {rs : List Rule} (hx : Comes (rules split rs) {} {} id s b) :
    ∃ ids, Session [] {} ids b ∧ id ∈ ids := by
  rw [rules] at hx
  obtain ⟨slots, s₁, b₁, hslots, hx⟩ := hx.bind_inv
  have hempty : Scope.Handed {} [] := ⟨by simp, by simp⟩
  obtain ⟨ids, hsession, -, hnew⟩ := mapM_session rule_session hempty hslots
  cases slots with
  | nil => exact absurd hx not_comes_throw
  | cons start slots =>
    replace hx := hx.get_bind_inv
    split at hx
    · obtain ⟨rfl, rfl, rfl⟩ := hx.pure_inv
      exact ⟨ids, hsession, hnew List.mem_cons_self⟩
    · exact absurd hx not_comes_throw

end Compile

namespace Grammar

open Compile

theorem built_of_ofRules [PatternReader] {split : Bool} {rs : List Rule} {g : Grammar}
    (h : ofRules split rs = .ok g) : g.Built := by
  rw [ofRules] at h
  split at h
  next start b hrun =>
    obtain ⟨s, hcomes⟩ := exists_comes_of_run' hrun
    obtain ⟨ids, hsession, hstart⟩ := rules_session hcomes
    obtain ⟨rfl, -⟩ := settled_of_finish h
    exact ⟨ids, b, hsession, hstart, h⟩
  next => cases h

/-- **Every compiled grammar is built** in a session. Its references lead to expressions of the
grammar, for instance. -/
theorem built_of_compile [PatternReader] {split : Bool} {source : List Char} {g : Grammar}
    (h : compile split source = .ok g) : g.Built := by
  obtain ⟨rs, -, h⟩ := exists_rules_of_compile h
  exact built_of_ofRules h

end Grammar

end GeneralParsing
