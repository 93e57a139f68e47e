import GeneralParsing.Grammar.Basic
import Mathlib

/-!
# Derivations

`Grammar.Derives g id w` says that an expression derives a list of symbols: a terminal derives
one symbol that it accepts, a sequence what its children derive in order, a choice what one of its
children derives, a repetition what some admissible number of copies of its child derive in order,
and the two wrappers what their child derives.

A `Derivation` is the tree behind such a statement. `Derivation.Valid` checks it against a
grammar, and `derives_iff` says that an expression derives exactly the yields of the valid
derivations rooted in it.
-/

namespace GeneralParsing

/-! ### The relation -/

mutual

/-- An expression **derives** a list of symbols. -/
inductive Grammar.Derives (g : Grammar) : ExprId → List String → Prop
  /-- One symbol that a terminal accepts. -/
  | terminal {id : ExprId} {e : Expr} {symbol : String} (he : g.expr? id = some e)
      (ha : e.accepts symbol = true) : Derives g id [symbol]
  /-- What the children derive in order. -/
  | sequence {id : ExprId} {tag : Option String} {children : List ExprId} {w : List String}
      (he : g.expr? id = some (.seq tag children)) (h : DerivesAll g children w) : Derives g id w
  /-- What one of the children derives. -/
  | choice {id : ExprId} {tag : Option String} {children : List ExprId} {child : ExprId}
      {w : List String} (he : g.expr? id = some (.alt tag children)) (hc : child ∈ children)
      (h : Derives g child w) : Derives g id w
  /-- What an admissible number of copies of the child derive in order. -/
  | repetition {id : ExprId} {tag : Option String} {child : ExprId} {min : Nat}
      {max : Option Nat} {count : Nat} {w : List String}
      (he : g.expr? id = some (.rep tag child min max)) (hmin : min ≤ count)
      (hmax : ∀ m, max = some m → count ≤ m) (h : DerivesAll g (List.replicate count child) w) :
      Derives g id w
  /-- What the child derives. -/
  | omitted {id child : ExprId} {w : List String} (he : g.expr? id = some (.omitted child))
      (h : Derives g child w) : Derives g id w
  /-- What the child derives. -/
  | lexical {id child : ExprId} {w : List String} (he : g.expr? id = some (.lexical child))
      (h : Derives g child w) : Derives g id w

/-- Expressions derive a list of symbols **in order**. -/
inductive Grammar.DerivesAll (g : Grammar) : List ExprId → List String → Prop
  | nil : DerivesAll g [] []
  | cons {id : ExprId} {ids : List ExprId} {v w : List String} (h : Derives g id v)
      (hs : DerivesAll g ids w) : DerivesAll g (id :: ids) (v ++ w)

end

/-! ### Derivation trees -/

/-- A **derivation**: which expression was derived, and how. -/
inductive Derivation where
  /-- A symbol that a terminal accepts. -/
  | symbol (id : ExprId) (text : String)
  /-- The parts of a sequence, or the iterations of a repetition. -/
  | sequence (id : ExprId) (parts : List Derivation)
  /-- The alternative taken. -/
  | choice (id : ExprId) (part : Derivation)
  /-- What leaves no trace. -/
  | omitted (id : ExprId) (part : Derivation)
  /-- What is taken as one text. -/
  | lexical (id : ExprId) (part : Derivation)

namespace Derivation

/-- The expression that is **derived**. -/
def root : Derivation → ExprId
  | symbol id _ => id
  | sequence id _ => id
  | choice id _ => id
  | omitted id _ => id
  | lexical id _ => id

/-- The derivations it is **made of**. -/
def parts : Derivation → List Derivation
  | symbol _ _ => []
  | sequence _ parts => parts
  | choice _ part => [part]
  | omitted _ part => [part]
  | lexical _ part => [part]

/-- Induction over a derivation with a hypothesis for **every part**. -/
@[elab_as_elim]
theorem induct {motive : Derivation → Prop} (symbol : ∀ id text, motive (.symbol id text))
    (sequence : ∀ id parts, (∀ d ∈ parts, motive d) → motive (.sequence id parts))
    (choice : ∀ id part, motive part → motive (.choice id part))
    (omitted : ∀ id part, motive part → motive (.omitted id part))
    (lexical : ∀ id part, motive part → motive (.lexical id part)) (d : Derivation) : motive d :=
  @Derivation.rec motive (fun parts => ∀ d ∈ parts, motive d) symbol
    sequence choice omitted lexical (by simp)
    (fun _ _ hd hparts => List.forall_mem_cons.mpr ⟨hd, hparts⟩) d

/-- Induction over a derivation by way of **its parts**. -/
theorem induct_parts {motive : Derivation → Prop}
    (step : ∀ d, (∀ x ∈ d.parts, motive x) → motive d) (d : Derivation) : motive d := by
  induction d using Derivation.induct with
  | symbol id text => exact step _ (by simp [parts])
  | sequence id parts ih => exact step _ ih
  | choice id part ih | omitted id part ih | lexical id part ih =>
    exact step _ (by simpa [parts] using ih)

mutual

/-- The symbols **derived**. -/
def yield : Derivation → List String
  | symbol _ text => [text]
  | sequence _ parts => yieldAll parts
  | choice _ part => part.yield
  | omitted _ part => part.yield
  | lexical _ part => part.yield

/-- The symbols derived by parts in order. -/
def yieldAll : List Derivation → List String
  | [] => []
  | d :: ds => d.yield ++ yieldAll ds

end

theorem yieldAll_eq_flatMap (ds : List Derivation) : yieldAll ds = ds.flatMap yield := by
  induction ds with
  | nil => rfl
  | cons d ds ih => rw [yieldAll, ih, List.flatMap_cons]

@[simp] theorem yield_sequence (id : ExprId) (parts : List Derivation) :
    (sequence id parts).yield = parts.flatMap yield := yieldAll_eq_flatMap parts

/-- A derivation **by the rules** of a grammar. -/
inductive Valid (g : Grammar) : Derivation → Prop
  | symbol {id : ExprId} {e : Expr} {text : String} (he : g.expr? id = some e)
      (ha : e.accepts text = true) : Valid g (.symbol id text)
  | sequence {id : ExprId} {tag : Option String} {parts : List Derivation}
      (he : g.expr? id = some (.seq tag (parts.map root))) (hparts : ∀ d ∈ parts, Valid g d) :
      Valid g (.sequence id parts)
  | repetition {id : ExprId} {tag : Option String} {child : ExprId} {min : Nat}
      {max : Option Nat} {parts : List Derivation}
      (he : g.expr? id = some (.rep tag child min max)) (hroot : ∀ d ∈ parts, d.root = child)
      (hmin : min ≤ parts.length) (hmax : ∀ m, max = some m → parts.length ≤ m)
      (hparts : ∀ d ∈ parts, Valid g d) : Valid g (.sequence id parts)
  | choice {id : ExprId} {tag : Option String} {children : List ExprId} {part : Derivation}
      (he : g.expr? id = some (.alt tag children)) (hc : part.root ∈ children)
      (hpart : Valid g part) : Valid g (.choice id part)
  | omitted {id : ExprId} {part : Derivation} (he : g.expr? id = some (.omitted part.root))
      (hpart : Valid g part) : Valid g (.omitted id part)
  | lexical {id : ExprId} {part : Derivation} (he : g.expr? id = some (.lexical part.root))
      (hpart : Valid g part) : Valid g (.lexical id part)

variable {g : Grammar}

theorem Valid.of_mem_parts {d part : Derivation} (hd : d.Valid g) (hpart : part ∈ d.parts) :
    part.Valid g := by
  cases hd with
  | symbol => simp [parts] at hpart
  | sequence _ hparts => exact hparts part hpart
  | repetition _ _ _ _ hparts => exact hparts part hpart
  | choice _ _ h | omitted _ h | lexical _ h =>
    obtain rfl : part = _ := by simpa [parts] using hpart
    exact h

end Derivation

/-! ### Derivations are the trees of the relation -/

namespace Grammar

open GeneralParsing.Derivation

variable {g : Grammar}

/-- Parts that **derive in order**. -/
theorem derivesAll_of_parts {parts : List Derivation}
    (h : ∀ d ∈ parts, g.Derives d.root d.yield) :
    g.DerivesAll (parts.map root) (parts.flatMap yield) := by
  induction parts with
  | nil => exact .nil
  | cons d parts ih =>
    rw [List.map_cons, List.flatMap_cons]
    exact .cons (h d (by simp)) (ih fun e he => h e (by simp [he]))

theorem derives_of_valid {d : Derivation} (hd : d.Valid g) : g.Derives d.root d.yield := by
  induction hd with
  | symbol he ha => exact .terminal he ha
  | sequence he _ ih =>
    rw [yield_sequence]
    exact .sequence he (derivesAll_of_parts ih)
  | repetition he hroot hmin hmax _ ih =>
    have hall := derivesAll_of_parts ih
    rw [List.eq_replicate_of_mem (List.forall_mem_map.mpr hroot), List.length_map] at hall
    rw [yield_sequence]
    exact .repetition he hmin hmax hall
  | choice he hc _ ih => exact .choice he hc ih
  | omitted he _ ih => exact .omitted he ih
  | lexical he _ ih => exact .lexical he ih

mutual

/-- There is a **derivation** behind what an expression derives. That is what makes statements about
derivations statements about the language. -/
theorem Derives.exists_valid {id : ExprId} {w : List String} :
    g.Derives id w → ∃ d : Derivation, d.Valid g ∧ d.root = id ∧ d.yield = w
  | .terminal he ha => ⟨.symbol _ _, .symbol he ha, rfl, rfl⟩
  | .sequence he h => by
    obtain ⟨ds, hds, rfl, rfl⟩ := h.exists_valid
    exact ⟨.sequence id ds, .sequence he hds, rfl, yield_sequence id ds⟩
  | .choice he hc h => by
    obtain ⟨d, hd, rfl, rfl⟩ := h.exists_valid
    exact ⟨.choice id d, .choice he hc hd, rfl, rfl⟩
  | .repetition he hmin hmax h => by
    obtain ⟨ds, hds, hroots, rfl⟩ := h.exists_valid
    have hlen := congrArg List.length hroots
    rw [List.length_map, List.length_replicate] at hlen
    refine ⟨.sequence id ds, .repetition he (fun d hd => ?_) (hlen ▸ hmin) (hlen ▸ hmax) hds, rfl,
      yield_sequence id ds⟩
    exact List.eq_of_mem_replicate (hroots ▸ List.mem_map_of_mem hd)
  | .omitted he h => by
    obtain ⟨d, hd, rfl, rfl⟩ := h.exists_valid
    exact ⟨.omitted id d, .omitted he hd, rfl, rfl⟩
  | .lexical he h => by
    obtain ⟨d, hd, rfl, rfl⟩ := h.exists_valid
    exact ⟨.lexical id d, .lexical he hd, rfl, rfl⟩

/-- There are **derivations** behind what expressions derive in order. -/
theorem DerivesAll.exists_valid {ids : List ExprId} {w : List String} :
    g.DerivesAll ids w → ∃ ds : List Derivation, (∀ d ∈ ds, d.Valid g) ∧ ds.map root = ids ∧
      ds.flatMap yield = w
  | .nil => ⟨[], by simp, rfl, rfl⟩
  | .cons h hs => by
    obtain ⟨d, hd, rfl, rfl⟩ := h.exists_valid
    obtain ⟨ds, hds, rfl, rfl⟩ := hs.exists_valid
    exact ⟨d :: ds, List.forall_mem_cons.mpr ⟨hd, hds⟩, rfl, by simp⟩

end

/-- **An expression derives the yields of its valid derivations.** One may choose the side that is
easier to reason about: a relation, or a tree. -/
theorem derives_iff {id : ExprId} {w : List String} :
    g.Derives id w ↔ ∃ d : Derivation, d.Valid g ∧ d.root = id ∧ d.yield = w := by
  refine ⟨Derives.exists_valid, ?_⟩
  rintro ⟨d, hd, rfl, rfl⟩
  exact derives_of_valid hd

end Grammar

end GeneralParsing
