import GeneralParsing.Proofs.Grammar.Settling
import GeneralParsing.Proofs.Rules.Meaning
import GeneralParsing.Rules.Compile
import Mathlib

/-!
# What compiling builds

While rules are compiled, an index stands for a symbol, a slot that was declared for it, or for an
expression that was built in place. `Implements` says by which expressions a phrase is built: it
looks through the sequence of one that carries a tag, and stops at symbols. It never looks into
the slot of a symbol, so it is all the same whether that slot has been filled yet.

Compiling a phrase leaves an expression that implements it (`phrase_spec`), and compiling rules
leaves, for each rule, a link from the slot of its name to an expression that implements its body,
and no other links (`rules_spec`).
-/

namespace GeneralParsing

/-- A name **stands for** a slot. -/
def Scope.Names (s : Scope) (name : String) (slot : ExprId) : Prop :=
  ∃ entry ∈ s.symbols, entry.name = name ∧ entry.slot = slot

/-- A slot that was **declared** for a symbol. -/
def Scope.Declares (s : Scope) (slot : ExprId) : Prop := ∃ name, s.Names name slot

/-! ### Expressions that implement a phrase -/

section

variable [PatternReader] (names : String → ExprId → Prop) (builds : ExprId → Expr → Prop)

/-- An index stands for an expression, or, where there is a tag, for **a sequence of it alone** with
the tag. -/
def Carries (id inner : ExprId) : Option String → Prop
  | none => id = inner
  | some tag => builds id (.seq (some tag) [inner])

mutual

/-- An index **implements** a phrase with a tag, by way of slots that names stand for and
expressions that were built. -/
inductive Implements (split : Bool) : Option String → Phrase → ExprId → Prop
  | symbol {tag : Option String} {name : String} {slot id : ExprId} (hname : names name slot)
      (hc : Carries builds id slot tag) : Implements split tag (.symbol name) id
  | token {tag : Option String} {text : String} {inner id : ExprId}
      (ht : literalSymbols split text = [text]) (hb : builds inner (.token text))
      (hc : Carries builds id inner tag) : Implements split tag (.literal text) id
  | letters {tag : Option String} {text : String} {ids : List ExprId} {id : ExprId}
      (hids : List.Forall₂ (fun id symbol => builds id (.token symbol)) ids
        (literalSymbols split text))
      (hb : builds id (.seq tag ids)) : Implements split tag (.literal text) id
  | pattern {tag : Option String} {source : String} {p : Pattern} {inner id : ExprId}
      (hp : Pattern.read source = .ok p) (hb : builds inner (.pattern p))
      (hc : Carries builds id inner tag) : Implements split tag (.pattern source) id
  | seq {tag : Option String} {parts : List Phrase} {ids : List ExprId} {id : ExprId}
      (hb : builds id (.seq tag ids)) (h : ImplementsAll split parts ids) :
      Implements split tag (.seq parts) id
  | alt {tag : Option String} {parts : List Phrase} {ids : List ExprId} {id : ExprId}
      (hb : builds id (.alt tag ids)) (h : ImplementsAll split parts ids) :
      Implements split tag (.alt parts) id
  | repeated {tag : Option String} {part : Phrase} {quantifier : Quantifier} {child id : ExprId}
      (hb : builds id (.rep tag child quantifier.bounds.1 quantifier.bounds.2))
      (h : Implements split none part child) : Implements split tag (.repeated part quantifier) id
  | omitted {tag : Option String} {part : Phrase} {child inner id : ExprId}
      (hb : builds inner (.omitted child)) (h : Implements split none part child)
      (hc : Carries builds id inner tag) : Implements split tag (.omitted part) id
  | lexical {tag : Option String} {part : Phrase} {child inner id : ExprId}
      (hb : builds inner (.lexical child)) (h : Implements split none part child)
      (hc : Carries builds id inner tag) : Implements split tag (.lexical part) id

/-- Indices implement phrases **in order**, without tags. -/
inductive ImplementsAll (split : Bool) : List Phrase → List ExprId → Prop
  | nil : ImplementsAll split [] []
  | cons {part : Phrase} {parts : List Phrase} {id : ExprId} {ids : List ExprId}
      (h : Implements split none part id) (hs : ImplementsAll split parts ids) :
      ImplementsAll split (part :: parts) (id :: ids)

end

end

section

variable {names names' : String → ExprId → Prop} {builds builds' : ExprId → Expr → Prop}
variable {split : Bool} {tag : Option String} {p : Phrase} {ps : List Phrase}
variable {id inner : ExprId} {ids : List ExprId}

/-- What carries a tag goes on to **as more is built**. -/
theorem Carries.mono (hbuilds : ∀ id e, builds id e → builds' id e)
    (h : Carries builds id inner tag) : Carries builds' id inner tag := by
  cases tag with
  | none => exact h
  | some tag => exact hbuilds _ _ h

variable [PatternReader]

mutual

/-- What implements a phrase **goes on to** as more is named and built. -/
theorem Implements.mono (hnames : ∀ name slot, names name slot → names' name slot)
    (hbuilds : ∀ id e, builds id e → builds' id e) {tag : Option String} {p : Phrase}
    {id : ExprId} :
    Implements names builds split tag p id → Implements names' builds' split tag p id
  | .symbol hname hc => .symbol (hnames _ _ hname) (hc.mono hbuilds)
  | .token ht hb hc => .token ht (hbuilds _ _ hb) (hc.mono hbuilds)
  | .letters hids hb => .letters (hids.imp fun _ _ => hbuilds _ _) (hbuilds _ _ hb)
  | .pattern hp hb hc => .pattern hp (hbuilds _ _ hb) (hc.mono hbuilds)
  | .seq hb h => .seq (hbuilds _ _ hb) (h.mono hnames hbuilds)
  | .alt hb h => .alt (hbuilds _ _ hb) (h.mono hnames hbuilds)
  | .repeated hb h => .repeated (hbuilds _ _ hb) (h.mono hnames hbuilds)
  | .omitted hb h hc => .omitted (hbuilds _ _ hb) (h.mono hnames hbuilds) (hc.mono hbuilds)
  | .lexical hb h hc => .lexical (hbuilds _ _ hb) (h.mono hnames hbuilds) (hc.mono hbuilds)

/-- What implements phrases goes on to **as more is named and built**. -/
theorem ImplementsAll.mono (hnames : ∀ name slot, names name slot → names' name slot)
    (hbuilds : ∀ id e, builds id e → builds' id e) {ps : List Phrase} {ids : List ExprId} :
    ImplementsAll names builds split ps ids → ImplementsAll names' builds' split ps ids
  | .nil => .nil
  | .cons h hs => .cons (h.mono hnames hbuilds) (hs.mono hnames hbuilds)

end

/-- What implements a phrase **is there**: the slot of a symbol, or an expression that was built. -/
theorem Implements.names_or_builds (h : Implements names builds split tag p id) :
    (∃ name, names name id) ∨ ∃ e, builds id e := by
  have hcarries : ∀ {inner : ExprId}, ((∃ name, names name inner) ∨ ∃ e, builds inner e) →
      Carries builds id inner tag → (∃ name, names name id) ∨ ∃ e, builds id e := by
    intro inner hinner hc
    cases tag with
    | none =>
      obtain rfl : id = inner := hc
      exact hinner
    | some tag => exact .inr ⟨_, hc⟩
  cases h with
  | symbol hname hc => exact hcarries (.inl ⟨_, hname⟩) hc
  | token _ hb hc | pattern _ hb hc | omitted hb _ hc | lexical hb _ hc =>
    exact hcarries (.inr ⟨_, hb⟩) hc
  | letters _ hb | seq hb | alt hb | repeated hb => exact .inr ⟨_, hb⟩

/-- Each phrase is implemented **by one of the indices**. The indices are in the order of the
phrases, so it is the one at its place. -/
theorem ImplementsAll.exists_of_mem (h : ImplementsAll names builds split ps ids) (hp : p ∈ ps) :
    ∃ id ∈ ids, Implements names builds split none p id := by
  induction ps generalizing ids with
  | nil => simp at hp
  | cons q ps ih =>
    cases h with
    | @cons _ _ id ids hq hps =>
      rcases List.mem_cons.mp hp with rfl | hp
      · exact ⟨id, List.mem_cons_self, hq⟩
      · obtain ⟨id', hid', hp'⟩ := ih hps hp
        exact ⟨id', List.mem_cons_of_mem _ hid', hp'⟩

/-- Each index implements **one of the phrases**. -/
theorem ImplementsAll.exists_of_mem_ids (h : ImplementsAll names builds split ps ids)
    (hid : id ∈ ids) : ∃ p ∈ ps, Implements names builds split none p id := by
  induction ids generalizing ps with
  | nil => simp at hid
  | cons id' ids ih =>
    cases h with
    | @cons p ps _ _ hq hps =>
      rcases List.mem_cons.mp hid with rfl | hid
      · exact ⟨p, List.mem_cons_self, hq⟩
      · obtain ⟨p', hp', h'⟩ := ih hps hid
        exact ⟨p', List.mem_cons_of_mem _ hp', h'⟩

/-- What implements a phrase implements it **as often as it is repeated**. -/
theorem Implements.replicate (h : Implements names builds split none p id) (count : Nat) :
    ImplementsAll names builds split (List.replicate count p) (List.replicate count id) := by
  induction count with
  | zero => exact .nil
  | succ count ih => exact .cons h ih

end

namespace Compile

/-! ### Runs of the compiler -/

/-- A part of compiling **comes to** a value, from a scope and a builder to others. -/
def Comes {α : Type} (x : Compile α) (s : Scope) (b : Builder) (a : α) (s' : Scope) (b' : Builder) :
    Prop :=
  (x.run s).run.run b = (.ok (a, s'), b')

section

variable {α β : Type} {s s' : Scope} {b b' : Builder} {a : α}

/-- A run goes on **where the part before it ends**. -/
theorem bind_run (x : Compile α) (k : α → Compile β) (s : Scope) (b : Builder) :
    ((x >>= k).run s).run.run b = match (x.run s).run.run b with
      | (.ok (a, s'), b') => ((k a).run s').run.run b'
      | (.error e, b') => (.error e, b') := by
  cases hx : (x.run s).run.run b with
  | mk result b' =>
    simp only [StateT.run_bind, ExceptT.run_bind, hx]
    cases result <;> rfl

/-- An operation of the builder **leaves the scope alone**. -/
theorem build_run (x : Build α) (s : Scope) (b : Builder) :
    ((liftM x : Compile α).run s).run.run b = match x.run.run b with
      | (.ok a, b') => (.ok (a, s), b')
      | (.error e, b') => (.error e, b') := by
  cases hx : x.run.run b with
  | mk result b' =>
    simp [hx]
    cases result <;> rfl

/-- A run that **does not tell** its last scope. -/
theorem run'_run (x : Compile α) (s : Scope) (b : Builder) :
    (x.run' s).run.run b = match (x.run s).run.run b with
      | (.ok (a, _), b') => (.ok a, b')
      | (.error e, b') => (.error e, b') := by
  change (ExceptT.run (Prod.fst <$> x.run s)).run b = _
  cases hx : (x.run s).run.run b with
  | mk result b' =>
    simp [hx]
    cases result <;> rfl

/-- A run that does nothing comes to **its value**, with scope and builder as they were. -/
theorem Comes.pure_inv {a' : α} (h : Comes (pure a) s b a' s' b') : a' = a ∧ s' = s ∧ b' = b := by
  cases h
  exact ⟨rfl, rfl, rfl⟩

/-- A run in two parts **comes by way of** a value, a scope and a builder in between. All
specifications below take a compiler's program apart by this. -/
theorem Comes.bind_inv {x : Compile α} {k : α → Compile β} {c : β} {s'' : Scope} {b'' : Builder}
    (h : Comes (x >>= k) s b c s'' b'') :
    ∃ a s' b', Comes x s b a s' b' ∧ Comes (k a) s' b' c s'' b'' := by
  rw [Comes, bind_run] at h
  split at h
  · next a s' b' hx => exact ⟨a, s', b', hx, h⟩
  · cases h

theorem Comes.modify_inv {f : Scope → Scope} {u : Unit} (h : Comes (modify f) s b u s' b') :
    s' = f s ∧ b' = b := by
  cases h
  exact ⟨rfl, rfl⟩

/-- A run that throws **comes to nothing**. -/
theorem not_comes_throw {e : Error} : ¬ Comes (throw e : Compile α) s b a s' b' := by
  intro h
  cases h

/-- Of a builder's operation the scope **is left alone**. -/
theorem Comes.build_inv {x : Build α} (h : Comes (liftM x) s b a s' b') :
    s' = s ∧ x.run.run b = (.ok a, b') := by
  rw [Comes, build_run] at h
  split at h
  · next hx =>
    cases h
    exact ⟨rfl, hx⟩
  · cases h

/-- A run that begins with a call to the builder leaves **the scope as it is** during the call. It
is the form in which most parts of the compiler begin. -/
theorem Comes.build_bind_inv {x : Build α} {k : α → Compile β} {c : β}
    (h : Comes (liftM x >>= k) s b c s' b') :
    ∃ a b₁, x.run.run b = (.ok a, b₁) ∧ Comes (k a) s b₁ c s' b' := by
  obtain ⟨a, s₁, b₁, hx, hk⟩ := h.bind_inv
  obtain ⟨rfl, hrun⟩ := hx.build_inv
  exact ⟨a, b₁, hrun, hk⟩

theorem Comes.get_bind_inv {k : Scope → Compile β} {c : β} (h : Comes (get >>= k) s b c s' b') :
    Comes (k s) s b c s' b' := by
  obtain ⟨s₀, s₁, b₁, hget, h⟩ := h.bind_inv
  cases hget
  exact h

theorem Comes.modify_bind_inv {f : Scope → Scope} {k : Unit → Compile β} {c : β}
    (h : Comes (modify f >>= k) s b c s' b') : Comes (k ()) (f s) b c s' b' := by
  obtain ⟨u, s₁, b₁, hmodify, hk⟩ := h.bind_inv
  obtain ⟨rfl, rfl⟩ := hmodify.modify_inv
  exact hk

/-- A run that does not tell its last scope **comes to** its value in some scope. -/
theorem exists_comes_of_run' {x : Compile α} (h : (x.run' s).run.run b = (.ok a, b')) :
    ∃ s', Comes x s b a s' b' := by
  rw [run'_run] at h
  split at h
  · next a' s' b₁ hx =>
    cases h
    exact ⟨s', hx⟩
  · cases h

/-- A name that has been met **keeps its slot**. For another one a slot is declared, and the name
has been met from then on. -/
theorem Comes.symbolSlot_inv {name : String} {id : ExprId}
    (hx : Comes (symbolSlot name) s b id s' b') :
    (∃ entry, s.symbols.find? (·.name = name) = some entry ∧ entry.slot = id ∧ s' = s ∧ b' = b) ∨
      s.symbols.find? (·.name = name) = none ∧ Builder.declare.run.run b = (.ok id, b') ∧
        s' = { s with symbols := s.symbols ++ [⟨name, id, false⟩] } := by
  rw [symbolSlot] at hx
  replace hx := hx.get_bind_inv
  cases hfind : s.symbols.find? (·.name = name) with
  | some entry =>
    rw [hfind] at hx
    obtain ⟨rfl, rfl, rfl⟩ := hx.pure_inv
    exact .inl ⟨entry, rfl, rfl, rfl, rfl⟩
  | none =>
    rw [hfind] at hx
    obtain ⟨slot, b₁, hdeclare, hx⟩ := hx.build_bind_inv
    obtain ⟨rfl, rfl, rfl⟩ := hx.modify_bind_inv.pure_inv
    exact .inr ⟨rfl, hdeclare, rfl⟩

/-- A literal that has been met **keeps its expression**. For another one a token is built, which
stands for the literal from then on. -/
theorem Comes.literalToken_inv {text : String} {id : ExprId}
    (hx : Comes (literalToken text) s b id s' b') :
    s.literals.lookup text = some id ∧ s' = s ∧ b' = b ∨
      s.literals.lookup text = none ∧ (Builder.token text).run.run b = (.ok id, b') ∧
        s' = { s with literals := (text, id) :: s.literals } := by
  rw [literalToken] at hx
  replace hx := hx.get_bind_inv
  cases hfind : s.literals.lookup text with
  | some known =>
    rw [hfind] at hx
    obtain ⟨rfl, rfl, rfl⟩ := hx.pure_inv
    exact .inl ⟨rfl, rfl, rfl⟩
  | none =>
    rw [hfind] at hx
    obtain ⟨new, b₁, htoken, hx⟩ := hx.build_bind_inv
    obtain ⟨rfl, rfl, rfl⟩ := hx.modify_bind_inv.pure_inv
    exact .inr ⟨rfl, htoken, rfl⟩

end

/-! ### The state of the compiler -/

/-- An expression that was **built in place**: its slot is not that of a symbol. -/
def Builds (s : Scope) (b : Builder) (id : ExprId) (e : Expr) : Prop :=
  b.slots[id]? = some (some e) ∧ ¬ s.Declares id

/-- What holds **all the time** while rules are compiled, where the definitions so far have linked
slots to bodies. -/
structure Tidy (links : List (ExprId × ExprId)) (s : Scope) (b : Builder) : Prop where
  slot_lt : ∀ name slot, s.Names name slot → slot < b.slots.size
  name_unique : ∀ name name' slot, s.Names name slot → s.Names name' slot → name = name'
  slot_unique : ∀ name slot slot', s.Names name slot → s.Names name slot' → slot = slot'
  literal : ∀ text id, (text, id) ∈ s.literals → Builds s b id (.token text)
  built : ∀ id < b.slots.size, ¬ s.Declares id → ∃ e, b.slots[id]? = some (some e)
  child_lt : ∀ (id : ExprId) e, b.slots[id]? = some (some e) →
    ∀ child ∈ e.children, child < b.slots.size
  linked : Builder.Linked s.Declares links b.slots b.aliases

/-- Compiling goes on **without taking anything back**. -/
structure Grows (s : Scope) (b : Builder) (s' : Scope) (b' : Builder) : Prop where
  names : ∀ name slot, s.Names name slot → s'.Names name slot
  declares : ∀ id < b.slots.size, s'.Declares id → s.Declares id
  filled : ∀ (id : ExprId) e, b.slots[id]? = some (some e) → b'.slots[id]? = some (some e)
  size : b.slots.size ≤ b'.slots.size

section

variable {links : List (ExprId × ExprId)} {s s' s'' : Scope} {b b' b'' : Builder}
variable {id inner : ExprId} {ids : List ExprId} {e : Expr} {split : Bool} {p : Phrase}
variable {ps : List Phrase} {tag : Option String} {name text : String}

/-- What was built has **its slot** among those of the builder. -/
theorem Builds.lt (h : Builds s b id e) : id < b.slots.size :=
  (Array.getElem?_eq_some_iff.mp h.1).1

theorem Grows.refl (s : Scope) (b : Builder) : Grows s b s b :=
  ⟨fun _ _ h => h, fun _ _ h => h, fun _ _ h => h, Nat.le_refl _⟩

/-- Going on **goes on**. -/
theorem Grows.trans (h : Grows s b s' b') (h' : Grows s' b' s'' b'') : Grows s b s'' b'' where
  names name slot hname := h'.names name slot (h.names name slot hname)
  declares id hlt hd := h.declares id hlt (h'.declares id (Nat.lt_of_lt_of_le hlt h.size) hd)
  filled id e he := h'.filled id e (h.filled id e he)
  size := Nat.le_trans h.size h'.size

/-- What was built in place **stays in its place**. -/
theorem Grows.builds (h : Grows s b s' b') (id : ExprId) (e : Expr) (hb : Builds s b id e) :
    Builds s' b' id e :=
  ⟨h.filled id e hb.1, fun hd => hb.2 (h.declares id hb.lt hd)⟩

/-- What implements a phrase **goes on to** while compiling goes on. -/
theorem Grows.implements [PatternReader] (h : Grows s b s' b')
    (hp : Implements s.Names (Builds s b) split tag p id) :
    Implements s'.Names (Builds s' b') split tag p id :=
  hp.mono h.names h.builds

/-- Whatever implements a phrase has **a slot of the builder**. So whatever is put around it refers
to something that is there. -/
theorem Tidy.implements_lt [PatternReader] (h : Tidy links s b)
    (hp : Implements s.Names (Builds s b) split tag p id) : id < b.slots.size := by
  rcases hp.names_or_builds with ⟨name, hname⟩ | ⟨e, hb⟩
  · exact h.slot_lt name id hname
  · exact hb.lt

theorem Tidy.implementsAll_lt [PatternReader] (h : Tidy links s b)
    (hps : ImplementsAll s.Names (Builds s b) split ps ids) : ∀ id ∈ ids, id < b.slots.size := by
  intro id hid
  obtain ⟨p, -, hp⟩ := hps.exists_of_mem_ids hid
  exact h.implements_lt hp

/-- The slot of a symbol implements **nothing but the symbol**, without a tag. Nothing else is ever
put into a slot that was declared for a name. -/
theorem Tidy.eq_symbol [PatternReader] (h : Tidy links s b)
    (hp : Implements s.Names (Builds s b) split tag p id)
    (hname : s.Names name id) : tag = none ∧ p = .symbol name := by
  have hbuilds : ∀ {e}, ¬ Builds s b id e := fun hb => hb.2 ⟨name, hname⟩
  have hcarries : ∀ {inner}, Carries (Builds s b) id inner tag → tag = none ∧ id = inner := by
    intro inner hc
    cases tag with
    | none => exact ⟨rfl, hc⟩
    | some tag => exact absurd hc hbuilds
  cases hp with
  | symbol hname' hc =>
    obtain ⟨rfl, rfl⟩ := hcarries hc
    exact ⟨rfl, by rw [h.name_unique _ _ id hname' hname]⟩
  | token _ hb hc | pattern _ hb hc | omitted hb _ hc | lexical hb _ hc =>
    obtain ⟨rfl, rfl⟩ := hcarries hc
    exact absurd hb hbuilds
  | letters _ hb | seq hb | alt hb | repeated hb => exact absurd hb hbuilds

/-! ### Single expressions -/

/-- Adding an expression that refers to what is there **builds** it. -/
theorem Tidy.add (h : Tidy links s b) (hc : ∀ child ∈ e.children, child < b.slots.size)
    (hx : (Builder.add e).run.run b = (.ok id, b')) :
    Tidy links s b' ∧ Grows s b s b' ∧ Builds s b' id e := by
  have hnew : ¬ s.Declares b.slots.size := fun ⟨name, hname⟩ =>
    absurd (h.slot_lt name _ hname) (Nat.lt_irrefl _)
  cases hx
  have hgrows : Grows s b s { b with slots := b.slots.push (some e) } :=
    ⟨fun _ _ h => h, fun _ _ h => h, fun _ _ => getElem?_push_of_some,
      by rw [Array.size_push]; exact Nat.le_succ _⟩
  refine ⟨?_, hgrows, Array.getElem?_push_size, hnew⟩
  constructor
  · exact fun name slot hname => Nat.lt_of_lt_of_le (h.slot_lt name slot hname) hgrows.size
  · exact h.name_unique
  · exact h.slot_unique
  · exact fun text id hmem => hgrows.builds id _ (h.literal text id hmem)
  · intro id hlt hd
    rcases Nat.lt_succ_iff_lt_or_eq.mp (Array.size_push _ ▸ hlt) with hlt | rfl
    · exact (h.built id hlt hd).imp fun e' he => hgrows.filled id e' he
    · exact ⟨e, Array.getElem?_push_size⟩
  · intro id e' he child hchild
    refine Nat.lt_of_lt_of_le ?_ hgrows.size
    rcases getElem?_push_eq_some he with ⟨-, heq⟩ | he
    · exact hc child (Option.some.inj heq ▸ hchild)
    · exact h.child_lt id e' he child hchild
  · exact h.linked.push_some hnew

/-- The slot of a symbol that is met **for the first time** is declared. -/
theorem Tidy.declare (h : Tidy links s b) (hname : ∀ slot, ¬ s.Names name slot)
    (hx : Builder.declare.run.run b = (.ok id, b')) :
    Tidy links { s with symbols := s.symbols ++ [⟨name, id, false⟩] } b' ∧
      Grows s b { s with symbols := s.symbols ++ [⟨name, id, false⟩] } b' := by
  cases hx
  set s' : Scope := { s with symbols := s.symbols ++ [⟨name, b.slots.size, false⟩] } with hs'
  -- there is one name more, and it stands for the new slot
  have hnames : ∀ name' slot, s'.Names name' slot ↔
      s.Names name' slot ∨ (name' = name ∧ slot = b.slots.size) := by
    intro name' slot
    simp [Scope.Names, hs', or_and_right, exists_or, eq_comm]
  have hgrows : Grows s b s' { b with slots := b.slots.push none } := by
    refine ⟨fun name slot hn => (hnames name slot).mpr (.inl hn), ?_,
      fun _ _ => getElem?_push_of_some, by rw [Array.size_push]; exact Nat.le_succ _⟩
    rintro id hlt ⟨name', hn⟩
    rcases (hnames name' id).mp hn with hn | ⟨-, rfl⟩
    · exact ⟨name', hn⟩
    · exact absurd hlt (Nat.lt_irrefl _)
  refine ⟨?_, hgrows⟩
  constructor
  · intro name' slot hn
    rw [Array.size_push]
    rcases (hnames name' slot).mp hn with hn | ⟨-, rfl⟩
    · exact Nat.lt_succ_of_lt (h.slot_lt name' slot hn)
    · exact Nat.lt_succ_self _
  · -- the new slot is beyond all others, so no other name has it
    intro name₁ name₂ slot h₁ h₂
    rcases (hnames name₁ slot).mp h₁ with h₁ | ⟨hname₁, hslot₁⟩ <;>
      rcases (hnames name₂ slot).mp h₂ with h₂ | ⟨hname₂, hslot₂⟩
    · exact h.name_unique name₁ name₂ slot h₁ h₂
    · exact absurd (hslot₂ ▸ h.slot_lt name₁ slot h₁) (Nat.lt_irrefl _)
    · exact absurd (hslot₁ ▸ h.slot_lt name₂ slot h₂) (Nat.lt_irrefl _)
    · rw [hname₁, hname₂]
  · -- the name is new, so it has no other slot
    intro name' slot₁ slot₂ h₁ h₂
    rcases (hnames name' slot₁).mp h₁ with h₁ | ⟨hname₁, hslot₁⟩ <;>
      rcases (hnames name' slot₂).mp h₂ with h₂ | ⟨hname₂, hslot₂⟩
    · exact h.slot_unique name' slot₁ slot₂ h₁ h₂
    · exact absurd (hname₂ ▸ h₁) (hname slot₁)
    · exact absurd (hname₁ ▸ h₂) (hname slot₂)
    · rw [hslot₁, hslot₂]
  · exact fun text id hmem => hgrows.builds id _ (h.literal text id hmem)
  · -- the new slot is declared, and for others nothing has changed
    intro id hlt hd
    rcases Nat.lt_succ_iff_lt_or_eq.mp (Array.size_push _ ▸ hlt) with hlt | rfl
    · have hd' : ¬ s.Declares id := fun ⟨name, hn⟩ => hd ⟨name, hgrows.names name id hn⟩
      exact (h.built id hlt hd').imp fun e he => hgrows.filled id e he
    · exact absurd ⟨name, (hnames name _).mpr (.inr ⟨rfl, rfl⟩)⟩ hd
  · intro id e he child hchild
    refine Nat.lt_of_lt_of_le ?_ hgrows.size
    rcases getElem?_push_eq_some he with ⟨-, heq⟩ | he
    · cases heq
    · exact h.child_lt id e he child hchild
  · exact h.linked.push_none hgrows.declares

/-- The slot of a symbol is **the one its name stands for**, from now on at the latest. If the name
has been met before nothing is built. -/
theorem symbolSlot_spec (h : Tidy links s b) (hx : Comes (symbolSlot name) s b id s' b') :
    Tidy links s' b' ∧ Grows s b s' b' ∧ s'.Names name id := by
  rcases hx.symbolSlot_inv with ⟨entry, hfind, rfl, rfl, rfl⟩ | ⟨hfind, hdeclare, rfl⟩
  · have hname := List.find?_some hfind
    exact ⟨h, .refl _ _, entry, List.mem_of_find?_eq_some hfind, of_decide_eq_true hname, rfl⟩
  · have hname : ∀ slot, ¬ s.Names name slot := by
      rintro slot ⟨entry, hmem, hentry, -⟩
      simpa [hentry] using List.find?_eq_none.mp hfind entry hmem
    obtain ⟨htidy, hgrows⟩ := h.declare hname hdeclare
    exact ⟨htidy, hgrows, ⟨name, id, false⟩, by simp, rfl, rfl⟩

/-- A tag is put on an expression **by a sequence of it alone**. Without a tag the expression is its
own carrier. -/
theorem carrying_spec (h : Tidy links s b) (hid : inner < b.slots.size)
    (hx : Comes (carrying tag inner) s b id s' b') :
    Tidy links s' b' ∧ Grows s b s' b' ∧ Carries (Builds s' b') id inner tag := by
  cases tag with
  | none =>
    obtain ⟨rfl, rfl, rfl⟩ := hx.pure_inv
    exact ⟨h, .refl _ _, rfl⟩
  | some tag =>
    obtain ⟨rfl, hadd⟩ := hx.build_inv
    obtain ⟨htidy, hgrows, hb⟩ := h.add (by simpa [Expr.children] using hid) hadd
    exact ⟨htidy, hgrows, hb⟩

/-- An expression that cannot carry a tag itself **is built**, and then what carries the tag. -/
theorem wrapped_spec {e : Expr} (h : Tidy links s b)
    (he : ∀ child ∈ e.children, child < b.slots.size)
    (hx : Comes (liftM (Builder.add e) >>= carrying tag) s b id s' b') :
    ∃ inner, Tidy links s' b' ∧ Grows s b s' b' ∧ Builds s' b' inner e ∧
      Carries (Builds s' b') id inner tag := by
  obtain ⟨inner, b₁, hadd, hx⟩ := hx.build_bind_inv
  obtain ⟨htidy₁, hgrows₁, hb⟩ := h.add he hadd
  obtain ⟨htidy, hgrows, hc⟩ := carrying_spec htidy₁ hb.lt hx
  exact ⟨inner, htidy, hgrows₁.trans hgrows, hgrows.builds inner e hb, hc⟩

/-- A literal's expression is **made once** and found again. Two literals of the same text are
therefore one expression. -/
theorem literalToken_spec (h : Tidy links s b) (htext : text ≠ "")
    (hx : Comes (literalToken text) s b id s' b') :
    Tidy links s' b' ∧ Grows s b s' b' ∧ Builds s' b' id (.token text) := by
  rcases hx.literalToken_inv with ⟨hfind, rfl, rfl⟩ | ⟨-, htoken, rfl⟩
  · obtain ⟨before, after, hliterals, -⟩ := List.lookup_eq_some_iff.mp hfind
    exact ⟨h, .refl _ _, h.literal text id (by simp [hliterals])⟩
  · have hadd : (Builder.add (.token text)).run.run b = (.ok id, b') := by
      rwa [Builder.token, if_neg (by simpa using htext)] at htoken
    obtain ⟨htidy, hgrows, hb⟩ := h.add (by simp [Expr.children]) hadd
    refine ⟨⟨htidy.slot_lt, htidy.name_unique, htidy.slot_unique, ?_, htidy.built, htidy.child_lt,
      htidy.linked⟩, ⟨hgrows.names, hgrows.declares, hgrows.filled, hgrows.size⟩, hb⟩
    intro text' id' hmem
    rcases List.mem_cons.mp hmem with heq | hmem
    · cases heq
      exact hb
    · exact htidy.literal text' id' hmem

/-- The letters of a literal are built as **tokens of one character each**, in order. The induction
is on the characters; each may have been met before. -/
theorem letters_spec {cs : List Char} (h : Tidy links s b)
    (hx : Comes (cs.mapM fun c => literalToken (String.singleton c)) s b ids s' b') :
    Tidy links s' b' ∧ Grows s b s' b' ∧
      List.Forall₂ (fun id symbol => Builds s' b' id (.token symbol)) ids
        (cs.map String.singleton) := by
  induction cs generalizing s b ids with
  | nil =>
    rw [List.mapM_nil] at hx
    obtain ⟨rfl, rfl, rfl⟩ := hx.pure_inv
    exact ⟨h, .refl _ _, .nil⟩
  | cons c cs ih =>
    rw [List.mapM_cons] at hx
    obtain ⟨id, s₁, b₁, hc, hx⟩ := hx.bind_inv
    obtain ⟨htidy₁, hgrows₁, hb⟩ := literalToken_spec h (by simp) hc
    obtain ⟨ids, s₂, b₂, hcs, hx⟩ := hx.bind_inv
    obtain ⟨rfl, rfl, rfl⟩ := hx.pure_inv
    obtain ⟨htidy, hgrows, hids⟩ := ih htidy₁ hcs
    exact ⟨htidy, hgrows₁.trans hgrows, .cons (hgrows.builds id _ hb) hids⟩

/-- What is built for a literal **implements** it, split into letters or not. Split into letters it
is a sequence of their tokens, and otherwise a single token; an empty one is the empty sequence. -/
theorem literal_spec [PatternReader] (h : Tidy links s b)
    (hx : Comes (literal split tag text) s b id s' b') :
    Tidy links s' b' ∧ Grows s b s' b' ∧
      Implements s'.Names (Builds s' b') split tag (.literal text) id := by
  rw [literal] at hx
  split at hx
  next hempty =>
    obtain ⟨rfl, hadd⟩ := hx.build_inv
    obtain ⟨htidy, hgrows, hb⟩ := h.add (by simp [Expr.children]) hadd
    have hsymbols : literalSymbols split text = [] := by rw [literalSymbols, if_pos hempty]
    exact ⟨htidy, hgrows, .letters (hsymbols ▸ .nil) hb⟩
  next hempty =>
    split at hx
    next hsplit =>
      obtain ⟨ids, s₁, b₁, hids, hx⟩ := hx.bind_inv
      obtain ⟨htidy₁, hgrows₁, hbs⟩ := letters_spec h hids
      obtain ⟨rfl, hadd⟩ := hx.build_inv
      have hlt : ∀ child ∈ ids, child < b₁.slots.size :=
        ((List.forall₂_and_left _ _).mp (hbs.imp fun _ _ hb => ⟨hb.lt, hb⟩)).1
      obtain ⟨htidy, hgrows, hb⟩ := htidy₁.add (e := .seq tag ids) hlt hadd
      have hsymbols : literalSymbols split text = text.toList.map String.singleton := by
        rw [literalSymbols, if_neg hempty, if_pos hsplit]
      exact ⟨htidy, hgrows₁.trans hgrows,
        .letters (hsymbols ▸ hbs.imp fun id _ => hgrows.builds id _) hb⟩
    next hsplit =>
      obtain ⟨inner, s₁, b₁, htoken, hx⟩ := hx.bind_inv
      obtain ⟨htidy₁, hgrows₁, hb⟩ := literalToken_spec h (by simpa using hempty) htoken
      obtain ⟨htidy, hgrows, hc⟩ := carrying_spec htidy₁ hb.lt hx
      have hsymbols : literalSymbols split text = [text] := by
        rw [literalSymbols, if_neg hempty, if_neg hsplit]
      exact ⟨htidy, hgrows₁.trans hgrows, .token hsymbols (hgrows.builds inner _ hb) hc⟩

/-- What is built for a pattern is the pattern **that its source is read to**. -/
theorem pattern_spec [PatternReader] {source : String} (h : Tidy links s b)
    (hx : Comes (liftM (Builder.pattern source)) s b id s' b') :
    Tidy links s' b' ∧ Grows s b s' b' ∧
      ∃ p, Pattern.read source = .ok p ∧ Builds s' b' id (.pattern p) := by
  obtain ⟨rfl, hrun⟩ := hx.build_inv
  rw [Builder.pattern] at hrun
  cases hp : Pattern.read source with
  | error e =>
    rw [hp] at hrun
    cases hrun
  | ok p =>
    rw [hp] at hrun
    obtain ⟨htidy, hgrows, hb⟩ := h.add (e := .pattern p) (by simp [Expr.children]) hrun
    exact ⟨htidy, hgrows, p, rfl, hb⟩

/-- What is built for a repetition has **its bounds**, unchanged. -/
theorem rep_spec {min : Nat} {max : Option Nat} (h : Tidy links s b) (hinner : inner < b.slots.size)
    (hx : Comes (liftM (Builder.rep inner tag min max)) s b id s' b') :
    Tidy links s' b' ∧ Grows s b s' b' ∧ Builds s' b' id (.rep tag inner min max) := by
  obtain ⟨rfl, hrun⟩ := hx.build_inv
  have hadd : (Builder.add (.rep tag inner min max)).run.run b = (.ok id, b') := by
    unfold Builder.rep at hrun
    split at hrun
    · split at hrun
      · cases hrun
      · exact hrun
    · exact hrun
  exact h.add (by simpa [Expr.children] using hinner) hadd

/-! ### Phrases -/

mutual

/-- Compiling a phrase leaves an expression that **implements** it. The induction is on the phrase,
with one case for each form, and whatever was built stays. -/
theorem phrase_spec [PatternReader] : ∀ (p : Phrase) {s s' : Scope} {b b' : Builder} {id : ExprId}
    {tag : Option String}, Tidy links s b → Comes (phrase split tag p) s b id s' b' →
    Tidy links s' b' ∧ Grows s b s' b' ∧ Implements s'.Names (Builds s' b') split tag p id
  | .symbol name, s, s', b, b', id, tag, h, hx => by
    rw [phrase] at hx
    obtain ⟨slot, s₁, b₁, hslot, hx⟩ := hx.bind_inv
    obtain ⟨htidy₁, hgrows₁, hname⟩ := symbolSlot_spec h hslot
    obtain ⟨htidy, hgrows, hc⟩ := carrying_spec htidy₁ (htidy₁.slot_lt name slot hname) hx
    exact ⟨htidy, hgrows₁.trans hgrows, .symbol (hgrows.names name slot hname) hc⟩
  | .literal text, s, s', b, b', id, tag, h, hx => by
    rw [phrase] at hx
    exact literal_spec h hx
  | .pattern source, s, s', b, b', id, tag, h, hx => by
    rw [phrase] at hx
    obtain ⟨inner, s₁, b₁, hpattern, hx⟩ := hx.bind_inv
    obtain ⟨htidy₁, hgrows₁, p, hp, hb⟩ := pattern_spec h hpattern
    obtain ⟨htidy, hgrows, hc⟩ := carrying_spec htidy₁ hb.lt hx
    exact ⟨htidy, hgrows₁.trans hgrows, .pattern hp (hgrows.builds inner _ hb) hc⟩
  | .seq parts, s, s', b, b', id, tag, h, hx => by
    rw [phrase] at hx
    obtain ⟨ids, s₁, b₁, hids, hx⟩ := hx.bind_inv
    obtain ⟨htidy₁, hgrows₁, himpl⟩ := phrases_spec parts h hids
    obtain ⟨rfl, hadd⟩ := hx.build_inv
    obtain ⟨htidy, hgrows, hb⟩ := htidy₁.add (htidy₁.implementsAll_lt himpl) hadd
    exact ⟨htidy, hgrows₁.trans hgrows, .seq hb (himpl.mono hgrows.names hgrows.builds)⟩
  | .alt parts, s, s', b, b', id, tag, h, hx => by
    rw [phrase] at hx
    obtain ⟨ids, s₁, b₁, hids, hx⟩ := hx.bind_inv
    obtain ⟨htidy₁, hgrows₁, himpl⟩ := phrases_spec parts h hids
    obtain ⟨rfl, hadd⟩ := hx.build_inv
    obtain ⟨htidy, hgrows, hb⟩ := htidy₁.add (htidy₁.implementsAll_lt himpl) hadd
    exact ⟨htidy, hgrows₁.trans hgrows, .alt hb (himpl.mono hgrows.names hgrows.builds)⟩
  | .repeated part quantifier, s, s', b, b', id, tag, h, hx => by
    -- a repetition carries its tag itself
    rw [phrase] at hx
    obtain ⟨child, s₁, b₁, hchild, hx⟩ := hx.bind_inv
    obtain ⟨htidy₁, hgrows₁, himpl⟩ := phrase_spec part h hchild
    obtain ⟨htidy, hgrows, hb⟩ := rep_spec htidy₁ (htidy₁.implements_lt himpl) hx
    exact ⟨htidy, hgrows₁.trans hgrows, .repeated hb (hgrows.implements himpl)⟩
  | .omitted part, s, s', b, b', id, tag, h, hx => by
    rw [phrase] at hx
    obtain ⟨child, s₁, b₁, hchild, hx⟩ := hx.bind_inv
    obtain ⟨htidy₁, hgrows₁, himpl⟩ := phrase_spec part h hchild
    obtain ⟨inner, htidy, hgrows, hb, hc⟩ := wrapped_spec htidy₁
      (by simpa [Expr.children] using htidy₁.implements_lt himpl) hx
    exact ⟨htidy, hgrows₁.trans hgrows, .omitted hb (hgrows.implements himpl) hc⟩
  | .lexical part, s, s', b, b', id, tag, h, hx => by
    rw [phrase] at hx
    obtain ⟨child, s₁, b₁, hchild, hx⟩ := hx.bind_inv
    obtain ⟨htidy₁, hgrows₁, himpl⟩ := phrase_spec part h hchild
    obtain ⟨inner, htidy, hgrows, hb, hc⟩ := wrapped_spec htidy₁
      (by simpa [Expr.children] using htidy₁.implements_lt himpl) hx
    exact ⟨htidy, hgrows₁.trans hgrows, .lexical hb (hgrows.implements himpl) hc⟩

/-- What is built for phrases in order **implements them in order**. -/
theorem phrases_spec [PatternReader] : ∀ (ps : List Phrase) {s s' : Scope} {b b' : Builder}
    {ids : List ExprId},
    Tidy links s b → Comes (phrases split ps) s b ids s' b' →
    Tidy links s' b' ∧ Grows s b s' b' ∧ ImplementsAll s'.Names (Builds s' b') split ps ids
  | [], s, s', b, b', ids, h, hx => by
    rw [phrases] at hx
    obtain ⟨rfl, rfl, rfl⟩ := hx.pure_inv
    exact ⟨h, .refl _ _, .nil⟩
  | p :: ps, s, s', b, b', ids, h, hx => by
    rw [phrases] at hx
    obtain ⟨id, s₁, b₁, hp, hx⟩ := hx.bind_inv
    obtain ⟨htidy₁, hgrows₁, himpl⟩ := phrase_spec p h hp
    obtain ⟨ids, s₂, b₂, hps, hx⟩ := hx.bind_inv
    obtain ⟨htidy, hgrows, himpls⟩ := phrases_spec ps htidy₁ hps
    obtain ⟨rfl, rfl, rfl⟩ := hx.pure_inv
    exact ⟨htidy, hgrows₁.trans hgrows, .cons (hgrows.implements himpl) himpls⟩

end

/-! ### Rules -/

/-- What is tidy stays so when **the same names** stand for the same slots. -/
theorem Tidy.of_names (h : Tidy links s b)
    (hnames : ∀ name slot, s'.Names name slot ↔ s.Names name slot)
    (hliterals : s'.literals = s.literals) : Tidy links s' b ∧ Grows s b s' b := by
  have hdeclares : s'.Declares = s.Declares :=
    funext fun id => propext (exists_congr fun name => hnames name id)
  have hgrows : Grows s b s' b :=
    ⟨fun _ _ => (hnames _ _).mpr, fun id _ hd => hdeclares ▸ hd, fun _ _ h => h, Nat.le_refl _⟩
  refine ⟨?_, hgrows⟩
  constructor
  · exact fun name slot hn => h.slot_lt name slot ((hnames _ _).mp hn)
  · exact fun n n' slot hn hn' =>
      h.name_unique n n' slot ((hnames _ _).mp hn) ((hnames _ _).mp hn')
  · exact fun n slot slot' hn hn' =>
      h.slot_unique n slot slot' ((hnames _ _).mp hn) ((hnames _ _).mp hn')
  · exact fun text id hmem => hgrows.builds id _ (h.literal text id (hliterals ▸ hmem))
  · exact hdeclares ▸ h.built
  · exact h.child_lt
  · exact hdeclares ▸ h.linked

/-- Marking a name as defined **changes no slot**. It is a note for the check on duplicates and has
no part in the grammar. -/
theorem markDefined_spec {u : Unit} (h : Tidy links s b)
    (hx : Comes (markDefined name) s b u s' b') : Tidy links s' b' ∧ Grows s b s' b' := by
  rw [markDefined] at hx
  replace hx := hx.get_bind_inv
  split at hx
  · obtain ⟨rfl, rfl⟩ := hx.modify_inv
    refine h.of_names (fun name' slot => ?_) rfl
    simp only [Scope.Names, List.mem_map, exists_exists_and_eq_and]
    refine exists_congr fun entry => and_congr_right fun _ => ?_
    split <;> rfl
  · exact absurd hx not_comes_throw

/-- A definition **links** a slot to a body. The slot stays empty until everything is settled at the
end. -/
theorem Tidy.define {slot body : ExprId} {u : Unit} (h : Tidy links s b)
    (hbody : body < b.slots.size) (hx : (Builder.define slot body).run.run b = (.ok u, b')) :
    Tidy ((slot, body) :: links) s b' ∧ Grows s b s b' := by
  obtain ⟨hslot, hnew, rfl⟩ := Builder.define_inv hx
  have hlinked := h.linked.withDefinition hslot hnew hbody
  cases hfilled : b.filled? body with
  | none =>
    have heq : b.withDefinition slot body =
        { b with aliases := b.aliases ++ [(slot, body)] } := by
      simp only [Builder.withDefinition, hfilled]
    rw [heq] at hlinked ⊢
    exact ⟨⟨h.slot_lt, h.name_unique, h.slot_unique, h.literal, h.built, h.child_lt, hlinked⟩,
      fun _ _ h => h, fun _ _ h => h, fun _ _ h => h, Nat.le_refl _⟩
  | some e =>
    have heq : b.withDefinition slot body =
        { b with slots := b.slots.setIfInBounds slot (some e) } := by
      simp only [Builder.withDefinition, hfilled]
    rw [heq] at hlinked ⊢
    have he : b.slots[body]? = some (some e) := Option.join_eq_some_iff.mp hfilled
    have hsize : (b.slots.setIfInBounds slot (some e)).size = b.slots.size :=
      Array.size_setIfInBounds
    have hgrows : Grows s b s { b with slots := b.slots.setIfInBounds slot (some e) } :=
      ⟨fun _ _ h => h, fun _ _ h => h, fun _ _ => Builder.getElem?_setIfInBounds_of_some hslot,
        Nat.le_of_eq hsize.symm⟩
    refine ⟨?_, hgrows⟩
    constructor
    · exact fun name slot' hn => Nat.lt_of_lt_of_le (h.slot_lt name slot' hn) hgrows.size
    · exact h.name_unique
    · exact h.slot_unique
    · exact fun text id hmem => hgrows.builds id _ (h.literal text id hmem)
    · exact fun id hlt hd => (h.built id (hsize ▸ hlt) hd).imp fun e' he => hgrows.filled id e' he
    · intro id e' hid child hchild
      refine Nat.lt_of_lt_of_le ?_ hgrows.size
      rcases eq_or_ne slot id with rfl | hne
      · rw [Array.getElem?_setIfInBounds_self_of_lt (Array.getElem?_eq_some_iff.mp hslot).1] at hid
        cases hid
        exact h.child_lt body e he child hchild
      · rw [Array.getElem?_setIfInBounds_ne hne] at hid
        exact h.child_lt id e' hid child hchild
    · exact hlinked

/-- A link **defines** a rule: from the slot of its name to what implements its body, tagged if the
rule is visible. -/
def Defines [PatternReader] (split : Bool) (s : Scope) (b : Builder) (r : Rule)
    (link : ExprId × ExprId) : Prop :=
  s.Names r.name link.1 ∧ Implements s.Names (Builds s b) split r.tag? r.body link.2

/-- A link goes on to define **its rule**. -/
theorem Grows.defines [PatternReader] (h : Grows s b s' b') {r : Rule} {link : ExprId × ExprId}
    (hr : Defines split s b r link) : Defines split s' b' r link :=
  ⟨h.names _ _ hr.1, h.implements hr.2⟩

/-- Compiling a rule adds **one link**, from the slot of its name to what was built for its body.
The body carries the name of a visible rule for a tag. -/
theorem rule_spec [PatternReader] {r : Rule} {slot : ExprId} (h : Tidy links s b)
    (hx : Comes (rule split r) s b slot s' b') :
    ∃ body, Tidy ((slot, body) :: links) s' b' ∧ Grows s b s' b' ∧
      Defines split s' b' r (slot, body) := by
  rw [rule] at hx
  split at hx
  · exact absurd hx not_comes_throw
  rw [defineRule] at hx
  obtain ⟨slot', s₁, b₁, hslot, hx⟩ := hx.bind_inv
  obtain ⟨htidy₁, hgrows₁, hname⟩ := symbolSlot_spec h hslot
  obtain ⟨u, s₂, b₂, hmark, hx⟩ := hx.bind_inv
  obtain ⟨htidy₂, hgrows₂⟩ := markDefined_spec htidy₁ hmark
  obtain ⟨body, s₃, b₃, hbody, hx⟩ := hx.bind_inv
  obtain ⟨htidy₃, hgrows₃, himpl⟩ := phrase_spec r.body htidy₂ hbody
  obtain ⟨u, b₄, hdefine, hx⟩ := hx.build_bind_inv
  obtain ⟨rfl, rfl, rfl⟩ := hx.pure_inv
  obtain ⟨htidy, hgrows⟩ := htidy₃.define (htidy₃.implements_lt himpl) hdefine
  have hlast := hgrows₂.trans (hgrows₃.trans hgrows)
  exact ⟨body, htidy, hgrows₁.trans hlast, hlast.names _ _ hname, hgrows.implements himpl⟩

/-- Compiling rules in order adds **a link for each**, and the slots come out in their order. The
latest link comes first. -/
theorem mapM_rule_spec [PatternReader] {rs : List Rule} {slots : List ExprId} (h : Tidy links s b)
    (hx : Comes (rs.mapM (rule split)) s b slots s' b') :
    ∃ new, Tidy (new.reverse ++ links) s' b' ∧ Grows s b s' b' ∧ new.map Prod.fst = slots ∧
      List.Forall₂ (Defines split s' b') rs new := by
  induction rs generalizing links s b slots with
  | nil =>
    rw [List.mapM_nil] at hx
    obtain ⟨rfl, rfl, rfl⟩ := hx.pure_inv
    exact ⟨[], h, .refl _ _, rfl, .nil⟩
  | cons r rs ih =>
    rw [List.mapM_cons] at hx
    obtain ⟨slot, s₁, b₁, hr, hx⟩ := hx.bind_inv
    obtain ⟨body, htidy₁, hgrows₁, hdefines⟩ := rule_spec h hr
    obtain ⟨slots, s₂, b₂, hrs, hx⟩ := hx.bind_inv
    obtain ⟨rfl, rfl, rfl⟩ := hx.pure_inv
    obtain ⟨new, htidy, hgrows, rfl, hnew⟩ := ih htidy₁ hrs
    refine ⟨(slot, body) :: new, ?_, hgrows₁.trans hgrows, rfl,
      .cons (hgrows.defines hdefines) hnew⟩
    rwa [List.reverse_cons, List.append_assoc, List.singleton_append]

/-- Before the first rule **all is tidy**: there is nothing yet. -/
theorem tidy_empty : Tidy [] {} {} where
  slot_lt := by simp [Scope.Names]
  name_unique := by simp [Scope.Names]
  slot_unique := by simp [Scope.Names]
  literal := by simp
  built := by simp
  child_lt := by simp
  linked := ⟨List.nodup_nil, by simp, by simp, by simp, by simp, by simp⟩

/-- Compiling rules leaves **a link for each rule**, and no others. The first rule's slot is what
the compilation comes to. -/
theorem rules_spec [PatternReader] {rs : List Rule} {start : ExprId}
    (hx : Comes (rules split rs) {} {} start s b) :
    ∃ r rest body more, rs = r :: rest ∧ Tidy (((start, body) :: more).reverse) s b ∧
      List.Forall₂ (Defines split s b) (r :: rest) ((start, body) :: more) := by
  rw [rules] at hx
  obtain ⟨slots, s₁, b₁, hslots, hx⟩ := hx.bind_inv
  obtain ⟨new, htidy, -, hfst, hnew⟩ := mapM_rule_spec tidy_empty hslots
  rw [List.append_nil] at htidy
  cases hnew with
  | nil =>
    subst hfst
    exact absurd hx not_comes_throw
  | cons hr hrs =>
    subst hfst
    replace hx := hx.get_bind_inv
    split at hx
    · obtain ⟨rfl, rfl, rfl⟩ := hx.pure_inv
      exact ⟨_, _, _, _, rfl, htidy, .cons hr hrs⟩
    · exact absurd hx not_comes_throw

end

end Compile

namespace Grammar

/-- **Text that compiles** can be read as rules, and is compiled from these. -/
theorem exists_rules_of_compile [PatternReader] {split : Bool} {source : List Char} {g : Grammar}
    (h : compile split source = .ok g) :
    ∃ rs, Dialect.rules source = .ok rs ∧ ofRules split rs = .ok g := by
  rw [compile] at h
  cases hrules : Dialect.rules source with
  | error e =>
    rw [hrules] at h
    cases h
  | ok rs =>
    rw [hrules] at h
    exact ⟨rs, rfl, h⟩

end Grammar

end GeneralParsing
