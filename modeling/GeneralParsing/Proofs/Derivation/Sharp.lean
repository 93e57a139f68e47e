import GeneralParsing.Proofs.Derivation.Alike
import GeneralParsing.Proofs.Derivation.Inversion
import Mathlib

/-!
# Expressions that are sharp

A derivation **begins** a word when the word is its symbols and a rest. An expression is **sharp**
before rests of some kind when any two of its derivations that begin the same word, and leave rests
of this kind, are alike (`Sharp`). They then leave the same rest, so sharpness says where the
expression ends as well as how it is derived.

There is one rule for each kind of expression. For a sequence the parts have to be sharp before
whatever can follow them, for an alternation no word may be begun by two alternatives, and for a
repetition what may follow must not begin another iteration. Sharpness is asked of words up to
some length only, which lets an expression that contains itself be proved sharp by induction.
-/

namespace GeneralParsing

namespace Derivation

/-! ### Beginnings of words -/

/-- A derivation of an expression **begins** a word and leaves a rest that may follow. -/
structure Begins (g : Grammar) (id : ExprId) (ok : List String → Prop) (w : List String)
    (d : Derivation) (rest : List String) : Prop where
  valid : d.Valid g
  root : d.root = id
  word : d.yield ++ rest = w
  follows : ok rest

/-- Derivations of expressions in order **begin** a word and leave a rest that may follow. -/
structure BeginsAll (g : Grammar) (ids : List ExprId) (ok : List String → Prop) (w : List String)
    (ds : List Derivation) (rest : List String) : Prop where
  valid : ∀ d ∈ ds, d.Valid g
  roots : ds.map Derivation.root = ids
  word : ds.flatMap yield ++ rest = w
  follows : ok rest

variable {g : Grammar} {n k : Nat} {id child : ExprId} {ids : List ExprId} {tag : Option String}
variable {ok ok' : List String → Prop} {w rest rest' : List String} {d d' : Derivation}
variable {ds ds' : List Derivation} {P : String → Prop}

/-- What is left may be **looked at differently**: only what must be known of the rest changes. What
is derived, and what is left, stays the same. -/
theorem Begins.mono (h : Begins g id ok w d rest) (hok : ok' rest) : Begins g id ok' w d rest :=
  { h with follows := hok }

/-- Derivations that are alike leave **the same rest**. They have equally many symbols, so that they
end at the same place. -/
theorem Begins.rest_eq (h : Begins g id ok w d rest) (h' : Begins g id ok' w d' rest')
    (halike : Alike d d') : rest = rest' := by
  have hword := h.word.trans h'.word.symm
  rw [halike.yield_eq] at hword
  exact List.append_cancel_left hword

/-- In order there is **a first one**, and the others begin what it leaves. What is known of the
rest of the first is that it is just this word. -/
theorem BeginsAll.exists_cons (h : BeginsAll g (id :: ids) ok w ds rest) :
    ∃ d ds' w', ds = d :: ds' ∧ Begins g id (· = w') w d w' ∧ BeginsAll g ids ok w' ds' rest := by
  cases ds with
  | nil => cases h.roots
  | cons d ds =>
    obtain ⟨hd, hds⟩ := List.forall_mem_cons.mp h.valid
    obtain ⟨hroot, hroots⟩ := List.cons.inj h.roots
    refine ⟨d, ds, _, rfl, ⟨hd, hroot, ?_, rfl⟩, hds, hroots, rfl, h.follows⟩
    rw [← h.word, List.flatMap_cons, List.append_assoc]

/-- No expressions at all begin a word **by leaving it whole**. -/
theorem BeginsAll.eq_nil (h : BeginsAll g [] ok w ds rest) : ds = [] ∧ w = rest := by
  obtain rfl := List.map_eq_nil_iff.mp h.roots
  exact ⟨rfl, h.word.symm⟩

/-- Where a sequence begins a word, **its parts begin it** in order. -/
theorem Begins.of_seq (h : Begins g id ok w d rest) (he : g.expr? id = some (.seq tag ids)) :
    ∃ parts, d = .sequence id parts ∧ BeginsAll g ids ok w parts rest := by
  obtain ⟨parts, rfl, hroots, hparts⟩ := h.valid.of_seq h.root he
  exact ⟨parts, rfl, hparts, hroots, by rw [← h.word, yield_sequence], h.follows⟩

/-- Where a choice begins a word, **one of its alternatives** does. -/
theorem Begins.of_alt (h : Begins g id ok w d rest) (he : g.expr? id = some (.alt tag ids)) :
    ∃ part, d = .choice id part ∧ part.root ∈ ids ∧ Begins g part.root ok w part rest := by
  obtain ⟨part, rfl, hc, hpart⟩ := h.valid.of_alt h.root he
  exact ⟨part, rfl, hc, hpart, rfl, h.word, h.follows⟩

/-- Where a repetition begins a word, the repeated expression begins it **a number of times**, no
fewer than it must. -/
theorem Begins.of_rep (h : Begins g id ok w d rest) {min : Nat} {max : Option Nat}
    (he : g.expr? id = some (.rep tag child min max)) :
    ∃ parts, d = .sequence id parts ∧ min ≤ parts.length ∧
      BeginsAll g (List.replicate parts.length child) ok w parts rest := by
  obtain ⟨parts, rfl, hroots, hmin, -, hparts⟩ := h.valid.of_rep h.root he
  refine ⟨parts, rfl, hmin, hparts, ?_, by rw [← h.word, yield_sequence], h.follows⟩
  rw [List.eq_replicate_of_mem (List.forall_mem_map.mpr hroots), List.length_map]

/-- Before the rest of a literal without a trace there is **the literal**. -/
theorem Begins.eq_cons_of_omitted (h : Begins g id ok w d rest)
    (he : g.expr? id = some (.omitted child))
    {text : String} (hchild : g.expr? child = some (.token text)) : w = text :: rest := by
  obtain ⟨part, rfl, hroot, hpart⟩ := h.valid.of_omitted h.root he
  rw [← h.word, hpart.of_token hroot hchild]
  rfl

/-- An alternative taken **is a choice**. -/
theorem Begins.choice (h : Begins g child ok w d rest) (he : g.expr? id = some (.alt tag ids))
    (hc : child ∈ ids) : Begins g id ok w (.choice id d) rest :=
  ⟨.choice he (h.root ▸ hc) h.valid, rfl, h.word, h.follows⟩

/-! ### What words start with, and what they are made of -/

/-- Whatever the expression derives **starts with** such a symbol. -/
def Starts (g : Grammar) (id : ExprId) (P : String → Prop) : Prop :=
  ∀ d : Derivation, d.Valid g → d.root = id → ∃ s t, d.yield = s :: t ∧ P s

/-- Whatever the expression derives **is made of** such symbols. -/
def MadeOf (g : Grammar) (id : ExprId) (P : String → Prop) : Prop :=
  ∀ d : Derivation, d.Valid g → d.root = id → ∀ s ∈ d.yield, P s

/-- Whatever the expression derives, unless it is empty, **ends with** such a symbol. -/
def Ends (g : Grammar) (id : ExprId) (P : String → Prop) : Prop :=
  ∀ d : Derivation, d.Valid g → d.root = id → ∀ s ∈ d.yield.getLast?, P s

theorem Starts.mono (h : Starts g id P) {Q : String → Prop} (hPQ : ∀ s, P s → Q s) :
    Starts g id Q := by
  intro d hd hroot
  obtain ⟨s, t, hyield, hs⟩ := h d hd hroot
  exact ⟨s, t, hyield, hPQ s hs⟩

/-- What starts with a symbol **is not empty**. -/
theorem Starts.length_pos (h : Starts g id P) (hd : d.Valid g) (hroot : d.root = id) :
    1 ≤ d.yield.length := by
  obtain ⟨s, t, hyield, -⟩ := h d hd hroot
  rw [hyield]
  exact Nat.le_add_left 1 t.length

/-- A word that the expression begins **starts with** such a symbol. -/
theorem Begins.starts (h : Begins g id ok w d rest) (hs : Starts g id P) :
    ∃ s t, w = s :: t ∧ P s := by
  obtain ⟨s, t, hyield, hP⟩ := hs d h.valid h.root
  refine ⟨s, t ++ rest, ?_, hP⟩
  rw [← h.word, hyield, List.cons_append]

theorem starts_token {text : String} (he : g.expr? id = some (.token text)) :
    Starts g id (· = text) := by
  intro d hd hroot
  rw [hd.of_token hroot he]
  exact ⟨text, [], rfl, rfl⟩

theorem starts_pattern {p : Pattern} (he : g.expr? id = some (.pattern p)) :
    Starts g id (p.accepts · = true) := by
  intro d hd hroot
  obtain ⟨text, rfl, ha⟩ := hd.of_pattern hroot he
  exact ⟨text, [], rfl, ha⟩

theorem starts_omitted (he : g.expr? id = some (.omitted child)) (h : Starts g child P) :
    Starts g id P := by
  intro d hd hroot
  obtain ⟨part, rfl, hroot, hpart⟩ := hd.of_omitted hroot he
  exact h part hpart hroot

theorem starts_lexical (he : g.expr? id = some (.lexical child)) (h : Starts g child P) :
    Starts g id P := by
  intro d hd hroot
  obtain ⟨part, rfl, hroot, hpart⟩ := hd.of_lexical hroot he
  exact h part hpart hroot

/-- A choice starts **as its alternatives do**. -/
theorem starts_alt (he : g.expr? id = some (.alt tag ids)) (h : ∀ c ∈ ids, Starts g c P) :
    Starts g id P := by
  intro d hd hroot
  obtain ⟨part, rfl, hc, hpart⟩ := hd.of_alt hroot he
  exact h part.root hc part hpart rfl

/-- A sequence starts **as its first part does**, because that cannot be empty. What comes behind
the first part does not matter, then. -/
theorem starts_seq (he : g.expr? id = some (.seq tag (child :: ids))) (h : Starts g child P) :
    Starts g id P := by
  intro d hd hroot
  obtain ⟨parts, rfl, hroots, hparts⟩ := hd.of_seq hroot he
  cases parts with
  | nil => cases hroots
  | cons part parts =>
    obtain ⟨hpart, -⟩ := List.forall_mem_cons.mp hparts
    obtain ⟨s, t, hyield, hs⟩ := h part hpart (List.cons.inj hroots).1
    exact ⟨s, t ++ parts.flatMap yield, by simp [hyield], hs⟩

/-- A repetition that is not left out starts **as the repeated expression does**. -/
theorem starts_rep {min : Nat} {max : Option Nat} (he : g.expr? id = some (.rep tag child min max))
    (hmin : 0 < min) (h : Starts g child P) : Starts g id P := by
  intro d hd hroot
  obtain ⟨parts, rfl, hroots, hlen, -, hparts⟩ := hd.of_rep hroot he
  cases parts with
  | nil => exact absurd hlen (Nat.not_le_of_lt hmin)
  | cons part parts =>
    obtain ⟨s, t, hyield, hs⟩ := h part (hparts part List.mem_cons_self)
      (hroots part List.mem_cons_self)
    exact ⟨s, t ++ parts.flatMap yield, by simp [hyield], hs⟩

theorem madeOf_token {text : String} (he : g.expr? id = some (.token text)) (h : P text) :
    MadeOf g id P := by
  intro d hd hroot
  rw [hd.of_token hroot he]
  exact List.forall_mem_singleton.mpr h

theorem madeOf_pattern {p : Pattern} (he : g.expr? id = some (.pattern p))
    (h : ∀ s, p.accepts s = true → P s) : MadeOf g id P := by
  intro d hd hroot
  obtain ⟨text, rfl, ha⟩ := hd.of_pattern hroot he
  exact List.forall_mem_singleton.mpr (h text ha)

theorem madeOf_omitted (he : g.expr? id = some (.omitted child)) (h : MadeOf g child P) :
    MadeOf g id P := by
  intro d hd hroot
  obtain ⟨part, rfl, hroot, hpart⟩ := hd.of_omitted hroot he
  exact h part hpart hroot

theorem madeOf_lexical (he : g.expr? id = some (.lexical child)) (h : MadeOf g child P) :
    MadeOf g id P := by
  intro d hd hroot
  obtain ⟨part, rfl, hroot, hpart⟩ := hd.of_lexical hroot he
  exact h part hpart hroot

/-- A choice is made of **what its alternatives are made of**. -/
theorem madeOf_alt (he : g.expr? id = some (.alt tag ids)) (h : ∀ c ∈ ids, MadeOf g c P) :
    MadeOf g id P := by
  intro d hd hroot
  obtain ⟨part, rfl, hc, hpart⟩ := hd.of_alt hroot he
  exact h part.root hc part hpart rfl

/-- A sequence is made of **what its parts are made of**. -/
theorem madeOf_seq (he : g.expr? id = some (.seq tag ids)) (h : ∀ c ∈ ids, MadeOf g c P) :
    MadeOf g id P := by
  intro d hd hroot s hs
  obtain ⟨parts, rfl, hroots, hparts⟩ := hd.of_seq hroot he
  rw [yield_sequence] at hs
  obtain ⟨part, hpart, hs⟩ := List.mem_flatMap.mp hs
  exact h part.root (hroots ▸ List.mem_map_of_mem hpart) part (hparts part hpart) rfl s hs

/-- A repetition is made of **what the repeated expression is made of**. -/
theorem madeOf_rep {min : Nat} {max : Option Nat}
    (he : g.expr? id = some (.rep tag child min max)) (h : MadeOf g child P) : MadeOf g id P := by
  intro d hd hroot s hs
  obtain ⟨parts, rfl, hroots, -, -, hparts⟩ := hd.of_rep hroot he
  rw [yield_sequence] at hs
  obtain ⟨part, hpart, hs⟩ := List.mem_flatMap.mp hs
  exact h part (hparts part hpart) (hroots part hpart) s hs

/-- What is made of some symbols **ends with one of them**, if it is not empty. -/
theorem MadeOf.ends (h : MadeOf g id P) : Ends g id P :=
  fun d hd hroot s hs => h d hd hroot s (List.mem_of_getLast? hs)

theorem ends_alt (he : g.expr? id = some (.alt tag ids)) (h : ∀ c ∈ ids, Ends g c P) :
    Ends g id P := by
  intro d hd hroot
  obtain ⟨part, rfl, hc, hpart⟩ := hd.of_alt hroot he
  exact h part.root hc part hpart rfl

/-- Words put together **end as one of them does**: as the last that is not empty. Empty ones at the
end are passed over. -/
theorem ends_flatMap (h : ∀ d ∈ ds, ∀ s ∈ d.yield.getLast?, P s) :
    ∀ s ∈ (ds.flatMap yield).getLast?, P s := by
  induction ds with
  | nil => simp
  | cons d ds ih =>
    obtain ⟨hd, hds⟩ := List.forall_mem_cons.mp h
    intro s hs
    rw [List.flatMap_cons, List.getLast?_append] at hs
    cases hlast : (ds.flatMap yield).getLast? with
    | none =>
      rw [hlast] at hs
      exact hd s hs
    | some s' =>
      rw [hlast] at hs
      exact ih hds s (hlast.trans hs)

/-- A sequence ends **as one of its parts does**. -/
theorem ends_seq (he : g.expr? id = some (.seq tag ids)) (h : ∀ c ∈ ids, Ends g c P) :
    Ends g id P := by
  intro d hd hroot
  obtain ⟨parts, rfl, hroots, hparts⟩ := hd.of_seq hroot he
  rw [yield_sequence]
  exact ends_flatMap fun part hpart =>
    h part.root (hroots ▸ List.mem_map_of_mem hpart) part (hparts part hpart) rfl

/-- A repetition ends **as the repeated expression does**. -/
theorem ends_rep {min : Nat} {max : Option Nat}
    (he : g.expr? id = some (.rep tag child min max)) (h : Ends g child P) : Ends g id P := by
  intro d hd hroot
  obtain ⟨parts, rfl, hroots, -, -, hparts⟩ := hd.of_rep hroot he
  rw [yield_sequence]
  exact ends_flatMap fun part hpart => h part (hparts part hpart) (hroots part hpart)

/-- What ends with a part that **is never empty** ends like this part. The others do not come last
even if it is short. -/
theorem ends_seq_last {Q : String → Prop} (front : List ExprId)
    (he : g.expr? id = some (.seq tag (front ++ [child]))) (h : Ends g child P)
    (hs : Starts g child Q) : Ends g id P := by
  intro d hd hroot
  obtain ⟨parts, rfl, hroots, hparts⟩ := hd.of_seq hroot he
  obtain ⟨_, last, rfl, -, hlast⟩ := List.map_eq_append_iff.mp hroots
  obtain ⟨part, rfl, rfl⟩ := List.map_eq_singleton_iff.mp hlast
  have hpart := hparts part (by simp)
  have hne : part.yield ≠ [] := by
    obtain ⟨s, t, hyield, -⟩ := hs part hpart rfl
    simp [hyield]
  rw [yield_sequence, List.flatMap_append, List.flatMap_singleton,
    List.getLast?_append_of_ne_nil _ hne]
  exact h part hpart rfl

/-- A run of such symbols **ends at the first** other one. So a run can be read in one way only. -/
theorem run_unique {u v : List String} (hu : ∀ s ∈ u, P s) (hv : ∀ s ∈ v, P s)
    (hrest : ∀ s ∈ rest.head?, ¬ P s) (hrest' : ∀ s ∈ rest'.head?, ¬ P s)
    (h : u ++ rest = v ++ rest') : u = v := by
  induction u generalizing v with
  | nil =>
    cases v with
    | nil => rfl
    | cons s v =>
      subst h
      exact absurd (hv s List.mem_cons_self) (hrest s rfl)
  | cons s u ih =>
    cases v with
    | nil =>
      subst h
      exact absurd (hu s List.mem_cons_self) (hrest' s rfl)
    | cons s' v =>
      obtain ⟨rfl, heq⟩ := List.cons.inj h
      rw [ih (List.forall_mem_cons.mp hu).2 (List.forall_mem_cons.mp hv).2 heq]

/-! ### Sharp expressions -/

/-- An expression is **sharp** before rests of some kind, in words up to a length. -/
def Sharp (g : Grammar) (n : Nat) (id : ExprId) (ok : List String → Prop) : Prop :=
  ∀ w d d' rest rest', w.length ≤ n → Begins g id ok w d rest → Begins g id ok w d' rest' →
    Alike d d'

/-- Expressions in order are **sharp** before rests of some kind, in words up to a length. -/
def SharpAll (g : Grammar) (n : Nat) (ids : List ExprId) (ok : List String → Prop) : Prop :=
  ∀ w ds ds' rest rest', w.length ≤ n → BeginsAll g ids ok w ds rest →
    BeginsAll g ids ok w ds' rest' → AlikeAll ds ds'

/-- What is sharp remains so **if less may follow**. -/
theorem Sharp.mono (h : Sharp g n id ok) (hok : ∀ rest, ok' rest → ok rest) :
    Sharp g n id ok' := fun w d d' rest rest' hn hd hd' =>
  h w d d' rest rest' hn (hd.mono (hok rest hd.follows)) (hd'.mono (hok rest' hd'.follows))

/-- In the **empty word** there is nothing to tell apart, if the expression derives no such
word. -/
theorem sharp_zero (h : Starts g id P) : Sharp g 0 id ok := by
  intro w d d' rest rest' hn hd hd'
  obtain ⟨s, t, rfl, -⟩ := hd.starts h
  cases hn

/-- A token is sharp **before anything**: it leaves what is behind its symbol. All its derivations
are the same. -/
theorem sharp_token {text : String} (he : g.expr? id = some (.token text)) : Sharp g n id ok := by
  intro w d d' rest rest' hn hd hd'
  rw [hd.valid.of_token hd.root he, hd'.valid.of_token hd'.root he]
  exact .symbol id text

/-- A pattern is sharp before anything, because it is matched by **one symbol**. -/
theorem sharp_pattern {p : Pattern} (he : g.expr? id = some (.pattern p)) : Sharp g n id ok := by
  intro w d d' rest rest' hn hd hd'
  obtain ⟨text, rfl, -⟩ := hd.valid.of_pattern hd.root he
  obtain ⟨text', rfl, -⟩ := hd'.valid.of_pattern hd'.root he
  obtain ⟨rfl, -⟩ := List.cons.inj (hd.word.trans hd'.word.symm)
  exact .symbol id text

/-- What is omitted has to be told from the rest **by its symbols**. How it is derived does not
matter to the output, only where it ends. -/
theorem sharp_omitted (he : g.expr? id = some (.omitted child)) (hmade : MadeOf g child P)
    (hok : ∀ rest, ok rest → ∀ s ∈ rest.head?, ¬ P s) : Sharp g n id ok := by
  intro w d d' rest rest' hn hd hd'
  obtain ⟨part, rfl, hroot, hpart⟩ := hd.valid.of_omitted hd.root he
  obtain ⟨part', rfl, hroot', hpart'⟩ := hd'.valid.of_omitted hd'.root he
  exact .omitted (run_unique (hmade part hpart hroot) (hmade part' hpart' hroot')
    (hok rest hd.follows) (hok rest' hd'.follows) (hd.word.trans hd'.word.symm))

/-- A token that is omitted is sharp **as it is by itself**. -/
theorem sharp_omitted_token {text : String} (he : g.expr? id = some (.omitted child))
    (hchild : g.expr? child = some (.token text)) : Sharp g n id ok := by
  intro w d d' rest rest' hn hd hd'
  obtain ⟨part, rfl, hroot, hpart⟩ := hd.valid.of_omitted hd.root he
  obtain ⟨part', rfl, hroot', hpart'⟩ := hd'.valid.of_omitted hd'.root he
  rw [hpart.of_token hroot hchild, hpart'.of_token hroot' hchild]
  exact .omitted rfl

theorem sharp_lexical (he : g.expr? id = some (.lexical child)) (h : Sharp g n child ok) :
    Sharp g n id ok := by
  intro w d d' rest rest' hn hd hd'
  obtain ⟨part, rfl, hroot, hpart⟩ := hd.valid.of_lexical hd.root he
  obtain ⟨part', rfl, hroot', hpart'⟩ := hd'.valid.of_lexical hd'.root he
  have halike := h w part part' rest rest' hn ⟨hpart, hroot, hd.word, hd.follows⟩
    ⟨hpart', hroot', hd'.word, hd'.follows⟩
  exact .lexical halike.yield_eq halike.text_eq

/-- A choice is sharp if its alternatives are, and **no word is begun by two of them**. A derivation
of it is known by the alternative and the derivation of that. -/
theorem sharp_alt (he : g.expr? id = some (.alt tag ids)) (h : ∀ c ∈ ids, Sharp g n c ok)
    (hapart : ∀ c ∈ ids, ∀ c' ∈ ids, ∀ w d d' rest rest', w.length ≤ n →
      Begins g c ok w d rest → Begins g c' ok w d' rest' → c = c') : Sharp g n id ok := by
  intro w d d' rest rest' hn hd hd'
  obtain ⟨part, rfl, hc, hpart⟩ := hd.of_alt he
  obtain ⟨part', rfl, hc', hpart'⟩ := hd'.of_alt he
  have hroot := hapart _ hc _ hc' w part part' rest rest' hn hpart hpart'
  exact .choice (h _ hc w part part' rest rest' hn hpart (hroot ▸ hpart'))

/-- The alternatives are apart if one can **pick** the right one by looking at the word. In most
choices of the dialect the first symbol tells. -/
theorem sharp_alt_of_pick (pick : List String → ExprId) (he : g.expr? id = some (.alt tag ids))
    (h : ∀ c ∈ ids, Sharp g n c ok)
    (hpick : ∀ c ∈ ids, ∀ w d rest, Begins g c ok w d rest → pick w = c) : Sharp g n id ok :=
  sharp_alt he h fun c hc c' hc' w d d' rest rest' _ hd hd' =>
    (hpick c hc w d rest hd).symm.trans (hpick c' hc' w d' rest' hd')

/-- No word is begun by **two expressions**. -/
def Apart (g : Grammar) (n : Nat) (ok : List String → Prop) (c c' : ExprId) : Prop :=
  ∀ w d d' rest rest', w.length ≤ n → Begins g c ok w d rest → ¬ Begins g c' ok w d' rest'

/-- It is enough to keep **each alternative apart from those after it**. -/
theorem sharp_alt_of_apart (he : g.expr? id = some (.alt tag ids))
    (h : ∀ c ∈ ids, Sharp g n c ok) (hapart : ids.Pairwise (Apart g n ok)) : Sharp g n id ok := by
  refine sharp_alt he h fun c hc c' hc' w d d' rest rest' hn hd hd' => by_contra fun hne => ?_
  have hsymm : Std.Symm (Apart g n ok) :=
    ⟨fun _ _ h w d d' rest rest' hn hd hd' => h w d' d rest' rest hn hd' hd⟩
  exact hapart.forall hc hc' hne w d d' rest rest' hn hd hd'

theorem sharpAll_nil : SharpAll g n [] ok := by
  intro w ds ds' rest rest' hn hds hds'
  obtain ⟨rfl, -⟩ := hds.eq_nil
  obtain ⟨rfl, -⟩ := hds'.eq_nil
  exact .nil

/-- A first expression has to be sharp before **what the others begin**. The bounds on lengths add
up, so that recursion through the first expression gets shorter words. -/
theorem sharpAll_cons {ok₁ : List String → Prop} (h : Sharp g (n + k) id ok₁)
    (hs : SharpAll g n ids ok)
    (hlen : ∀ d : Derivation, d.Valid g → d.root = id → k ≤ d.yield.length)
    (hok : ∀ w ds rest, BeginsAll g ids ok w ds rest → ok₁ w) :
    SharpAll g (n + k) (id :: ids) ok := by
  intro w ds ds' rest rest' hn hds hds'
  obtain ⟨d, ds, w₁, rfl, hd, hds⟩ := hds.exists_cons
  obtain ⟨d', ds', w₁', rfl, hd', hds'⟩ := hds'.exists_cons
  have halike := h w d d' w₁ w₁' hn (hd.mono (hok _ _ _ hds)) (hd'.mono (hok _ _ _ hds'))
  obtain rfl := hd.rest_eq hd' halike
  refine .cons halike (hs w₁ ds ds' rest rest' ?_ hds hds')
  have hle := hlen d hd.valid hd.root
  have hword := congrArg List.length hd.word
  rw [List.length_append] at hword
  omega

/-- Expressions in order are sharp if each is sharp **before whatever the next ones begin**. The
rest of the first is what the others begin. -/
theorem SharpAll.cons {ok₁ : List String → Prop} (h : Sharp g n id ok₁) (hs : SharpAll g n ids ok)
    (hok : ∀ w ds rest, BeginsAll g ids ok w ds rest → ok₁ w) : SharpAll g n (id :: ids) ok :=
  sharpAll_cons (k := 0) h hs (fun _ _ _ => Nat.zero_le _) hok

/-- After an expression that derives no empty word **the words are shorter**. This is where a
recursive grammar comes down, as its parts see fewer symbols. -/
theorem SharpAll.cons_succ {ok₁ : List String → Prop} (h : Sharp g (n + 1) id ok₁)
    (hs : SharpAll g n ids ok) (hstarts : Starts g id P)
    (hok : ∀ w ds rest, BeginsAll g ids ok w ds rest → ok₁ w) : SharpAll g (n + 1) (id :: ids) ok :=
  sharpAll_cons h hs (fun _ hd hroot => hstarts.length_pos hd hroot) hok

/-- A token that leaves no trace may stand **before anything**. -/
theorem SharpAll.cons_token {text : String} (hs : SharpAll g n ids ok)
    (he : g.expr? id = some (.omitted child)) (hchild : g.expr? child = some (.token text)) :
    SharpAll g n (id :: ids) ok := by
  have hany : Sharp g n id fun _ => True := sharp_omitted_token he hchild
  exact .cons hany hs fun _ _ _ _ => trivial

theorem sharpAll_singleton (h : Sharp g n id ok) : SharpAll g n [id] ok :=
  .cons h sharpAll_nil fun _ _ _ hds => hds.eq_nil.2 ▸ hds.follows

/-- A sequence is sharp **as its parts in order are**. Its derivations are derivations of its parts
in order. -/
theorem sharp_seq (he : g.expr? id = some (.seq tag ids)) (h : SharpAll g n ids ok) :
    Sharp g n id ok := by
  intro w d d' rest rest' hn hd hd'
  obtain ⟨parts, rfl, hparts⟩ := hd.of_seq he
  obtain ⟨parts', rfl, hparts'⟩ := hd'.of_seq he
  exact .sequence (h w parts parts' rest rest' hn hparts hparts')

/-- Iterations are sharp when each is, before what may follow it, and **what may follow them
all** does not begin another. -/
theorem alikeAll_of_iterations {ok₁ : List String → Prop} (h : Sharp g n child ok₁)
    (hnext : ∀ k w ds rest, BeginsAll g (List.replicate k child) ok w ds rest → ok₁ w)
    (hstop : ∀ k w ds rest, w.length ≤ n →
      BeginsAll g (List.replicate (k + 1) child) ok w ds rest → ¬ ok w)
    (hn : w.length ≤ n) {k' : Nat}
    (hds : BeginsAll g (List.replicate k child) ok w ds rest)
    (hds' : BeginsAll g (List.replicate k' child) ok w ds' rest') : AlikeAll ds ds' := by
  induction k generalizing k' w ds ds' with
  | zero =>
    obtain ⟨rfl, rfl⟩ := hds.eq_nil
    cases k' with
    | zero =>
      obtain ⟨rfl, -⟩ := hds'.eq_nil
      exact .nil
    | succ k' => exact absurd hds.follows (hstop k' w ds' rest' hn hds')
  | succ k ih =>
    cases k' with
    | zero =>
      obtain ⟨rfl, rfl⟩ := hds'.eq_nil
      exact absurd hds'.follows (hstop k w ds rest hn hds)
    | succ k' =>
      obtain ⟨d, ds, w₁, rfl, hd, hds⟩ := hds.exists_cons
      obtain ⟨d', ds', w₁', rfl, hd', hds'⟩ := hds'.exists_cons
      have halike := h w d d' w₁ w₁' hn (hd.mono (hnext _ _ _ _ hds))
        (hd'.mono (hnext _ _ _ _ hds'))
      obtain rfl := hd.rest_eq hd' halike
      refine .cons halike (ih ?_ hds hds')
      have hword := congrArg List.length hd.word
      rw [List.length_append] at hword
      omega

/-- A repetition is sharp if the repeated expression is, before itself and before the end, and **if
it cannot go on where it may stop**. So there is one number of iterations at most. -/
theorem sharp_rep {ok₁ : List String → Prop} {min : Nat} {max : Option Nat}
    (he : g.expr? id = some (.rep tag child min max)) (h : Sharp g n child ok₁)
    (hnext : ∀ k w ds rest, BeginsAll g (List.replicate k child) ok w ds rest → ok₁ w)
    (hstop : ∀ k w ds rest, w.length ≤ n →
      BeginsAll g (List.replicate (k + 1) child) ok w ds rest → ¬ ok w) : Sharp g n id ok := by
  intro w d d' rest rest' hn hd hd'
  obtain ⟨parts, rfl, -, hparts⟩ := hd.of_rep he
  obtain ⟨parts', rfl, -, hparts'⟩ := hd'.of_rep he
  exact .sequence (alikeAll_of_iterations h hnext hstop hn hparts hparts')

end Derivation

end GeneralParsing
