import GeneralParsing.Proofs.Grammar.Chains
import GeneralParsing.Proofs.Rules.Compile

/-!
# How compiling rules ends

Compiling rules stops at a flaw: a pattern that cannot be read, a repetition whose bounds are the
wrong way round, a visible rule that lists itself, or a name with two rules. Rules without flaws are
compiled to the end, and it turns out then which names have no rule (`rules_ends`).

`Ends` says of a part of compiling what holds when it comes to a value and which errors it may have.
It is proved part by part, along with what is known by name (`Knows`): the names that were met, each
once and in order, and those among them that have a rule.
-/

namespace GeneralParsing

/-! ### Lists without repetitions -/

section

variable {α : Type} [DecidableEq α]

/-- One more at the end is kept **if it is new**. -/
theorem eraseDups_concat (as : List α) (a : α) :
    (as ++ [a]).eraseDups = if a ∈ as then as.eraseDups else as.eraseDups ++ [a] := by
  have hsingle : [a].eraseDups = [a] := List.eraseDups_cons
  rw [List.eraseDups_append, List.removeAll]
  by_cases ha : a ∈ as
  · simp [ha]
  · simp [ha, hsingle]

/-- It makes no difference whether repetitions are dropped **before or after** picking. Names are
collected once each, and picked by whether they have a rule. -/
theorem filter_eraseDups (p : α → Bool) (as : List α) :
    as.eraseDups.filter p = (as.filter p).eraseDups := by
  induction as using List.reverseRecOn with
  | nil => rfl
  | append_singleton as a ih =>
    rw [eraseDups_concat, List.filter_append, List.filter_singleton]
    by_cases ha : a ∈ as <;> cases hp : p a <;> simp [ha, hp, ih, eraseDups_concat]

end

/-! ### Flaws -/

namespace Phrase

/-- The phrases that a phrase **is made of**. -/
def parts : Phrase → List Phrase
  | .seq ps | .alt ps => ps
  | .repeated p _ | .omitted p | .lexical p => [p]
  | .symbol _ | .literal _ | .pattern _ => []

mutual

/-- A phrase and **all phrases in it**, from left to right. -/
def subphrases : Phrase → List Phrase
  | .symbol name => [.symbol name]
  | .literal text => [.literal text]
  | .pattern source => [.pattern source]
  | .seq ps => .seq ps :: subphrasesAll ps
  | .alt ps => .alt ps :: subphrasesAll ps
  | .repeated p quantifier => .repeated p quantifier :: p.subphrases
  | .omitted p => .omitted p :: p.subphrases
  | .lexical p => .lexical p :: p.subphrases

/-- Phrases and all phrases in them. -/
def subphrasesAll : List Phrase → List Phrase
  | [] => []
  | p :: ps => p.subphrases ++ subphrasesAll ps

end

/-- The name **of a symbol**. -/
def symbol? : Phrase → Option String
  | .symbol name => some name
  | _ => none

/-- The names that a phrase **refers to**, as often as it does. -/
def symbols (p : Phrase) : List String := p.subphrases.filterMap symbol?

/-- What is **wrong with a phrase** itself, whatever its parts. -/
inductive Flaw [PatternReader] : Phrase → Error → Prop
  /-- The pattern cannot be read. -/
  | pattern {source : String} (h : ∀ p, Pattern.read source ≠ .ok p) :
      Flaw (.pattern source) (.invalidPattern source)
  /-- The least number exceeds the greatest. -/
  | bounds {part : Phrase} {n m : Nat} (h : m < n) :
      Flaw (.repeated part (.minMax n m)) (.invalidBounds n m)

/-- A repetition is flawed itself only by **bounds in the wrong order**, and the error says which.
-/
theorem flaw_repeated_iff [PatternReader] (p : Phrase) (quantifier : Quantifier) (e : Error) :
    (repeated p quantifier).Flaw e ↔ ∃ m, quantifier.bounds.2 = some m ∧ m < quantifier.bounds.1 ∧
      e = .invalidBounds quantifier.bounds.1 m := by
  constructor
  · intro h
    cases h with
    | bounds hlt => exact ⟨_, rfl, hlt, rfl⟩
  · rintro ⟨m, hm, hlt, rfl⟩
    cases quantifier with
    | minMax n m' =>
      cases hm
      exact .bounds hlt
    | question | exact =>
      cases hm
      exact absurd hlt (by simp [Quantifier.bounds])
    | star | plus | min => cases hm

/-- Something **in the phrase** is wrong. -/
def Flawed [PatternReader] (p : Phrase) (e : Error) : Prop := ∃ q ∈ p.subphrases, q.Flaw e

theorem subphrasesAll_eq (ps : List Phrase) : subphrasesAll ps = ps.flatMap subphrases := by
  induction ps with
  | nil => rfl
  | cons p ps ih => rw [subphrasesAll, ih, List.flatMap_cons]

/-- The phrases in a phrase are **the phrase and those in its parts**, which covers all kinds at
once. -/
theorem subphrases_eq (p : Phrase) : p.subphrases = p :: p.parts.flatMap subphrases := by
  cases p <;> simp [subphrases, subphrasesAll_eq, parts]

theorem symbols_eq (p : Phrase) : p.symbols = p.symbol?.toList ++ p.parts.flatMap symbols := by
  rw [symbols, subphrases_eq, List.filterMap_cons, List.filterMap_flatMap]
  cases p.symbol? <;> rfl

/-- The names that a phrase refers to are those **of the symbols in it**. -/
theorem mem_symbols {p : Phrase} {name : String} :
    name ∈ p.symbols ↔ .symbol name ∈ p.subphrases := by
  rw [symbols, List.mem_filterMap]
  constructor
  · rintro ⟨q, hq, hname⟩
    cases q <;> cases hname
    exact hq
  · exact fun h => ⟨_, h, rfl⟩

/-- A phrase is flawed **by itself or in its parts**. -/
theorem flawed_iff [PatternReader] {p : Phrase} {e : Error} :
    p.Flawed e ↔ p.Flaw e ∨ ∃ q ∈ p.parts, q.Flawed e := by
  simp only [Flawed, subphrases_eq p, List.mem_cons, List.mem_flatMap]
  constructor
  · rintro ⟨q, rfl | ⟨x, hx, hq⟩, hflaw⟩
    · exact .inl hflaw
    · exact .inr ⟨x, hx, q, hq, hflaw⟩
  · rintro (hflaw | ⟨x, hx, q, hq, hflaw⟩)
    · exact ⟨p, .inl rfl, hflaw⟩
    · exact ⟨q, .inr ⟨x, hx, hq⟩, hflaw⟩

end Phrase

/-- Something **in the rules** is wrong. -/
inductive Rule.Flawed [PatternReader] (rs : List Rule) : Error → Prop
  /-- A visible rule lists itself. -/
  | lost {r : Rule} (hr : r ∈ rs) (hvisible : r.hidden = false) (h : r.listsItself = true) :
      Flawed rs (.lostNamedNode r.name)
  /-- Two rules have the same name. -/
  | duplicate {name : String} (h : (rs.map Rule.name).Duplicate name) :
      Flawed rs (.duplicateSymbol name)
  /-- The body of a rule is flawed. -/
  | body {r : Rule} {e : Error} (hr : r ∈ rs) (h : r.body.Flawed e) : Flawed rs e

/-- The names that a rule **meets**: its own and those that it refers to. -/
def Rule.mentions (r : Rule) : List String := r.name :: r.body.symbols

/-- The names that rules **refer to and do not define**, each once, in the order in which they are
first referred to. -/
def Rule.undefined (rs : List Rule) : List String :=
  ((rs.flatMap fun r => r.body.symbols).filter fun name =>
    decide (name ∉ rs.map Rule.name)).eraseDups

/-- No name is missing just when **every symbol in a body has a rule**. Whether other rules have
flaws does not matter here. -/
theorem Rule.undefined_eq_nil_iff {rs : List Rule} : Rule.undefined rs = [] ↔
    ∀ r ∈ rs, ∀ name, .symbol name ∈ r.body.subphrases → ∃ r' ∈ rs, r'.name = name := by
  rw [Rule.undefined, List.eq_nil_iff_forall_not_mem]
  simp only [List.mem_eraseDups, List.mem_filter, List.mem_flatMap, decide_eq_true_eq, not_and,
    not_not, List.mem_map, Phrase.mem_symbols]
  exact ⟨fun h r hr name hname => h name ⟨r, hr, hname⟩,
    fun h name ⟨r, hr, hname⟩ => h r hr name hname⟩

example : Rule.undefined [⟨"a", false, .seq [.symbol "c", .symbol "a", .symbol "b"]⟩,
    ⟨"d", true, .symbol "c"⟩] = ["c", "b"] := by decide

/-- What is wrong **stays wrong** among more rules. A flaw is found in a rule or in two of them, and
both are still there. -/
theorem Rule.Flawed.mono [PatternReader] {rs rs' : List Rule} {e : Error} (h : Rule.Flawed rs e)
    (hsub : rs.Sublist rs') : Rule.Flawed rs' e := by
  cases h with
  | lost hr hvisible hlists => exact .lost (hsub.subset hr) hvisible hlists
  | duplicate hd => exact .duplicate (hd.mono_sublist (hsub.map Rule.name))
  | body hr hbody => exact .body (hsub.subset hr) hbody

/-- Rules without flaws are, one by one, **free of them**, and have different names. -/
theorem Rule.not_flawed_iff [PatternReader] {rs : List Rule} : (∀ e, ¬ Rule.Flawed rs e) ↔
    (rs.map Rule.name).Nodup ∧
      ∀ r ∈ rs, (r.hidden = false → r.listsItself = false) ∧ ∀ e, ¬ r.body.Flawed e := by
  constructor
  · intro h
    refine ⟨List.nodup_iff_forall_not_duplicate.mpr fun name hd => h _ (.duplicate hd),
      fun r hr => ⟨fun hvisible => ?_, fun e he => h e (.body hr he)⟩⟩
    exact Bool.eq_false_iff.mpr fun hlists => h _ (.lost hr hvisible hlists)
  · rintro ⟨hnodup, hrs⟩ e he
    cases he with
    | lost hr hvisible hlists => exact Bool.eq_false_iff.mp ((hrs _ hr).1 hvisible) hlists
    | duplicate hd => exact List.nodup_iff_forall_not_duplicate.mp hnodup _ hd
    | body hr hbody => exact (hrs _ hr).2 e hbody

/-- A rule whose name has been defined makes the names **repeat themselves**. -/
theorem Rule.duplicate_concat {rs : List Rule} {r : Rule} (h : r.name ∈ rs.map Rule.name) :
    ((rs ++ [r]).map Rule.name).Duplicate r.name := by
  rw [List.duplicate_iff_sublist, List.map_append]
  exact (List.singleton_sublist.mpr h).append (List.Sublist.refl [r.name])

/-- Rules without flaws **take another one** that has none and a new name. -/
theorem Rule.not_flawed_concat [PatternReader] {rs : List Rule} {r : Rule}
    (h : ∀ e, ¬ Rule.Flawed rs e)
    (hkept : r.hidden = false → r.listsItself = false) (hnew : r.name ∉ rs.map Rule.name)
    (hbody : ∀ e, ¬ r.body.Flawed e) : ∀ e, ¬ Rule.Flawed (rs ++ [r]) e := by
  obtain ⟨hnodup, hrs⟩ := Rule.not_flawed_iff.mp h
  refine Rule.not_flawed_iff.mpr ⟨?_, fun r' hr' => ?_⟩
  · rw [List.map_append, List.nodup_append_comm]
    exact List.nodup_cons.mpr ⟨hnew, hnodup⟩
  · rcases List.mem_append.mp hr' with hr' | hr'
    · exact hrs r' hr'
    · obtain rfl := List.mem_singleton.mp hr'
      exact ⟨hkept, hbody⟩

namespace Compile

/-! ### Ends of runs -/

/-- **How a part of compiling ends**: either it comes to a value, and then something holds of the
value and the scope, or it stops at an error, of which something else holds. -/
structure Ends {α : Type} (x : Compile α) (s : Scope) (b : Builder) (post : α → Scope → Prop)
    (fault : Error → Prop) : Prop where
  comes : ∀ a s' b', Comes x s b a s' b' → post a s'
  stops : ∀ e b', (x.run s).run.run b = (.error e, b') → fault e

section

variable {α β : Type} {s : Scope} {b : Builder} {post post' : α → Scope → Prop}
variable {fault fault' : Error → Prop}

/-- What holds at the end **may be weakened**. -/
theorem Ends.imp {x : Compile α} (h : Ends x s b post fault)
    (hpost : ∀ a s', post a s' → post' a s') : Ends x s b post' fault :=
  ⟨fun a s' b' hx => hpost a s' (h.comes a s' b' hx), h.stops⟩

/-- What is said of an error **may be weakened**. -/
theorem Ends.fault_imp {x : Compile α} (h : Ends x s b post fault)
    (hfault : ∀ e, fault e → fault' e) : Ends x s b post fault' :=
  ⟨h.comes, fun e b' hx => hfault e (h.stops e b' hx)⟩

/-- A value is **its own end**, and the scope stays as it is. -/
theorem Ends.pure {a : α} (h : post a s) : Ends (pure a) s b post fault := by
  refine ⟨fun a' s' b' hx => ?_, fun e b' hx => ?_⟩
  · obtain ⟨rfl, rfl, rfl⟩ := Comes.pure_inv hx
    exact h
  · cases hx

/-- A run that fails **ends with the fault**. -/
theorem Ends.throw {e : Error} (h : fault e) : Ends (throw e : Compile α) s b post fault := by
  refine ⟨fun a s' b' hx => absurd hx not_comes_throw, fun e' b' hx => ?_⟩
  cases hx
  exact h

/-- What comes next **starts where the part before it ends**. Faults of both parts have to be of the
kind that is claimed. -/
theorem Ends.bind {x : Compile α} {k : α → Compile β} {mid : α → Scope → Prop}
    {post : β → Scope → Prop} (h : Ends x s b mid fault)
    (hk : ∀ a s' b', Comes x s b a s' b' → mid a s' → Ends (k a) s' b' post fault) :
    Ends (x >>= k) s b post fault := by
  refine ⟨fun c s'' b'' hx => ?_, fun e b'' hx => ?_⟩
  · obtain ⟨a, s', b', ha, hc⟩ := hx.bind_inv
    exact (hk a s' b' ha (h.comes a s' b' ha)).comes c s'' b'' hc
  · rw [bind_run] at hx
    split at hx
    · next a s' b' ha => exact (hk a s' b' ha (h.comes a s' b' ha)).stops e b'' hx
    · next he =>
      cases hx
      exact h.stops e b'' he

theorem Ends.get_bind {k : Scope → Compile β} {post : β → Scope → Prop}
    (h : Ends (k s) s b post fault) : Ends (get >>= k) s b post fault :=
  ⟨fun c s' b' hx => h.comes c s' b' hx.get_bind_inv, fun e b' hx => h.stops e b' hx⟩

theorem Ends.modify_bind {f : Scope → Scope} {k : Unit → Compile β} {post : β → Scope → Prop}
    (h : Ends (k ()) (f s) b post fault) : Ends (modify f >>= k) s b post fault :=
  ⟨fun c s' b' hx => h.comes c s' b' hx.modify_bind_inv, fun e b' hx => h.stops e b' hx⟩

theorem Ends.modify {f : Scope → Scope} {post : Unit → Scope → Prop} (h : post () (f s)) :
    Ends (modify f) s b post fault := by
  refine ⟨fun u s' b' hx => ?_, fun e b' hx => ?_⟩
  · obtain ⟨rfl, rfl⟩ := hx.modify_inv
    exact h
  · cases hx

/-- An operation of the builder ends **in the scope it starts in**. -/
theorem Ends.build {x : Build α} (hpost : ∀ a b', x.run.run b = (.ok a, b') → post a s)
    (hfault : ∀ e b', x.run.run b = (.error e, b') → fault e) :
    Ends (liftM x) s b post fault := by
  refine ⟨fun a s' b' hx => ?_, fun e b' hx => ?_⟩
  · obtain ⟨rfl, ha⟩ := hx.build_inv
    exact hpost a b' ha
  · rw [build_run] at hx
    split at hx
    · cases hx
    · next he =>
      cases hx
      exact hfault e b' he

/-! ### What meets no symbols -/

/-- A part of compiling that comes to a value and **meets no symbols**. -/
def Leaves (x : Compile α) : Prop :=
  ∀ s b, Ends x s b (fun _ s' => s'.symbols = s.symbols) fun _ => False

/-- A part that meets no symbols **cannot fail** and keeps the symbols of the scope. -/
theorem Leaves.ends {x : Compile α} (h : Leaves x) :
    Ends x s b (fun _ s' => s'.symbols = s.symbols) fault :=
  (h s b).fault_imp fun _ => False.elim

/-- Parts that meet no symbols **may follow one another**. They may build as much as they like. -/
theorem Leaves.bind {x : Compile α} {k : α → Compile β} (h : Leaves x) (hk : ∀ a, Leaves (k a)) :
    Leaves (x >>= k) := fun s b =>
  (h s b).bind fun a s' b' _ hsame =>
    (hk a s' b').imp fun _ _ h => h.trans hsame

theorem leaves_pure (a : α) : Leaves (pure a) := fun _ _ => .pure rfl

/-- Adding an expression **concerns the builder** only, not the scope. -/
theorem leaves_add (e : Expr) : Leaves (liftM (Builder.add e)) := fun _ _ =>
  .build (fun _ _ _ => rfl) fun _ _ hx => by cases hx

theorem leaves_mapM {f : β → Compile α} (h : ∀ c, Leaves (f c)) (cs : List β) :
    Leaves (cs.mapM f) := by
  induction cs with
  | nil => exact leaves_pure []
  | cons c cs ih =>
    rw [List.mapM_cons]
    exact (h c).bind fun _ => ih.bind fun _ => leaves_pure _

theorem leaves_carrying (tag : Option String) (id : ExprId) : Leaves (carrying tag id) := by
  cases tag with
  | none => exact leaves_pure id
  | some tag => exact leaves_add _

theorem leaves_literalToken (text : String) : Leaves (literalToken text) := by
  intro s b
  rw [literalToken]
  refine .get_bind ?_
  split
  · exact .pure rfl
  · have htoken : Leaves (liftM (Builder.token text)) := by
      rw [Builder.token]
      split <;> exact leaves_add _
    exact htoken.ends.bind fun id s' b' _ hsame => .modify_bind (.pure hsame)

/-- A literal is compiled **without a look at the names**, split into letters or not. Literals are
kept apart from names. -/
theorem leaves_literal (split : Bool) (tag : Option String) (text : String) :
    Leaves (literal split tag text) := by
  rw [literal]
  split
  · exact leaves_add _
  · split
    · exact (leaves_mapM (fun _ => leaves_literalToken _) _).bind fun _ => leaves_add _
    · exact (leaves_literalToken text).bind fun id => leaves_carrying tag id

end

/-! ### What is known by name -/

/-- A scope **knows names**: those that were met, each once and in order, and those among them that
have a rule. -/
structure Knows (s : Scope) (met ruled : List String) : Prop where
  names : s.symbols.map SymbolEntry.name = met.eraseDups
  rules : ∀ entry ∈ s.symbols, entry.defined = true ↔ entry.name ∈ ruled
  subset : ruled ⊆ met

section

variable {s s' : Scope} {b : Builder} {met ruled : List String} {name : String} {split : Bool}
variable {fault : Error → Prop} {α : Type}

/-- What is known by name depends **only on the symbols** of the scope. -/
theorem Knows.congr (h : Knows s met ruled) (hs : s'.symbols = s.symbols) : Knows s' met ruled :=
  ⟨hs ▸ h.names, hs ▸ h.rules, h.subset⟩

/-- There is an entry for a name **just when it was met**. -/
theorem Knows.exists_entry (h : Knows s met ruled) :
    (∃ entry ∈ s.symbols, entry.name = name) ↔ name ∈ met := by
  rw [← List.mem_eraseDups, ← h.names, List.mem_map]

/-- A symbol is found **if its name was met**. What is found has the name, and the first entry of a
name is the only one. -/
theorem Knows.find (h : Knows s met ruled) (name : String) :
    (name ∈ met ∧ ∃ entry ∈ s.symbols, entry.name = name ∧
      s.symbols.find? (·.name = name) = some entry) ∨
    (name ∉ met ∧ s.symbols.find? (·.name = name) = none) := by
  rw [← h.exists_entry]
  cases hfind : s.symbols.find? (·.name = name) with
  | some entry =>
    have hentry := List.mem_of_find?_eq_some hfind
    have hname : entry.name = name := by simpa using List.find?_some hfind
    exact .inl ⟨⟨entry, hentry, hname⟩, entry, hentry, hname, rfl⟩
  | none =>
    refine .inr ⟨?_, rfl⟩
    simpa using hfind

/-- Looking for the slot of a name **always finds one**, and the name has been met afterwards. So
compiling does not fail at a name without a rule, which may come later. -/
theorem symbolSlot_ends (h : Knows s met ruled) :
    Ends (symbolSlot name) s b (fun _ s' => Knows s' (met ++ [name]) ruled) fault := by
  have hsubset : ruled ⊆ met ++ [name] := List.subset_append_of_subset_left _ h.subset
  rw [symbolSlot]
  refine .get_bind ?_
  rcases h.find name with ⟨hmet, entry, -, -, hfind⟩ | ⟨hmet, hfind⟩
  · rw [hfind]
    exact .pure ⟨by rw [eraseDups_concat, if_pos hmet, h.names], h.rules, hsubset⟩
  · rw [hfind]
    have hdeclare : Ends (liftM Builder.declare) s b (fun _ s' => s' = s) fault :=
      .build (fun _ _ _ => rfl) fun _ _ hx => by cases hx
    refine hdeclare.bind fun slot s' b' _ hs' => ?_
    subst hs'
    refine .modify_bind (.pure ⟨?_, ?_, hsubset⟩)
    · rw [eraseDups_concat, if_neg hmet, ← h.names, List.map_append]
      rfl
    · intro entry hentry
      rcases List.mem_append.mp hentry with hentry | hentry
      · exact h.rules entry hentry
      · obtain rfl := List.mem_singleton.mp hentry
        exact iff_of_false Bool.false_ne_true fun hruled => hmet (h.subset hruled)

/-- Marking a name as defined fails **just when it has been defined** before. Names are met before
they are marked. -/
theorem markDefined_ends (h : Knows s met ruled) (hname : name ∈ met) :
    Ends (markDefined name) s b (fun _ s' => name ∉ ruled ∧ Knows s' met (ruled ++ [name]))
      fun e => name ∈ ruled ∧ e = .duplicateSymbol name := by
  rw [markDefined]
  refine .get_bind ?_
  rcases h.find name with ⟨-, entry, hentry, rfl, hfind⟩ | ⟨hmet, -⟩
  · rw [hfind]
    have hruled := h.rules entry hentry
    obtain ⟨name, slot, defined⟩ := entry
    cases defined with
    | true => exact .throw ⟨hruled.mp rfl, rfl⟩
    | false =>
      have hnew : name ∉ ruled := fun hmem => Bool.false_ne_true (hruled.mpr hmem)
      refine .modify ⟨hnew, ?_, ?_, ?_⟩
      · rw [List.map_map, ← h.names]
        refine List.map_congr_left fun entry _ => ?_
        change SymbolEntry.name (if _ then _ else _) = _
        split <;> rfl
      · intro entry hentry
        obtain ⟨old, hold, rfl⟩ := List.mem_map.mp hentry
        split
        · next heq => simp [heq]
        · next hne => simpa [hne] using h.rules old hold
      · simpa [List.append_subset] using ⟨h.subset, hname⟩
  · exact absurd hname hmet

/-! ### Phrases -/

variable [PatternReader]

/-- Phrases have been **passed** without a flaw, and their symbols are known. -/
structure Passed (ps : List Phrase) (met ruled : List String) (s : Scope) : Prop where
  sound : ∀ p ∈ ps, ∀ e, ¬ p.Flawed e
  knows : Knows s (met ++ ps.flatMap Phrase.symbols) ruled

/-- Having been passed depends **only on the symbols** of the scope. -/
theorem Passed.congr {ps : List Phrase} (h : Passed ps met ruled s)
    (hs : s'.symbols = s.symbols) : Passed ps met ruled s' :=
  ⟨h.sound, h.knows.congr hs⟩

/-- Phrases are passed **one after another**. -/
theorem Passed.cons {p : Phrase} {ps : List Phrase} (h : Passed [p] met ruled s)
    (hs : Passed ps (met ++ p.symbols) ruled s') : Passed (p :: ps) met ruled s' where
  sound := List.forall_mem_cons.mpr ⟨h.sound p List.mem_cons_self, hs.sound⟩
  knows := by
    rw [List.flatMap_cons, ← List.append_assoc]
    exact hs.knows

/-- A phrase is passed **when its parts are**, if it is no symbol and has no flaw itself. The names
in it are those in its parts. -/
theorem Passed.phrase {p : Phrase} (h : Passed p.parts met ruled s) (hflaw : ∀ e, ¬ p.Flaw e)
    (hsymbol : p.symbol? = none) : Passed [p] met ruled s where
  sound q hq e he := by
    obtain rfl := List.mem_singleton.mp hq
    rcases Phrase.flawed_iff.mp he with he | ⟨x, hx, he⟩
    · exact hflaw e he
    · exact h.sound x hx e he
  knows := by
    rw [List.flatMap_singleton, Phrase.symbols_eq, hsymbol]
    exact h.knows

theorem passed_nil (h : Knows s met ruled) : Passed [] met ruled s where
  sound := by simp
  knows := by simpa using h

/-- Building a repetition fails **just for the flaw of its bounds**. -/
theorem rep_ends {inner : ExprId} {p : Phrase} {quantifier : Quantifier} {tag : Option String} :
    Ends (liftM (Builder.rep inner tag quantifier.bounds.1 quantifier.bounds.2)) s b
      (fun _ s' => s'.symbols = s.symbols ∧ ∀ e, ¬ (Phrase.repeated p quantifier).Flaw e)
      (Phrase.repeated p quantifier).Flaw := by
  have hflaw := Phrase.flaw_repeated_iff p quantifier
  generalize quantifier.bounds = bounds at hflaw ⊢
  obtain ⟨min, max⟩ := bounds
  cases max with
  | none =>
    refine (leaves_add _).ends.imp fun _ _ hs => ⟨hs, fun e he => ?_⟩
    obtain ⟨m, hm, -⟩ := (hflaw e).mp he
    cases hm
  | some m =>
    simp only [Builder.rep]
    split
    · next hlt =>
      refine .build (fun _ _ hx => by cases hx) fun e b' hx => (hflaw e).mpr ?_
      cases hx
      exact ⟨m, rfl, hlt, rfl⟩
    · next hle =>
      refine (leaves_add _).ends.imp fun _ _ hs => ⟨hs, fun e he => ?_⟩
      obtain ⟨m', hm, hlt, -⟩ := (hflaw e).mp he
      cases hm
      exact hle hlt

/-- Building a pattern fails **just for the flaw of its source**. -/
theorem pattern_ends {source : String} : Ends (liftM (Builder.pattern source)) s b
    (fun _ s' => s'.symbols = s.symbols ∧ ∀ e, ¬ (Phrase.pattern source).Flaw e)
    (Phrase.pattern source).Flaw := by
  rw [Builder.pattern]
  cases hp : Pattern.read source with
  | ok p =>
    refine (leaves_add (.pattern p)).ends.imp fun _ _ hs => ⟨hs, ?_⟩
    rintro e ⟨hunread⟩
    exact hunread p hp
  | error e =>
    refine .build (fun _ _ hx => by cases hx) fun e' b' hx => ?_
    cases hx
    rw [Pattern.read_error hp]
    refine .pattern fun p hp' => ?_
    rw [hp] at hp'
    cases hp'

/-- What is wrong with the only part is wrong **with one of the parts**. -/
theorem Ends.parts {x : Compile α} {p : Phrase}
    (h : Ends x s b (fun _ => Passed [p] met ruled) p.Flawed) :
    Ends x s b (fun _ => Passed [p] met ruled) fun e => ∃ q ∈ [p], q.Flawed e :=
  h.fault_imp fun _ he => ⟨p, List.mem_cons_self, he⟩

/-- **Above its parts** a phrase has no flaw, unless it is a repetition. The expression around the
parts is added last, and adding does not fail. -/
theorem Ends.of_parts {x : Compile α} {k : α → Compile ExprId} {p : Phrase}
    (hx : Ends x s b (fun _ => Passed p.parts met ruled) fun e => ∃ q ∈ p.parts, q.Flawed e)
    (hk : ∀ a, Leaves (k a)) (hflaw : ∀ e, ¬ p.Flaw e) (hsymbol : p.symbol? = none) :
    Ends (x >>= k) s b (fun _ => Passed [p] met ruled) p.Flawed := by
  refine (hx.fault_imp fun e he => ?_).bind fun a s₁ b₁ _ h₁ => ?_
  · exact Phrase.flawed_iff.mpr (.inr he)
  · exact (hk a).ends.imp fun _ s' hs => Passed.phrase (h₁.congr hs) hflaw hsymbol

mutual

/-- **A phrase** is passed, or a flaw in it is found. What has been met is told together with it, in
the order in which names were met first. -/
theorem phrase_ends : ∀ (p : Phrase) {s : Scope} {b : Builder} {met : List String}
    {tag : Option String}, Knows s met ruled →
    Ends (phrase split tag p) s b (fun _ => Passed [p] met ruled) p.Flawed
  | .symbol name, s, b, met, tag, h => by
    rw [phrase]
    refine (symbolSlot_ends h).bind fun slot s₁ b₁ _ h₁ => ?_
    refine (leaves_carrying tag slot).ends.imp fun _ s' hs => ⟨fun q hq e he => ?_, ?_⟩
    · -- a symbol has no flaw; whether it has a rule is looked at in the end
      obtain rfl := List.mem_singleton.mp hq
      rcases Phrase.flawed_iff.mp he with he | ⟨x, hx, -⟩
      · cases he
      · cases hx
    · rw [List.flatMap_singleton, Phrase.symbols_eq]
      exact h₁.congr hs
  | .literal text, s, b, met, tag, h => by
    rw [phrase]
    exact (leaves_literal split tag text).ends.imp fun _ s' hs =>
      Passed.phrase (passed_nil (h.congr hs)) nofun rfl
  | .pattern source, s, b, met, tag, h => by
    rw [phrase]
    refine (pattern_ends.fault_imp fun e he => ?_).bind fun inner s₁ b₁ _ h₁ => ?_
    · exact Phrase.flawed_iff.mpr (.inl he)
    · obtain ⟨hs₁, hflaw⟩ := h₁
      exact (leaves_carrying tag inner).ends.imp fun _ s' hs =>
        Passed.phrase (passed_nil (h.congr (hs.trans hs₁))) hflaw rfl
  | .seq parts, s, b, met, tag, h => by
    rw [phrase]
    exact .of_parts (phrases_ends parts h) (fun _ => leaves_add _) nofun rfl
  | .alt parts, s, b, met, tag, h => by
    rw [phrase]
    exact .of_parts (phrases_ends parts h) (fun _ => leaves_add _) nofun rfl
  | .repeated part quantifier, s, b, met, tag, h => by
    rw [phrase]
    refine ((phrase_ends part h).parts.fault_imp fun e he => ?_).bind fun child s₁ b₁ _ h₁ => ?_
    · -- a flaw of the part is one of the whole
      exact Phrase.flawed_iff.mpr (.inr he)
    · refine (rep_ends.imp fun _ s' hs => ?_).fault_imp fun e he => Phrase.flawed_iff.mpr (.inl he)
      exact Passed.phrase (h₁.congr hs.1) hs.2 rfl
  | .omitted part, s, b, met, tag, h => by
    rw [phrase]
    exact .of_parts (phrase_ends part h).parts
      (fun _ => (leaves_add _).bind fun _ => leaves_carrying tag _) nofun rfl
  | .lexical part, s, b, met, tag, h => by
    rw [phrase]
    exact .of_parts (phrase_ends part h).parts
      (fun _ => (leaves_add _).bind fun _ => leaves_carrying tag _) nofun rfl

/-- Compiling phrases in order fails **just where one of them is flawed**. The first flaw is what
the error tells. -/
theorem phrases_ends : ∀ (ps : List Phrase) {s : Scope} {b : Builder} {met : List String},
    Knows s met ruled → Ends (phrases split ps) s b (fun _ => Passed ps met ruled)
      (fun e => ∃ p ∈ ps, p.Flawed e)
  | [], s, b, met, h => by
    rw [phrases]
    exact .pure (passed_nil h)
  | p :: ps, s, b, met, h => by
    rw [phrases]
    refine ((phrase_ends p h).fault_imp fun e he => ⟨p, List.mem_cons_self, he⟩).bind
      fun id s₁ b₁ _ h₁ => ?_
    have hknows : Knows s₁ (met ++ p.symbols) ruled := by simpa using h₁.knows
    refine ((phrases_ends ps hknows).fault_imp ?_).bind fun ids s₂ b₂ _ h₂ => .pure (h₁.cons h₂)
    rintro e ⟨q, hq, he⟩
    exact ⟨q, List.mem_cons_of_mem p hq, he⟩

end

/-! ### Rules -/

omit [PatternReader] in
/-- A slot **can be defined** if no definition has linked it. -/
theorem Tidy.definable {links : List (ExprId × ExprId)} {slot : ExprId} (h : Tidy links s b)
    (hname : s.Names name slot) (hnew : slot ∉ links.map Prod.fst) :
    b.definable slot = true := by
  have hlt := h.slot_lt name slot hname
  refine Builder.definable_iff.mpr ⟨?_, fun hmem => hnew ?_⟩
  · rw [Array.getElem?_eq_getElem hlt]
    cases hcontent : b.slots[slot] with
    | none => rfl
    | some e =>
      cases h.linked.grounded slot e (by rw [Array.getElem?_eq_getElem hlt, hcontent]) with
      | built hd => exact absurd ⟨name, hname⟩ hd
      | link hlink _ => exact absurd (List.mem_map_of_mem hlink) hnew
  · obtain ⟨link, hlink, rfl⟩ := List.mem_map.mp hmem
    exact List.mem_map_of_mem (h.linked.linked link hlink)

/-- Rules **have been compiled**, and nothing in them is wrong. -/
structure Compiles (rs : List Rule) (links : List (ExprId × ExprId)) (s : Scope) (b : Builder) :
    Prop where
  tidy : Tidy links s b
  slots : ∀ link ∈ links, ∃ r ∈ rs, s.Names r.name link.1
  knows : Knows s (rs.flatMap Rule.mentions) (rs.map Rule.name)
  sound : ∀ e, ¬ Rule.Flawed rs e

/-- The slot of **a new name** can be defined. Other rules are linked from slots of their own names.
-/
theorem Compiles.definable {rs : List Rule} {links : List (ExprId × ExprId)} {b' : Builder}
    {slot : ExprId} (h : Compiles rs links s b) (hgrows : Grows s b s' b')
    (htidy : Tidy links s' b') (hname : s'.Names name slot) (hnew : name ∉ rs.map Rule.name) :
    b'.definable slot = true := by
  refine htidy.definable hname fun hmem => hnew ?_
  obtain ⟨link, hlink, rfl⟩ := List.mem_map.mp hmem
  obtain ⟨r, hr, hname'⟩ := h.slots link hlink
  rw [htidy.name_unique _ _ _ hname (hgrows.names _ _ hname')]
  exact List.mem_map_of_mem hr

/-- **A rule** is compiled, or it is flawed, or there is another one of its name. A visible rule
that lists itself is refused before its body is looked at. -/
theorem rule_ends {before : List Rule} {r : Rule} {links : List (ExprId × ExprId)}
    (h : Compiles before links s b) : Ends (rule split r) s b
      (fun _ s' =>
        Knows s' ((before ++ [r]).flatMap Rule.mentions) ((before ++ [r]).map Rule.name) ∧
          ∀ e, ¬ Rule.Flawed (before ++ [r]) e) (Rule.Flawed (before ++ [r])) := by
  have hr : r ∈ before ++ [r] := by simp
  rw [rule]
  split
  · next hlost =>
    rw [Bool.and_eq_true, Bool.not_eq_true'] at hlost
    exact .throw (.lost hr hlost.1 hlost.2)
  · next hkept =>
    rw [defineRule]
    refine (symbolSlot_ends h.knows).bind fun slot s₁ b₁ hslot h₁ => ?_
    obtain ⟨htidy₁, hgrows₁, hname⟩ := symbolSlot_spec h.tidy hslot
    refine ((markDefined_ends h₁ (by simp)).fault_imp ?_).bind fun u s₂ b₂ hmark h₂ => ?_
    · rintro e ⟨hmem, rfl⟩
      exact .duplicate (Rule.duplicate_concat hmem)
    obtain ⟨htidy₂, hgrows₂⟩ := markDefined_spec htidy₁ hmark
    obtain ⟨hnew, hknows₂⟩ := h₂
    refine ((phrase_ends r.body hknows₂).fault_imp fun e he => .body hr he).bind
      fun body s₃ b₃ hbody h₃ => ?_
    obtain ⟨htidy₃, hgrows₃, -⟩ := phrase_spec r.body htidy₂ hbody
    -- the name had no rule, so nothing can have come to its slot in the meantime
    have hdefinable := h.definable (hgrows₁.trans (hgrows₂.trans hgrows₃)) htidy₃
      ((hgrows₂.trans hgrows₃).names _ _ hname) hnew
    have hdefine : Ends (liftM (Builder.define slot body)) s₃ b₃ (fun _ s' => s' = s₃)
        (Rule.Flawed (before ++ [r])) := by
      refine .build (fun _ _ _ => rfl) fun e b' hx => ?_
      rw [Builder.define_run, if_pos hdefinable] at hx
      cases hx
    refine hdefine.bind fun u s₄ b₄ _ hs₄ => .pure ?_
    subst hs₄
    refine ⟨by simpa [Rule.mentions] using h₃.knows, ?_⟩
    exact Rule.not_flawed_concat h.sound (fun hvisible => by simpa [hvisible] using hkept) hnew
      (h₃.sound _ List.mem_cons_self)

/-- **Rule after rule** is compiled, or a flaw is found. The rules that were compiled before are
without flaws, even with the next one added. -/
theorem mapM_rule_ends {before rs : List Rule} {links : List (ExprId × ExprId)}
    (h : Compiles before links s b) : Ends (rs.mapM (rule split)) s b
      (fun _ s' => Knows s' ((before ++ rs).flatMap Rule.mentions) ((before ++ rs).map Rule.name) ∧
        ∀ e, ¬ Rule.Flawed (before ++ rs) e) (Rule.Flawed (before ++ rs)) := by
  induction rs generalizing before links s b with
  | nil =>
    rw [List.append_nil]
    exact .pure ⟨h.knows, h.sound⟩
  | cons r rs ih =>
    rw [List.mapM_cons, List.append_cons]
    refine ((rule_ends h).fault_imp fun e he => he.mono ?_).bind fun slot s₁ b₁ hr h₁ => ?_
    · exact List.sublist_append_left _ _
    · obtain ⟨body, htidy, hgrows, hname, -⟩ := rule_spec h.tidy hr
      refine (ih ⟨htidy, ?_, h₁.1, h₁.2⟩).bind fun slots s₂ b₂ _ h₂ => .pure h₂
      refine List.forall_mem_cons.mpr ⟨⟨r, by simp, hname⟩, fun link hlink => ?_⟩
      obtain ⟨r', hr', hname'⟩ := h.slots link hlink
      exact ⟨r', List.mem_append_left _ hr', hgrows.names _ _ hname'⟩

omit [PatternReader] in
/-- The symbols **without a rule** are the names that are referred to and have none, each once. They
come in the order in which they were met. -/
theorem undefinedNames_eq {rs : List Rule}
    (h : Knows s (rs.flatMap Rule.mentions) (rs.map Rule.name)) :
    undefinedNames s = Rule.undefined rs := by
  have hfilter : s.symbols.filter (!·.defined) =
      s.symbols.filter fun entry => decide (entry.name ∉ rs.map Rule.name) := by
    refine List.filter_congr fun entry hentry => ?_
    rw [Bool.eq_iff_iff, Bool.not_eq_true', decide_eq_true_iff, ← h.rules entry hentry,
      Bool.not_eq_true]
  have hmentions : ∀ r ∈ rs, r.mentions.filter (fun name => decide (name ∉ rs.map Rule.name)) =
      r.body.symbols.filter fun name => decide (name ∉ rs.map Rule.name) := by
    intro r hr
    rw [Rule.mentions, List.filter_cons, if_neg]
    simpa using ⟨r, hr, rfl⟩
  calc undefinedNames s
      = (s.symbols.map SymbolEntry.name).filter (fun name => decide (name ∉ rs.map Rule.name)) := by
        rw [undefinedNames, hfilter, List.filter_map]
        rfl
    _ = ((rs.flatMap Rule.mentions).filter
          fun name => decide (name ∉ rs.map Rule.name)).eraseDups := by
        rw [h.names, filter_eraseDups]
    _ = Rule.undefined rs := by
        rw [Rule.undefined, List.filter_flatMap, List.filter_flatMap,
          List.flatMap_congr hmentions]

/-- **Rules are compiled** if nothing in them is wrong and every name has a rule. Names without a
rule are told when all rules have been compiled, so flaws come first. -/
theorem rules_ends {rs : List Rule} (hrs : rs ≠ []) : Ends (rules split rs) {} {}
    (fun _ s' => (∀ e, ¬ Rule.Flawed rs e) ∧ Rule.undefined rs = [] ∧
      Knows s' (rs.flatMap Rule.mentions) (rs.map Rule.name))
    (fun e => Rule.Flawed rs e ∨ ((∀ e, ¬ Rule.Flawed rs e) ∧ Rule.undefined rs ≠ [] ∧
      e = .undefinedSymbols (Rule.undefined rs))) := by
  have hempty : Compiles [] [] {} {} :=
    ⟨tidy_empty, by simp, ⟨rfl, by simp, by simp⟩,
      Rule.not_flawed_iff.mpr ⟨List.nodup_nil, by simp⟩⟩
  rw [rules]
  refine ((mapM_rule_ends hempty).fault_imp fun e he => .inl he).bind fun slots s b hslots h => ?_
  obtain ⟨hknows, hsound⟩ := h
  obtain ⟨new, -, -, rfl, hnew⟩ := mapM_rule_spec tidy_empty hslots
  cases hnew with
  | nil => exact absurd rfl hrs
  | cons hr hrest =>
    refine .get_bind ?_
    rw [undefinedNames_eq hknows]
    split
    · next hnone => exact .pure ⟨hsound, hnone, hknows⟩
    · next names hnames =>
      exact .throw (.inr ⟨hsound, hnames, rfl⟩)

end

end Compile

end GeneralParsing
