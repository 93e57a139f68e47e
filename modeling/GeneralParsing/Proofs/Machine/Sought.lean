import GeneralParsing.Proofs.Machine.Behind
import GeneralParsing.Proofs.Machine.Found

/-!
# What is looked for, and where

`Grammar.Sought g w id position` says, in terms of the grammar and the input alone, that an
expression is looked for at a position: the start at the beginning, and the parts of what is looked
for wherever the parts before them, derived from the input, end. The machine derives exactly what is
looked for. A memo's expression is (`Machine.Sound.sought`), and at the positions it has read
whatever is looked for has a memo (`Machine.Faithful.exists_goal_of_sought`), although repetitions
do not go on after empty iterations.

A position is passed when a terminal that is looked for there accepts the symbol (`Grammar.Waits`).
The machine has passed all positions before its own (`Machine.Sound.waits_before`), and a terminal
has matched at its own if it can be passed (`Machine.Faithful.matched_of_waits`).
-/

namespace GeneralParsing

namespace Grammar

/-- An expression **is looked for** at a position of an input. -/
inductive Sought (g : Grammar) (w : List String) : ExprId → Nat → Prop
  /-- The start, at the beginning. -/
  | start : Sought g w g.start 0
  /-- A part of a sequence, where the parts before it end. -/
  | part {id child : ExprId} {tag : Option String} {ids rest : List ExprId} {v : List String}
      {start : Nat} (h : Sought g w id start)
      (he : g.expr? id = some (.seq tag (ids ++ child :: rest))) (hv : g.DerivesAll ids v)
      (hw : v <+: w.drop start) : Sought g w child (start + v.length)
  /-- A child of a choice. -/
  | alternative {id child : ExprId} {tag : Option String} {children : List ExprId} {start : Nat}
      (h : Sought g w id start) (he : g.expr? id = some (.alt tag children))
      (hc : child ∈ children) : Sought g w child start
  /-- The child of a repetition, where iterations of it end and one more is admissible. -/
  | iteration {id child : ExprId} {tag : Option String} {min count : Nat} {max : Option Nat}
      {v : List String} {start : Nat} (h : Sought g w id start)
      (he : g.expr? id = some (.rep tag child min max)) (hmax : ∀ m, max = some m → count < m)
      (hv : g.DerivesAll (List.replicate count child) v) (hw : v <+: w.drop start) :
      Sought g w child (start + v.length)
  /-- What is omitted. -/
  | omitted {id child : ExprId} {start : Nat} (h : Sought g w id start)
      (he : g.expr? id = some (.omitted child)) : Sought g w child start
  /-- What is taken as one text. -/
  | lexical {id child : ExprId} {start : Nat} (h : Sought g w id start)
      (he : g.expr? id = some (.lexical child)) : Sought g w child start

/-- A terminal that is looked for at a position **accepts the symbol** there. -/
def Waits (g : Grammar) (w : List String) (position : Nat) : Prop :=
  ∃ id e symbol, g.Sought w id position ∧ g.expr? id = some e ∧ w[position]? = some symbol ∧
    e.accepts symbol = true

end Grammar

namespace Derivation

open Machine Grammar

variable {g : Grammar} {w : List String} {ds : List Derivation} {start position : Nat}

/-! ### Derivations go by terminals that are looked for -/

/-- Each of derivations in order has its root **looked for** where those before it end. -/
def SoughtAll (g : Grammar) (w : List String) (ds : List Derivation) (start : Nat) : Prop :=
  ∀ before x after, ds = before ++ x :: after →
    g.Sought w x.root (start + (before.flatMap yield).length)

theorem SoughtAll.cons {d : Derivation} (h : SoughtAll g w (d :: ds) start) :
    g.Sought w d.root start ∧ SoughtAll g w ds (start + d.yield.length) := by
  refine ⟨h [] d ds rfl, fun before x after heq => ?_⟩
  have hx := h (d :: before) x after (by rw [heq]; rfl)
  rwa [List.flatMap_cons, List.length_append, ← Nat.add_assoc] at hx

theorem derivesAll_of_valid (hvalid : ∀ d ∈ ds, d.Valid g) :
    g.DerivesAll (ds.map root) (ds.flatMap yield) :=
  derivesAll_of_parts fun d hd => derives_of_valid (hvalid d hd)

/-- The parts of a sequence that is looked for **are looked for**, those of its beginning, too. Each
of them starts where the one before it ends, which is a place that has been read to. -/
theorem soughtAll_of_seq {id : ExprId} {tag : Option String} {rest : List ExprId}
    (hs : g.Sought w id start) (he : g.expr? id = some (.seq tag (ds.map root ++ rest)))
    (hvalid : ∀ d ∈ ds, d.Valid g) (hw : ds.flatMap yield <+: w.drop start) :
    SoughtAll g w ds start := by
  rintro before x after rfl
  rw [List.map_append, List.map_cons, List.append_assoc, List.cons_append] at he
  rw [List.flatMap_append] at hw
  exact hs.part he (derivesAll_of_valid fun d hd => hvalid d (by simp [hd]))
    ((List.prefix_append _ _).trans hw)

/-- The iterations of a repetition that is looked for **are looked for**. That there are not too
many of them is what keeps the repetition going. -/
theorem soughtAll_of_rep {id child : ExprId} {tag : Option String} {min : Nat} {max : Option Nat}
    (hs : g.Sought w id start) (he : g.expr? id = some (.rep tag child min max))
    (hroot : ∀ d ∈ ds, d.root = child) (hmax : ∀ m, max = some m → ds.length ≤ m)
    (hvalid : ∀ d ∈ ds, d.Valid g) (hw : ds.flatMap yield <+: w.drop start) :
    SoughtAll g w ds start := by
  rintro before x after rfl
  have hall : g.DerivesAll (before.map root) (before.flatMap yield) :=
    derivesAll_of_valid fun d hd => hvalid d (by simp [hd])
  rw [List.eq_replicate_of_mem (List.forall_mem_map.mpr fun d hd => hroot d (by simp [hd]))] at hall
  rw [List.flatMap_append] at hw
  rw [hroot x (by simp)]
  refine hs.iteration he (fun m hm => ?_) hall ((List.prefix_append _ _).trans hw)
  have hle := hmax m hm
  rw [List.length_append, List.length_cons] at hle
  rw [List.length_map]
  omega

/-- Among derivations in order there is the one **that goes by a position**. It is the one whose
yield covers the position, and that is not empty. -/
theorem waits_of_soughtAll (hsought : SoughtAll g w ds start)
    (hw : ds.flatMap yield <+: w.drop start) (hle : start ≤ position)
    (hlt : position < start + (ds.flatMap yield).length)
    (h : ∀ d ∈ ds, ∀ start, g.Sought w d.root start → d.yield <+: w.drop start → start ≤ position →
      position < start + d.yield.length → g.Waits w position) : g.Waits w position := by
  induction ds generalizing start with
  | nil => exact absurd hlt (Nat.not_lt.mpr hle)
  | cons d ds ih =>
    obtain ⟨hd, hds⟩ := List.forall_mem_cons.mp h
    obtain ⟨hfirst, hothers⟩ := hsought.cons
    obtain ⟨hwfirst, hwothers⟩ := prefix_of_cons hw
    rw [List.flatMap_cons, List.length_append] at hlt
    by_cases hin : position < start + d.yield.length
    · exact hd start hfirst hwfirst hle hin
    · exact ih hothers hwothers (by omega) (by omega) hds

/-- A derivation of what is looked for goes by **terminals that are looked for**. This goes by
induction on the derivation: a terminal covers one position, and all others hand it to a part. -/
theorem Valid.waits {d : Derivation} (hd : d.Valid g) (hs : g.Sought w d.root start)
    (hw : d.yield <+: w.drop start) (hle : start ≤ position)
    (hlt : position < start + d.yield.length) : g.Waits w position := by
  induction hd generalizing start with
  | @symbol id e text he ha =>
    obtain rfl : position = start := by
      rw [yield, List.length_singleton] at hlt
      omega
    obtain ⟨rest, hrest⟩ := hw
    exact ⟨id, e, text, hs, he, (symbol_of_drop hrest.symm).1, ha⟩
  | @sequence id tag parts he hparts ih =>
    rw [yield_sequence] at hw hlt
    rw [← List.append_nil (parts.map root)] at he
    exact waits_of_soughtAll (soughtAll_of_seq hs he hparts hw) hw hle hlt
      fun x hx _ hs hw => ih x hx hs hw
  | @repetition id tag child min max parts he hroot hmin hmax hparts ih =>
    rw [yield_sequence] at hw hlt
    exact waits_of_soughtAll (soughtAll_of_rep hs he hroot hmax hparts hw) hw hle hlt
      fun x hx _ hs hw => ih x hx hs hw
  | choice he hc _ ih => exact ih (hs.alternative he hc) hw hle hlt
  | omitted he _ ih => exact ih (hs.omitted he) hw hle hlt
  | lexical he _ ih => exact ih (hs.lexical he) hw hle hlt

end Derivation

namespace Machine

open GeneralParsing.Derivation Grammar

variable {g : Grammar} {w : List String} {L : Ledger} {m : Machine} {position : Nat}

/-! ### What has a memo is looked for -/

/-- What a continuation awaits **is looked for**, if what its memo derives is, and the input up to
there goes by terminals that are looked for. -/
theorem Sound.sought_of_awaits (h : Sound g w L m) {next : Continuation} {goal : Goal}
    (ha : Awaits g L next goal)
    (holder : ∀ memo goal, next.memo? = some memo → L.goals[memo]? = some goal →
      g.Sought w goal.expr goal.start ∧ ∀ q < goal.start, g.Waits w q) :
    g.Sought w goal.expr goal.start ∧ ∀ q < goal.start, g.Waits w q := by
  -- the parts before what is asked for lead from where the memo began to where it is asked for
  have hafter : ∀ {ds ids start stop}, SpansAll g w ds ids start stop → SoughtAll g w ds start →
      (∀ q < start, g.Waits w q) → ∀ q < stop, g.Waits w q := by
    intro ds ids start stop hds hsought hbefore q hq
    have hends := hds.ends
    by_cases hlt : q < start
    · exact hbefore q hlt
    · exact waits_of_soughtAll hsought hds.reads (by omega) (by omega)
        fun d hd _ hs hw hle hlt => (hds.valid d hd).waits hs hw hle hlt
  cases ha with
  | accept => exact ⟨.start, fun q hq => absurd hq (Nat.not_lt_zero q)⟩
  | choice hmemo he hc =>
    obtain ⟨hs, hbefore⟩ := holder _ _ rfl hmemo
    exact ⟨hs.alternative he hc, hbefore⟩
  | inner hmemo => exact holder _ ⟨_, false, _⟩ rfl hmemo
  | omitted hmemo he =>
    obtain ⟨hs, hbefore⟩ := holder _ _ rfl hmemo
    exact ⟨hs.omitted he, hbefore⟩
  | lexical hmemo he =>
    obtain ⟨hs, hbefore⟩ := holder _ _ rfl hmemo
    exact ⟨hs.lexical he, hbefore⟩
  | @sequence tag memo done ids child rest outer start stop hmemo he hdone =>
    obtain ⟨hs, hbefore⟩ := holder _ _ rfl hmemo
    obtain ⟨ds, hds⟩ := h.exists_spansAll hdone
    have hsought := soughtAll_of_seq hs (by rw [hds.roots]; exact he) hds.valid hds.reads
    refine ⟨?_, hafter hds hsought hbefore⟩
    rw [← hds.ends]
    exact hs.part he (hds.roots ▸ derivesAll_of_valid hds.valid) hds.reads
  | @repetition tag memo done child min max outer start stop hmemo he hdone hmax =>
    obtain ⟨hs, hbefore⟩ := holder _ _ rfl hmemo
    obtain ⟨ds, hds⟩ := h.exists_spansAll hdone
    have hlen : ds.length = done.length := by simpa using congrArg List.length hds.roots
    have hroot : ∀ d ∈ ds, d.root = child := fun d hd =>
      List.eq_of_mem_replicate (hds.roots ▸ List.mem_map_of_mem hd)
    have hsought := soughtAll_of_rep hs he hroot
      (fun n hn => hlen ▸ Nat.le_of_succ_le (hmax n hn)) hds.valid hds.reads
    refine ⟨?_, hafter hds hsought hbefore⟩
    rw [← hds.ends]
    exact hs.iteration he hmax (hds.roots ▸ derivesAll_of_valid hds.valid) hds.reads

/-- What a memo derives **is looked for**, and the input up to there goes by terminals that are
looked for. -/
theorem Sound.sought (h : Sound g w L m) (hr : Rooted g L position) {id : MemoId} {goal : Goal}
    (hgoal : L.goals[id]? = some goal) :
    g.Sought w goal.expr goal.start ∧ ∀ q < goal.start, g.Waits w q := by
  induction id using Nat.strongRecOn generalizing goal with
  | ind id ih =>
    obtain ⟨next, ha, hold⟩ := hr.asked id goal hgoal
    exact h.sought_of_awaits ha fun memo goal hmemo hworks => ih memo (hold memo hmemo) hworks

/-- What is to be derived here **is looked for** here. The continuation of the task has been served
so far by results over the symbols before. -/
theorem Faithful.sought_of_derive {next : Continuation} {id : ExprId}
    (h : Faithful g w L m m.matched) (hmem : .derive next id ∈ m.tasks) :
    g.Sought w id m.position := by
  cases h.sound.task _ hmem with
  | derive ha =>
    exact (h.sound.sought_of_awaits ha fun _ _ _ hgoal => h.sound.sought h.rooted hgoal).1

/-- A position is reached **by terminals that are looked for**. -/
theorem Sound.waits_before (h : Sound g w L m) (hr : Rooted g L position) {q : Nat}
    (hq : q < position) : g.Waits w q := by
  rcases hr.reached with rfl | ⟨node, goal, hn⟩
  · exact absurd hq (Nat.not_lt_zero q)
  · obtain ⟨d, hd, -⟩ := h.exists_behind hn
    obtain ⟨memo, -, hgoal⟩ := hn
    obtain ⟨hs, hbefore⟩ := h.sought hr hgoal
    have hends := hd.ends
    by_cases hlt : q < goal.start
    · exact hbefore q hlt
    · exact hd.valid.waits (hd.root ▸ hs) hd.reads (by omega) (by omega)

/-! ### What is looked for has a memo -/

/-- Iterations that are **not empty** are enough for the same symbols. Empty iterations can be left
out where nothing counts them, and a machine may stop short of them. -/
theorem exists_solid {child : ExprId} {count : Nat} {v : List String}
    (hv : g.DerivesAll (List.replicate count child) v) :
    ∃ ds : List Derivation, (∀ d ∈ ds, d.Valid g ∧ d.root = child ∧ d.yield ≠ []) ∧
      ds.length ≤ count ∧ ds.flatMap yield = v := by
  obtain ⟨ds, hvalid, hroots, rfl⟩ := hv.exists_valid
  refine ⟨ds.filter fun d => !d.yield.isEmpty, fun d hd => ?_, ?_, flatMap_yield_filter ds⟩
  · obtain ⟨hmem, hsolid⟩ := List.mem_filter.mp hd
    exact ⟨hvalid d hmem, List.eq_of_mem_replicate (hroots ▸ List.mem_map_of_mem hmem),
      by simpa using hsolid⟩
  · have hlen : ds.length = count := by simpa using congrArg List.length hroots
    exact hlen ▸ List.length_filter_le _ _

section

variable (h : Faithful g w L m m.matched) (htasks : m.tasks = [])

include h htasks

/-- What is derived by an expression for which there is a memo **is a result**, if it ends at a
position that has been read to. -/
theorem Faithful.exists_recorded {d : Derivation} (hd : d.Valid g) {id : MemoId} {start : Nat}
    (hgoal : L.goals[id]? = some ⟨d.root, false, start⟩) (hw : d.yield <+: w.drop start)
    (hle : start + d.yield.length ≤ m.position) :
    ∃ node, Recorded L m node id (start + d.yield.length) := by
  obtain ⟨d', hd', hunstalled, hroot, hyield⟩ := hd.exists_unstalled
  rw [← hroot] at hgoal
  rw [← hyield] at hw hle ⊢
  rcases h.found htasks hd' hunstalled hgoal hw with ⟨node, hrec, -⟩ | hgoes
  · exact ⟨node, hrec⟩
  · exact absurd hgoes.1 (Nat.not_lt.mpr hle)

/-- A sequence **goes on** from part to part. The induction is on the derivations that are done, as
the last of them gives the result that the machine takes. -/
theorem Faithful.registered_part {tag : Option String} {inner : MemoId} {ds : List Derivation}
    {child : ExprId} {rest : List ExprId} {start : Nat} (hvalid : ∀ d ∈ ds, d.Valid g)
    (hw : ds.flatMap yield <+: w.drop start)
    (hle : start + (ds.flatMap yield).length ≤ m.position) {done : List NodeId} {first : ExprId}
    {others : List ExprId} (hids : ds.map root ++ child :: rest = first :: others)
    (hreg : Registered L m (.sequence tag inner done others) ⟨first, false, start⟩) :
    ∃ memo : MemoId, L.goals[memo]? = some ⟨child, false, start + (ds.flatMap yield).length⟩ := by
  induction ds generalizing start done first others with
  | nil =>
    obtain ⟨rfl, rfl⟩ := List.cons.inj hids
    obtain ⟨memo, hgoal, -⟩ := hreg
    exact ⟨memo, hgoal⟩
  | cons d ds ih =>
    obtain ⟨hd, hds⟩ := List.forall_mem_cons.mp hvalid
    obtain ⟨hwfirst, hwothers⟩ := prefix_of_cons hw
    rw [List.map_cons, List.cons_append] at hids
    obtain ⟨rfl, rfl⟩ := List.cons.inj hids
    obtain ⟨memo, hgoal, hhands⟩ := hreg
    rw [List.flatMap_cons, List.length_append, ← Nat.add_assoc] at hle ⊢
    obtain ⟨node, hrec⟩ := h.exists_recorded htasks hd hgoal hwfirst (by omega)
    have htaken := h.taken htasks hrec hhands
    cases hmore : ds.map root ++ child :: rest with
    | nil => simp at hmore
    | cons first others =>
      rw [hmore] at htaken
      exact ih hds hwothers hle hmore (registered_of_wanted htasks htaken)

/-- A repetition **goes on** from iteration to iteration, none of them empty. -/
theorem Faithful.registered_iteration {tag : Option String} {inner : MemoId}
    {ds : List Derivation} {child : ExprId} {min : Nat} {max : Option Nat} {start : Nat}
    (hsolid : ∀ d ∈ ds, d.Valid g ∧ d.root = child ∧ d.yield ≠ [])
    (hw : ds.flatMap yield <+: w.drop start)
    (hle : start + (ds.flatMap yield).length ≤ m.position) {done : List NodeId}
    (hmax : ∀ n, max = some n → done.length + ds.length < n)
    (hreg : Registered L m (.repetition tag inner done child (done.length + 1) min max)
      ⟨child, false, start⟩) :
    ∃ memo : MemoId, L.goals[memo]? = some ⟨child, false, start + (ds.flatMap yield).length⟩ := by
  induction ds generalizing start done with
  | nil =>
    obtain ⟨memo, hgoal, -⟩ := hreg
    exact ⟨memo, hgoal⟩
  | cons d ds ih =>
    obtain ⟨⟨hd, rfl, hne⟩, hds⟩ := List.forall_mem_cons.mp hsolid
    obtain ⟨hwfirst, hwothers⟩ := prefix_of_cons hw
    obtain ⟨memo, hgoal, hhands⟩ := hreg
    rw [List.flatMap_cons, List.length_append, ← Nat.add_assoc] at hle ⊢
    obtain ⟨node, hrec⟩ := h.exists_recorded htasks hd hgoal hwfirst (by omega)
    -- another iteration is allowed
    have hbelow : max.all (done.length + 1 < ·) = true := by
      cases max with
      | none => rfl
      | some n =>
        have hn := hmax n rfl
        rw [List.length_cons] at hn
        simpa using (by omega : done.length + 1 < n)
    -- and this one is not empty, so the machine goes on
    have hfull : ∀ n, m.nodes[node]? = some n → n.span.isEmpty = false := by
      intro n hn
      obtain ⟨n', goal, hn', hsound⟩ := h.sound.exists_node hrec.1
      obtain rfl := Option.some.inj (hn.symm.trans hn')
      obtain rfl := Option.some.inj (hgoal.symm.trans hsound.works)
      rw [hsound.span]
      exact beq_false_of_ne (Nat.ne_of_lt (Nat.lt_add_of_pos_right (List.length_pos_iff.mpr hne)))
    have hnext := registered_of_wanted htasks
      ((h.taken htasks hrec hhands).2 hbelow fun _ => hfull)
    have hothers : ∀ n, max = some n → (node :: done).length + ds.length < n := by
      intro n hn
      have hlt := hmax n hn
      rw [List.length_cons] at hlt ⊢
      omega
    exact ih hds hwothers hle hothers hnext

/-- **What is looked for has a memo**, at the positions that have been read to. This is completeness
for what a prefix needs, where there need be no derivation of the whole input yet. -/
theorem Faithful.exists_goal_of_sought {id : ExprId} {start : Nat} (hs : g.Sought w id start)
    (hle : start ≤ m.position) : ∃ memo : MemoId, L.goals[memo]? = some ⟨id, false, start⟩ := by
  -- nothing is left to do, so what is wanted has been registered
  have hwanted : ∀ {next id start}, Wanted L m m.tasks next id start →
      ∃ memo : MemoId, L.goals[memo]? = some ⟨id, false, start⟩ := by
    intro next id start hnext
    obtain ⟨memo, hgoal, -⟩ := registered_of_wanted htasks hnext
    exact ⟨memo, hgoal⟩
  induction hs with
  | start => exact hwanted h.exhaustive.start
  -- a part is sought behind the readings of the parts before it, which a chain of memos records
  | @part id child tag ids rest v start _ he hv hw ih =>
    obtain ⟨memo, hgoal⟩ := ih (by omega)
    obtain ⟨ds, hvalid, rfl, rfl⟩ := hv.exists_valid
    have hexpanded := h.exhaustive.expanded memo id start _ hgoal he
    cases hids : ds.map root ++ child :: rest with
    | nil => simp at hids
    | cons first others =>
      rw [hids] at hexpanded
      obtain ⟨inner, -, -, hnext⟩ := hexpanded
      exact h.registered_part htasks hvalid hw hle hids (registered_of_wanted htasks hnext)
  | alternative _ he hc ih =>
    obtain ⟨memo, hgoal⟩ := ih hle
    exact hwanted (h.exhaustive.expanded memo _ _ _ hgoal he _ hc)
  -- silent iterations may be left out: the solid ones are not more, and so below the bound too
  | @iteration id child tag min count max v start _ he hmax hv hw ih =>
    obtain ⟨memo, hgoal⟩ := ih (by omega)
    obtain ⟨ds, hsolid, hlen, rfl⟩ := exists_solid hv
    obtain ⟨inner, -, -, hnext, -⟩ := h.exhaustive.expanded memo id start _ hgoal he
    have hnonzero : max ≠ some 0 := fun hzero => Nat.not_lt_zero _ (hmax 0 hzero)
    have hbelow : ∀ n, max = some n → ([] : List NodeId).length + ds.length < n := fun n hn => by
      simpa using Nat.lt_of_le_of_lt hlen (hmax n hn)
    exact h.registered_iteration htasks hsolid hw hle hbelow
      (registered_of_wanted htasks (hnext hnonzero))
  | omitted _ he ih =>
    obtain ⟨memo, hgoal⟩ := ih hle
    exact hwanted (h.exhaustive.expanded memo _ _ _ hgoal he)
  | lexical _ he ih =>
    obtain ⟨memo, hgoal⟩ := ih hle
    exact hwanted (h.exhaustive.expanded memo _ _ _ hgoal he)

/-- A terminal that is looked for and accepts the symbol here **has matched**. So the machine does
not reject the input where something could go on. -/
theorem Faithful.matched_of_waits (hwaits : g.Waits w m.position) : m.matched ≠ [] := by
  obtain ⟨id, e, symbol, hs, he, hsymbol, ha⟩ := hwaits
  obtain ⟨memo, hgoal⟩ := h.exists_goal_of_sought htasks hs (Nat.le_refl _)
  obtain ⟨node, span, hresult, -⟩ :=
    made_of_expanded (h.exhaustive.expanded memo id m.position e hgoal he) hsymbol ha
  intro hnone
  have hpast := h.unique.past node memo _ hresult (by simp [hnone])
  omega

end

end Machine

end GeneralParsing
