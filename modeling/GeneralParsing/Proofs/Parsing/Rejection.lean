import GeneralParsing.Proofs.Derivation.Inversion
import GeneralParsing.Proofs.Parsing.Recognition

/-!
# Where inputs are rejected

An input is rejected as early as can be. Suppose that everything that can be reached from the start
derives something (`Grammar.Productive`). Then the symbols before the position at which an input is
rejected can be completed, and with the symbol there they cannot
(`Forest.isGreatest_of_rejected`).

That they can be completed is seen from the memos. What a memo's expression derives has a **place**
in some input, after the symbols before the memo's start. This goes from memo to memo by way of the
continuations for which memos are opened: the parts of a sequence that are done are derived from the
input, and those to come derive something (`Machine.Sound.inPlace`).
-/

namespace GeneralParsing

open Machine

/-- Whether an expression is **not empty itself**: a terminal that accepts one of some samples, a
choice of something, a repetition with bounds in order, or one of the others. -/
def Expr.fits (samples : List String) : Expr → Bool
  | .pattern p => samples.any p.accepts
  | .alt _ children => !children.isEmpty
  | .rep _ _ min (some max) => min ≤ max
  | _ => true

namespace Grammar

variable {g : Grammar} {id : ExprId}

/-- Every expression that can be reached from the start **derives something**. -/
def Productive (g : Grammar) : Prop := ∀ id, g.Reaches g.start id → ∃ v, g.Derives id v

/-- Symbols with which an input that has a forest **may begin**. -/
def Viable (g : Grammar) (v : List String) : Prop := ∃ rest f, Forest.parse g (v ++ rest) = .ok f

theorem Reaches.snoc {target child : ExprId} {e : Expr} (h : g.Reaches id target)
    (he : g.expr? target = some e) (hc : child ∈ e.children) : g.Reaches id child := by
  induction h with
  | refl => exact .child he hc (.refl child)
  | child he' hc' _ ih => exact .child he' hc' (ih he)

theorem DerivesAll.append {ids ids' : List ExprId} {v v' : List String} (h : g.DerivesAll ids v)
    (h' : g.DerivesAll ids' v') : g.DerivesAll (ids ++ ids') (v ++ v') := by
  induction ids generalizing v with
  | nil =>
    cases h
    exact h'
  | cons id ids ih =>
    cases h with
    | cons h hs =>
      rw [List.append_assoc]
      exact .cons h (ih hs)

/-- Expressions each of which derives something derive something **in order**. -/
theorem exists_derivesAll {ids : List ExprId} (h : ∀ id ∈ ids, ∃ v, g.Derives id v) :
    ∃ v, g.DerivesAll ids v := by
  induction ids with
  | nil => exact ⟨[], .nil⟩
  | cons id ids ih =>
    obtain ⟨⟨v, hv⟩, hids⟩ := List.forall_mem_cons.mp h
    obtain ⟨v', hv'⟩ := ih hids
    exact ⟨v ++ v', .cons hv hv'⟩

/-- An expression that fits derives something **if its children do**. For a terminal there is a
sample that it accepts, and an empty alternation does not fit. -/
theorem exists_derives_of_fits {e : Expr} {samples : List String} (he : g.expr? id = some e)
    (hfits : e.fits samples = true) (hc : ∀ child ∈ e.children, ∃ v, g.Derives child v) :
    ∃ v, g.Derives id v := by
  cases e with
  | token text => exact ⟨[text], .terminal he (by simp [Expr.accepts])⟩
  | pattern p =>
    obtain ⟨symbol, -, ha⟩ := List.any_eq_true.mp hfits
    exact ⟨[symbol], .terminal he ha⟩
  | seq tag children =>
    obtain ⟨v, hv⟩ := exists_derivesAll hc
    exact ⟨v, .sequence he hv⟩
  | alt tag children =>
    cases children with
    | nil => cases hfits
    | cons child children =>
      obtain ⟨v, hv⟩ := hc child List.mem_cons_self
      exact ⟨v, .choice he List.mem_cons_self hv⟩
  | rep tag child min max =>
    have hcopies : ∀ id ∈ List.replicate min child, ∃ v, g.Derives id v := fun id hid =>
      hc id (by simpa [Expr.children] using List.eq_of_mem_replicate hid)
    obtain ⟨v, hv⟩ := exists_derivesAll hcopies
    refine ⟨v, .repetition he (Nat.le_refl _) (fun m hm => ?_) hv⟩
    subst hm
    exact of_decide_eq_true hfits
  | omitted child =>
    obtain ⟨v, hv⟩ := hc child List.mem_cons_self
    exact ⟨v, .omitted he hv⟩
  | lexical child =>
    obtain ⟨v, hv⟩ := hc child List.mem_cons_self
    exact ⟨v, .lexical he hv⟩

/-- A repetition that derives something has bounds **in order**. -/
theorem Derives.le_of_rep {tag : Option String} {child : ExprId} {min : Nat} {max : Option Nat}
    {v : List String} (h : g.Derives id v) (he : g.expr? id = some (.rep tag child min max)) :
    ∀ m, max = some m → min ≤ m := by
  obtain ⟨d, hd, rfl, -⟩ := h.exists_valid
  obtain ⟨ds, -, -, hmin, hmax, -⟩ := hd.of_rep rfl he
  exact fun m hm => Nat.le_trans hmin (hmax m hm)

theorem Reaches.lt_size (hg : g.Closed) {target : ExprId} (h : g.Reaches id target)
    (hid : id < g.exprs.size) : target < g.exprs.size := by
  induction h with
  | refl => exact hid
  | child he hc _ ih => exact ih (hg.child_lt he hc)

/-- Sums, plus signs and what is between them: **all derive something**. It is checked by going
through the expressions in an order in which children come first. -/
theorem productive_sums : sums.Productive := by
  intro id hid
  have hlt : id < 4 := hid.lt_size closed_sums sums.start_lt
  have hn : sums.Derives 0 ["n"] := .terminal rfl rfl
  have hplus : sums.Derives 1 ["+"] := .terminal rfl rfl
  have hsum : sums.Derives 3 ["n"] := derives_summand
  match id, hlt with
  | 0, _ => exact ⟨_, hn⟩
  | 1, _ => exact ⟨_, hplus⟩
  | 2, _ => exact ⟨_, .sequence rfl (.cons hsum (.cons hplus (.cons hsum .nil)))⟩
  | 3, _ => exact ⟨_, hsum⟩

end Grammar

namespace Machine

variable {g : Grammar} {w : List String} {L : Ledger} {m : Machine} {position : Nat}

/-! ### Places -/

/-- Symbols read from a position on **follow** those before it. -/
theorem take_append_of_prefix {v : List String} {start stop : Nat} (h : v <+: w.drop start)
    (hstop : start + v.length = stop) : w.take start ++ v = w.take stop := by
  rw [← hstop, List.take_add, ← List.prefix_iff_eq_take.mp h]

/-- The **place** of a goal: its expression can be reached from the start, and whatever it derives
may stand in an input after the symbols before it. -/
structure InPlace (g : Grammar) (w : List String) (goal : Goal) : Prop where
  reached : g.Reaches g.start goal.expr
  fits : ∀ u, g.Derives goal.expr u → ∃ rest, g.Derives g.start (w.take goal.start ++ (u ++ rest))

/-- The parts of a sequence that are done **are derived** from the input. Their symbols are the
input from where the first begins to where the last ends. -/
theorem Sound.derivesAll_of_covers (h : Sound g w L m) {nodes : List NodeId} {ids : List ExprId}
    {start stop : Nat} (hcovers : L.Covers nodes ids start stop) :
    ∃ v, g.DerivesAll ids v ∧ w.take start ++ v = w.take stop := by
  obtain ⟨ds, hds⟩ := h.exists_spansAll hcovers
  have hall := Grammar.derivesAll_of_parts fun d hd => Grammar.derives_of_valid (hds.valid d hd)
  rw [hds.roots] at hall
  exact ⟨_, hall, take_append_of_prefix hds.reads hds.ends⟩

/-- **Every goal is in place.** The input up to where it starts can be completed around it, so a
symbol that it accepts could come next. -/
theorem Sound.inPlace (h : Sound g w L m) (hr : Rooted g L position) (hp : g.Productive)
    {id : MemoId} {goal : Goal} (hgoal : L.goals[id]? = some goal) : InPlace g w goal := by
  induction id using Nat.strongRecOn generalizing goal with
  | ind id ih =>
    obtain ⟨next, ha, hold⟩ := hr.asked id goal hgoal
    have holder : ∀ memo goal, next.memo? = some memo → L.goals[memo]? = some goal →
        InPlace g w goal := fun memo goal hmemo hworks => ih memo (hold memo hmemo) hworks
    -- where the results are handed on as they are
    have hpart : ∀ {memo : MemoId} {outer child : ExprId} {e : Expr} {start : Nat},
        next.memo? = some memo → L.goals[memo]? = some ⟨outer, false, start⟩ →
        g.expr? outer = some e → child ∈ e.children →
        (∀ u, g.Derives child u → g.Derives outer u) → InPlace g w ⟨child, false, start⟩ := by
      intro memo outer child e start hmemo hworks he hc hderives
      have hin := holder memo _ hmemo hworks
      exact ⟨hin.reached.snoc he hc, fun u hu => hin.fits u (hderives u hu)⟩
    cases ha with
    | accept => exact ⟨.refl _, fun u hu => ⟨[], by simpa using hu⟩⟩
    | choice hmemo he hc => exact hpart rfl hmemo he hc fun _ => .choice he hc
    | inner hmemo he hinner => exact ⟨(holder _ _ rfl hmemo).reached, (holder _ _ rfl hmemo).fits⟩
    | omitted hmemo he => exact hpart rfl hmemo he (by simp [Expr.children]) fun _ => .omitted he
    | lexical hmemo he => exact hpart rfl hmemo he (by simp [Expr.children]) fun _ => .lexical he
    | @sequence tag memo done ids child rest outer start stop hmemo he hdone =>
      have hin := holder memo _ rfl hmemo
      have hreached : ∀ id ∈ ids ++ child :: rest, g.Reaches g.start id :=
        fun id hid => hin.reached.snoc he hid
      refine ⟨hreached child (by simp), fun u hu => ?_⟩
      obtain ⟨before, hbefore, htake⟩ := h.derivesAll_of_covers hdone
      have hrest : ∀ id ∈ rest, ∃ w, g.Derives id w := fun id hid =>
        hp id (hreached id (by simp [hid]))
      obtain ⟨after, hafter⟩ := Grammar.exists_derivesAll hrest
      obtain ⟨end', hend⟩ := hin.fits _ (.sequence he (hbefore.append (.cons hu hafter)))
      refine ⟨after ++ end', ?_⟩
      rw [← htake]
      simpa using hend
    | @repetition tag memo done child min max outer start stop hmemo he hdone hmax =>
      have hin := holder memo _ rfl hmemo
      have hreached : g.Reaches g.start child := hin.reached.snoc he (by simp [Expr.children])
      refine ⟨hreached, fun u hu => ?_⟩
      obtain ⟨before, hbefore, htake⟩ := h.derivesAll_of_covers hdone
      -- iterations are added up to the least number
      have hmore : ∀ id ∈ List.replicate (min - (done.length + 1)) child, ∃ w, g.Derives id w :=
        fun id hid => (List.eq_of_mem_replicate hid).symm ▸ hp child hreached
      obtain ⟨after, hafter⟩ := Grammar.exists_derivesAll hmore
      obtain ⟨v, hv⟩ := hp outer hin.reached
      have hbounds := hv.le_of_rep he
      have hcopies := hbefore.append (.cons hu hafter)
      rw [← List.replicate_succ, ← List.replicate_add] at hcopies
      have hwhole : g.Derives outer (before ++ (u ++ after)) :=
        .repetition he (by omega) (fun n hn => by
          have hle := hmax n hn
          have hle' := hbounds n hn
          omega) hcopies
      obtain ⟨end', hend⟩ := hin.fits _ hwhole
      refine ⟨after ++ end', ?_⟩
      rw [← htake]
      simpa using hend

/-- The symbols before the position **can be completed**. What is open there derives something, by
productivity. -/
theorem Sound.exists_derives (h : Sound g w L m) (hr : Rooted g L position) (hp : g.Productive) :
    ∃ rest, g.Derives g.start (w.take position ++ rest) := by
  rcases hr.reached with rfl | ⟨node, goal, hn⟩
  · obtain ⟨v, hv⟩ := hp g.start (.refl _)
    exact ⟨v, by simpa using hv⟩
  · obtain ⟨d, hd, -⟩ := h.exists_behind hn
    obtain ⟨memo, -, hgoal⟩ := hn
    obtain ⟨rest, hrest⟩ :=
      (h.inPlace hr hp hgoal).fits d.yield (hd.root ▸ Grammar.derives_of_valid hd.valid)
    refine ⟨rest, ?_⟩
    rwa [← take_append_of_prefix hd.reads hd.ends, List.append_assoc]

end Machine

namespace Forest

variable {g : Grammar} {w : List String} {p : Nat}

/-- The symbols before the position **can be completed**, at the end of the input by some more. So
the machine never goes too far. -/
theorem exists_parse_of_rejected (hg : g.Closed) (hp : g.Productive)
    (h : parse g w = .error (.rejected p)) :
    p ≤ w.length ∧ ∃ rest f, parse g (w.take p ++ rest) = .ok f ∧ (p = w.length → rest ≠ []) := by
  obtain ⟨L, m, hfaithful, -, ⟨hparse, -⟩ | ⟨hparse, hstop⟩⟩ := exists_faithful hg w
  · cases h.symm.trans hparse
  obtain rfl : p = m.position := by
    simpa using h.symm.trans hparse
  have hle : m.position ≤ w.length := by
    rcases hstop with ⟨heq, -⟩ | ⟨hlt, -⟩ <;> omega
  obtain ⟨rest, hrest⟩ := hfaithful.sound.exists_derives hfaithful.rooted hp
  obtain ⟨f, hf⟩ := exists_parse_of_derives hg hrest
  refine ⟨hle, rest, f, hf, fun heq => ?_⟩
  rintro rfl
  rw [heq, List.take_length, List.append_nil] at hf
  cases hf.symm.trans h

/-- With the symbol at the position **they cannot**. Some terminal would have waited for the symbol
if an input went on with it. -/
theorem not_viable_of_rejected (hg : g.Closed) (h : parse g w = .error (.rejected p)) {q : Nat}
    (hlt : p < q) (hq : q ≤ w.length) : ¬ g.Viable (w.take q) := by
  rintro ⟨rest, f, hf⟩
  obtain ⟨L, m, -, -, ⟨hparse, -⟩ | ⟨hparse, hstop⟩⟩ := exists_faithful hg w
  · cases h.symm.trans hparse
  obtain rfl : p = m.position := by
    simpa using h.symm.trans hparse
  rcases hstop with ⟨heq, -⟩ | ⟨-, -, halike⟩
  · omega
  · have htake : (w.take q ++ rest).take (m.position + 1) = w.take (m.position + 1) := by
      rw [List.take_append_of_le_length (by rw [List.length_take]; omega), List.take_take,
        Nat.min_eq_left (by omega)]
    cases hf.symm.trans (halike _ htake)

/-- **An input is rejected after its longest viable prefix**, and at its end only if it can be
completed. -/
theorem isGreatest_of_rejected (hg : g.Closed) (hp : g.Productive)
    (h : parse g w = .error (.rejected p)) :
    IsGreatest { q | q ≤ w.length ∧ g.Viable (w.take q) } p ∧
      (p = w.length → ∃ rest f, rest ≠ [] ∧ parse g (w ++ rest) = .ok f) := by
  obtain ⟨hle, rest, f, hf, hrest⟩ := exists_parse_of_rejected hg hp h
  refine ⟨⟨⟨hle, rest, f, hf⟩, ?_⟩, fun heq => ⟨rest, f, hrest heq, ?_⟩⟩
  · rintro q ⟨hq, hviable⟩
    by_contra hlt
    exact not_viable_of_rejected hg h (Nat.lt_of_not_le hlt) hq hviable
  · rwa [heq, List.take_length] at hf

open Grammar in
/-- A sum is rejected **at the second of two plus signs**. -/
theorem isGreatest_of_rejected_sum : sums.Closed ∧ sums.Productive ∧
    parse sums ["n", "+", "+"] = .error (.rejected 2) ∧
      IsGreatest { q | q ≤ 3 ∧ sums.Viable (["n", "+", "+"].take q) } 2 ∧
        (2 = 3 → ∃ rest f, rest ≠ [] ∧ parse sums (["n", "+", "+"] ++ rest) = .ok f) := by
  have hparse : parse sums ["n", "+", "+"] = .error (.rejected 2) := by cbv
  exact ⟨closed_sums, productive_sums, hparse,
    isGreatest_of_rejected closed_sums productive_sums hparse⟩

end Forest

end GeneralParsing
