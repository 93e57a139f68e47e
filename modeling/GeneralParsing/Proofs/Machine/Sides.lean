import GeneralParsing.Proofs.Machine.Rooted

/-!
# Two sides of a grammar

Below a start that is a choice, the grammar may have two **sides** that keep apart: what is reached
from some of the alternatives, and what is reached from the others (`Grammar.Apart`). They have no
expressions in common but terminals, and where such a terminal accepts a symbol no other terminal
does.

Whatever the machine does it does for one side or the other. A continuation asks for a result on
behalf of the expression that it makes results of; for the start it asks on behalf of the
alternative (`Machine.Asks`). Nothing is asked for on behalf of both sides
(`Machine.not_asks_both`).
-/

namespace GeneralParsing

namespace Grammar

/-- Expressions **on one side**: not the start, and with an expression all that it refers to. -/
structure Side (g : Grammar) (side : ExprId → Prop) : Prop where
  start : ¬ side g.start
  child : ∀ id e, side id → g.expr? id = some e → ∀ c ∈ e.children, side c

/-- Two sides **keep apart**: the start is a choice among what is on just one of them, and they
share nothing but terminals that no other terminal overlaps. -/
structure Apart (g : Grammar) (side other : ExprId → Prop) : Prop where
  isSide : g.Side side
  isOther : g.Side other
  start : ∃ tag ids, g.expr? g.start = some (.alt tag ids) ∧
    ∀ c ∈ ids, (side c ∨ other c) ∧ ¬ (side c ∧ other c)
  terminal : ∀ id e, side id → other id → g.expr? id = some e → e.isTerminal = true
  alone : ∀ id id' e e' symbol, side id → other id → side id' ∨ other id' →
    g.expr? id = some e → g.expr? id' = some e' → e.accepts symbol = true →
      e'.accepts symbol = true → id = id'

variable {g : Grammar} {side other : ExprId → Prop}

theorem Apart.symm (h : g.Apart side other) : g.Apart other side where
  isSide := h.isOther
  isOther := h.isSide
  start := by
    obtain ⟨tag, ids, he, hids⟩ := h.start
    exact ⟨tag, ids, he, fun c hc => ⟨(hids c hc).1.symm, fun hboth => (hids c hc).2 hboth.symm⟩⟩
  terminal id e hside hother := h.terminal id e hother hside
  alone id id' e e' symbol hside hother hor := h.alone id id' e e' symbol hother hside hor.symm

/-- The start is a choice, so **what is no choice** is not the start. -/
theorem Apart.ne_start (h : g.Apart side other) {id : ExprId} {e : Expr}
    (he : g.expr? id = some e) (hnot : ∀ tag ids, e ≠ .alt tag ids) : id ≠ g.start := by
  rintro rfl
  obtain ⟨tag, ids, he', -⟩ := h.start
  exact hnot tag ids (Option.some.inj (he.symm.trans he'))

/-- What the start refers to is **on just one side**. The start being a choice, these are its
alternatives. -/
theorem Apart.child (h : g.Apart side other) {e : Expr} (he : g.expr? g.start = some e) :
    e.hasInner = false ∧ ∀ c ∈ e.children, (side c ∨ other c) ∧ ¬ (side c ∧ other c) := by
  obtain ⟨tag, ids, he', hids⟩ := h.start
  obtain rfl := Option.some.inj (he.symm.trans he')
  exact ⟨rfl, hids⟩

end Grammar

/-- A continuation with a memo makes results of an expression that **refers to what it awaits**, or
collects the parts of that expression itself. -/
theorem Awaits.exists_maker {g : Grammar} {L : Ledger} {next : Continuation} {goal : Goal}
    (ha : Awaits g L next goal) {memo : MemoId} (hmemo : next.memo? = some memo) :
    ∃ goal' e, L.goals[memo]? = some goal' ∧ g.expr? goal'.expr = some e ∧ e.isTerminal = false ∧
      (goal.expr ∈ e.children ∨ goal.expr = goal'.expr ∧ e.hasInner = true) := by
  cases ha with
  | accept => cases hmemo
  | sequence h he _ => cases hmemo; exact ⟨_, _, h, he, rfl, .inl (by simp [Expr.children])⟩
  | choice h he hc => cases hmemo; exact ⟨_, _, h, he, rfl, .inl hc⟩
  | inner h he hinner =>
    cases hmemo
    exact ⟨_, _, h, he, Expr.isTerminal_of_hasInner hinner, .inr ⟨rfl, hinner⟩⟩
  | repetition h he _ _ => cases hmemo; exact ⟨_, _, h, he, rfl, .inl (by simp [Expr.children])⟩
  | omitted h he => cases hmemo; exact ⟨_, _, h, he, rfl, .inl (by simp [Expr.children])⟩
  | lexical h he => cases hmemo; exact ⟨_, _, h, he, rfl, .inl (by simp [Expr.children])⟩

/-- Only what is not made for any memo **is accepted**. Every other continuation works for a memo,
and so belongs to what that memo stands for. -/
theorem Awaits.of_memo?_eq_none {g : Grammar} {L : Ledger} {next : Continuation} {goal : Goal}
    (ha : Awaits g L next goal) (hmemo : next.memo? = none) :
    next = .accept ∧ goal = ⟨g.start, false, 0⟩ := by
  cases ha with
  | accept => exact ⟨rfl, rfl⟩
  | _ => cases hmemo

namespace Machine

/-- A continuation **asks** for an expression on behalf of a side: of the expression that it makes
results of or, if that is the start, of the one it asks for. -/
def Asks (g : Grammar) (L : Ledger) (side : ExprId → Prop) (next : Continuation) (id : ExprId) :
    Prop :=
  ∃ (memo : MemoId) (goal : Goal), next.memo? = some memo ∧ L.goals[memo]? = some goal ∧
    (side goal.expr ∨ goal.expr = g.start ∧ side id)

/-- A node **is a result** of an expression on a side. -/
def IsOf (L : Ledger) (side : ExprId → Prop) (node : NodeId) : Prop :=
  ∃ goal stop, L.Result node goal stop ∧ side goal.expr

/-- A task is done **on behalf of a side**. -/
def Serves (g : Grammar) (L : Ledger) (side : ExprId → Prop) : Task → Prop
  | .derive next id => Asks g L side next id
  | .resume node next => ∃ goal stop, L.Result node goal stop ∧ Asks g L side next goal.expr

/-- Every goal is **on one of the sides**, or the start's. -/
def Sided (g : Grammar) (side other : ExprId → Prop) (L : Ledger) : Prop :=
  ∀ (memo : MemoId) goal, L.goals[memo]? = some goal →
    goal.expr = g.start ∨ side goal.expr ∨ other goal.expr

variable {g : Grammar} {w : List String} {L L' : Ledger} {m m' : Machine}
variable {side other : ExprId → Prop} {next : Continuation} {goal : Goal} {id : ExprId}
variable {node : NodeId} {stop : Nat} {task : Task}

theorem Sided.symm (h : Sided g side other L) : Sided g other side L :=
  fun memo goal hgoal => (h memo goal hgoal).imp_right Or.symm

/-- All that is asked for **is on one of the sides**, since everything is derived for the start. The
start is the one expression that may be on neither. -/
theorem Rooted.sided {position : Nat} (hr : Rooted g L position) (hp : g.Apart side other) :
    Sided g side other L := by
  intro memo
  induction memo using Nat.strongRecOn with
  | ind memo ih =>
    intro goal hgoal
    obtain ⟨next, ha, hold⟩ := hr.asked memo goal hgoal
    cases hmemo : next.memo? with
    | none => exact .inl (by rw [(ha.of_memo?_eq_none hmemo).2])
    | some memo' =>
      obtain ⟨goal', e, hgoal', he, -, hchild | ⟨heq, -⟩⟩ := ha.exists_maker hmemo
      · rcases ih memo' (hold memo' hmemo) goal' hgoal' with hstart | hside | hother
        · exact .inr ((hp.child (hstart ▸ he)).2 _ hchild).1
        · exact .inr (.inl (hp.isSide.child _ e hside he _ hchild))
        · exact .inr (.inr (hp.isOther.child _ e hother he _ hchild))
      · rw [heq]
        exact ih memo' (hold memo' hmemo) goal' hgoal'

/-! ### Who asks -/

theorem Asks.congr (hgrows : L.Grows L') (ha : Awaits g L next goal) :
    Asks g L' side next id ↔ Asks g L side next id := by
  constructor
  · rintro ⟨memo, goal', hmemo, hgoal', hside⟩
    obtain ⟨goal'', -, hgoal'', -⟩ := ha.exists_maker hmemo
    obtain rfl := Option.some.inj (hgoal'.symm.trans (hgrows.goal hgoal''))
    exact ⟨memo, goal', hmemo, hgoal'', hside⟩
  · rintro ⟨memo, goal', hmemo, hgoal', hside⟩
    exact ⟨memo, goal', hmemo, hgrows.goal hgoal', hside⟩

theorem IsOf.congr (hgrows : L.Grows L') (hn : L.Result node goal stop) :
    IsOf L' side node ↔ side goal.expr := by
  constructor
  · rintro ⟨goal', stop', hn', hside⟩
    rwa [((hn.mono hgrows).unique hn').1]
  · exact fun hside => ⟨goal, stop, hn.mono hgrows, hside⟩

theorem isOf_iff (hn : L.Result node goal stop) : IsOf L side node ↔ side goal.expr :=
  IsOf.congr (.refl L) hn

/-- What is asked for on behalf of a side **is on that side**. A side is closed under the children
of expressions, which are all that a continuation awaits. -/
theorem side_of_asks (hs : g.Side side) (ha : Awaits g L next goal)
    (h : Asks g L side next goal.expr) : side goal.expr := by
  obtain ⟨memo, goal', hmemo, hgoal', hside | ⟨-, hside⟩⟩ := h
  · obtain ⟨goal'', e, hgoal'', he, -, hchild | ⟨heq, -⟩⟩ := ha.exists_maker hmemo
    · obtain rfl := Option.some.inj (hgoal'.symm.trans hgoal'')
      exact hs.child _ e hside he _ hchild
    · obtain rfl := Option.some.inj (hgoal'.symm.trans hgoal'')
      rwa [heq]
  · exact hside

/-- Nothing is asked for **on behalf of both sides**. -/
theorem not_asks_both (hp : g.Apart side other) (ha : Awaits g L next goal)
    (h : Asks g L side next goal.expr) (h' : Asks g L other next goal.expr) : False := by
  obtain ⟨memo, goal', hmemo, hgoal', hside⟩ := h
  obtain ⟨memo', goal'', hmemo', hgoal'', hother⟩ := h'
  obtain rfl := Option.some.inj (hmemo.symm.trans hmemo')
  obtain rfl := Option.some.inj (hgoal'.symm.trans hgoal'')
  obtain ⟨goal'', e, hgoal'', he, hterminal, hchild⟩ := ha.exists_maker hmemo
  obtain rfl := Option.some.inj (hgoal'.symm.trans hgoal'')
  rcases hside with hside | ⟨hstart, hside⟩ <;> rcases hother with hother | ⟨hstart', hother⟩
  · exact absurd (hp.terminal _ e hside hother he) (by simp [hterminal])
  · exact hp.isSide.start (hstart' ▸ hside)
  · exact hp.isOther.start (hstart ▸ hother)
  · rcases hchild with hchild | ⟨heq, -⟩
    · exact ((hp.child (hstart ▸ he)).2 _ hchild).2 ⟨hside, hother⟩
    · exact hp.isSide.start (heq.trans hstart ▸ hside)

/-- What is on one side only **is asked for on its behalf**. -/
theorem asks_of_side (hp : g.Apart side other) (hsided : Sided g side other L)
    (ha : Awaits g L next goal) (hside : side goal.expr) (hnot : ¬ other goal.expr) :
    Asks g L side next goal.expr := by
  cases hmemo : next.memo? with
  | none =>
    rw [(ha.of_memo?_eq_none hmemo).2] at hside
    exact absurd hside hp.isSide.start
  | some memo =>
    obtain ⟨goal', e, hgoal', he, -, hchild⟩ := ha.exists_maker hmemo
    refine ⟨memo, goal', hmemo, hgoal', ?_⟩
    rcases hsided memo goal' hgoal' with hstart | hside' | hother
    · exact .inr ⟨hstart, hside⟩
    · exact .inl hside'
    · rcases hchild with hchild | ⟨heq, -⟩
      · exact absurd (hp.isOther.child _ e hother he _ hchild) hnot
      · exact absurd (heq ▸ hother) hnot

/-- Whatever is asked for for a memo is asked for **on behalf of one side or the other**. -/
theorem asks_or_asks (hp : g.Apart side other) (hsided : Sided g side other L)
    (ha : Awaits g L next goal) (hnext : next ≠ .accept) :
    Asks g L side next goal.expr ∨ Asks g L other next goal.expr := by
  cases hmemo : next.memo? with
  | none => exact absurd (ha.of_memo?_eq_none hmemo).1 hnext
  | some memo =>
    obtain ⟨goal', e, hgoal', he, -, hchild⟩ := ha.exists_maker hmemo
    rcases hsided memo goal' hgoal' with hstart | hside | hother
    · rcases hchild with hchild | ⟨heq, hinner⟩
      · exact ((hp.child (hstart ▸ he)).2 _ hchild).1.imp
          (fun h => ⟨memo, goal', hmemo, hgoal', .inr ⟨hstart, h⟩⟩)
          (fun h => ⟨memo, goal', hmemo, hgoal', .inr ⟨hstart, h⟩⟩)
      · rw [(hp.child (hstart ▸ he)).1] at hinner
        cases hinner
    · exact .inl ⟨memo, goal', hmemo, hgoal', .inl hside⟩
    · exact .inr ⟨memo, goal', hmemo, hgoal', .inl hother⟩

end Machine

end GeneralParsing
