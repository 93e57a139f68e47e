import GeneralParsing.Proofs.Machine.Unique
import Mathlib

/-!
# The machine comes to an end

The **potential** of a machine counts the steps that it can still take at its position: what its
continuations can give rise to here, and what the expressions that have not been derived here can
ask for. Every step lowers it (`potential_outcome`), so the bound on the number of steps is never
reached.
-/

namespace GeneralParsing

/-- The most tasks that a continuation **can lead to** at one position, itself included. A
repetition goes on here once after a result that covers symbols, and then with empty iterations up
to its least number. -/
def Continuation.cost (empty : Bool) : Continuation → Nat
  | .sequence _ _ _ rest => 2 + 2 * rest.length
  | .repetition _ _ _ _ count min _ => if empty then 2 + 2 * (min - count) else 2 * min + 5
  | _ => 1

/-- What a continuation gives rise to **costs less** than it does. What is left over is the step
itself. -/
theorem Continuation.after_lt_cost (next : Continuation) (empty : Bool) (node : NodeId) :
    next.after cost 1 1 empty node < next.cost empty := by
  cases next with
  | sequence tag memo done rest =>
    cases rest with
    | nil => exact Nat.lt_succ_self 1
    | cons child rest =>
      simp only [after, cost, List.length_cons]
      omega
  | repetition tag memo done child count min max =>
    by_cases hmin : min ≤ count
    · cases empty with
      | true => simp [after, cost, hmin]
      | false =>
        simp only [after, cost, hmin, if_true, Bool.false_and, Bool.not_false, Bool.and_true,
          Bool.false_eq_true, if_false]
        split <;> omega
    · simp only [after, cost, hmin, decide_false, Bool.and_false, Bool.not_false, Bool.and_true,
        if_true, if_false]
      cases empty <;> simp only [Bool.false_eq_true, if_true, if_false] <;> split <;> omega
  | _ => exact Nat.zero_lt_one

/-- What an expression **asks for** is bounded by its width and its steps. So the width of an
expression, set aside until it is derived, pays for the tasks and memos that come of it. -/
theorem Expr.grant_cost_le (e : Expr) (memo inner : MemoId) :
    e.grant Continuation.cost 1 1 memo inner ≤ 2 * (e.steps + 1) * e.width := by
  cases e with
  | seq tag children =>
    cases children with
    | nil => exact Nat.zero_le _
    | cons child rest =>
      simp only [grant, Continuation.cost, steps, width, List.length_cons]
      omega
  | alt tag children =>
    simp only [grant, steps, width]
    omega
  | rep tag child min max =>
    simp only [grant, Continuation.cost, steps, width, if_true]
    omega
  | omitted child | lexical child =>
    simp only [grant, Continuation.cost, steps, width]
    omega
  | token | pattern => exact Nat.zero_le _

namespace Grammar

theorem le_foldl_max (f : Expr → Nat) (es : List Expr) (n : Nat) :
    n ≤ es.foldl (fun n e => max n (f e)) n := by
  induction es generalizing n with
  | nil => exact Nat.le_refl n
  | cons e es ih => exact Nat.le_trans (Nat.le_max_left _ _) (ih _)

theorem le_foldl_max_of_mem (f : Expr → Nat) {es : List Expr} {e : Expr} (h : e ∈ es) (n : Nat) :
    f e ≤ es.foldl (fun n e => max n (f e)) n := by
  induction es generalizing n with
  | nil => simp at h
  | cons x es ih =>
    rcases List.mem_cons.mp h with rfl | h
    · exact Nat.le_trans (Nat.le_max_right _ _) (le_foldl_max f es _)
    · exact ih h _

/-- No expression has **more steps** than the most. -/
theorem steps_le_maxSteps (g : Grammar) {id : ExprId} {e : Expr} (he : g.expr? id = some e) :
    e.steps ≤ g.maxSteps := by
  rw [maxSteps, ← Array.foldl_toList]
  exact le_foldl_max_of_mem Expr.steps (Array.mem_toList_iff.mpr (Array.mem_of_getElem? he)) 1

/-- The width of the expression with an index. -/
def widthAt (g : Grammar) (id : ExprId) : Nat := ((g.expr? id).map Expr.width).getD 0

theorem foldl_width (es : List Expr) (n : Nat) :
    es.foldl (fun n e => n + e.width) n = n + (es.map Expr.width).sum := by
  induction es generalizing n with
  | nil => rfl
  | cons e es ih =>
    rw [List.foldl_cons, ih, List.map_cons, List.sum_cons]
    omega

theorem sum_getElem? (es : List Expr) :
    ∑ i ∈ Finset.range es.length, ((es[i]?).map Expr.width).getD 0 = (es.map Expr.width).sum := by
  induction es with
  | nil => rfl
  | cons e es ih =>
    rw [List.length_cons, Finset.sum_range_succ']
    simp only [List.getElem?_cons_succ, List.getElem?_cons_zero, Option.map_some, Option.getD_some,
      List.map_cons, List.sum_cons]
    omega

/-- The widths of all expressions **add up** to the total width. -/
theorem sum_widthAt (g : Grammar) : ∑ id ∈ Finset.range g.size, g.widthAt id = g.totalWidth := by
  rw [totalWidth, ← Array.foldl_toList, foldl_width, Nat.zero_add, ← sum_getElem?]
  simp [size, widthAt, expr?]

end Grammar

namespace Machine

variable {g : Grammar} {w : List String} {L L' : Ledger} {m m' : Machine}

/-- The width of an expression that has **not been derived here**. -/
def unopenedAt (g : Grammar) (m : Machine) (id : ExprId) : Nat :=
  if m.table.contains id then 0 else g.widthAt id

/-- The width of all that has **not been derived here**. -/
def unopened (g : Grammar) (m : Machine) : Nat := ∑ id ∈ Finset.range g.size, m.unopenedAt g id

/-- The steps that the machine **can still take** at its position. -/
def potential (g : Grammar) (m : Machine) : Nat :=
  m.load Continuation.cost 1 false + 2 * (g.maxSteps + 1) * m.unopened g

theorem unopened_le (g : Grammar) (m : Machine) : m.unopened g ≤ g.totalWidth := by
  rw [← g.sum_widthAt]
  refine Finset.sum_le_sum fun id _ => ?_
  rw [unopenedAt]
  split
  · exact Nat.zero_le _
  · exact Nat.le_refl _

/-- Deriving an expression **uses up** its width. As the table says what was derived at the
position, each expression pays once. -/
theorem unopened_of_insert {id : ExprId} {e : Expr} {memo : MemoId} (he : g.expr? id = some e)
    (hid : m.table.contains id = false) (htable : m'.table = m.table.insert id memo) :
    m'.unopened g + e.width = m.unopened g := by
  have hrange : id ∈ Finset.range g.size :=
    Finset.mem_range.mpr (Array.getElem?_eq_some_iff.mp he).1
  have hrest : ∑ i ∈ (Finset.range g.size).erase id, m'.unopenedAt g i =
      ∑ i ∈ (Finset.range g.size).erase id, m.unopenedAt g i := by
    refine Finset.sum_congr rfl fun i hi => ?_
    have hne : (id == i) = false := by simpa using (Finset.ne_of_mem_erase hi).symm
    rw [unopenedAt, unopenedAt, htable, Std.HashMap.contains_insert, hne, Bool.false_or]
  have hbefore : m.unopenedAt g id = e.width := by
    rw [unopenedAt, hid, if_neg Bool.false_ne_true, Grammar.widthAt, he]
    rfl
  have hafter : m'.unopenedAt g id = 0 := by
    rw [unopenedAt, htable, Std.HashMap.contains_insert, beq_self_eq_true, Bool.true_or, if_pos rfl]
  rw [unopened, unopened, ← Finset.add_sum_erase _ _ hrange, ← Finset.add_sum_erase _ _ hrange,
    hrest, hbefore, hafter, Nat.zero_add]
  exact Nat.add_comm _ _

theorem cost_choice_le (b : Bool) (tag : Option String) (memo : MemoId) :
    Continuation.cost b (.choice tag memo) ≤ 1 := Nat.le_refl 1

theorem table_expansion {id : MemoId} {e : Expr} (hexp : Expansion L m id e L' m') :
    m'.table = m.table := by
  cases hexp <;> rfl

theorem table_resume {node : NodeId} {next : Continuation}
    (ho : Outcome g L m (.resume node next) L' m') : m'.table = m.table := by
  cases ho <;> rfl

/-- **Every step lowers the potential.** The tasks are therefore done after as many steps as the
potential says, at the most. -/
theorem potential_outcome (hs : Sound g w L m) {task : Task}
    (ht : Ticketed g L (m.withTasks [task])) (hst : SoundTask g L m.position task)
    (ho : Outcome g L m task L' m') : m'.potential g < (m.withTasks [task]).potential g := by
  have hbefore : (m.withTasks [task]).potential g =
      task.load Continuation.cost 1 false m.isEmptyAt + m.potential g := by
    rw [potential, load_withTask, Nat.add_assoc]
    rfl
  rw [hbefore, potential, potential]
  cases task with
  | resume node next =>
    -- a result opens no expression, so only the load matters
    have hunopened : m'.unopened g = m.unopened g := by
      simp only [unopened, unopenedAt, table_resume ho]
    cases hst with
    | resume hresult hgoal ha =>
    have hload : m'.load Continuation.cost 1 false ≤ m.load Continuation.cost 1 false +
        next.after Continuation.cost 1 1 (m.isEmptyAt node) node :=
      load_resume_le hs cost_choice_le (.resume hresult hgoal ha) (ht.free ha) ho
    have hafter := next.after_lt_cost (m.isEmptyAt node) node
    rw [hunopened, Task.load, if_neg Bool.false_ne_true]
    omega
  | derive next id =>
    rw [Task.load]
    cases ho with
    | @registered _ _ memo record htable hrecord =>
      have hworks := hs.table id memo htable
      have hload := load_registeredWith Continuation.cost 1 false hs hrecord
        (hs.soundMemo hrecord hworks) rfl next
      have hunopened : (m.registeredWith memo record next).unopened g = m.unopened g := rfl
      rw [hload, hunopened]
      omega
    -- what was set aside for the expression pays for all that comes of it
    | @opened _ _ e _ _ htable he hexp =>
      have hload : m'.load Continuation.cost 1 false ≤ m.load Continuation.cost 1 false +
          next.cost true + e.grant Continuation.cost 1 1 m.memos.size (m.memos.size + 1) :=
        load_opened_le hs.tasksOld cost_choice_le hexp
      have hgrant := e.grant_cost_le m.memos.size (m.memos.size + 1)
      have hsteps : 2 * (e.steps + 1) * e.width ≤ 2 * (g.maxSteps + 1) * e.width :=
        Nat.mul_le_mul_right _
          (Nat.mul_le_mul_left 2 (Nat.succ_le_succ (g.steps_le_maxSteps he)))
      have hid : m.table.contains id = false := by
        rw [Std.HashMap.contains_eq_isSome_getElem?, htable]
        rfl
      have hunopened : m'.unopened g + e.width = m.unopened g :=
        unopened_of_insert he hid (table_expansion hexp)
      rw [← hunopened, Nat.mul_add (2 * (g.maxSteps + 1))]
      omega

end Machine

end GeneralParsing
