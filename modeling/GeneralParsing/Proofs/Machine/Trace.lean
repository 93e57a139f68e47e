import GeneralParsing.Proofs.Machine.Reached

/-!
# What happens in a run

A **trace** is the run of the machine on an input, taken apart into its transitions: a task is done,
the machine turns to the next position, or a result that waited for it is recorded. What happens to
the memos is read off the states before and after: a memo is opened for an expression (`Tabled`), a
continuation is registered with a memo (`registrations`), and a memo is completed by a node
(`completions`). Which continuation is resumed is read off the task (`resumptions`).
-/

namespace GeneralParsing

namespace Machine

/-! ### Traces -/

/-- What a machine **does next**. -/
inductive Move where
  /-- It does the task on top of the stack. -/
  | task (task : Task)
  /-- It turns to the next position. -/
  | turn
  /-- It records a result that has waited for the position. -/
  | record (node : NodeId) (id : MemoId)

/-- A move, with the machine **before and after** it. -/
structure Transition where
  /-- The machine before. -/
  before : Machine
  /-- What it does. -/
  move : Move
  /-- The machine after. -/
  after : Machine

/-- The machine **comes to a state** on the input by transitions, the latest first. The results that
wait to be recorded come last. -/
inductive Trace (g : Grammar) (w : List String) :
    List Transition → Machine → List (NodeId × MemoId) → Prop
  | start : Trace g w [] { Machine.initial g with lookahead := w[0]? } []
  | task {ts : List Transition} {m m' : Machine} {task : Task} {tasks : List Task}
      (h : Trace g w ts m []) (htasks : m.tasks = task :: tasks)
      (hstep : Machine.step g { m with tasks } task = .ok m') :
      Trace g w (⟨m, .task task, m'⟩ :: ts) m' []
  | turn {ts : List Transition} {m : Machine} {symbol : String} (h : Trace g w ts m [])
      (htasks : m.tasks = []) (hlook : m.lookahead = some symbol) (hmatched : m.matched ≠ []) :
      Trace g w (⟨m, .turn, m.nextPosition w[m.position + 1]?⟩ :: ts)
        (m.nextPosition w[m.position + 1]?) m.matched
  | record {ts : List Transition} {m m' : Machine} {node : NodeId} {id : MemoId}
      {waiting : List (NodeId × MemoId)} (h : Trace g w ts m ((node, id) :: waiting))
      (hcomplete : m.complete id node = .ok m') :
      Trace g w (⟨m, .record node id, m'⟩ :: ts) m' waiting

/-! ### Events -/

/-- The continuations that are **registered** with a memo, the latest first. -/
def parentsOf (m : Machine) (id : MemoId) : List Continuation :=
  ((m.memos[id]?).map Memo.parents).getD []

/-- The **latest result** of a memo and the position it ends at. -/
def latestOf (m : Machine) (id : MemoId) : Option (Nat × NodeId) :=
  (m.memos[id]?).bind Memo.latest

namespace Transition

/-- The result that a memo is **completed** by, and the position it ends at. -/
def completions (t : Transition) (id : MemoId) : List (Nat × NodeId) :=
  if t.after.latestOf id = t.before.latestOf id then [] else (t.after.latestOf id).toList

/-- The continuations that are **registered** with a memo. -/
def registrations (t : Transition) (id : MemoId) : List Continuation :=
  (t.after.parentsOf id).take ((t.after.parentsOf id).length - (t.before.parentsOf id).length)

/-- The continuation that is **resumed**, with the position and the node. -/
def resumptions (t : Transition) : List (Nat × NodeId × Continuation) :=
  match t.move with
  | .task (.resume node next) => [(t.before.position, node, next)]
  | _ => []

end Transition

/-- The **completions** of a memo, the latest first. -/
def completions (ts : List Transition) (id : MemoId) : List (Nat × NodeId) :=
  ts.flatMap (·.completions id)

/-- The **registrations** with a memo, the latest first. -/
def registrations (ts : List Transition) (id : MemoId) : List Continuation :=
  ts.flatMap (·.registrations id)

/-- The **resumptions** of continuations, the latest first. -/
def resumptions (ts : List Transition) : List (Nat × NodeId × Continuation) :=
  ts.flatMap (·.resumptions)

/-- The table has held a memo for an expression **at a position**. -/
def Tabled (ts : List Transition) (expr : ExprId) (start : Nat) (id : MemoId) : Prop :=
  ∃ t ∈ ts, t.after.position = start ∧ t.after.table[expr]? = some id

section

variable {m m' : Machine} {id : MemoId} {memo : Memo} {move : Move} {ts : List Transition}

/-- What has been completed is read off **transition by transition**, the latest first, and the same
holds of the other events. -/
theorem completions_cons (t : Transition) (ts : List Transition) (id : MemoId) :
    completions (t :: ts) id = t.completions id ++ completions ts id := List.flatMap_cons

theorem registrations_cons (t : Transition) (ts : List Transition) (id : MemoId) :
    registrations (t :: ts) id = t.registrations id ++ registrations ts id := List.flatMap_cons

theorem resumptions_cons (t : Transition) (ts : List Transition) :
    resumptions (t :: ts) = t.resumptions ++ resumptions ts := List.flatMap_cons

/-- What stands in the table at a position was **there in some transition** at that position. -/
theorem tabled_cons {t : Transition} {expr : ExprId} {start : Nat} :
    Tabled (t :: ts) expr start id ↔
      t.after.position = start ∧ t.after.table[expr]? = some id ∨ Tabled ts expr start id := by
  simp [Tabled]

/-- Where the latest result is the same **nothing is completed**. -/
theorem completions_of_latestOf_eq (h : m'.latestOf id = m.latestOf id) :
    Transition.completions ⟨m, move, m'⟩ id = [] := if_pos h

/-- Where the latest result is another one the memo **is completed** by it. Events are read off the
tables before and after, so no table is needed for them. -/
theorem completions_of_latestOf_ne {result : Nat × NodeId} (h : m'.latestOf id = some result)
    (hne : m.latestOf id ≠ some result) : Transition.completions ⟨m, move, m'⟩ id = [result] := by
  rw [Transition.completions, h, if_neg fun heq => hne heq.symm, Option.toList_some]

/-- What is registered with a memo, in front of what has been, **is all** that is. What was there
before cannot have been lost, therefore. -/
theorem registrations_append_of_suffix (h : m.parentsOf id <:+ m'.parentsOf id) :
    Transition.registrations ⟨m, move, m'⟩ id ++ m.parentsOf id = m'.parentsOf id := by
  obtain ⟨added, hadded⟩ := h
  simp [Transition.registrations, ← hadded]

/-! ### Memos after a move -/

theorem parentsOf_of_memo (h : m.memos[id]? = some memo) : m.parentsOf id = memo.parents := by
  rw [parentsOf, h, Option.map_some, Option.getD_some]

theorem latestOf_of_memo (h : m.memos[id]? = some memo) : m.latestOf id = memo.latest := by
  rw [latestOf, h, Option.bind_some]

/-- A new memo leaves **the continuations of the older ones** as they are. -/
theorem parentsOf_addMemo_of_lt (h : id < m.memos.size) (next : Continuation) :
    (m.addMemo next).1.parentsOf id = m.parentsOf id := by
  rw [parentsOf, addMemo, Array.getElem?_push_lt h, parentsOf, Array.getElem?_eq_getElem h]

/-- Continuations are only ever **put in front**. -/
theorem parentsOf_suffix_addMemo (m : Machine) (next : Continuation) (id : MemoId) :
    m.parentsOf id <:+ (m.addMemo next).1.parentsOf id := by
  by_cases hlt : id < m.memos.size
  · rw [parentsOf_addMemo_of_lt hlt]
  · have hnone : m.memos[id]? = none := Array.getElem?_eq_none (Nat.le_of_not_lt hlt)
    rw [parentsOf, hnone]
    exact List.nil_suffix

/-- A new memo has **no result**, and the older ones keep theirs. -/
theorem latestOf_addMemo (m : Machine) (next : Continuation) (id : MemoId) :
    (m.addMemo next).1.latestOf id = m.latestOf id := by
  have hpush : (m.memos.push ⟨m.position, [next], none⟩)[id]? =
      if id = m.memos.size then some ⟨m.position, [next], none⟩ else m.memos[id]? :=
    Array.getElem?_push
  rw [latestOf, addMemo, hpush]
  split
  · next heq =>
    subst heq
    simp [latestOf]
  · rfl

/-- **Another memo** in the place of one. Registering and completing are both of this form. -/
theorem memos_setIfInBounds {id' : MemoId} (h : m.memos[id']? = some memo) (memo' : Memo)
    (id : MemoId) :
    (m.memos.setIfInBounds id' memo')[id]? = if id' = id then some memo' else m.memos[id]? := by
  rw [Array.getElem?_setIfInBounds, if_pos (Array.getElem?_eq_some_iff.mp h).1]

/-- One memo gets the continuation **in front of its others**. -/
theorem parentsOf_registeredWith (h : m.memos[id]? = some memo) (next : Continuation)
    (id' : MemoId) : (m.registeredWith id memo next).parentsOf id' =
      if id = id' then next :: m.parentsOf id else m.parentsOf id' := by
  rw [parentsOf, registeredWith, memos_setIfInBounds h, parentsOf_of_memo h]
  split <;> rfl

/-- Registering a continuation **gives no result**. -/
theorem latestOf_registeredWith (h : m.memos[id]? = some memo) (next : Continuation)
    (id' : MemoId) : (m.registeredWith id memo next).latestOf id' = m.latestOf id' := by
  rw [latestOf, registeredWith, memos_setIfInBounds h]
  split
  · next heq =>
    subst heq
    rw [latestOf_of_memo h]
    rfl
  · rfl

/-- Completing a memo **keeps all continuations**. They stay for results at other places. -/
theorem parentsOf_completedWith (h : m.memos[id]? = some memo) (node : NodeId) (id' : MemoId) :
    (m.completedWith id memo node).parentsOf id' = m.parentsOf id' := by
  rw [parentsOf, completedWith, memos_setIfInBounds h]
  split
  · next heq =>
    subst heq
    rw [parentsOf_of_memo h]
    rfl
  · rfl

/-- Completing a memo sets **its latest result**, and no other. -/
theorem latestOf_completedWith (h : m.memos[id]? = some memo) (node : NodeId) (id' : MemoId) :
    (m.completedWith id memo node).latestOf id' =
      if id = id' then some (m.position, node) else m.latestOf id' := by
  rw [latestOf, completedWith, memos_setIfInBounds h]
  split <;> rfl

end

end Machine

end GeneralParsing
