import GeneralParsing.Proofs.Machine.Load

/-!
# Wrappers are resumed once

What is omitted or taken as one text has one continuation that waits for the result, a **ticket**.
It is registered with one memo, and that memo gets one result at each position, so the wrapper's
memo does too. The loads of the tickets say so (`Ticketed`): at each position a wrapper's ticket is
held at most once, and not at all when the wrapper has its result there.
-/

namespace GeneralParsing

/-- Whether an expression **wraps** another. -/
def Expr.isWrapper : Expr → Bool
  | omitted _ => true
  | lexical _ => true
  | _ => false

/-- A wrapper has **no inner goal**. -/
theorem Expr.hasInner_of_isWrapper {e : Expr} (h : e.isWrapper = true) : e.hasInner = false := by
  cases e with
  | omitted | lexical => rfl
  | _ => cases h

namespace Continuation

/-- The memo whose results the continuation **makes**. -/
def memo? : Continuation → Option MemoId
  | .accept => none
  | .sequence _ memo _ _ => some memo
  | .choice _ memo => some memo
  | .repetition _ memo _ _ _ _ _ => some memo
  | .omitted memo => some memo
  | .lexical memo => some memo

/-- A wrapper's memo counts its **ticket**. -/
def ticket (id : MemoId) (_ : Bool) : Continuation → Nat
  | .omitted memo => if memo = id then 1 else 0
  | .lexical memo => if memo = id then 1 else 0
  | _ => 0

end Continuation

section

variable {g : Grammar} {w : List String} {L L' : Ledger} {m m' : Machine} {id : MemoId} {b : Bool}

/-- The memo that a continuation makes results for **is there**. -/
theorem Awaits.memo_lt {next : Continuation} {goal : Goal} (ha : Awaits g L next goal)
    {memo : MemoId} (hmemo : next.memo? = some memo) : memo < L.goals.size := by
  cases ha with
  | accept => cases hmemo
  | sequence h | choice h | inner h | repetition h | omitted h | lexical h =>
    obtain rfl := Option.some.inj hmemo
    exact (Array.getElem?_eq_some_iff.mp h).1

/-- A continuation of another memo **holds no ticket**. -/
theorem Continuation.ticket_of_memo_ne {next : Continuation} (h : next.memo? ≠ some id) :
    next.ticket id b = 0 := by
  cases next with
  | omitted memo | lexical memo => exact if_neg fun heq => h (congrArg some heq)
  | _ => rfl

/-- For a memo that is new **no ticket is held** yet. -/
theorem Awaits.ticket_eq_zero {next : Continuation} {goal : Goal} (ha : Awaits g L next goal)
    (hid : L.goals.size ≤ id) : next.ticket id b = 0 :=
  Continuation.ticket_of_memo_ne fun h => absurd (ha.memo_lt h) (Nat.not_lt_of_le hid)

/-- A wrapper's results are made by **its ticket** alone. A wrapper has one part, so there is one
continuation that waits for it. -/
theorem Awaits.ticket_eq_one {next : Continuation} {goal : Goal} (ha : Awaits g L next goal)
    {expr : ExprId} {start : Nat} {e : Expr} (hid : L.goals[id]? = some ⟨expr, false, start⟩)
    (he : g.expr? expr = some e) (hwrap : e.isWrapper = true) (hmemo : next.memo? = some id) :
    next.ticket id b = 1 := by
  cases ha with
  | accept => cases hmemo
  | sequence h | repetition h =>
    obtain rfl := Option.some.inj hmemo
    cases hid.symm.trans h
  | choice h he' =>
    obtain rfl := Option.some.inj hmemo
    cases hid.symm.trans h
    cases he.symm.trans he'
    cases hwrap
  | inner h he' hinner =>
    obtain rfl := Option.some.inj hmemo
    cases hid.symm.trans h
    cases he.symm.trans he'
    exact absurd (Expr.hasInner_of_isWrapper hwrap) (by simp [hinner])
  | omitted | lexical =>
    obtain rfl := Option.some.inj hmemo
    exact if_pos rfl

/-- The only expression that **asks for a ticket** is a wrapper. All tickets of a memo come from the
one expansion of its expression. -/
theorem Expr.grant_ticket_le (e : Expr) (id memo inner : MemoId) :
    e.grant (Continuation.ticket id) 0 0 memo inner ≤ if memo = id then 1 else 0 := by
  cases e with
  | seq tag children => cases children <;> exact Nat.zero_le _
  | alt tag children => exact Nat.le_trans (Nat.le_of_eq (Nat.mul_zero _)) (Nat.zero_le _)
  | omitted child | lexical child => exact Nat.le_of_eq (Nat.zero_add _)
  | _ => exact Nat.zero_le _

/-- Choices hold **no ticket**. -/
theorem Continuation.ticket_choice_le (id : MemoId) (b : Bool) (tag : Option String)
    (memo : MemoId) : ticket id b (.choice tag memo) ≤ 0 := Nat.le_refl 0

/-- A wrapper's continuation **gives its ticket up** when it is resumed. It asks for nothing more,
as its result is complete with the one part. -/
theorem Continuation.after_ticket (next : Continuation) (empty : Bool) (node : NodeId) :
    next.after (ticket id) 0 0 empty node = 0 := by
  cases next with
  | sequence tag memo done rest => cases rest <;> rfl
  | repetition => simp [after, ticket]
  | _ => rfl

namespace Machine

/-- The **result of a memo** here, if there is one. -/
def resultHere (m : Machine) (id : MemoId) : Option NodeId :=
  (m.memos[id]?).bind (·.resultAt m.position)

theorem resultHere_of_memo {memo : Memo} (h : m.memos[id]? = some memo) :
    m.resultHere id = memo.resultAt m.position := by
  rw [resultHere, h, Option.bind_some]

/-- A new memo **has no result**, and the others keep theirs. -/
theorem resultHere_addMemo (m : Machine) (next : Continuation) (id : MemoId) :
    (m.addMemo next).1.resultHere id = m.resultHere id := by
  have hpush : (m.memos.push ⟨m.position, [next], none⟩)[id]? =
      if id = m.memos.size then some ⟨m.position, [next], none⟩ else m.memos[id]? :=
    Array.getElem?_push
  rw [resultHere, addMemo, hpush]
  split
  · next heq =>
    subst heq
    simp [resultHere, Memo.resultAt]
  · rfl

theorem resultHere_registeredWith {id' : MemoId} {memo : Memo}
    (hmemo : m.memos[id']? = some memo) (next : Continuation) (id : MemoId) :
    (m.registeredWith id' memo next).resultHere id = m.resultHere id := by
  rw [resultHere, registeredWith, Array.getElem?_setIfInBounds]
  split
  · next heq =>
    subst heq
    rw [if_pos (Array.getElem?_eq_some_iff.mp hmemo).1, resultHere_of_memo hmemo]
    rfl
  · rfl

/-- A memo that is completed **has its result here**. -/
theorem resultHere_completedWith_self {memo : Memo} (hmemo : m.memos[id]? = some memo)
    (node : NodeId) : (m.completedWith id memo node).resultHere id = some node := by
  rw [resultHere, completedWith, Array.getElem?_setIfInBounds_self,
    if_pos (Array.getElem?_eq_some_iff.mp hmemo).1]
  exact memo.resultAt_latest m.position node

/-- Other memos **keep what they have**. -/
theorem resultHere_completedWith_ne {id' : MemoId} (hne : id' ≠ id) (m : Machine) (memo : Memo)
    (node : NodeId) : (m.completedWith id' memo node).resultHere id = m.resultHere id := by
  rw [resultHere, completedWith, Array.getElem?_setIfInBounds, if_neg hne]
  rfl

/-- Other memos keep what they have when one gets **its first result**. -/
theorem resultHere_finishedWith_ne {id' : MemoId} (hne : id' ≠ id) (m : Machine) (memo : Memo)
    (kind : Forest.Kind) : (m.finishedWith id' memo kind).resultHere id = m.resultHere id :=
  resultHere_completedWith_ne hne _ memo _

/-- A resumption gives a result **to the memo of its continuation** alone. Inner memos are included:
what a resumption completes is the memo that its continuation names. -/
theorem resultHere_resume {node : NodeId} {next : Continuation} (hne : next.memo? ≠ some id)
    (ho : Outcome g L m (.resume node next) L' m') : m'.resultHere id = m.resultHere id := by
  cases ho with
  | sequenceDone | choiceFirst | repetitionLate | omitted | lexical =>
    exact resultHere_finishedWith_ne (fun h => hne (congrArg some h)) _ _ _
  | _ => rfl

/-- An expansion gives a result **to new memos** alone. An empty list is finished at once, and for
that reason the memo of the expansion is left out. -/
theorem resultHere_expansion {memo : MemoId} {e : Expr} (hexp : Expansion L m memo e L' m')
    (hid : id ≠ m.memos.size) (hmemo : id ≠ memo ∨ e.isWrapper = true) :
    m'.resultHere id = m.resultHere id := by
  cases hexp with
  | empty =>
    exact resultHere_finishedWith_ne (hmemo.resolve_right Bool.false_ne_true).symm _ _ _
  | repetitionEmpty =>
    exact (resultHere_finishedWith_ne hid.symm _ _ _).trans (resultHere_addMemo m _ id)
  | sequence | repetition => exact resultHere_addMemo m _ id
  | _ => rfl

/-- A wrapper's new memo has **no result yet**. -/
theorem resultHere_opened_self {next : Continuation} {expr : ExprId} {e : Expr}
    (hexp : Expansion L (m.opened next expr) m.memos.size e L' m') (hwrap : e.isWrapper = true) :
    m'.resultHere m.memos.size = none := by
  have hpush : (m.opened next expr).memos.size = m.memos.size + 1 := Array.size_push _
  have hne : m.memos.size ≠ (m.opened next expr).memos.size := by omega
  rw [resultHere_expansion hexp hne (.inr hwrap)]
  exact (resultHere_addMemo m next _).trans (by simp [resultHere])

/-- What is opened gives **no result to older memos**. -/
theorem resultHere_opened_of_lt {next : Continuation} {expr : ExprId} {e : Expr}
    (hexp : Expansion L (m.opened next expr) m.memos.size e L' m') (hid : id < m.memos.size) :
    m'.resultHere id = m.resultHere id := by
  have hpush : (m.opened next expr).memos.size = m.memos.size + 1 := Array.size_push _
  have hne : id ≠ (m.opened next expr).memos.size :=
    Nat.ne_of_lt (Nat.lt_of_lt_of_eq (Nat.lt_succ_of_lt hid) hpush.symm)
  rw [resultHere_expansion hexp hne (.inl (Nat.ne_of_lt hid))]
  exact resultHere_addMemo m next id

/-! ### The invariant -/

/-- Every wrapper's ticket is **held at most once**, and not at all when the wrapper has its result
here. -/
structure Ticketed (g : Grammar) (L : Ledger) (m : Machine) : Prop where
  here : ∀ (id : MemoId) expr start e, L.goals[id]? = some ⟨expr, false, start⟩ →
    g.expr? expr = some e → e.isWrapper = true →
      m.load (Continuation.ticket id) 0 false + (m.resultHere id).isSome.toNat ≤ 1
  later : ∀ id < L.goals.size, m.load (Continuation.ticket id) 0 true ≤ 1

/-- The tickets of memos to come are **held nowhere**. So the count starts at nothing when a memo is
opened. -/
theorem Sound.load_ticket_eq_zero (h : Sound g w L m) (hid : L.goals.size ≤ id) (later : Bool) :
    m.load (Continuation.ticket id) 0 later = 0 := by
  have htasks : ∀ task ∈ m.tasks,
      task.load (Continuation.ticket id) 0 later m.isEmptyAt = 0 := by
    intro task htask
    cases h.task task htask with
    | derive ha => exact (Nat.zero_add _).trans (ha.ticket_eq_zero hid)
    | resume _ _ ha =>
      rw [Task.load, ha.ticket_eq_zero hid, ite_self]
  have hmemos : ∀ memo ∈ m.memos.toList,
      memo.load (Continuation.ticket id) later m.position = 0 := by
    intro memo hmemo
    obtain ⟨i, hi⟩ := List.mem_iff_getElem?.mp hmemo
    obtain ⟨goal, hsound⟩ := h.memo i memo (by simpa using hi)
    have hparents : (memo.parents.map
        (Continuation.ticket id (memo.start == m.position))).sum = 0 := by
      refine List.sum_eq_zero fun n hn => ?_
      obtain ⟨next, hnext, rfl⟩ := List.mem_map.mp hn
      exact (hsound.parents next hnext).ticket_eq_zero hid
    rw [Memo.load, hparents, ite_self]
  rw [load, tally, List.sum_eq_zero (List.forall_mem_map.mpr htasks),
    List.sum_eq_zero (List.forall_mem_map.mpr hmemos), Nat.add_zero]

/-- One more task **adds its load**. -/
theorem load_withTask (held : Bool → Continuation → Nat) (toll : Nat) (later : Bool) (m : Machine)
    (task : Task) : (m.withTasks [task]).load held toll later =
      task.load held toll later m.isEmptyAt + m.load held toll later := by
  rw [load_withTasks, List.map_singleton, List.sum_singleton]

/-- A task to derive an expression holds **the ticket of its continuation**. -/
theorem load_withDerive (id : MemoId) (later : Bool) (m : Machine) (next : Continuation)
    (expr : ExprId) : (m.withTasks [.derive next expr]).load (Continuation.ticket id) 0 later =
      next.ticket id true + m.load (Continuation.ticket id) 0 later := by
  rw [load_withTask, Task.load, Nat.zero_add]

/-- Resumptions open **no memo**. -/
theorem goals_resume {node : NodeId} {next : Continuation}
    (ho : Outcome g L m (.resume node next) L' m') : L'.goals = L.goals := by
  cases ho <;> rfl

/-- Expansions open **inner memos** only. -/
theorem goals_expansion {memo : MemoId} {e : Expr} (hexp : Expansion L m memo e L' m')
    (hid : L'.goals[id]? = some ⟨expr, false, start⟩) :
    L.goals[id]? = some ⟨expr, false, start⟩ := by
  have hpush : ∀ {goal : Goal}, (L.goals.push { goal with inner := true })[id]? =
      some ⟨expr, false, start⟩ → L.goals[id]? = some ⟨expr, false, start⟩ := by
    intro goal hgoal
    rw [Array.getElem?_push] at hgoal
    split at hgoal
    · cases hgoal
    · exact hgoal
  cases hexp with
  | sequence | repetition | repetitionEmpty => exact hpush hid
  | _ => exact hid

namespace Ticketed

variable {node : NodeId} {next : Continuation} {goal : Goal} {e : Expr} {expr : ExprId}

/-- A wrapper's ticket is resumed when the wrapper **has no result here**. A result here would have
come by another ticket, and there is just one. -/
theorem free (ht : Ticketed g L (m.withTasks [.resume node next]))
    (ha : Awaits g L next goal) : ∀ id memo, next = .omitted id ∨ next = .lexical id →
      m.memos[id]? = some memo → memo.resultAt m.position = none := by
  intro id memo hnext hmemo
  have hone : ∀ {expr start e}, L.goals[id]? = some ⟨expr, false, start⟩ →
      g.expr? expr = some e → e.isWrapper = true → m.resultHere id = none := by
    intro expr start e hid he hwrap
    have hload := ht.here id expr start e hid he hwrap
    have hticket : next.ticket id (m.isEmptyAt node) = 1 :=
      ha.ticket_eq_one hid he hwrap (by rcases hnext with rfl | rfl <;> rfl)
    rw [load_withTask, Task.load, if_neg Bool.false_ne_true, hticket] at hload
    change _ + (m.resultHere id).isSome.toNat ≤ 1 at hload
    cases hres : m.resultHere id with
    | none => rfl
    | some node =>
      rw [hres, Option.isSome_some, Bool.toNat_true] at hload
      omega
  have hres : m.resultHere id = none := by
    rcases hnext with rfl | rfl
    · cases ha with
      | omitted hid he => exact hone hid he rfl
    · cases ha with
      | lexical hid he => exact hone hid he rfl
  rwa [resultHere_of_memo hmemo] at hres

/-- **Resuming a continuation** leaves every ticket held at most once. The ticket is given up, and
whatever is registered or asked for takes none of the others. -/
theorem resume (h : Sound g w L m) (ht : Ticketed g L (m.withTasks [.resume node next]))
    (hs : SoundTask g L m.position (.resume node next))
    (ho : Outcome g L m (.resume node next) L' m') : Ticketed g L' m' := by
  have hgoals := goals_resume ho
  cases hs with
  | resume hresult hgoal ha =>
  have hload : ∀ id later, m'.load (Continuation.ticket id) 0 later ≤
      m.load (Continuation.ticket id) 0 later := by
    intro id later
    have hle : m'.load (Continuation.ticket id) 0 later ≤ m.load (Continuation.ticket id) 0 later +
        next.after (Continuation.ticket id) 0 0 (m.isEmptyAt node) node :=
      load_resume_le h (Continuation.ticket_choice_le id) (.resume hresult hgoal ha)
        (ht.free ha) ho
    rwa [Continuation.after_ticket] at hle
  constructor
  · intro id expr start e hid he hwrap
    rw [hgoals] at hid
    have hhere := ht.here id expr start e hid he hwrap
    rw [load_withTask, Task.load, if_neg Bool.false_ne_true] at hhere
    change _ + (m.resultHere id).isSome.toNat ≤ 1 at hhere
    have hle := hload id false
    by_cases hmemo : next.memo? = some id
    · have hticket : next.ticket id (m.isEmptyAt node) = 1 :=
        ha.ticket_eq_one hid he hwrap hmemo
      have hone := Bool.toNat_le (m'.resultHere id).isSome
      change next.ticket id (m.isEmptyAt node) + _ + _ ≤ 1 at hhere
      omega
    · rw [resultHere_resume hmemo ho]
      omega
  · intro id hid
    rw [hgoals] at hid
    have hlater := ht.later id hid
    rw [load_withTask] at hlater
    have hle := hload id true
    omega

/-- Who registers takes a ticket **from the stack to a memo**. The sum over the stack and the memos
is the same as before. -/
theorem registered {memo : MemoId} {record : Memo} (h : Sound g w L m)
    (ht : Ticketed g L (m.withTasks [.derive next expr])) (htable : m.table[expr]? = some memo)
    (hrecord : m.memos[memo]? = some record) :
    Ticketed g L (m.registeredWith memo record next) := by
  have hload : ∀ id later, (m.registeredWith memo record next).load (Continuation.ticket id) 0
      later = (m.withTasks [.derive next expr]).load (Continuation.ticket id) 0 later := by
    intro id later
    rw [load_withDerive, Nat.add_comm]
    exact load_registeredWith _ 0 later h hrecord (h.soundMemo hrecord (h.table expr memo htable))
      rfl next
  constructor
  · intro id expr' start e hid he hwrap
    rw [hload, resultHere_registeredWith hrecord]
    exact ht.here id expr' start e hid he hwrap
  · intro id hid
    rw [hload]
    exact ht.later id hid

/-- What is opened is granted **one ticket of its own**, if it is a wrapper. -/
theorem opened (h : Sound g w L m) (ht : Ticketed g L (m.withTasks [.derive next expr]))
    (ha : Awaits g L next ⟨expr, false, m.position⟩) (he : g.expr? expr = some e)
    (hexp : Expansion (L.addGoal ⟨expr, false, m.position⟩) (m.opened next expr) m.memos.size e
      L' m') : Ticketed g L' m' := by
  have hsize : L.goals.size = m.memos.size := h.goals_size
  have hload : ∀ id later, m'.load (Continuation.ticket id) 0 later ≤
      (m.withTasks [.derive next expr]).load (Continuation.ticket id) 0 later +
        if m.memos.size = id then 1 else 0 := by
    intro id later
    have hle : m'.load (Continuation.ticket id) 0 later ≤ _ :=
      load_opened_le h.tasksOld (Continuation.ticket_choice_le id) hexp
    have hgrant := e.grant_ticket_le id m.memos.size (m.memos.size + 1)
    rw [load_withDerive]
    omega
  -- the tickets of a memo that is not there yet are not held
  have hnone : ∀ id later, L.goals.size ≤ id →
      (m.withTasks [.derive next expr]).load (Continuation.ticket id) 0 later = 0 := by
    intro id later hid
    rw [load_withDerive, h.load_ticket_eq_zero hid, ha.ticket_eq_zero hid]
  constructor
  · intro id expr' start e' hid he' hwrap
    have hle := hload id false
    have hgoal := goals_expansion hexp hid
    change (L.goals.push _)[id]? = _ at hgoal
    rw [Array.getElem?_push] at hgoal
    split at hgoal
    · next heq =>
      obtain rfl : id = m.memos.size := heq.trans hsize
      obtain ⟨rfl, -, rfl⟩ := Goal.mk.inj (Option.some.inj hgoal)
      obtain rfl := Option.some.inj (he.symm.trans he')
      rw [hnone _ _ (Nat.le_of_eq hsize), if_pos rfl] at hle
      rwa [resultHere_opened_self hexp hwrap, Option.isSome_none, Bool.toNat_false]
    · have hlt := (Array.getElem?_eq_some_iff.mp hgoal).1
      have hhere := ht.here id expr' start e' hgoal he' hwrap
      change _ + (m.resultHere id).isSome.toNat ≤ 1 at hhere
      rw [if_neg (by omega)] at hle
      rw [resultHere_opened_of_lt hexp (hsize ▸ hlt)]
      omega
  · intro id hid
    have hle := hload id true
    by_cases hlt : id < L.goals.size
    · have hlater := ht.later id hlt
      rw [if_neg (by omega)] at hle
      omega
    · rw [hnone id true (Nat.le_of_not_lt hlt)] at hle
      split at hle <;> omega

/-- **Deriving an expression** leaves every ticket held at most once. The expression is either known
here, and then somebody registers, or it is opened. -/
theorem derive (h : Sound g w L m) (ht : Ticketed g L (m.withTasks [.derive next expr]))
    (hs : SoundTask g L m.position (.derive next expr))
    (ho : Outcome g L m (.derive next expr) L' m') : Ticketed g L' m' := by
  cases hs with
  | derive ha =>
    cases ho with
    | registered htable hrecord => exact ht.registered h htable hrecord
    | opened htable he hexp => exact ht.opened h ha he hexp

end Ticketed

end Machine

end

end GeneralParsing
