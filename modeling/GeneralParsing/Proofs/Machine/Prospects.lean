import GeneralParsing.Proofs.Machine.Load
import Mathlib

/-!
# Every sequence is recorded once

An inner memo gets a result for every list of results that its continuations collect. To see that no
list is collected twice, count the places where the machine is **on the way** to a given list: the
tasks and registrations of continuations that hold a beginning of it and may still be given the
result that comes next. These are the `prospects` of the list. They begin as one when the memo is
opened, a step never makes them more, and the result that completes the list uses one up.

A result may still be given if it is not there yet, or waits to be recorded (`Machine.pending`).
-/

namespace GeneralParsing

/-! ### Prospects -/

section

variable (memo : MemoId) (children : List NodeId)

/-- Whether results so far, which come newest first, are **on the way** to a list of results for a
memo: they are a beginning of it, and the next result is one of these. -/
def expecting (next : NodeId → Bool) (id : MemoId) (done : List NodeId) : Bool :=
  id == memo && done.reverse.isPrefixOf children && (children[done.length]?).any next

/-- Whether a **continuation** is on the way to a list of results for a memo. -/
def Continuation.expects (next : NodeId → Bool) : Continuation → Bool
  | .sequence _ id done _ => expecting memo children next id done
  | .repetition _ id done _ _ _ _ => expecting memo children next id done
  | _ => false

/-- The prospects that **a task** holds. -/
def Task.prospects : Task → Nat
  | .derive next _ => (next.expects memo children fun _ => true).toNat
  | .resume node next => (next.expects memo children (· == node)).toNat

/-- The prospects that **a memo** holds, with its parents. -/
def Memo.prospects (pending : NodeId → Bool) (record : Memo) : Nat :=
  (record.parents.map fun next => (next.expects memo children pending).toNat).sum

/-- Whether a node **may still be handed on** to those who are registered by now. -/
def Machine.pending (m : Machine) (waiting : List (NodeId × MemoId)) (node : NodeId) : Bool :=
  decide (m.nodes.size ≤ node) || (waiting.map Prod.fst).contains node

/-- The **prospects** of a list of results of a memo. -/
def Machine.prospects (m : Machine) (waiting : List (NodeId × MemoId)) : Nat :=
  m.tally (Task.prospects memo children) (Memo.prospects memo children (m.pending waiting))

end

section

variable {memo : MemoId} {children : List NodeId} {next : Continuation} {p q r : NodeId → Bool}

/-- What a continuation expects is **one node**. Of a list of results, what stands after the part
that is done is this node. -/
theorem Continuation.exists_expected (memo : MemoId) (children : List NodeId)
    (next : Continuation) :
    (∀ p, next.expects memo children p = false) ∨
      ∃ node, ∀ p, next.expects memo children p = p node := by
  have hlist : ∀ id done, (∀ p, expecting memo children p id done = false) ∨
      ∃ node, ∀ p, expecting memo children p id done = p node := by
    intro id done
    cases hchild : children[done.length]? with
    | none => exact .inl fun p => by simp [expecting, hchild]
    | some node =>
      cases hbegins : id == memo && done.reverse.isPrefixOf children with
      | false => exact .inl fun p => by simp [expecting, hbegins]
      | true => exact .inr ⟨node, fun p => by simp [expecting, hchild, hbegins]⟩
  cases next with
  | sequence tag id done rest => exact hlist id done
  | repetition tag id done child count min max => exact hlist id done
  | accept | choice | omitted | lexical => exact .inl fun p => rfl

theorem Continuation.expects_mono (h : ∀ node, p node = true → q node = true) :
    (next.expects memo children p).toNat ≤ (next.expects memo children q).toNat := by
  rcases next.exists_expected memo children with hnone | ⟨node, hnode⟩
  · simp [hnone]
  · rw [hnode, hnode]
    cases hpn : p node with
    | false => exact Nat.zero_le _
    | true => simp [h node hpn]

/-- Nodes that are taken **apart** are not expected twice. This is how a node that is handed on
moves from what is pending to the tasks. -/
theorem Continuation.expects_add (hp : ∀ node, p node = true → r node = true)
    (hq : ∀ node, q node = true → r node = true ∧ p node = false) :
    (next.expects memo children p).toNat + (next.expects memo children q).toNat ≤
      (next.expects memo children r).toNat := by
  rcases next.exists_expected memo children with hnone | ⟨node, hnode⟩
  · simp [hnone]
  · rw [hnode, hnode, hnode]
    cases hqn : q node with
    | true => simp [hq node hqn]
    | false =>
      cases hpn : p node with
      | false => exact Nat.zero_le _
      | true => simp [hp node hpn]

/-- The empty list is **expected by none**: a continuation always expects one more result. -/
theorem Continuation.expects_nil (next : Continuation) (p : NodeId → Bool) :
    next.expects memo [] p = false := by
  cases next <;> simp [Continuation.expects, expecting]

/-- What is awaited expects nothing for **memos to come**. A continuation speaks of its own memo
only, and that is there already. -/
theorem Awaits.expects_eq_false {g : Grammar} {L : Ledger} {next : Continuation} {goal : Goal}
    (ha : Awaits g L next goal)
    (hmemo : L.goals.size ≤ memo) (p : NodeId → Bool) : next.expects memo children p = false := by
  have hne : ∀ {id : MemoId} {goal : Goal}, L.goals[id]? = some goal → (id == memo) = false := by
    intro id goal hgoal
    have hlt := (Array.getElem?_eq_some_iff.mp hgoal).1
    rw [beq_eq_false_iff_ne]
    exact Nat.ne_of_lt (Nat.lt_of_lt_of_le hlt hmemo)
  cases ha with
  | sequence hmemo | repetition hmemo => simp [Continuation.expects, expecting, hne hmemo]
  | accept | choice | inner | omitted | lexical => rfl

/-- Results that are given the one they expect **have a longer beginning** of the list. -/
theorem expecting_iff {id : MemoId} {done : List NodeId} {node : NodeId} :
    expecting memo children (· == node) id done = true ↔
      id = memo ∧ (node :: done).reverse <+: children := by
  rw [expecting, Bool.and_eq_true, Bool.and_eq_true, beq_iff_eq, List.isPrefixOf_iff_prefix,
    and_assoc, List.reverse_cons]
  refine and_congr_right fun _ => ⟨?_, ?_⟩
  · rintro ⟨⟨rest, rfl⟩, hnext⟩
    cases rest with
    | nil => simp at hnext
    | cons next rest =>
      obtain rfl : next = node := by simpa using hnext
      exact ⟨rest, by simp⟩
  · rintro ⟨rest, rfl⟩
    exact ⟨⟨node :: rest, by simp⟩, by simp⟩

/-- Results that **expect any** are a proper beginning of the list. So a list is expected to grow
for as long as it is shorter, and never afterwards. -/
theorem prefix_of_expecting {p : NodeId → Bool} {id : MemoId} {done : List NodeId}
    (h : expecting memo children p id done = true) :
    id = memo ∧ done.reverse <+: children ∧ done.length < children.length := by
  rw [expecting, Bool.and_eq_true, Bool.and_eq_true, beq_iff_eq, List.isPrefixOf_iff_prefix,
    and_assoc] at h
  refine ⟨h.1, h.2.1, ?_⟩
  by_contra hlt
  rw [List.getElem?_eq_none (Nat.le_of_not_lt hlt)] at h
  simp at h

end

/-- If every summand grows and one of them by as much, the sum **grows by as much**. It is used of
the parents of one memo among those of all. -/
theorem sum_map_add_le {α : Type} {f h : α → Nat} {xs : List α} {x : α} {c : Nat} (hx : x ∈ xs)
    (hle : ∀ y, f y ≤ h y) (hc : f x + c ≤ h x) : (xs.map f).sum + c ≤ (xs.map h).sum := by
  induction xs with
  | nil => simp at hx
  | cons y xs ih =>
    simp only [List.map_cons, List.sum_cons]
    rcases List.mem_cons.mp hx with rfl | hx
    · have hsum : (xs.map f).sum ≤ (xs.map h).sum := List.sum_le_sum fun y _ => hle y
      omega
    · have hsum := ih hx
      have hy := hle y
      omega

namespace Machine

variable {g : Grammar} {w : List String} {L L' : Ledger} {m m' : Machine}
variable {waiting waiting' : List (NodeId × MemoId)} {memo id : MemoId} {children : List NodeId}
variable {record : Memo} {node : NodeId}

/-! ### Moves -/

theorem prospects_withTasks (tasks : List Task) :
    (m.withTasks tasks).prospects memo children waiting =
      (tasks.map (Task.prospects memo children)).sum + m.prospects memo children waiting :=
  tally_withTasks _ _ _ _

theorem prospects_addMemo (next : Continuation) :
    (m.addMemo next).1.prospects memo children waiting = m.prospects memo children waiting +
      (next.expects memo children (m.pending waiting)).toNat := by
  have htally := tally_addMemo (Task.prospects memo children)
    (Memo.prospects memo children (m.pending waiting)) m next
  rw [Memo.prospects, List.map_singleton, List.sum_singleton] at htally
  exact htally

/-- **Registering** a continuation keeps its prospects: it is given the result that is here, and may
still be given those that are not there yet. -/
theorem prospects_registeredWith (hrecord : m.memos[id]? = some record)
    (hhere : ∀ node, record.resultAt m.position = some node → m.pending waiting node = false)
    (next : Continuation) : (m.registeredWith id record next).prospects memo children waiting ≤
      m.prospects memo children waiting + (next.expects memo children fun _ => true).toNat := by
  have htally := tally_registeredWith (Task.prospects memo children)
    (Memo.prospects memo children (m.pending waiting)) hrecord next
  have hserved : (next.expects memo children (m.pending waiting)).toNat +
      (((record.resultAt m.position).toList.map (.resume · next)).map
        (Task.prospects memo children)).sum ≤
      (next.expects memo children fun _ => true).toNat := by
    cases hresult : record.resultAt m.position with
    | none => simpa using Continuation.expects_mono fun _ _ => rfl
    | some node =>
      simp only [Option.toList_some, List.map_cons, List.map_nil, List.sum_cons, List.sum_nil,
        Nat.add_zero, Task.prospects]
      refine Continuation.expects_add (fun _ _ => rfl) fun n hn => ⟨rfl, ?_⟩
      rw [eq_of_beq hn]
      exact hhere node hresult
  have hshare : Memo.prospects memo children (m.pending waiting)
      { record with parents := next :: record.parents } =
        (next.expects memo children (m.pending waiting)).toNat +
          Memo.prospects memo children (m.pending waiting) record := by
    simp [Memo.prospects]
  rw [hshare] at htally
  change (m.registeredWith id record next).tally (Task.prospects memo children)
    (Memo.prospects memo children (m.pending waiting)) ≤ m.tally _ _ + _
  omega

/-- **Handing a node on** to the parents of a memo takes it from what is pending. Each parent gets a
task with the node, and the pending node is no longer counted for the memo. -/
theorem prospects_completedWith (hrecord : m.memos[id]? = some record)
    (pending : NodeId → Bool) {pending' : NodeId → Bool}
    (hsub : ∀ n, pending' n = true → pending n = true)
    (hnode : pending node = true) (hnot : pending' node = false) :
    (m.completedWith id record node).tally (Task.prospects memo children)
        (Memo.prospects memo children pending') ≤
      m.tally (Task.prospects memo children) (Memo.prospects memo children pending) := by
  have htally := tally_completedWith (Task.prospects memo children)
    (Memo.prospects memo children pending') hrecord node
  have hshare : Memo.prospects memo children pending'
      { record with latest := some (m.position, node) } =
        Memo.prospects memo children pending' record := rfl
  have hgiven : ((record.parents.reverse.map (.resume node)).map
      (Task.prospects memo children)).sum =
        (record.parents.map fun next => (next.expects memo children (· == node)).toNat).sum := by
    rw [List.map_map, List.map_reverse, List.sum_reverse]
    rfl
  have hrecords : (m.memos.toList.map (Memo.prospects memo children pending')).sum +
      (record.parents.map fun next => (next.expects memo children (· == node)).toNat).sum ≤
        (m.memos.toList.map (Memo.prospects memo children pending)).sum := by
    refine sum_map_add_le (List.mem_of_getElem? (i := id) (by simpa using hrecord))
      (fun other => List.sum_le_sum fun next _ => Continuation.expects_mono hsub) ?_
    rw [Memo.prospects, Memo.prospects, ← List.sum_map_add]
    refine List.sum_le_sum fun next _ => Continuation.expects_add hsub fun n hn => ?_
    exact eq_of_beq hn ▸ ⟨hnode, hnot⟩
  rw [hshare, hgiven] at htally
  rw [tally, tally] at htally
  rw [tally, tally]
  omega

/-- The nodes that wait **are there**. -/
def WaitingOld (m : Machine) (waiting : List (NodeId × MemoId)) : Prop :=
  ∀ pair ∈ waiting, pair.1 < m.nodes.size

theorem pending_iff : m.pending waiting node = true ↔
    m.nodes.size ≤ node ∨ node ∈ waiting.map Prod.fst := by
  rw [pending, Bool.or_eq_true, decide_eq_true_iff, List.contains_iff_mem]

/-- **A new result** keeps the prospects. -/
theorem prospects_finishedWith (hwait : WaitingOld m waiting) (hrecord : m.memos[id]? = some record)
    (kind : Forest.Kind) : (m.finishedWith id record kind).prospects memo children waiting ≤
      m.prospects memo children waiting := by
  have hsize : (m.finishedWith id record kind).nodes.size = m.nodes.size + 1 := Array.size_push _
  refine prospects_completedWith (m := (m.addNode kind ⟨record.start, m.position⟩).1) hrecord
    (m.pending waiting) (fun n hn => ?_) ?_ ?_
  · rw [pending_iff] at hn ⊢
    exact hn.imp_left fun hle => Nat.le_of_succ_le (Nat.le_trans (Nat.le_of_eq hsize.symm) hle)
  · exact pending_iff.mpr (.inl (Nat.le_refl _))
  · rw [Bool.eq_false_iff, Ne, pending_iff, hsize]
    rintro (hle | hmem)
    · exact Nat.not_succ_le_self _ hle
    · obtain ⟨pair, hpair, heq⟩ := List.mem_map.mp hmem
      exact absurd (hwait pair hpair) (heq ▸ Nat.lt_irrefl _)

/-- **A symbol that waits** keeps the prospects. -/
theorem prospects_matchedWith (id : MemoId) (symbol : String) :
    (m.matchedWith id symbol).prospects memo children ((m.nodes.size, id) :: waiting) =
      m.prospects memo children waiting := by
  have hpending : (m.matchedWith id symbol).pending ((m.nodes.size, id) :: waiting) =
      m.pending waiting := by
    funext node
    have hsize : (m.matchedWith id symbol).nodes.size = m.nodes.size + 1 := Array.size_push _
    rw [Bool.eq_iff_iff]
    simp only [pending_iff, hsize, List.map_cons, List.mem_cons, ← or_assoc]
    rw [eq_comm (a := node), Nat.le_iff_lt_or_eq (n := m.nodes.size), Nat.lt_iff_add_one_le]
  rw [prospects, hpending]
  rfl

theorem prospects_joinedWith (choice : NodeId) (tag : Option String) (alternatives : List NodeId)
    (span : Span) : (m.joinedWith choice tag alternatives span node).prospects memo children
      waiting = m.prospects memo children waiting := by
  have hpending : (m.joinedWith choice tag alternatives span node).pending waiting =
      m.pending waiting := by
    funext node'
    rw [pending, pending, joinedWith, Array.size_setIfInBounds]
  rw [prospects, hpending]
  rfl

/-- **Recording** a node that waits keeps the prospects. A result that waits is counted once for
every parent of its memo, and so are the tasks that it becomes. -/
theorem prospects_record (hwait : WaitingOld m ((node, id) :: waiting))
    (hnot : node ∉ waiting.map Prod.fst) (hrecord : m.memos[id]? = some record) :
    (m.completedWith id record node).prospects memo children waiting ≤
      m.prospects memo children ((node, id) :: waiting) := by
  refine prospects_completedWith hrecord _ (fun n hn => ?_) ?_ ?_
  · rw [pending_iff] at hn ⊢
    exact hn.imp_right (List.mem_cons_of_mem _)
  · exact pending_iff.mpr (.inr List.mem_cons_self)
  · rw [Bool.eq_false_iff, Ne, pending_iff]
    rintro (hle | hmem)
    · exact absurd (hwait _ List.mem_cons_self) (Nat.not_lt_of_le hle)
    · exact hnot hmem

/-! ### Prospects that there are none of -/

/-- A machine in which **nothing is on the way** has no prospects. This holds at the beginning, and
it is all that is needed there. -/
theorem prospects_eq_zero (hexpects : ∀ next p, ((∃ expr, Task.derive next expr ∈ m.tasks) ∨
      (∃ node, Task.resume node next ∈ m.tasks) ∨
      ∃ record ∈ m.memos.toList, next ∈ record.parents) →
        next.expects memo children p = false) :
    m.prospects memo children waiting = 0 := by
  rw [prospects, tally, Nat.add_eq_zero_iff, List.sum_eq_zero_iff, List.sum_eq_zero_iff]
  constructor
  · intro n hn
    obtain ⟨task, htask, rfl⟩ := List.mem_map.mp hn
    cases task with
    | derive next expr => rw [Task.prospects, hexpects next _ (.inl ⟨expr, htask⟩)]; rfl
    | resume node next => rw [Task.prospects, hexpects next _ (.inr (.inl ⟨node, htask⟩))]; rfl
  · intro n hn
    obtain ⟨record, hrecord, rfl⟩ := List.mem_map.mp hn
    rw [Memo.prospects, List.sum_eq_zero_iff]
    intro n hn
    obtain ⟨next, hnext, rfl⟩ := List.mem_map.mp hn
    rw [hexpects next _ (.inr (.inr ⟨record, hrecord, hnext⟩))]
    rfl

theorem prospects_nil : m.prospects memo [] waiting = 0 :=
  prospects_eq_zero fun next p _ => next.expects_nil p

/-- Nothing is on the way to the results of **memos to come**. The count for a new memo therefore
starts at nothing, and a list is made once at most. -/
theorem Sound.prospects_eq_zero (h : Sound g w L m) (hmemo : L.goals.size ≤ memo) :
    m.prospects memo children waiting = 0 := by
  refine Machine.prospects_eq_zero fun next p hnext => ?_
  rcases hnext with ⟨expr, htask⟩ | ⟨node, htask⟩ | ⟨record, hrecord, hparent⟩
  · cases h.task _ htask with
    | derive ha => exact ha.expects_eq_false hmemo p
  · cases h.task _ htask with
    | resume _ _ ha => exact ha.expects_eq_false hmemo p
  · obtain ⟨id, hid⟩ := List.mem_iff_getElem?.mp hrecord
    obtain ⟨goal, hsound⟩ := h.memo id record (by simpa using hid)
    exact (hsound.parents next hparent).expects_eq_false hmemo p

end Machine

end GeneralParsing
