import GeneralParsing.Proofs.Machine.Sound

/-!
# What a step costs

The machine's work at a position is counted by what its tasks and memos hold. A **tally** adds up a
cost for every task and a share for every memo. The **load** is the tally in which a continuation
counts for as long as it may still be resumed here: with its task, or with its memo until that has
a result here. The load for later positions counts a continuation for as long as it may be resumed
there: with its memo, whatever results that has, or while it is yet to be registered.

A step takes one task away, and what it puts in its place is bounded by what the continuation
gives rise to (`load_resume_le`) and by what an expression asks for (`load_opened_le`). Both the
bound on the number of steps and the uniqueness of results are counted this way.
-/

namespace GeneralParsing

namespace Machine

/-! ### Tallies -/

/-- What tasks and memos **amount to**. -/
def tally (cost : Task → Nat) (share : Memo → Nat) (m : Machine) : Nat :=
  (m.tasks.map cost).sum + (m.memos.toList.map share).sum

section

variable (cost : Task → Nat) (share : Memo → Nat) (m : Machine)

/-- New tasks **add what they cost**. -/
theorem tally_withTasks (tasks : List Task) :
    (m.withTasks tasks).tally cost share = (tasks.map cost).sum + m.tally cost share := by
  simp only [tally, Machine.withTasks, List.map_append, List.sum_append]
  omega

/-- A new memo **adds its share**. -/
theorem tally_addMemo (next : Continuation) :
    (m.addMemo next).1.tally cost share =
      m.tally cost share + share ⟨m.position, [next], none⟩ := by
  simp only [tally, addMemo, Array.toList_push, List.map_append, List.sum_append, List.map_cons,
    List.map_nil, List.sum_singleton]
  omega

variable {m} {id : MemoId} {memo : Memo}

/-- A memo is **replaced**, and tasks are added. All moves that change a memo are cases of this. -/
theorem tally_replaceMemo (hmemo : m.memos[id]? = some memo) (memo' : Memo) (tasks : List Task) :
    ((tasks ++ m.tasks).map cost).sum + ((m.memos.setIfInBounds id memo').toList.map share).sum +
        share memo = m.tally cost share + share memo' + (tasks.map cost).sum := by
  have hset := sum_map_set share
    (show m.memos.toList[id]? = some memo by simpa using hmemo) memo'
  simp only [tally, Array.toList_setIfInBounds, List.map_append, List.sum_append]
  omega

/-- One more continuation changes **the share of its memo** and nothing else. -/
theorem tally_registeredWith (hmemo : m.memos[id]? = some memo) (next : Continuation) :
    (m.registeredWith id memo next).tally cost share + share memo =
      m.tally cost share + share { memo with parents := next :: memo.parents } +
        (((memo.resultAt m.position).toList.map (.resume · next)).map cost).sum :=
  tally_replaceMemo cost share hmemo _ _

/-- A result of a memo changes **the share of that memo** and nothing else. -/
theorem tally_completedWith (hmemo : m.memos[id]? = some memo) (node : NodeId) :
    (m.completedWith id memo node).tally cost share + share memo =
      m.tally cost share + share { memo with latest := some (m.position, node) } +
        ((memo.parents.reverse.map (.resume node)).map cost).sum :=
  tally_replaceMemo cost share hmemo _ _

end

/-! ### Loads -/

/-- Whether a result covers **no symbol**. -/
def isEmptyAt (m : Machine) (node : NodeId) : Bool := (m.nodes[node]?).all (·.span.isEmpty)

end Machine

section

variable (held : Bool → Continuation → Nat) (toll : Nat) (later : Bool)

/-- What a **task** holds: its continuation, and a toll if the expression is yet to be derived. A
continuation is held for a result that covers no symbol, or one that does. -/
def Task.load (empty : NodeId → Bool) : Task → Nat
  | .derive next _ => toll + held true next
  | .resume node next => if later then 0 else held (empty node) next

/-- What a **memo** holds at a position: all its parents, until it has a result there. -/
def Memo.load (position : Nat) (memo : Memo) : Nat :=
  if !later && (memo.resultAt position).isSome then 0
  else (memo.parents.map (held (memo.start == position))).sum

/-- What the machine **holds** at its position, or for later ones. -/
def Machine.load (m : Machine) : Nat :=
  m.tally (Task.load held toll later m.isEmptyAt) (Memo.load held later m.position)

end

section

variable {held : Bool → Continuation → Nat} {later : Bool} {position : Nat} {memo : Memo}

/-- A memo with a result here **holds nothing**: its continuations have been resumed with it. -/
theorem Memo.load_of_isSome (hlater : later = false) (h : (memo.resultAt position).isSome) :
    memo.load held later position = 0 := if_pos (by simp [hlater, h])

/-- A memo without a result here **holds its continuations**. -/
theorem Memo.load_of_none (h : memo.resultAt position = none) :
    memo.load held later position = (memo.parents.map (held (memo.start == position))).sum :=
  if_neg (by simp [h])

/-- For later positions a memo **holds its continuations** in any case. -/
theorem Memo.load_later : memo.load held true position =
    (memo.parents.map (held (memo.start == position))).sum := rfl

end

theorem Memo.resultAt_latest (memo : Memo) (position : Nat) (node : NodeId) :
    { memo with latest := some (position, node) }.resultAt position = some node :=
  if_pos rfl

namespace Machine

section

variable {g : Grammar} {w : List String} {L : Ledger} {m m' : Machine} {id : MemoId} {memo : Memo}
variable (held : Bool → Continuation → Nat) (toll : Nat) (later : Bool)

/-- A result covers no symbol if it **ends where its goal starts**. So it does not depend on the
machine, only on the ledger. -/
theorem Sound.isEmptyAt (h : Sound g w L m) {node : NodeId} {goal : Goal} {stop : Nat}
    (hresult : L.results[node]? = some (id, stop)) (hgoal : L.goals[id]? = some goal) :
    m.isEmptyAt node = (goal.start == stop) := by
  obtain ⟨n, goal', hnode, hsound⟩ := h.exists_node hresult
  obtain rfl := Option.some.inj (hgoal.symm.trans hsound.works)
  rw [Machine.isEmptyAt, hnode, Option.all_some, hsound.span]
  rfl

/-- New tasks **add their loads**. -/
theorem load_withTasks (m : Machine) (tasks : List Task) :
    (m.withTasks tasks).load held toll later =
      (tasks.map (Task.load held toll later m.isEmptyAt)).sum + m.load held toll later :=
  tally_withTasks _ _ m tasks

/-- A new memo **adds what its first continuation holds**. -/
theorem load_addMemo (m : Machine) (next : Continuation) :
    (m.addMemo next).1.load held toll later = m.load held toll later + held true next := by
  refine (tally_addMemo _ _ m next).trans ?_
  rw [Memo.load_of_none rfl, List.map_singleton, List.sum_singleton]
  change m.load held toll later + held (m.position == m.position) next = _
  rw [beq_self_eq_true]

/-- A continuation registered with a memo that begins here **stays held**. -/
theorem load_registeredWith (h : Sound g w L m) {goal : Goal}
    (hmemo : m.memos[id]? = some memo) (hsound : SoundMemo g L m.position id memo goal)
    (hstart : goal.start = m.position) (next : Continuation) :
    (m.registeredWith id memo next).load held toll later =
      m.load held toll later + held true next := by
  have htally := tally_registeredWith (Task.load held toll later m.isEmptyAt)
    (Memo.load held later m.position) hmemo next
  have hhere : (memo.start == m.position) = true := by simp [hsound.start, hstart]
  change (m.registeredWith id memo next).load held toll later + _ =
    m.load held toll later + _ + _ at htally
  have hnew : { memo with parents := next :: memo.parents }.resultAt m.position =
      memo.resultAt m.position := rfl
  cases hlater : later with
  | true =>
    simp only [hlater, Memo.load_later, hhere, List.map_cons, List.sum_cons, List.map_map,
      Function.comp_def, Task.load, if_true, List.map_const', List.sum_replicate, Nat.nsmul_eq_mul,
        Nat.mul_zero] at htally
    omega
  | false =>
  rw [hlater] at htally
  cases hresult : memo.resultAt m.position with
  | none =>
    rw [Memo.load_of_none hresult, Memo.load_of_none (hnew.trans hresult), hresult, hhere] at htally
    simp only [List.map_cons, List.sum_cons, Option.toList_none, List.map_nil,
      List.sum_nil] at htally
    omega
  | some node =>
    have hsome := Option.isSome_iff_exists.mpr ⟨node, hresult⟩
    have hempty : m.isEmptyAt node = true := by
      rw [h.isEmptyAt (hsound.result_of_resultAt hresult) hsound.works, hstart, beq_self_eq_true]
    rw [Memo.load_of_isSome rfl hsome, Memo.load_of_isSome rfl (hnew ▸ hsome), hresult,
      Option.toList_some, List.map_singleton, List.map_singleton, List.sum_singleton, Task.load,
      hempty, if_neg Bool.false_ne_true] at htally
    omega

/-- A result **releases** what its memo holds, or what it held before. What continuations hold of a
memo is paid out once, to the tasks that resume them. -/
theorem load_completedWith (hmemo : m.memos[id]? = some memo) {node : NodeId}
    (hempty : m.isEmptyAt node = (memo.start == m.position)) :
    (m.completedWith id memo node).load held toll later + memo.load held later m.position =
      m.load held toll later + (memo.parents.map (held (memo.start == m.position))).sum := by
  have htally := tally_completedWith (Task.load held toll later m.isEmptyAt)
    (Memo.load held later m.position) hmemo node
  cases hlater : later with
  | true =>
    simp only [hlater, Memo.load_later, List.map_map, Function.comp_def, Task.load, if_true,
      List.map_const', List.sum_replicate, Nat.nsmul_eq_mul, Nat.mul_zero] at htally
    exact htally
  | false =>
    rw [hlater, Memo.load_of_isSome rfl
        (Option.isSome_iff_exists.mpr ⟨node, memo.resultAt_latest _ node⟩),
      List.map_map, List.map_reverse, List.sum_reverse] at htally
    rw [← hempty]
    exact htally

/-- The load depends on the **nodes of the tasks** only. Moves that add nodes or alternatives leave
it as it is. -/
theorem load_congr (htasks : m'.tasks = m.tasks) (hmemos : m'.memos = m.memos)
    (hposition : m'.position = m.position)
    (hempty : ∀ node next, Task.resume node next ∈ m.tasks → m'.isEmptyAt node = m.isEmptyAt node) :
    m'.load held toll later = m.load held toll later := by
  rw [load, load, tally, tally, htasks, hmemos, hposition]
  congr 2
  refine List.map_congr_left fun task htask => ?_
  cases task with
  | derive next id => rfl
  | resume node next => rw [Task.load, Task.load, hempty node next htask]

/-- Whether an older result covers no symbol **does not change** with a new one. -/
theorem isEmptyAt_addNode {node : NodeId} (hlt : node < m.nodes.size) (kind : Forest.Kind)
    (span : Span) : (m.addNode kind span).1.isEmptyAt node = m.isEmptyAt node := by
  have hpush : (m.nodes.push ⟨kind, span⟩)[node]? = m.nodes[node]? := by
    rw [Array.getElem?_push, if_neg (Nat.ne_of_lt hlt)]
  rw [isEmptyAt, isEmptyAt, addNode, hpush]

/-- The nodes of the tasks **are there**. -/
def TasksOld (m : Machine) : Prop :=
  ∀ node next, Task.resume node next ∈ m.tasks → node < m.nodes.size

/-- In a sound machine **the nodes of all tasks are there**. -/
theorem Sound.tasksOld (h : Sound g w L m) : m.TasksOld := by
  intro node next htask
  cases h.task _ htask with
  | resume hresult hgoal => exact h.lt_of_result ⟨_, hresult, hgoal⟩

/-- A new node **changes no load**. -/
theorem load_addNode (h : m.TasksOld) (kind : Forest.Kind) (span : Span) :
    (m.addNode kind span).1.load held toll later = m.load held toll later :=
  load_congr held toll later rfl rfl rfl fun node next htask =>
    isEmptyAt_addNode (h node next htask) kind span

/-- Matching a symbol **changes no load**. -/
theorem load_matchedWith (h : m.TasksOld) (id : MemoId) (symbol : String) :
    (m.matchedWith id symbol).load held toll later = m.load held toll later :=
  load_addNode held toll later h _ _

/-- One more alternative of a choice **changes no load**. -/
theorem load_joinedWith (m : Machine) {choice : NodeId} {tag : Option String}
    {alternatives : List NodeId} {span : Span}
    (hnode : m.nodes[choice]? = some ⟨.choice tag alternatives, span⟩) (node : NodeId) :
    (m.joinedWith choice tag alternatives span node).load held toll later =
      m.load held toll later := by
  refine load_congr held toll later rfl rfl rfl fun node' next _ => ?_
  rw [isEmptyAt, isEmptyAt, joinedWith, Array.getElem?_setIfInBounds]
  split
  · next heq =>
    subst heq
    rw [if_pos (Array.getElem?_eq_some_iff.mp hnode).1, hnode]
    rfl
  · rfl

/-- A first result of a memo **moves its continuations** from the memo to tasks. -/
theorem load_finishedWith (h : m.TasksOld) (hmemo : m.memos[id]? = some memo)
    (kind : Forest.Kind) :
    (m.finishedWith id memo kind).load held toll later + memo.load held later m.position =
      m.load held toll later + (memo.parents.map (held (memo.start == m.position))).sum := by
  rw [← load_addNode held toll later h kind ⟨memo.start, m.position⟩]
  refine load_completedWith held toll later 
    (m := (m.addNode kind ⟨memo.start, m.position⟩).1) hmemo ?_
  have hpush : (m.nodes.push ⟨kind, ⟨memo.start, m.position⟩⟩)[m.nodes.size]? =
      some ⟨kind, ⟨memo.start, m.position⟩⟩ := Array.getElem?_push_size
  rw [isEmptyAt, addNode, hpush]
  rfl

/-- The first result here of a memo only **releases** what the memo holds. -/
theorem load_finishedWith_free (h : m.TasksOld) (hmemo : m.memos[id]? = some memo)
    (hfree : memo.resultAt m.position = none) (kind : Forest.Kind) :
    (m.finishedWith id memo kind).load held toll later = m.load held toll later := by
  have hload := load_finishedWith held toll later h hmemo kind
  rw [Memo.load_of_none hfree] at hload
  omega

end

end Machine

/-! ### Inner memos -/

section

variable {g : Grammar} {w : List String} {L L' : Ledger} {m m' : Machine}
variable {held : Bool → Continuation → Nat} {share : Nat} (toll : Nat) (later : Bool)

/-- An inner goal is awaited by **choices** only. -/
theorem Awaits.eq_choice {next : Continuation} {goal : Goal} (ha : Awaits g L next goal)
    (hinner : goal.inner = true) : ∃ memo, next = .choice none memo := by
  cases ha with
  | inner => exact ⟨_, rfl⟩
  | _ => cases hinner

namespace Machine

/-- A result of an inner memo adds **one resumption of a choice** at most. -/
theorem load_finishedWith_inner (h : m.TasksOld)
    (hchoice : ∀ b tag memo, held b (.choice tag memo) ≤ share) {id : MemoId} {memo : Memo}
    (hmemo : m.memos[id]? = some memo) (hone : memo.parents.length ≤ 1)
    (hparents : ∀ next ∈ memo.parents, ∃ memo, next = .choice none memo) (kind : Forest.Kind) :
    (m.finishedWith id memo kind).load held toll later ≤ m.load held toll later + share := by
  have hload := load_finishedWith held toll later h hmemo kind
  have hsum : (memo.parents.map (held (memo.start == m.position))).sum ≤ share := by
    match hp : memo.parents with
    | [] => exact Nat.zero_le _
    | [next] =>
      obtain ⟨memo', rfl⟩ := hparents next (by simp [hp])
      simpa using hchoice _ none memo'
    | _ :: _ :: _ => simp [hp] at hone
  omega

end Machine

end

/-! ### What a step puts in the place of its task -/

section

variable (held : Bool → Continuation → Nat) (toll share : Nat)

/-- What a continuation **gives rise to** when it is resumed. -/
def Continuation.after (empty : Bool) (node : NodeId) : Continuation → Nat
  | .sequence _ _ _ [] => share
  | .sequence tag memo done (_ :: rest) =>
    toll + held true (.sequence tag memo (node :: done) rest)
  | .repetition tag memo done child count min max =>
    (if max.all (count < ·) && !(empty && decide (min ≤ count)) then
      toll + held true (.repetition tag memo (node :: done) child (count + 1) min max) else 0) +
    if min ≤ count then share else 0
  | _ => 0

/-- What an expression **asks for** when it is expanded. -/
def Expr.grant (memo inner : MemoId) : Expr → Nat
  | seq tag (_ :: rest) => share + (toll + held true (.sequence tag inner [] rest))
  | alt _ children => children.length * (toll + share)
  | rep tag child min max => share + (toll + held true (.repetition tag inner [] child 1 min max))
  | omitted _ => toll + held true (.omitted memo)
  | lexical _ => toll + held true (.lexical memo)
  | _ => 0

end

namespace Machine

variable {g : Grammar} {w : List String} {L L' : Ledger} {m m' : Machine}
variable {held : Bool → Continuation → Nat} {toll share : Nat} {later : Bool}

/-- **A resumption** adds what the continuation gives rise to, if no result of something omitted or
taken as one text comes a second time. -/
theorem load_resume_le (h : Sound g w L m)
    (hchoice : ∀ b tag memo, held b (.choice tag memo) ≤ share) {node : NodeId}
    {next : Continuation} (ht : SoundTask g L m.position (.resume node next))
    (hfree : ∀ id memo, next = .omitted id ∨ next = .lexical id → m.memos[id]? = some memo →
      memo.resultAt m.position = none) (ho : Outcome g L m (.resume node next) L' m') :
    m'.load held toll later ≤
      m.load held toll later + next.after held toll share (m.isEmptyAt node) node := by
  -- results of inner memos are handed to choices, each of which costs a share at most
  have hinner : ∀ {tasks : List Task} {id : MemoId} {memo : Memo} {goal : Goal}
      (kind : Forest.Kind),
      (m.withTasks tasks).TasksOld → m.memos[id]? = some memo → L.goals[id]? = some goal →
      goal.inner = true → ((m.withTasks tasks).finishedWith id memo kind).load held toll later ≤
        (m.withTasks tasks).load held toll later + share := by
    intro tasks id memo goal kind hold hmemo hgoal hin
    exact load_finishedWith_inner toll later hold hchoice (m := m.withTasks tasks) hmemo
      ((h.soundMemo hmemo hgoal).single hin)
      (fun next hnext => ((h.soundMemo hmemo hgoal).parents next hnext).eq_choice hin) kind
  cases ht with
  | @resume _ _ memo goal hresult hgoal ha =>
  cases ho with
  | accepted | acceptedBefore | choiceSame | choiceKnown => exact Nat.le_add_right _ _
  | choiceJoined hrecord hexisting hne hnode =>
    exact Nat.le_add_right_of_le (Nat.le_of_eq (load_joinedWith held toll later m hnode node))
  | sequenceDone hrecord =>
    cases ha with
    | sequence hmemo he hdone => exact @hinner [] _ _ _ _ h.tasksOld hrecord hmemo rfl
  | sequenceNext =>
    rw [load_withTasks, Nat.add_comm]
    exact Nat.le_refl _
  | choiceFirst hrecord hnone =>
    exact Nat.le_add_right_of_le (Nat.le_of_eq
      (load_finishedWith_free held toll later h.tasksOld hrecord hnone _))
  | repetitionEarly hn hmin =>
    rw [load_withTasks, Continuation.after, decide_eq_false (Nat.not_le_of_lt hmin),
      if_neg (Nat.not_le_of_lt hmin)]
    simp only [Bool.and_false, Bool.not_false, Bool.and_true]
    split
    · simp only [List.map_singleton, List.sum_singleton, Task.load]
      omega
    · simp
  -- a repetition may both go on and be finished
  | @repetitionLate _ tag memo done child count min max n record hn hmin hrecord =>
    have hgoal' : ∃ goal', L.goals[memo]? = some goal' ∧ goal'.inner = true := by
      cases ha with
      | repetition hmemo => exact ⟨_, hmemo, rfl⟩
    obtain ⟨goal', hmemo, hin⟩ := hgoal'
    have hempty : m.isEmptyAt node = n.span.isEmpty := by
      rw [Machine.isEmptyAt, hn, Option.all_some]
    rw [Continuation.after, hempty, decide_eq_true hmin, Bool.and_true, if_pos hmin]
    refine Nat.le_trans (hinner _ (fun node' next htask => ?_) hrecord hmemo hin) ?_
    · refine h.tasksOld node' next ((List.mem_append.mp htask).resolve_left fun hnew => ?_)
      split at hnew <;> simp at hnew
    · rw [load_withTasks]
      split
      · simp only [List.map_singleton, List.sum_singleton, Task.load]
        omega
      · simp only [List.map_nil, List.sum_nil]
        omega
  | omitted hrecord =>
    exact Nat.le_add_right_of_le (Nat.le_of_eq
      (load_finishedWith_free held toll later h.tasksOld hrecord (hfree _ _ (.inl rfl) hrecord) _))
  | lexical hrecord =>
    exact Nat.le_add_right_of_le (Nat.le_of_eq
      (load_finishedWith_free held toll later h.tasksOld hrecord (hfree _ _ (.inr rfl) hrecord) _))

/-- **An expansion** adds what the expression asks for. -/
theorem load_expansion_le (hold : m.TasksOld)
    (hchoice : ∀ b tag memo, held b (.choice tag memo) ≤ share) {id : MemoId}
    (hfree : ∀ memo, m.memos[id]? = some memo → memo.resultAt m.position = none) {e : Expr}
    (hexp : Expansion L m id e L' m') :
    m'.load held toll later ≤ m.load held toll later + e.grant held toll share id m.memos.size := by
  have hinner : ∀ task : Task,
      ((m.addMemo (.choice none id)).1.withTasks [task]).load held toll later ≤
        m.load held toll later +
          (share + task.load held toll later (m.addMemo (.choice none id)).1.isEmptyAt) := by
    intro task
    rw [load_withTasks, load_addMemo, List.map_singleton, List.sum_singleton]
    have hshare := hchoice true none id
    omega
  -- a repetition begins with its first iteration, unless none is allowed
  have hrep : ∀ {tag child min max}, ((m.addMemo (.choice none id)).1.withTasks
      (if max = some 0 then []
        else [.derive (.repetition tag m.memos.size [] child 1 min max) child])).load
          held toll later ≤
      m.load held toll later + (Expr.rep tag child min max).grant held toll share
        id m.memos.size := by
    intro tag child min max
    split
    · rw [load_withTasks, load_addMemo, Expr.grant]
      have hshare := hchoice true none id
      simp only [List.map_nil, List.sum_nil]
      omega
    · exact hinner _
  cases hexp with
  | empty hrecord =>
    exact Nat.le_of_eq (load_finishedWith_free held toll later hold hrecord (hfree _ hrecord) _)
  | sequence => exact hinner _
  | @choice tag children =>
    have hsum : ((children.map (.derive (.choice tag id))).map
        (Task.load held toll later m.isEmptyAt)).sum =
        children.length * (toll + held true (.choice tag id)) := by
      simp [Function.comp_def, Task.load]
    have hle := Nat.mul_le_mul_left children.length
      (Nat.add_le_add_left (hchoice true tag id) toll)
    rw [load_withTasks, hsum, Expr.grant]
    omega
  | repetition => exact hrep
  | @repetitionEmpty tag child max =>
    refine Nat.le_trans (Nat.le_of_eq (load_finishedWith_free held toll later ?_ ?_ rfl _)) hrep
    · intro node next htask
      refine hold node next ((List.mem_append.mp htask).resolve_left fun hnew => ?_)
      split at hnew <;> simp at hnew
    · exact Array.getElem?_push_size
  | omitted | lexical =>
    rw [load_withTasks, List.map_singleton, List.sum_singleton, Nat.add_comm]
    exact Nat.le_refl _
  | unmatched => exact Nat.le_add_right _ _
  | matched =>
    exact Nat.le_add_right_of_le (Nat.le_of_eq (load_matchedWith held toll later hold id _))

/-- **A derivation that is begun** adds its continuation and what the expression asks for. -/
theorem load_opened_le (hold : m.TasksOld)
    (hchoice : ∀ b tag memo, held b (.choice tag memo) ≤ share) {next : Continuation} {id : ExprId}
    {e : Expr} (hexp : Expansion L (m.opened next id) m.memos.size e L' m') :
    m'.load held toll later ≤ m.load held toll later + held true next +
      e.grant held toll share m.memos.size (m.memos.size + 1) := by
  have hfree : ∀ memo, (m.opened next id).memos[m.memos.size]? = some memo →
      memo.resultAt m.position = none := by
    intro memo hmemo
    obtain rfl := Option.some.inj ((Array.getElem?_push_size).symm.trans hmemo)
    rfl
  have hload : m'.load held toll later ≤ (m.opened next id).load held toll later +
      e.grant held toll share m.memos.size (m.opened next id).memos.size :=
    load_expansion_le (m := m.opened next id) hold hchoice hfree hexp
  have hopened : (m.opened next id).load held toll later =
    m.load held toll later + held true next :=
    load_addMemo held toll later m next
  have hsize : (m.opened next id).memos.size = m.memos.size + 1 := Array.size_push _
  rwa [hopened, hsize] at hload

end Machine

end GeneralParsing
