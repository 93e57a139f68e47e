import GeneralParsing.Proofs.Machine.Trace

/-!
# Parents are served

A step of the machine may do two things for those who wait for results. It may register a
continuation with a memo; where the memo has a result here the continuation is resumed with it at
once (`Registers`). And it may complete one memo; the result is handed to all the parents that the
memo has (`Completes`). So with each result that a memo has been given, as many tasks to resume a
continuation are added as there are registrations of it, whichever comes first.

Only the latest result of a memo is stored, but a memo with which a continuation is registered is
in the table, so it was opened here, and all its results are here; and there is one at most
(`resultAt_of_given`). What a step of the machine is, in these terms, is `progresses_outcome`.
-/

namespace GeneralParsing

namespace Machine

/-- A memo **has been given** a result: the result does not wait to be recorded. -/
def Given (L : Ledger) (waiting : List (NodeId × MemoId)) (node : NodeId) (id : MemoId)
    (stop : Nat) : Prop :=
  L.results[node]? = some (id, stop) ∧ (node, id) ∉ waiting

/-- A change in which **no memo is given** a result. Continuations may be registered; then they are
served with the results that there are. -/
structure Registers (L : Ledger) (m : Machine) (waiting : List (NodeId × MemoId)) (L' : Ledger)
    (m' : Machine) (waiting' : List (NodeId × MemoId)) : Prop where
  latest : ∀ id, m'.latestOf id = m.latestOf id
  given : ∀ node id stop, Given L' waiting' node id stop ↔ Given L waiting node id stop
  parents : ∀ id, m.parentsOf id <:+ m'.parentsOf id
  tasks : ∀ node next, .resume node next ∈ m'.tasks →
    .resume node next ∈ m.tasks ∨ ∃ id stop, Given L waiting node id stop
  served : ∀ node id stop next, Given L waiting node id stop →
    m'.tasks.count (.resume node next) + (m.parentsOf id).count next =
      m.tasks.count (.resume node next) + (m'.parentsOf id).count next

/-- A change in which **one memo is given** a result, which is handed to all its parents. -/
structure Completes (L : Ledger) (m : Machine) (waiting : List (NodeId × MemoId)) (L' : Ledger)
    (m' : Machine) (waiting' : List (NodeId × MemoId)) (id : MemoId) (node : NodeId) : Prop where
  latest : ∀ i, m'.latestOf i = if id = i then some (m'.position, node) else m.latestOf i
  given : ∀ n i stop, Given L' waiting' n i stop ↔
    (n = node ∧ i = id ∧ stop = m'.position) ∨ Given L waiting n i stop
  fresh : ∀ i stop, ¬ Given L waiting node i stop
  parents : ∀ i, m'.parentsOf i = m.parentsOf i
  tasks : m'.tasks = (m.parentsOf id).reverse.map (.resume node) ++ m.tasks

section

variable {g : Grammar} {w : List String} {L L' L₁ : Ledger} {m m' m₁ : Machine} {id : MemoId}
variable {waiting waiting' waiting₁ : List (NodeId × MemoId)} {node : NodeId} {memo : Memo}
variable {next : Continuation}

theorem Registers.refl (L : Ledger) (m : Machine) (waiting : List (NodeId × MemoId)) :
    Registers L m waiting L m waiting where
  latest _ := rfl
  given _ _ _ := Iff.rfl
  parents _ := List.suffix_refl _
  tasks _ _ h := .inl h
  served _ _ _ _ _ := rfl

theorem Registers.trans (h : Registers L m waiting L₁ m₁ waiting₁)
    (h' : Registers L₁ m₁ waiting₁ L' m' waiting') : Registers L m waiting L' m' waiting' where
  latest id := (h'.latest id).trans (h.latest id)
  given node id stop := (h'.given node id stop).trans (h.given node id stop)
  parents id := (h.parents id).trans (h'.parents id)
  tasks node next hmem := by
    rcases h'.tasks node next hmem with hmem | ⟨id, stop, hgiven⟩
    · exact h.tasks node next hmem
    · exact .inr ⟨id, stop, (h.given node id stop).mp hgiven⟩
  served node id stop next hgiven := by
    have heq := h.served node id stop next hgiven
    have heq' := h'.served node id stop next ((h.given node id stop).mpr hgiven)
    omega

/-- A change of **other things** than memos, tasks and results. -/
theorem Registers.of_eq (hmemos : m'.memos = m.memos) (htasks : m'.tasks = m.tasks)
    (hgiven : ∀ node id stop, Given L' waiting' node id stop ↔ Given L waiting node id stop) :
    Registers L m waiting L' m' waiting' where
  latest id := by rw [latestOf, latestOf, hmemos]
  given := hgiven
  parents id := by rw [parentsOf, parentsOf, hmemos]
  tasks node next hmem := .inl (htasks ▸ hmem)
  served node id stop next _ := by rw [htasks, parentsOf, parentsOf, hmemos]

/-- **Tasks to derive** something. -/
theorem Registers.withTasks (L : Ledger) (m : Machine) (waiting : List (NodeId × MemoId))
    {tasks : List Task} (hderive : ∀ task ∈ tasks, ∃ next expr, task = .derive next expr) :
    Registers L m waiting L (m.withTasks tasks) waiting := by
  have hnot : ∀ node next, .resume node next ∉ tasks := by
    intro node next hmem
    obtain ⟨_, _, heq⟩ := hderive _ hmem
    cases heq
  refine ⟨fun _ => rfl, fun _ _ _ => Iff.rfl, fun _ => List.suffix_refl _, ?_, ?_⟩
  · intro node next hmem
    exact (List.mem_append.mp hmem).elim (fun hmem => absurd hmem (hnot node next)) .inl
  · intro node id stop next _
    change (tasks ++ m.tasks).count _ + _ = _ + (m.parentsOf id).count next
    rw [List.count_append, List.count_eq_zero.mpr (hnot node next), Nat.zero_add]

/-- **A new memo**, which has no result yet. It has a parent already, which is to be served when the
result comes. -/
theorem Registers.addMemo (hs : Sound g w L m) (goal : Goal) (next : Continuation) :
    Registers L m waiting (L.addGoal goal) (m.addMemo next).1 waiting where
  latest := latestOf_addMemo m next
  given _ _ _ := Iff.rfl
  parents := parentsOf_suffix_addMemo m next
  tasks _ _ hmem := .inl hmem
  served node id stop next' hgiven := by
    have hlt := hs.lt_of_results hgiven.1
    rw [hs.goals_size] at hlt
    rw [parentsOf_addMemo_of_lt hlt]
    rfl

/-- **A new memo for an expression**. -/
theorem Registers.opened (hs : Sound g w L m) (goal : Goal) (next : Continuation) (expr : ExprId) :
    Registers L m waiting (L.addGoal goal) (m.opened next expr) waiting :=
  (Registers.addMemo hs goal next).trans (.of_eq rfl rfl fun _ _ _ => Iff.rfl)

/-- A memo in the table has been opened here, so **its results** are here, and there is one at
most. -/
theorem resultAt_of_given (hs : Sound g w L m) (hu : Unique L m waiting) {expr : ExprId}
    (htable : m.table[expr]? = some id) (hmemo : m.memos[id]? = some memo) {stop : Nat}
    (hgiven : Given L waiting node id stop) : memo.resultAt m.position = some node := by
  obtain ⟨hresult, hwait⟩ := hgiven
  have hworks := hs.table expr id htable
  obtain ⟨n, goal, -, hsound⟩ := hs.exists_node hresult
  obtain rfl := Option.some.inj (hworks.symm.trans hsound.works)
  obtain rfl : stop = m.position :=
    Nat.le_antisymm (hu.past node id stop hresult hwait) hsound.start_le
  rw [← resultHere_of_memo hmemo]
  exact hu.here node id ⟨hresult, _, _, hworks⟩ hwait

/-- The result of a memo here **does not wait**. What waits has not been recorded in its memo. -/
theorem given_of_resultAt (hs : Sound g w L m) (hmemo : m.memos[id]? = some memo)
    (hresult : memo.resultAt m.position = some node) : Given L m.matched node id m.position := by
  obtain ⟨goal, hsound⟩ := hs.memo id memo hmemo
  have hresult := hsound.result_of_resultAt hresult
  refine ⟨hresult, fun hmem => ?_⟩
  have heq := (Prod.mk.inj (Option.some.inj (hresult.symm.trans (hs.matched node id hmem).1))).2
  exact absurd heq (Nat.ne_of_lt (Nat.lt_succ_self _))

/-- A node is **one result** of one memo. -/
theorem Given.unique {id' : MemoId} {stop stop' : Nat} (h : Given L waiting node id stop)
    (hresult : L.results[node]? = some (id', stop')) : id = id' ∧ stop = stop' :=
  Prod.mk.inj (Option.some.inj (h.1.symm.trans hresult))

/-- **A continuation registered** late is served with the result that there is. There is one result
at most that ends here, and the table leads to the memo that has it. -/
theorem Registers.registeredWith (hs : Sound g w L m) (hu : Unique L m m.matched) {expr : ExprId}
    (htable : m.table[expr]? = some id) (hmemo : m.memos[id]? = some memo) (next : Continuation) :
    Registers L m m.matched L (m.registeredWith id memo next) m.matched where
  latest := latestOf_registeredWith hmemo next
  given _ _ _ := Iff.rfl
  parents i := by
    rw [parentsOf_registeredWith hmemo]
    split
    · next heq =>
      subst heq
      exact List.suffix_cons _ _
    · exact List.suffix_refl _
  tasks node next' hmem := by
    rcases List.mem_append.mp hmem with hmem | hmem
    · obtain ⟨node', hnode', heq⟩ := List.mem_map.mp hmem
      obtain ⟨rfl, -⟩ := Task.resume.inj heq
      exact .inr ⟨id, _, given_of_resultAt hs hmemo (Option.mem_toList.mp hnode')⟩
    · exact .inl hmem
  served node i stop next' hgiven := by
    change ((memo.resultAt m.position).toList.map (Task.resume · next) ++ m.tasks).count _ + _ = _
    rw [parentsOf_registeredWith hmemo, List.count_append]
    by_cases hid : id = i
    · subst hid
      rw [resultAt_of_given hs hu htable hmemo hgiven, if_pos rfl, Option.toList_some,
        List.map_singleton]
      by_cases hnext : next = next'
      · subst hnext
        rw [List.count_cons_self, List.count_cons_self]
        simp only [List.count_nil]
        omega
      · rw [List.count_cons_of_ne hnext, List.count_cons_of_ne (by simp [hnext])]
        simp only [List.count_nil]
        omega
    · rw [if_neg hid, List.count_eq_zero.mpr, Nat.zero_add]
      -- the node is no result of the memo with which it is registered
      intro hmem
      obtain ⟨node', hnode', heq⟩ := List.mem_map.mp hmem
      obtain ⟨rfl, -⟩ := Task.resume.inj heq
      have hgiven' := given_of_resultAt hs hmemo (Option.mem_toList.mp hnode')
      exact hid (hgiven'.unique hgiven.1).1

/-- **A symbol matched** waits for the next position. Its memo completes when the machine has moved
on, not before. -/
theorem Registers.matchedWith (hs : Sound g w L m) (id : MemoId) (symbol : String) :
    Registers L m waiting (L.addResult id (m.position + 1))
      (m.matchedWith id symbol) ((m.nodes.size, id) :: waiting) := by
  refine .of_eq rfl rfl fun node i stop => ?_
  rw [Given, Given, Ledger.getElem?_addResult, List.mem_cons]
  constructor
  · rintro ⟨⟨rfl, heq⟩ | hresult, hnot⟩
    · obtain ⟨rfl, -⟩ := Prod.mk.inj heq
      rw [hs.results_size] at hnot
      exact absurd (.inl rfl) hnot
    · exact ⟨hresult, fun hmem => hnot (.inr hmem)⟩
  · rintro ⟨hresult, hnot⟩
    refine ⟨.inr hresult, ?_⟩
    rintro (heq | hmem)
    · obtain ⟨rfl, -⟩ := Prod.mk.inj heq
      have hlt := (Array.getElem?_eq_some_iff.mp hresult).1
      rw [hs.results_size] at hlt
      exact Nat.lt_irrefl _ hlt
    · exact hnot hmem

/-! ### Completions -/

/-- **A new result** of a memo is handed to all its parents. These are the parents of this moment;
whoever registers later is served then. -/
theorem Completes.finishedWith (hsize : L.results.size = m.nodes.size)
    (hwait : WaitingOld m waiting) (hmemo : m.memos[id]? = some memo) (kind : Forest.Kind) :
    Completes L m waiting (L.addResult id m.position) (m.finishedWith id memo kind) waiting id
      m.nodes.size where
  latest := latestOf_completedWith (m := (m.addNode kind ⟨memo.start, m.position⟩).1) hmemo _
  given n i stop := by
    rw [Given, Given, Ledger.getElem?_addResult, hsize]
    constructor
    · rintro ⟨⟨rfl, heq⟩ | hresult, hnot⟩
      · obtain ⟨rfl, rfl⟩ := Prod.mk.inj heq
        exact .inl ⟨rfl, rfl, rfl⟩
      · exact .inr ⟨hresult, hnot⟩
    · rintro (⟨rfl, rfl, rfl⟩ | ⟨hresult, hnot⟩)
      · exact ⟨.inl ⟨rfl, rfl⟩, fun hmem => Nat.lt_irrefl _ (hwait _ hmem)⟩
      · exact ⟨.inr hresult, hnot⟩
  fresh i stop hgiven := by
    have hlt := (Array.getElem?_eq_some_iff.mp hgiven.1).1
    rw [hsize] at hlt
    exact Nat.lt_irrefl _ hlt
  parents := parentsOf_completedWith (m := (m.addNode kind ⟨memo.start, m.position⟩).1) hmemo _
  tasks := by
    rw [parentsOf_of_memo hmemo]
    rfl

/-- **A result that waited** is handed to all parents of its memo. -/
theorem Completes.completedWith (hresult : L.results[node]? = some (id, m.position))
    (hnot : (node, id) ∉ waiting) (hmemo : m.memos[id]? = some memo) :
    Completes L m ((node, id) :: waiting) L (m.completedWith id memo node) waiting id node where
  latest := latestOf_completedWith hmemo node
  given n i stop := by
    rw [Given, Given, List.mem_cons]
    constructor
    · rintro ⟨hn, hmem⟩
      by_cases heq : (n, i) = (node, id)
      · obtain ⟨rfl, rfl⟩ := Prod.mk.inj heq
        obtain ⟨-, rfl⟩ := Prod.mk.inj (Option.some.inj (hn.symm.trans hresult))
        exact .inl ⟨rfl, rfl, rfl⟩
      · exact .inr ⟨hn, not_or.mpr ⟨heq, hmem⟩⟩
    · rintro (⟨rfl, rfl, rfl⟩ | ⟨hn, hmem⟩)
      · exact ⟨hresult, hnot⟩
      · exact ⟨hn, (not_or.mp hmem).2⟩
  fresh i stop hgiven := by
    obtain ⟨rfl, -⟩ := hgiven.unique hresult
    exact hgiven.2 List.mem_cons_self
  parents := parentsOf_completedWith hmemo node
  tasks := by
    rw [parentsOf_of_memo hmemo]
    rfl

/-! ### Steps -/

/-- A change in which continuations that are registered **are served**, and then one memo may be
given a result. -/
def Progresses (L : Ledger) (m : Machine) (waiting : List (NodeId × MemoId)) (L' : Ledger)
    (m' : Machine) (waiting' : List (NodeId × MemoId)) : Prop :=
  Registers L m waiting L' m' waiting' ∨ ∃ L₁ m₁ waiting₁ id node,
    Registers L m waiting L₁ m₁ waiting₁ ∧ Completes L₁ m₁ waiting₁ L' m' waiting' id node

theorem Registers.progresses (h : Registers L m waiting L₁ m₁ waiting₁)
    (h' : Progresses L₁ m₁ waiting₁ L' m' waiting') : Progresses L m waiting L' m' waiting' := by
  rcases h' with h' | ⟨L₂, m₂, waiting₂, id, node, h', hc⟩
  · exact .inl (h.trans h')
  · exact .inr ⟨L₂, m₂, waiting₂, id, node, h.trans h', hc⟩

theorem Completes.progresses (h : Completes L m waiting L' m' waiting' id node) :
    Progresses L m waiting L' m' waiting' :=
  .inr ⟨L, m, waiting, id, node, .refl L m waiting, h⟩

/-- What has been prepared **may end with a result**. This is the form of every step: it registers
something first, and then a memo may complete. -/
theorem Registers.finishedWith (h : Registers L m waiting L₁ m₁ waiting₁)
    (hsize : L₁.results.size = m₁.nodes.size) (hwait : WaitingOld m₁ waiting₁)
    (hmemo : m₁.memos[id]? = some memo) (kind : Forest.Kind) : Progresses L m waiting
      (L₁.addResult id m₁.position) (m₁.finishedWith id memo kind) waiting₁ :=
  h.progresses (Completes.finishedWith hsize hwait hmemo kind).progresses

/-- Parents **stay**, and new ones stand before them. -/
theorem Progresses.parents (h : Progresses L m waiting L' m' waiting') (id : MemoId) :
    m.parentsOf id <:+ m'.parentsOf id := by
  rcases h with h | ⟨_, _, _, _, _, h, hc⟩
  · exact h.parents id
  · rw [hc.parents]
    exact h.parents id

theorem progresses_expansion (hs : Sound g w L m) {e : Expr} (hexp : Expansion L m id e L' m') :
    Progresses L m m.matched L' m' m'.matched := by
  cases hexp with
  | empty hrecord =>
    exact (Registers.refl L m m.matched).finishedWith hs.results_size hs.waitingOld hrecord _
  | sequence hgoal => exact .inl ((Registers.addMemo hs _ _).trans (.withTasks _ _ _ (by simp)))
  | choice => exact .inl (.withTasks _ _ _ (by simp))
  | repetition hgoal hmin =>
    refine .inl ((Registers.addMemo hs _ _).trans (.withTasks _ _ _ ?_))
    split <;> simp
  | @repetitionEmpty tag child max goal hgoal =>
    refine Registers.finishedWith (L := L) (m := m) ((Registers.addMemo hs _ _).trans
      (.withTasks _ _ _ ?_)) hs.results_size hs.waitingOld Array.getElem?_push_size _
    split <;> simp
  | omitted | lexical => exact .inl (.withTasks _ _ _ (by simp))
  | unmatched => exact .inl (.refl _ _ _)
  | matched => exact .inl (.matchedWith hs _ _)

/-- **A step** serves who has registered, and completes one memo at most. Nothing is served twice or
forgotten in it, and that is all the accounts need. -/
theorem progresses_outcome (hs : Sound g w L m) (hu : Unique L m m.matched) {task : Task}
    (ht : SoundTask g L m.position task) (ho : Outcome g L m task L' m') :
    Progresses L m m.matched L' m' m'.matched := by
  cases ho with
  | registered htable hrecord => exact .inl (.registeredWith hs hu htable hrecord _)
  | @opened next expr e _ _ htable he hexp =>
    cases ht with
    | derive ha =>
      exact (Registers.opened hs _ next expr).progresses
        (progresses_expansion (hs.opened ⟨e, he⟩ ha) hexp)
  | accepted | choiceJoined => exact .inl (.of_eq rfl rfl fun _ _ _ => Iff.rfl)
  | acceptedBefore | choiceSame | choiceKnown => exact .inl (.refl _ _ _)
  | sequenceNext => exact .inl (.withTasks _ _ _ (by simp))
  | repetitionEarly =>
    refine .inl (.withTasks _ _ _ ?_)
    split <;> simp
  | sequenceDone hrecord | choiceFirst hrecord | omitted hrecord | lexical hrecord =>
    exact (Registers.refl L m m.matched).finishedWith hs.results_size hs.waitingOld hrecord _
  | repetitionLate hnode hmin hrecord =>
    refine Registers.finishedWith (L := L) (m := m) (.withTasks _ _ _ ?_) hs.results_size
      hs.waitingOld hrecord _
    split <;> simp

/-- **Moving on** to the next position leaves what has matched waiting. -/
theorem Registers.nextPosition (L : Ledger) (m : Machine) (symbol : Option String) :
    Registers L m m.matched L (m.nextPosition symbol) m.matched :=
  .of_eq rfl rfl fun _ _ _ => Iff.rfl

/-- A step opens memos for expressions **here** only. Memos of earlier positions are complete in
number. -/
theorem goals_outcome {task : Task} {expr : ExprId} {start : Nat} (ho : Outcome g L m task L' m')
    (hid : L'.goals[id]? = some ⟨expr, false, start⟩) :
    L.goals[id]? = some ⟨expr, false, start⟩ ∨ start = m.position := by
  cases task with
  | resume node next => exact .inl (goals_resume ho ▸ hid)
  | derive next expr' =>
    cases ho with
    | registered => exact .inl hid
    | opened _ _ hexp =>
      have hgoal := goals_expansion hexp hid
      change (L.goals.push _)[id]? = _ at hgoal
      rcases getElem?_push_eq_some hgoal with ⟨-, heq⟩ | hgoal
      · exact .inr (Goal.mk.inj heq).2.2.symm
      · exact .inl hgoal

end

end Machine

end GeneralParsing
