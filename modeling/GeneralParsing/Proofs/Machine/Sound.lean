import GeneralParsing.Proofs.Machine.Moves

/-!
# The machine is sound

`Sound g w L m` says that everything in the machine's tables is what the ledger says it stands for:
memos are registered with continuations that await their results, every node is explained by older
ones, every task can be done. A sound machine has an outcome for each of its tasks, so it meets no
fault (`Sound.exists_outcome`), and outcomes are sound again (`Sound.outcome`).
-/

namespace GeneralParsing

/-- Replacing a member of a list **changes one summand**. -/
theorem sum_map_set {α : Type} (f : α → Nat) {xs : List α} {i : Nat} {a : α} (h : xs[i]? = some a)
    (b : α) : ((xs.set i b).map f).sum + f a = (xs.map f).sum + f b := by
  induction xs generalizing i with
  | nil => simp at h
  | cons x xs ih =>
    cases i with
    | zero =>
      obtain rfl : x = a := by simpa using h
      simp only [List.set_cons_zero, List.map_cons, List.sum_cons]
      omega
    | succ i =>
      have hset := ih (i := i) (by simpa using h)
      simp only [List.set_cons_succ, List.map_cons, List.sum_cons]
      omega

namespace Machine

/-! ### The invariant -/

/-- A memo that **is as the ledger says**. -/
structure SoundMemo (g : Grammar) (L : Ledger) (position : Nat) (id : MemoId) (memo : Memo)
    (goal : Goal) : Prop where
  works : L.goals[id]? = some goal
  start : memo.start = goal.start
  start_le : goal.start ≤ position
  expr : ∃ e, g.expr? goal.expr = some e
  parents : ∀ next ∈ memo.parents, Awaits g L next goal
  single : goal.inner = true → memo.parents.length ≤ 1
  latest : ∀ stop node, memo.latest = some (stop, node) →
    L.results[node]? = some (id, stop) ∧ stop ≤ position

/-- A node that **is as the ledger says**, a result of some memo. -/
structure SoundNode (g : Grammar) (w : List String) (L : Ledger) (id : NodeId)
    (node : Forest.Node) (memo : MemoId) (goal : Goal) (stop : Nat) : Prop where
  result : L.results[id]? = some (memo, stop)
  works : L.goals[memo]? = some goal
  span : node.span = ⟨goal.start, stop⟩
  start_le : goal.start ≤ stop
  explained : Explains g w L id node.kind goal stop

/-- A task that **can be done** at a position. -/
inductive SoundTask (g : Grammar) (L : Ledger) (position : Nat) : Task → Prop
  | derive {next : Continuation} {id : ExprId} (h : Awaits g L next ⟨id, false, position⟩) :
      SoundTask g L position (.derive next id)
  | resume {node : NodeId} {next : Continuation} {memo : MemoId} {goal : Goal}
      (hresult : L.results[node]? = some (memo, position)) (hgoal : L.goals[memo]? = some goal)
      (h : Awaits g L next goal) : SoundTask g L position (.resume node next)

/-- A machine that **is as the ledger says**. -/
structure Sound (g : Grammar) (w : List String) (L : Ledger) (m : Machine) : Prop where
  goals_size : L.goals.size = m.memos.size
  results_size : L.results.size = m.nodes.size
  memo : ∀ id memo, m.memos[id]? = some memo → ∃ goal, SoundMemo g L m.position id memo goal
  node : ∀ id node, m.nodes[id]? = some node → ∃ memo goal stop,
    SoundNode g w L id node memo goal stop
  table : ∀ (id : ExprId) (memo : MemoId), m.table[id]? = some memo →
    L.goals[memo]? = some ⟨id, false, m.position⟩
  task : ∀ task ∈ m.tasks, SoundTask g L m.position task
  matched : ∀ node memo, (node, memo) ∈ m.matched →
    L.results[node]? = some (memo, m.position + 1) ∧ ∃ expr start e,
      L.goals[memo]? = some ⟨expr, false, start⟩ ∧ g.expr? expr = some e ∧ e.isTerminal = true
  root : ∀ root ∈ m.roots, L.Result root ⟨g.start, false, 0⟩ m.position ∧ m.lookahead = none
  lookahead : m.lookahead = w[m.position]?
  registered : (m.memos.toList.map (·.parents.length)).sum ≤ m.registered

section

variable {g : Grammar} {w : List String} {L L' : Ledger} {m : Machine} {position : Nat}

/-- A memo stays as the ledger says **while the ledger grows**. -/
theorem SoundMemo.mono (h : L.Grows L') {id : MemoId} {memo : Memo} {goal : Goal}
    (hm : SoundMemo g L position id memo goal) : SoundMemo g L' position id memo goal :=
  ⟨h.goal hm.works, hm.start, hm.start_le, hm.expr, fun next hn => (hm.parents next hn).mono h,
    hm.single, fun stop node hl =>
      ⟨h.result (hm.latest stop node hl).1, (hm.latest stop node hl).2⟩⟩

/-- The result of a memo here **is one**. The latest result is the one at the latest place, so
nothing older is taken for it. -/
theorem SoundMemo.result_of_resultAt {id : MemoId} {memo : Memo} {goal : Goal}
    (hm : SoundMemo g L position id memo goal) {node : NodeId} {p : Nat}
    (h : memo.resultAt p = some node) : L.results[node]? = some (id, p) := by
  rw [Memo.resultAt] at h
  split at h
  · next stop node' hlatest =>
    split at h
    · next heq =>
      obtain rfl := Option.some.inj h
      exact heq ▸ (hm.latest stop node' hlatest).1
    · cases h
  · cases h

/-- A node stays as the ledger says **while the ledger grows**. -/
theorem SoundNode.mono (h : L.Grows L') {id : NodeId} {node : Forest.Node} {memo : MemoId}
    {goal : Goal} {stop : Nat} (hn : SoundNode g w L id node memo goal stop) :
    SoundNode g w L' id node memo goal stop :=
  ⟨h.result hn.result, h.goal hn.works, hn.span, hn.start_le, hn.explained.mono h⟩

/-- A task can still be done **when the ledger has grown**. -/
theorem SoundTask.mono (h : L.Grows L') {task : Task} (ht : SoundTask g L position task) :
    SoundTask g L' position task := by
  cases ht with
  | derive ha => exact .derive (ha.mono h)
  | resume hresult hgoal ha => exact .resume (h.result hresult) (h.goal hgoal) (ha.mono h)

namespace Sound

variable (h : Sound g w L m)

include h

/-- The memo on which a goal is worked **is there**. The two have their tables in step, entry by
entry. -/
theorem exists_memo {id : MemoId} {goal : Goal} (hgoal : L.goals[id]? = some goal) :
    ∃ memo, m.memos[id]? = some memo ∧ SoundMemo g L m.position id memo goal := by
  have hlt := (Array.getElem?_eq_some_iff.mp hgoal).1
  rw [h.goals_size] at hlt
  have hmemo := Array.getElem?_eq_getElem hlt
  obtain ⟨goal', hsound⟩ := h.memo id _ hmemo
  obtain rfl : goal = goal' := Option.some.inj (hgoal.symm.trans hsound.works)
  exact ⟨_, hmemo, hsound⟩

/-- A memo is as the ledger says **about its goal**. -/
theorem soundMemo {id : MemoId} {memo : Memo} {goal : Goal} (hmemo : m.memos[id]? = some memo)
    (hgoal : L.goals[id]? = some goal) : SoundMemo g L m.position id memo goal := by
  obtain ⟨memo', hmemo', hsound⟩ := h.exists_memo hgoal
  obtain rfl := Option.some.inj (hmemo.symm.trans hmemo')
  exact hsound

/-- The node of a result **is there**. With it comes the goal, and by that the expression that
explains the node. -/
theorem exists_node {id : NodeId} {memo : MemoId} {stop : Nat}
    (hresult : L.results[id]? = some (memo, stop)) :
    ∃ node goal, m.nodes[id]? = some node ∧ SoundNode g w L id node memo goal stop := by
  have hlt := (Array.getElem?_eq_some_iff.mp hresult).1
  rw [h.results_size] at hlt
  have hnode := Array.getElem?_eq_getElem hlt
  obtain ⟨memo', goal, stop', hsound⟩ := h.node id _ hnode
  obtain ⟨rfl, rfl⟩ := Prod.mk.inj (Option.some.inj (hresult.symm.trans hsound.result))
  exact ⟨_, goal, hnode, hsound⟩

/-- What is a result in the ledger **is a node** of the machine. -/
theorem lt_of_result {node : NodeId} {goal : Goal} {stop : Nat} (hn : L.Result node goal stop) :
    node < m.nodes.size := by
  obtain ⟨memo, hresult, -⟩ := hn
  have hlt := (Array.getElem?_eq_some_iff.mp hresult).1
  rwa [h.results_size] at hlt

/-- The **next memo** works on the goal that the ledger lists next. -/
theorem goals_addGoal (goal : Goal) : (L.addGoal goal).goals[m.memos.size]? = some goal := by
  rw [← h.goals_size]
  exact Array.getElem?_push_size

/-- The **next node** is the result that the ledger lists next. -/
theorem results_addResult (memo : MemoId) (stop : Nat) :
    (L.addResult memo stop).results[m.nodes.size]? = some (memo, stop) :=
  Ledger.results_addResult_of_size h.results_size memo stop

/-! ### Moves keep it -/

/-- **New tasks** keep the machine as the ledger says, if they can be done. The moves below are put
together from such pieces, one for each table of the machine. -/
theorem withTasks {tasks : List Task} (ht : ∀ task ∈ tasks, SoundTask g L m.position task) :
    Sound g w L (m.withTasks tasks) :=
  { h with task := fun task htask => (List.mem_append.mp htask).elim (ht task) (h.task task) }

/-- **A new root** does so if it is a result of the start over all that has been read. -/
theorem withRoot {node : NodeId} (hn : L.Result node ⟨g.start, false, 0⟩ m.position)
    (hlook : m.lookahead = none) : Sound g w L (m.withRoot node) := by
  refine { h with root := fun root hroot => ?_ }
  rcases List.mem_append.mp hroot with hroot | hroot
  · exact h.root root hroot
  · obtain rfl := List.mem_singleton.mp hroot
    exact ⟨hn, hlook⟩

/-- **A new memo** does so if its first continuation awaits its goal. The goal starts here, like
every goal of a task. -/
theorem addMemo {next : Continuation} {goal : Goal} (hstart : goal.start = m.position)
    (hexpr : ∃ e, g.expr? goal.expr = some e) (hnext : Awaits g (L.addGoal goal) next goal) :
    Sound g w (L.addGoal goal) (m.addMemo next).1 := by
  have hgrows := L.grows_addGoal goal
  refine ⟨?_, h.results_size, fun id memo hmemo => ?_, fun id node hnode => ?_, ?_, ?_, ?_, ?_,
    h.lookahead, ?_⟩
  · simp [Ledger.addGoal, Machine.addMemo, h.goals_size]
  · change (m.memos.push _)[id]? = some memo at hmemo
    rcases getElem?_push_eq_some hmemo with ⟨heq, rfl⟩ | hmemo
    · exact ⟨goal, heq ▸ h.goals_addGoal goal, hstart.symm, Nat.le_of_eq hstart, hexpr,
        by simpa using hnext, fun _ => Nat.le_refl 1, by simp⟩
    · obtain ⟨goal', hsound⟩ := h.memo id memo hmemo
      exact ⟨goal', hsound.mono hgrows⟩
  · obtain ⟨memo, goal', stop, hsound⟩ := h.node id node hnode
    exact ⟨memo, goal', stop, hsound.mono hgrows⟩
  · exact fun id memo hid => hgrows.goal (h.table id memo hid)
  · exact fun task htask => (h.task task htask).mono hgrows
  · intro node memo hmatched
    obtain ⟨hresult, expr, start, e, hgoal, he⟩ := h.matched node memo hmatched
    exact ⟨hresult, expr, start, e, hgrows.goal hgoal, he⟩
  · exact fun root hroot => ⟨(h.root root hroot).1.mono hgrows, (h.root root hroot).2⟩
  · simpa [Machine.addMemo] using h.registered

/-- **Opening an expression** does so if the continuation awaits it at the position. -/
theorem opened {next : Continuation} {id : ExprId} (hexpr : ∃ e, g.expr? id = some e)
    (hnext : Awaits g L next ⟨id, false, m.position⟩) :
    Sound g w (L.addGoal ⟨id, false, m.position⟩) (m.opened next id) := by
  have hadd := h.addMemo (show (⟨id, false, m.position⟩ : Goal).start = m.position from rfl) hexpr
    (hnext.mono (L.grows_addGoal _))
  refine { hadd with table := fun id' memo hid => ?_ }
  change (m.table.insert id m.memos.size)[id']? = some memo at hid
  rw [Std.HashMap.getElem?_insert] at hid
  split at hid
  · next heq =>
    obtain rfl : id = id' := by simpa using heq
    obtain rfl := Option.some.inj hid
    exact h.goals_addGoal _
  · exact hadd.table id' memo hid

/-- A memo may be **replaced** by one that is as the ledger says, together with new tasks.
Registering and completing are cases of this, and so need no proof about all memos of their own. -/
theorem replaceMemo {id : MemoId} {old memo : Memo} {tasks : List Task} {registered : Nat}
    (hold : m.memos[id]? = some old) (hmemo : ∃ goal, SoundMemo g L m.position id memo goal)
    (hregistered : memo.parents.length + m.registered ≤ old.parents.length + registered)
    (ht : ∀ task ∈ tasks, SoundTask g L m.position task) :
    Sound g w L { m with
      memos := m.memos.setIfInBounds id memo, tasks := tasks ++ m.tasks, registered } := by
  refine { h with goals_size := ?_, memo := fun id' memo' hid => ?_, task := ?_, registered := ?_ }
  · simpa using h.goals_size
  · rcases getElem?_setIfInBounds_eq_some hid with ⟨rfl, rfl⟩ | hid
    · exact hmemo
    · exact h.memo id' memo' hid
  · exact fun task htask => (List.mem_append.mp htask).elim (ht task) (h.task task)
  · have hset := sum_map_set (·.parents.length)
      (show m.memos.toList[id]? = some old by simpa using hold) memo
    have hsum := h.registered
    have hle : ((m.memos.toList.set id memo).map (·.parents.length)).sum ≤ registered := by omega
    rwa [← Array.toList_setIfInBounds] at hle

/-- **One more continuation** for a memo does so if it awaits the memo's goal. An inner memo has
just one continuation, so it gets no more. -/
theorem registeredWith {id : MemoId} {memo : Memo} {goal : Goal} {next : Continuation}
    (hold : m.memos[id]? = some memo) (hmemo : SoundMemo g L m.position id memo goal)
    (houter : goal.inner = false) (hnext : Awaits g L next goal) :
    Sound g w L (m.registeredWith id memo next) := by
  have hparents : ∀ k ∈ next :: memo.parents, Awaits g L k goal :=
    List.forall_mem_cons.mpr ⟨hnext, hmemo.parents⟩
  have hsingle : goal.inner = true → (next :: memo.parents).length ≤ 1 := fun hinner =>
    absurd (houter.symm.trans hinner) Bool.false_ne_true
  refine h.replaceMemo hold ⟨goal, { hmemo with parents := hparents, single := hsingle }⟩
    (Nat.le_of_eq ?_) fun task htask => ?_
  · rw [List.length_cons]
    omega
  · obtain ⟨node, hnode, rfl⟩ := List.mem_map.mp htask
    exact .resume (hmemo.result_of_resultAt (Option.mem_toList.mp hnode)) hmemo.works hnext

/-- **The latest result** of a memo may be set to a result that ends at the position. -/
theorem completedWith {id : MemoId} {memo : Memo} {goal : Goal} {node : NodeId}
    (hold : m.memos[id]? = some memo) (hmemo : SoundMemo g L m.position id memo goal)
    (hresult : L.results[node]? = some (id, m.position)) :
    Sound g w L (m.completedWith id memo node) := by
  refine h.replaceMemo hold ⟨goal, { hmemo with latest := fun stop node' hl => ?_ }⟩
    (Nat.le_refl _) fun task htask => ?_
  · obtain ⟨rfl, rfl⟩ : m.position = stop ∧ node = node' := by simpa using hl
    exact ⟨hresult, Nat.le_refl _⟩
  · obtain ⟨next, hnext, rfl⟩ := List.mem_map.mp htask
    exact .resume hresult hmemo.works (hmemo.parents next (List.mem_reverse.mp hnext))

/-- **A new node** does so if its kind explains the result that it stands for. Where the node ends
is up to the caller: here, or one further for a symbol. -/
theorem addNode {id : MemoId} {memo : Memo} {goal : Goal} {kind : Forest.Kind} {stop : Nat}
    (hmemo : SoundMemo g L m.position id memo goal) (hstop : goal.start ≤ stop)
    (hexplained : Explains g w L m.nodes.size kind goal stop) :
    Sound g w (L.addResult id stop) (m.addNode kind ⟨memo.start, stop⟩).1 := by
  have hgrows := L.grows_addResult id stop
  refine ⟨h.goals_size, ?_, fun id' memo' hid => ?_, fun id' node hnode => ?_, h.table, ?_, ?_, ?_,
    h.lookahead, h.registered⟩
  · simp [Ledger.addResult, Machine.addNode, h.results_size]
  · obtain ⟨goal', hsound⟩ := h.memo id' memo' hid
    exact ⟨goal', hsound.mono hgrows⟩
  · change (m.nodes.push _)[id']? = some node at hnode
    rcases getElem?_push_eq_some hnode with ⟨heq, rfl⟩ | hnode
    · exact ⟨id, goal, stop, heq ▸ h.results_addResult id stop, hmemo.works, by rw [hmemo.start],
        hstop, heq ▸ hexplained.mono hgrows⟩
    · obtain ⟨memo', goal', stop', hsound⟩ := h.node id' node hnode
      exact ⟨memo', goal', stop', hsound.mono hgrows⟩
  · exact fun task htask => (h.task task htask).mono hgrows
  · intro node memo' hmatched
    obtain ⟨hresult, hrest⟩ := h.matched node memo' hmatched
    exact ⟨hgrows.result hresult, hrest⟩
  · exact fun root hroot => ⟨(h.root root hroot).1.mono hgrows, (h.root root hroot).2⟩

/-- **A first result** of a memo does so if its kind explains it. It is a new node first, and then
the latest result of its memo. -/
theorem finishedWith {id : MemoId} {memo : Memo} {goal : Goal} {kind : Forest.Kind}
    (hold : m.memos[id]? = some memo) (hmemo : SoundMemo g L m.position id memo goal)
    (hexplained : Explains g w L m.nodes.size kind goal m.position) :
    Sound g w (L.addResult id m.position) (m.finishedWith id memo kind) :=
  (h.addNode hmemo hmemo.start_le hexplained).completedWith hold
    (hmemo.mono (L.grows_addResult id m.position)) (h.results_addResult id m.position)

/-- **Matching a symbol** does so if the terminal accepts what is looked at. It ends at the next
position, so its memo hears of it only there. -/
theorem matchedWith {id : MemoId} {memo : Memo} {goal : Goal} {e : Expr} {symbol : String}
    (hmemo : SoundMemo g L m.position id memo goal) (hgoal : goal = ⟨goal.expr, false, m.position⟩)
    (he : g.expr? goal.expr = some e) (hlook : m.lookahead = some symbol)
    (hmatch : e.accepts symbol = true) :
    Sound g w (L.addResult id (m.position + 1)) (m.matchedWith id symbol) := by
  have hstart : memo.start = m.position := by rw [hmemo.start, hgoal]
  have hexplained : Explains g w L m.nodes.size (.symbol symbol) goal (m.position + 1) := by
    rw [hgoal]
    exact .symbol he hmatch (h.lookahead ▸ hlook)
  have hadd := h.addNode hmemo (Nat.le_succ_of_le hmemo.start_le) hexplained
  rw [hstart] at hadd
  refine { hadd with matched := fun node memo' hmem => ?_ }
  rcases List.mem_cons.mp hmem with heq | hmem
  · obtain ⟨rfl, rfl⟩ := Prod.mk.inj heq
    exact ⟨h.results_addResult memo' _, goal.expr, m.position, e, hgoal ▸ hmemo.works, he,
      Expr.isTerminal_of_accepts hmatch⟩
  · exact hadd.matched node memo' hmem

/-- **One more alternative** of a choice does so if it is explained together with the others.
Nothing else is said of a choice, so the list is all that needs to be looked at. -/
theorem joinedWith {choice node : NodeId} {tag : Option String} {alternatives : List NodeId}
    {span : Span} (hnode : m.nodes[choice]? = some ⟨.choice tag alternatives, span⟩)
    (hexplained : ∀ memo goal stop,
      SoundNode g w L choice ⟨.choice tag alternatives, span⟩ memo goal stop →
        Explains g w L choice (.choice tag (alternatives ++ [node])) goal stop) :
    Sound g w L (m.joinedWith choice tag alternatives span node) := by
  refine { h with results_size := ?_, node := fun id n hid => ?_ }
  · simpa [Machine.joinedWith] using h.results_size
  · change (m.nodes.setIfInBounds choice _)[id]? = some n at hid
    rcases getElem?_setIfInBounds_eq_some hid with ⟨rfl, rfl⟩ | hid
    · obtain ⟨memo, goal, stop, hsound⟩ := h.node choice _ hnode
      exact ⟨memo, goal, stop, { hsound with explained := hexplained memo goal stop hsound }⟩
    · exact h.node id n hid

end Sound

end

/-! ### Outcomes keep it -/

namespace Sound

variable {g : Grammar} {w : List String} {L L' : Ledger} {m m' : Machine}

/-- A memo to which alternatives are handed has **choices** for results. -/
theorem choice_of_awaits (h : Sound g w L m) {tag : Option String} {memo : MemoId} {goal : Goal}
    (ha : Awaits g L (.choice tag memo) goal) {node : NodeId} {stop : Nat}
    (hresult : L.results[node]? = some (memo, stop)) :
    ∃ alternatives span, m.nodes[node]? = some ⟨.choice tag alternatives, span⟩ := by
  obtain ⟨⟨kind, span⟩, goal', hnode, hsound⟩ := h.exists_node hresult
  have hexplained := hsound.explained
  cases ha with
  | choice hmemo he _ =>
    obtain rfl := Option.some.inj (hmemo.symm.trans hsound.works)
    obtain ⟨first, more, rfl, -⟩ := hexplained.of_alt he
    exact ⟨_, _, hnode⟩
  | inner hmemo he hinner =>
    obtain rfl := Option.some.inj (hmemo.symm.trans hsound.works)
    obtain ⟨first, more, rfl, -⟩ := hexplained.of_hasInner he hinner
    exact ⟨_, _, hnode⟩

end Sound

/-- **An expansion comes to something.** There is no case in which an expression that is there
cannot be expanded. -/
theorem exists_expansion {L : Ledger} {m : Machine} {id : MemoId} {memo : Memo} {goal : Goal}
    (hmemo : m.memos[id]? = some memo) (hgoal : L.goals[id]? = some goal) (e : Expr) :
    ∃ L' m', expand m id e = .ok m' ∧ Expansion L m id e L' m' := by
  have hterminal : e.isTerminal = true → ∃ L' m', expand m id e = .ok m' ∧
      Expansion L m id e L' m' := by
    intro ht
    rw [expand_terminal m id ht]
    cases hlook : m.lookahead with
    | none => exact ⟨L, m, rfl, .unmatched ht fun symbol h => by simp [hlook] at h⟩
    | some symbol =>
      cases hmatch : e.accepts symbol with
      | false =>
        refine ⟨L, m, if_neg (by simp [hmatch]), .unmatched ht fun symbol' h => ?_⟩
        obtain rfl : symbol = symbol' := by simpa [hlook] using h
        exact hmatch
      | true => exact ⟨_, _, if_pos hmatch, .matched hlook hmatch⟩
  match e with
  | .token text | .pattern p => exact hterminal rfl
  | .seq tag [] => exact ⟨_, _, finish_eq hmemo _, .empty hmemo⟩
  | .seq tag (child :: rest) => exact ⟨_, _, rfl, .sequence hgoal⟩
  | .alt tag children => exact ⟨_, _, rfl, .choice⟩
  | .rep tag child min max =>
    rw [expand_rep]
    rcases Nat.eq_zero_or_pos min with rfl | hmin
    · refine ⟨_, _, (if_pos rfl).trans (finish_eq ?_ _), .repetitionEmpty hgoal⟩
      exact Array.getElem?_push_size
    · exact ⟨_, _, if_neg (Nat.ne_of_gt hmin), .repetition hgoal (Nat.ne_of_gt hmin)⟩
  | .omitted child => exact ⟨_, _, rfl, .omitted⟩
  | .lexical child => exact ⟨_, _, rfl, .lexical⟩

namespace Sound

variable {g : Grammar} {w : List String} {L L' : Ledger} {m m' : Machine}

/-- A continuation of a choice can **always be resumed**: either it makes the first result, or it
joins one more alternative to it. -/
theorem exists_choice_outcome (h : Sound g w L m) (node : NodeId) {tag : Option String}
    {memo : MemoId} {goal goal' : Goal} (ha : Awaits g L (.choice tag memo) goal)
    (hmemo : L.goals[memo]? = some goal') :
    ∃ L' m', m.resume node (.choice tag memo) = .ok m' ∧
      Outcome g L m (.resume node (.choice tag memo)) L' m' := by
  obtain ⟨record, hrecord, hsound⟩ := h.exists_memo hmemo
  rw [resume_choice hrecord]
  cases hresult : record.resultAt m.position with
  | none => exact ⟨_, _, rfl, .choiceFirst hrecord hresult⟩
  | some existing =>
    by_cases hsame : existing = node
    · subst hsame
      exact ⟨_, _, if_pos rfl, .choiceSame hrecord hresult⟩
    · obtain ⟨alternatives, span, hnode⟩ :=
        h.choice_of_awaits ha (hsound.result_of_resultAt hresult)
      by_cases hmem : node ∈ alternatives
      · refine ⟨_, _, (if_neg hsame).trans ?_, .choiceKnown hrecord hresult hnode hmem⟩
        rw [join, hnode]
        exact if_pos (by simpa using hmem)
      · refine ⟨_, _, (if_neg hsame).trans ?_, .choiceJoined hrecord hresult hsame hnode hmem⟩
        rw [join, hnode]
        exact if_neg (by simpa using hmem)

/-- A task **has an outcome** if the expression that it derives is there. The expression is the one
thing that a table of the machine does not hold. -/
theorem exists_outcome_of_expr (h : Sound g w L m) {task : Task}
    (ht : SoundTask g L m.position task) (hexpr : ∀ next id, task = .derive next id →
      m.table[id]? = none → ∃ e, g.expr? id = some e) :
    ∃ L' m', step g m task = .ok m' ∧ Outcome g L m task L' m' := by
  -- every lookup of the step is one of something that the invariant says is there
  cases ht with
  | @derive next id ha =>
    cases htable : m.table[id]? with
    | some memo =>
      obtain ⟨record, hrecord, -⟩ := h.exists_memo (h.table id memo htable)
      refine ⟨_, _, ?_, .registered htable hrecord⟩
      rw [step, derive, htable]
      exact register_eq hrecord next
    | none =>
      obtain ⟨e, he⟩ := hexpr next id rfl htable
      have hmemo : (m.opened next id).memos[m.memos.size]? = some ⟨m.position, [next], none⟩ :=
        Array.getElem?_push_size
      have hgoal := h.goals_addGoal ⟨id, false, m.position⟩
      obtain ⟨L', m', hexpand, hexp⟩ := exists_expansion hmemo hgoal e
      refine ⟨L', m', ?_, .opened htable he hexp⟩
      rw [step, derive, htable, he]
      exact hexpand
  | @resume node next memo goal hresult hgoal ha =>
    rw [step]
    cases hawaits : ha with
    | accept =>
      rw [resume_accept]
      by_cases hroot : m.lookahead = none ∧ node ∉ m.roots
      · exact ⟨_, _, if_pos hroot, .accepted hroot.1 hroot.2⟩
      · exact ⟨_, _, if_neg hroot, .acceptedBefore fun hlook => by simpa [hlook] using hroot⟩
    | @sequence tag memo done ids child rest id start stop hmemo he hdone =>
      cases rest with
      | nil =>
        obtain ⟨record, hrecord, -⟩ := h.exists_memo hmemo
        exact ⟨_, _, finish_eq hrecord _, .sequenceDone hrecord⟩
      | cons child rest => exact ⟨_, _, rfl, .sequenceNext⟩
    | omitted hmemo he =>
      obtain ⟨record, hrecord, -⟩ := h.exists_memo hmemo
      exact ⟨_, _, finish_eq hrecord _, .omitted hrecord⟩
    | lexical hmemo he =>
      obtain ⟨record, hrecord, -⟩ := h.exists_memo hmemo
      exact ⟨_, _, finish_eq hrecord _, .lexical hrecord⟩
    | choice hmemo he hc => exact h.exists_choice_outcome node ha hmemo
    | inner hmemo he hinner => exact h.exists_choice_outcome node ha hmemo
    | @repetition tag memo done child min max id start stop hmemo he hdone hmax =>
      obtain ⟨record, hrecord, -⟩ := h.exists_memo hmemo
      obtain ⟨n, -, hnode, -⟩ := h.exists_node hresult
      rw [resume_repetition hrecord hnode]
      by_cases hmin : min ≤ done.length + 1
      · exact ⟨_, _, if_pos hmin, .repetitionLate hnode hmin hrecord⟩
      · exact ⟨_, _, if_neg hmin, .repetitionEarly hnode (by omega)⟩

/-- **A sound machine has an outcome** for each of its tasks, if the grammar is closed. So a sound
machine never comes upon a fault, whatever the input is. -/
theorem exists_outcome (hg : g.Closed) (h : Sound g w L m) {task : Task}
    (ht : SoundTask g L m.position task) :
    ∃ L' m', step g m task = .ok m' ∧ Outcome g L m task L' m' := by
  refine h.exists_outcome_of_expr ht ?_
  rintro next id rfl -
  cases ht with
  | derive ha => exact ha.exists_expr hg

/-- What **a step that succeeds** comes to is an outcome. With this a run that is given can be
followed without a closed grammar. -/
theorem exists_outcome_of_step (h : Sound g w L m) {task : Task}
    (ht : SoundTask g L m.position task) (hstep : step g m task = .ok m') :
    ∃ L', Outcome g L m task L' m' := by
  have hexpr : ∀ next id, task = .derive next id → m.table[id]? = none →
      ∃ e, g.expr? id = some e := by
    rintro next id rfl htable
    cases he : g.expr? id with
    | some e => exact ⟨e, rfl⟩
    | none =>
      rw [step, derive, htable, he] at hstep
      cases hstep
  obtain ⟨L', m₁, hstep', ho⟩ := h.exists_outcome_of_expr ht hexpr
  obtain rfl := Except.ok.inj (hstep.symm.trans hstep')
  exact ⟨L', ho⟩

/-- Expansions are **sound**. The ledger grows by a goal at most, or by the result for an empty
list. -/
theorem expansion (h : Sound g w L m) {id : MemoId} {goal : Goal} {e : Expr}
    (hgoal : L.goals[id]? = some goal) (hhere : goal = ⟨goal.expr, false, m.position⟩)
    (he : g.expr? goal.expr = some e) (hexp : Expansion L m id e L' m') :
    L.Grows L' ∧ Sound g w L' m' := by
  obtain ⟨expr, inner, start⟩ := goal
  obtain ⟨-, rfl, rfl⟩ := Goal.mk.inj hhere
  obtain ⟨memo, hmemo, hsound⟩ := h.exists_memo hgoal
  -- the inner goal, on which the next memo works
  have hinner : e.hasInner = true → Sound g w (L.addGoal ⟨expr, true, m.position⟩)
      (m.addMemo (.choice none id)).1 := fun hi =>
    h.addMemo rfl ⟨e, he⟩ (.inner ((L.grows_addGoal _).goal hgoal) he hi)
  have hnext := h.goals_addGoal ⟨expr, true, m.position⟩
  have hrep : ∀ {tag child min max}, e = .rep tag child min max →
      Sound g w (L.addGoal ⟨expr, true, m.position⟩)
        ((m.addMemo (.choice none id)).1.withTasks (if max = some 0 then []
          else [.derive (.repetition tag m.memos.size [] child 1 min max) child])) := by
    rintro tag child min max rfl
    refine (hinner rfl).withTasks fun task htask => ?_
    split at htask
    · simp at htask
    · next hmax =>
      obtain rfl := List.mem_singleton.mp htask
      refine .derive (@Awaits.repetition _ _ _ _ [] _ _ _ _ _ _ hnext he (.nil _) fun n hn => ?_)
      subst hn
      exact Nat.pos_of_ne_zero fun hzero => hmax (congrArg some hzero)
  cases hexp with
  | empty hrecord =>
    obtain rfl := Option.some.inj (hmemo.symm.trans hrecord)
    exact ⟨L.grows_addResult _ _, h.finishedWith hmemo hsound (.empty he)⟩
  | sequence hgoal' =>
    obtain rfl := Option.some.inj (hgoal.symm.trans hgoal')
    refine ⟨L.grows_addGoal _, (hinner rfl).withTasks fun task htask => ?_⟩
    obtain rfl := List.mem_singleton.mp htask
    exact .derive (@Awaits.sequence _ _ _ _ _ [] _ _ _ _ _ hnext he (.nil _))
  | choice =>
    refine ⟨.refl L, h.withTasks fun task htask => ?_⟩
    obtain ⟨child, hc, rfl⟩ := List.mem_map.mp htask
    exact .derive (.choice hgoal he hc)
  | repetition hgoal' hmin =>
    obtain rfl := Option.some.inj (hgoal.symm.trans hgoal')
    exact ⟨L.grows_addGoal _, hrep rfl⟩
  | repetitionEmpty hgoal' =>
    obtain rfl := Option.some.inj (hgoal.symm.trans hgoal')
    obtain ⟨memo', hmemo', hsound'⟩ := (hrep rfl).exists_memo hnext
    obtain rfl := Option.some.inj ((Array.getElem?_push_size).symm.trans hmemo')
    exact ⟨(L.grows_addGoal _).trans (Ledger.grows_addResult _ _ _),
      (hrep rfl).finishedWith hmemo' hsound'
      (.repetition he (.nil _) (Nat.le_refl 0) (by simp) (by simp))⟩
  | omitted =>
    refine ⟨.refl L, h.withTasks fun task htask => ?_⟩
    obtain rfl := List.mem_singleton.mp htask
    exact .derive (.omitted hgoal he)
  | lexical =>
    refine ⟨.refl L, h.withTasks fun task htask => ?_⟩
    obtain rfl := List.mem_singleton.mp htask
    exact .derive (.lexical hgoal he)
  | unmatched => exact ⟨.refl L, h⟩
  | matched hlook hmatch =>
    exact ⟨L.grows_addResult _ _, h.matchedWith hsound rfl he hlook hmatch⟩

/-- Results that cover a stretch in order **are there**. A node refers to older ones only, and these
are what it refers to. -/
theorem old_of_covers (h : Sound g w L m) {nodes : List NodeId} {ids : List ExprId}
    {start stop : Nat} (hc : L.Covers nodes ids start stop) : ∀ c ∈ nodes, c < m.nodes.size := by
  intro c hmem
  obtain ⟨goal, stop, hresult⟩ := hc.result_of_mem hmem
  exact h.lt_of_result hresult

/-- What a repetition's continuation **goes on to await**. -/
theorem soundTask_repetition {tag : Option String} {memo : MemoId}
    {done : List NodeId} {child : ExprId} {count min : Nat} {max : Option Nat} {goal : Goal}
    (ha : Awaits g L (.repetition tag memo done child count min max) goal) {node : NodeId}
    (hnode : L.Result node goal m.position) (hmax : max.all (count < ·) = true) :
    SoundTask g L m.position
      (.derive (.repetition tag memo (node :: done) child (count + 1) min max) child) := by
  cases ha with
  | repetition hmemo he hdone _ =>
    refine .derive
      (@Awaits.repetition _ _ _ _ (node :: done) _ _ _ _ _ _ hmemo he ?_ fun n hn => ?_)
    · rw [List.reverse_cons, List.length_cons, List.replicate_succ']
      exact hdone.snoc hnode
    · subst hn
      have hlt : done.length + 1 < n := by simpa using hmax
      rw [List.length_cons]
      exact hlt

/-- What a sequence's continuation **goes on to await**. The part that is done is one longer, and
covers the input up to here. -/
theorem soundTask_sequence {tag : Option String} {memo : MemoId} {done : List NodeId}
    {child : ExprId} {rest : List ExprId} {goal : Goal}
    (ha : Awaits g L (.sequence tag memo done (child :: rest)) goal) {node : NodeId}
    (hnode : L.Result node goal m.position) :
    SoundTask g L m.position (.derive (.sequence tag memo (node :: done) rest) child) := by
  cases ha with
  | sequence hmemo he hdone =>
    have hcovers := hdone.snoc hnode
    rw [← List.reverse_cons] at hcovers
    exact .derive (.sequence hmemo (by simpa using he) hcovers)

/-- What a sequence's continuation **makes of the last part**. With no part left to come, what is
done is the whole sequence. -/
theorem explains_sequence (h : Sound g w L m) {tag : Option String} {memo : MemoId}
    {done : List NodeId} {goal : Goal} (ha : Awaits g L (.sequence tag memo done []) goal)
    {node : NodeId} (hnode : L.Result node goal m.position) :
    ∃ goal', L.goals[memo]? = some goal' ∧
      Explains g w L m.nodes.size (.sequence tag (node :: done).reverse) goal' m.position := by
  cases ha with
  | @sequence _ _ _ ids child rest id start stop hmemo he hdone =>
    have hcovers := hdone.snoc hnode
    have hold := h.old_of_covers hcovers
    rw [← List.reverse_cons] at hcovers hold
    refine ⟨_, hmemo, ?_⟩
    cases ids with
    | nil => exact .sequence he hcovers hold
    | cons id ids => exact .sequence he hcovers hold

/-- What a repetition's continuation **makes of the iterations** so far. Their number is between the
bounds, or the repetition would not be finished here. -/
theorem explains_repetition (h : Sound g w L m) {tag : Option String} {memo : MemoId}
    {done : List NodeId} {child : ExprId} {count min : Nat} {max : Option Nat} {goal : Goal}
    (ha : Awaits g L (.repetition tag memo done child count min max) goal) {node : NodeId}
    (hnode : L.Result node goal m.position) (hmin : min ≤ count) :
    ∃ goal', L.goals[memo]? = some goal' ∧
      Explains g w L m.nodes.size (.sequence tag (node :: done).reverse) goal' m.position := by
  cases ha with
  | repetition hmemo he hdone hmax =>
    have hcovers := hdone.snoc hnode
    have hold := h.old_of_covers hcovers
    rw [← List.reverse_cons] at hcovers hold
    refine ⟨_, hmemo, .repetition he ?_ (by simpa using hmin) (fun n hn => by simpa using hmax n hn)
      hold⟩
    rwa [List.length_reverse, List.length_cons, List.replicate_succ']

/-- What a choice's continuation **makes of the first alternative**. Later ones are joined to the
same node. -/
theorem explains_choice (h : Sound g w L m) {tag : Option String} {memo : MemoId} {goal : Goal}
    (ha : Awaits g L (.choice tag memo) goal) {node : NodeId}
    (hnode : L.Result node goal m.position) :
    ∃ goal', L.goals[memo]? = some goal' ∧
      Explains g w L m.nodes.size (.choice tag [node]) goal' m.position := by
  have hlt := h.lt_of_result hnode
  cases ha with
  | choice hmemo he hc =>
    exact ⟨_, hmemo, .choice he (List.forall_mem_singleton.mpr ⟨_, hc, hnode⟩) hlt⟩
  | inner hmemo he hinner =>
    exact ⟨_, hmemo, .inner he hinner (List.forall_mem_singleton.mpr hnode) hlt⟩

/-- What holds of the alternatives so far and of a node **holds of the alternatives with it**. -/
theorem forall_mem_later {first node : NodeId} {more : List NodeId} {p : NodeId → Prop}
    (hmore : ∀ a ∈ first :: more, p a) (hp : p node) : ∀ a ∈ first :: (more ++ [node]), p a := by
  rw [← List.cons_append]
  exact List.forall_mem_append.mpr ⟨hmore, List.forall_mem_singleton.mpr hp⟩

/-- A choice is explained with **one more alternative**. -/
theorem explains_joined {tag tag' : Option String} {memo : MemoId} {goal goal' : Goal}
    (ha : Awaits g L (.choice tag memo) goal) {node existing : NodeId} {stop : Nat}
    (hnode : L.Result node goal stop) (hmemo : L.goals[memo]? = some goal') {as : List NodeId}
    (hexplained : Explains g w L existing (.choice tag' as) goal' stop) :
    Explains g w L existing (.choice tag' (as ++ [node])) goal' stop := by
  cases ha with
  | choice hmemo' he hc =>
    obtain rfl := Option.some.inj (hmemo'.symm.trans hmemo)
    cases hexplained with
    | choice he' hresults hold =>
      obtain ⟨-, rfl⟩ := Expr.alt.inj (Option.some.inj (he.symm.trans he'))
      exact .choice he' (forall_mem_later hresults ⟨_, hc, hnode⟩) hold
    | inner he' hinner =>
      cases he.symm.trans he'
      cases hinner
  | inner hmemo' he hinner =>
    obtain rfl := Option.some.inj (hmemo'.symm.trans hmemo)
    cases hexplained with
    | choice he' =>
      cases he.symm.trans he'
      cases hinner
    | inner he' hinner' hresults hold =>
      exact .inner he' hinner' (forall_mem_later hresults hnode) hold

/-- A memo may be finished with **what is explained**. -/
theorem finished (h : Sound g w L m) {id : MemoId} {memo : Memo} {kind : Forest.Kind}
    (hrecord : m.memos[id]? = some memo) (hexplained : ∃ goal, L.goals[id]? = some goal ∧
      Explains g w L m.nodes.size kind goal m.position) :
    L.Grows (L.addResult id m.position) ∧
      Sound g w (L.addResult id m.position) (m.finishedWith id memo kind) := by
  obtain ⟨goal, hgoal, hexplained⟩ := hexplained
  exact ⟨L.grows_addResult id m.position,
    h.finishedWith hrecord (h.soundMemo hrecord hgoal) hexplained⟩

/-- **Outcomes are sound.** -/
theorem outcome (h : Sound g w L m) {task : Task} (ht : SoundTask g L m.position task)
    (ho : Outcome g L m task L' m') : L.Grows L' ∧ Sound g w L' m' := by
  cases ht with
  | @derive next id ha =>
    cases ho with
    | registered htable hrecord =>
      exact ⟨.refl L, h.registeredWith hrecord (h.soundMemo hrecord (h.table _ _ htable)) rfl ha⟩
    | opened htable he hexp =>
      have hgoal := h.goals_addGoal ⟨id, false, m.position⟩
      obtain ⟨hgrows, hsound⟩ := (h.opened ⟨_, he⟩ ha).expansion hgoal rfl he hexp
      exact ⟨(L.grows_addGoal _).trans hgrows, hsound⟩
  | @resume node next memo goal hresult hgoal ha =>
    have hnode : L.Result node goal m.position := ⟨memo, hresult, hgoal⟩
    have hlt := h.lt_of_result hnode
    cases ho with
    | accepted hlook hroot =>
      cases ha
      exact ⟨.refl L, h.withRoot hnode hlook⟩
    | acceptedBefore | choiceSame | choiceKnown => exact ⟨.refl L, h⟩
    | sequenceDone hrecord => exact h.finished hrecord (h.explains_sequence ha hnode)
    | sequenceNext =>
      exact ⟨.refl L, h.withTasks (List.forall_mem_singleton.mpr (soundTask_sequence ha hnode))⟩
    | choiceFirst hrecord hresult => exact h.finished hrecord (h.explains_choice ha hnode)
    | @choiceJoined _ _ _ _ memo record _ _ hrecord hresult hne hexisting hmem =>
      -- the choice is the result of the memo here, and it was explained by the alternatives so far
      refine ⟨.refl L, h.joinedWith hexisting fun memo' goal' stop hsound => ?_⟩
      obtain ⟨_, hmemo⟩ := h.memo memo record hrecord
      obtain ⟨rfl, rfl⟩ := Prod.mk.inj (Option.some.inj (hsound.result.symm.trans
        (hmemo.result_of_resultAt hresult)))
      exact explains_joined ha hnode hsound.works hsound.explained
    | repetitionEarly hn hmin =>
      refine ⟨.refl L, h.withTasks fun task htask => ?_⟩
      split at htask
      · next hmax => exact List.mem_singleton.mp htask ▸ soundTask_repetition ha hnode hmax
      · cases htask
    | @repetitionLate node tag memo done child count min max n record hn hmin hrecord =>
      -- first the next iteration is asked for, and then the list so far is made a result
      have htasks : Sound g w L (m.withTasks (if max.all (count < ·) && !n.span.isEmpty then
          [.derive (.repetition tag memo (node :: done) child (count + 1) min max) child]
          else [])) := by
        refine h.withTasks fun task htask => ?_
        split at htask
        · next hmax =>
          exact List.mem_singleton.mp htask ▸
            soundTask_repetition ha hnode (Bool.and_eq_true_iff.mp hmax).1
        · cases htask
      exact htasks.finished hrecord (h.explains_repetition ha hnode hmin)
    | omitted hrecord =>
      cases ha with
      | omitted hmemo he => exact h.finished hrecord ⟨_, hmemo, .omitted he hnode hlt⟩
    | lexical hrecord =>
      cases ha with
      | lexical hmemo he => exact h.finished hrecord ⟨_, hmemo, .lexical he hnode hlt⟩

end Sound

end Machine

end GeneralParsing
