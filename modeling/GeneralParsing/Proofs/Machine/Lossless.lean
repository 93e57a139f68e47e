import GeneralParsing.Proofs.Machine.Exhaustive

/-!
# Steps lose nothing

Every outcome of a step keeps the machine exhaustive (`Exhaustive.outcome`). New results and newly
registered continuations meet in tasks, a new memo asks for what its expression needs, and the task
itself has been done.
-/

namespace GeneralParsing

namespace Machine

variable {g : Grammar} {w : List String} {L L' : Ledger} {m m' : Machine} {extra : List Task}
variable {waiting waiting' : List (NodeId × MemoId)} {id : MemoId} {memo : Memo} {e : Expr}
variable {next : Continuation} {node : NodeId}

/-! ### Results and continuations meet -/

namespace AllDelivered

/-- What is delivered stays so; what is new **has to be a task**. The other lemmas of this kind say
which continuations and results a move makes, and so what it owes. -/
theorem proceed (h : AllDelivered w L m (extra ++ m.tasks) waiting) (hp : Proceeds L m L' m')
    (hnew : ∀ (node : NodeId) id stop next, L'.results[node]? = some (id, stop) →
      (node, id) ∉ waiting' → m'.Hands id next →
        (L.results[node]? = some (id, stop) ∧ (node, id) ∉ waiting ∧ m.Hands id next) ∨
          stop = m'.position ∧ .resume node next ∈ m'.tasks) :
    AllDelivered w L' m' (extra ++ m'.tasks) waiting' := by
  intro node id stop next hresult hwait hhands
  rcases hnew node id stop next hresult hwait hhands with ⟨hold, hwait', hhands'⟩ | ⟨hstop, htask⟩
  · exact (h node id stop next hold hwait' hhands').mono hp
  · exact .inr ⟨hstop, List.mem_append_right _ htask⟩

/-- Nothing is new when **no memo and no result** is. Steps that only give out tasks are of this
kind. -/
theorem same (h : AllDelivered w L m (extra ++ m.tasks) waiting) (hp : Proceeds L m L' m')
    (hresults : L'.results = L.results) (hmemos : m'.memos = m.memos) :
    AllDelivered w L' m' (extra ++ m'.tasks) waiting :=
  h.proceed hp fun node id stop next hresult hwait hhands =>
    .inl ⟨hresults ▸ hresult, hwait, by rwa [Hands, ← hmemos]⟩

/-- New tasks **take no result away**. -/
theorem withTasks (h : AllDelivered w L m (extra ++ m.tasks) waiting) (tasks : List Task) :
    AllDelivered w L (m.withTasks tasks) (extra ++ (m.withTasks tasks).tasks) waiting :=
  h.same (proceeds_withTasks L m tasks) rfl rfl

/-- A new memo has **no results to be handed on**. -/
theorem addMemo (hs : Sound g w L m) (h : AllDelivered w L m (extra ++ m.tasks) waiting)
    (hp : Proceeds L m L' m') (hresults : L'.results = L.results)
    (hmemos : m'.memos = (m.addMemo next).1.memos) :
    AllDelivered w L' m' (extra ++ m'.tasks) waiting := by
  refine h.proceed hp fun node id stop k hresult hwait hhands =>
    .inl ⟨hresults ▸ hresult, hwait, ?_⟩
  obtain ⟨memo, hmemo, hmem⟩ := hhands
  have hlt := hs.lt_of_results (hresults ▸ hresult)
  rw [hs.goals_size] at hlt
  rw [hmemos] at hmemo
  change (m.memos.push _)[id]? = some memo at hmemo
  rw [Array.getElem?_push, if_neg (Nat.ne_of_lt hlt)] at hmemo
  exact ⟨memo, hmemo, hmem⟩

/-- After a memo is replaced **its parents** are those of the new one. -/
theorem hands_of_setIfInBounds {memo' : Memo} {i : MemoId} {k : Continuation}
    (hmemos : m'.memos = m.memos.setIfInBounds id memo') (hk : m'.Hands i k) :
    (id = i ∧ k ∈ memo'.parents) ∨ (id ≠ i ∧ m.Hands i k) := by
  obtain ⟨record, hrecord, hmem⟩ := hk
  rw [hmemos, Array.getElem?_setIfInBounds] at hrecord
  split at hrecord
  · next hid =>
    split at hrecord
    · obtain rfl := Option.some.inj hrecord
      exact .inl ⟨hid, hmem⟩
    · cases hrecord
  · next hid => exact .inr ⟨hid, record, hrecord, hmem⟩

/-- Who registers is **served with the result here**, and there are no others. What ended earlier
cannot be meant for it, as the memo is one of this position. -/
theorem registeredWith (h : AllDelivered w L m (extra ++ m.tasks) waiting)
    (hmemo : m.memos[id]? = some memo)
    (hhere : ∀ (node : NodeId) stop, L.results[node]? = some (id, stop) → (node, id) ∉ waiting →
      stop = m.position ∧ memo.resultAt m.position = some node) (next : Continuation) :
    AllDelivered w L (m.registeredWith id memo next)
      (extra ++ (m.registeredWith id memo next).tasks) waiting := by
  refine h.proceed (proceeds_registeredWith L hmemo next) fun node i stop k hresult hwait hk => ?_
  rcases hands_of_setIfInBounds rfl hk with ⟨rfl, hmem⟩ | ⟨-, hk⟩
  · rcases List.mem_cons.mp hmem with rfl | hmem
    · obtain ⟨hstop, hnode⟩ := hhere node stop hresult hwait
      refine .inr ⟨hstop, List.mem_append_left _ ?_⟩
      rw [hnode]
      exact List.mem_singleton_self _
    · exact .inl ⟨hresult, hwait, memo, hmemo, hmem⟩
  · exact .inl ⟨hresult, hwait, hk⟩

/-- A result that waited, or a new one, is **handed to every parent**. The parents are those that
the memo has now; a later one is served when it registers. -/
theorem completedWith (h : AllDelivered w L m (extra ++ m.tasks) ((node, id) :: waiting))
    (hmemo : m.memos[id]? = some memo) (hnode : L.results[node]? = some (id, m.position)) :
    AllDelivered w L (m.completedWith id memo node)
      (extra ++ (m.completedWith id memo node).tasks) waiting := by
  refine h.proceed (proceeds_completedWith L hmemo node) fun n i stop k hresult hwait hk => ?_
  have hhands : m.Hands i k := by
    rcases hands_of_setIfInBounds rfl hk with ⟨rfl, hmem⟩ | ⟨-, hk⟩
    · exact ⟨memo, hmemo, hmem⟩
    · exact hk
  by_cases hnew : (n, i) = (node, id)
  · obtain ⟨rfl, rfl⟩ := Prod.mk.inj hnew
    obtain ⟨record, hrecord, hmem⟩ := hhands
    obtain rfl := Option.some.inj (hmemo.symm.trans hrecord)
    refine .inr ⟨(Prod.mk.inj (Option.some.inj (hresult.symm.trans hnode))).2, ?_⟩
    exact List.mem_append_left _ (List.mem_map.mpr ⟨k, List.mem_reverse.mpr hmem, rfl⟩)
  · exact .inl ⟨hresult, fun hmem => (List.mem_cons.mp hmem).elim hnew hwait, hhands⟩

/-- A new node **waits** until it is recorded. -/
theorem addNode (h : AllDelivered w L m (extra ++ m.tasks) waiting)
    (hsize : L.results.size = m.nodes.size) (stop : Nat) (kind : Forest.Kind)
    (span : Span) : AllDelivered w (L.addResult id stop) (m.addNode kind span).1
      (extra ++ (m.addNode kind span).1.tasks) ((m.nodes.size, id) :: waiting) := by
  refine h.proceed (proceeds_addNode L m id stop kind span) fun n i stop k hresult hwait hk => ?_
  rcases Ledger.getElem?_addResult.mp hresult with ⟨rfl, heq⟩ | hold
  · obtain ⟨rfl, -⟩ := Prod.mk.inj heq
    rw [hsize] at hwait
    exact absurd List.mem_cons_self hwait
  · exact .inl ⟨hold, fun hmem => hwait (List.mem_cons_of_mem _ hmem), hk⟩

/-- A first result of a memo is **handed to all its continuations** by tasks of their own. The new
result never waits, so it is due at once. -/
theorem finishedWith (h : AllDelivered w L m (extra ++ m.tasks) waiting)
    (hsize : L.results.size = m.nodes.size) (hmemo : m.memos[id]? = some memo)
    (kind : Forest.Kind) : AllDelivered w (L.addResult id m.position) (m.finishedWith id memo kind)
      (extra ++ (m.finishedWith id memo kind).tasks) waiting :=
  (h.addNode hsize m.position kind ⟨memo.start, m.position⟩).completedWith hmemo
    (Ledger.results_addResult_of_size hsize id m.position)

/-- When an expression is expanded **no result is lost**, whichever kind it is: new memos have none
yet, and an empty iteration is handed on at once. -/
theorem expansion (hs : Sound g w L m) (h : AllDelivered w L m (extra ++ m.tasks) m.matched)
    (hexp : Expansion L m id e L' m') :
    AllDelivered w L' m' (extra ++ m'.tasks) m'.matched := by
  have hp := proceeds_expansion hexp
  cases hexp with
  | empty hrecord => exact h.finishedWith hs.results_size hrecord _
  | sequence | repetition => exact h.addMemo hs hp rfl rfl
  | @repetitionEmpty tag child max goal =>
    have hadd : AllDelivered w (L.addGoal { goal with inner := true })
        (m.addMemo (.choice none id)).1 (extra ++
          (m.addMemo (.choice none id)).1.tasks) m.matched :=
      h.addMemo hs (proceeds_addMemo L m _ _) rfl rfl
    exact (hadd.withTasks _).finishedWith hs.results_size Array.getElem?_push_size _
  | choice | omitted | lexical => exact h.same hp rfl rfl
  | unmatched => exact h
  | matched => exact h.addNode hs.results_size _ _ _

/-- Whatever comes of a task, **no result is lost**. With the task taken off, what it owed is either
done or owed by the tasks that came of it. -/
theorem outcome (hs : Sound g w L m) (hu : Unique L m m.matched) {task : Task}
    (ht : SoundTask g L m.position task) (h : AllDelivered w L m (extra ++ m.tasks) m.matched)
    (ho : Outcome g L m task L' m') : AllDelivered w L' m' (extra ++ m'.tasks) m'.matched := by
  have hp := proceeds_outcome ho
  cases ho with
  | @registered next id memo record htable hrecord =>
    have hworks := hs.table id memo htable
    refine h.registeredWith hrecord (fun node stop hresult hwait => ?_) next
    -- the memo was opened here, so its results are here
    obtain ⟨n, goal, -, hsound⟩ := hs.exists_node hresult
    obtain rfl := Option.some.inj (hworks.symm.trans hsound.works)
    obtain rfl : stop = m.position :=
      Nat.le_antisymm (hu.past node memo stop hresult hwait) hsound.start_le
    have hhere := hu.here node memo ⟨hresult, _, _, hworks⟩ hwait
    rw [resultHere_of_memo hrecord] at hhere
    exact ⟨rfl, hhere⟩
  | @opened next id e _ _ htable he hexp =>
    cases ht with
    | derive ha =>
      exact (h.addMemo hs (proceeds_opened L m _ next id) rfl rfl).expansion
        (hs.opened ⟨e, he⟩ ha) hexp
  | acceptedBefore | choiceSame | choiceKnown => exact h
  | accepted | sequenceNext | choiceJoined | repetitionEarly => exact h.same hp rfl rfl
  | sequenceDone hrecord | choiceFirst hrecord | omitted hrecord | lexical hrecord =>
    exact h.finishedWith hs.results_size hrecord _
  | repetitionLate hn hmin hrecord =>
    exact (h.withTasks _).finishedWith hs.results_size hrecord _

end AllDelivered

/-! ### The task has been done -/

/-- A new node **is a result** of its memo. -/
theorem made_addNode (hsize : L.results.size = m.nodes.size) (id : MemoId) (stop : Nat)
    (kind : Forest.Kind) (span : Span) :
    Made (L.addResult id stop) (m.addNode kind span).1 id stop kind :=
  ⟨m.nodes.size, span, Ledger.results_addResult_of_size hsize id stop,
    Array.getElem?_push_size⟩

theorem made_finishedWith (hsize : L.results.size = m.nodes.size) (id : MemoId) (memo : Memo)
    (kind : Forest.Kind) :
    Made (L.addResult id m.position) (m.finishedWith id memo kind) id m.position kind :=
  made_addNode hsize id m.position kind ⟨memo.start, m.position⟩

/-- A memo hands its results to **the continuation it has got**. -/
theorem hands_registeredWith (hmemo : m.memos[id]? = some memo) (next : Continuation) :
    (m.registeredWith id memo next).Hands id next := by
  refine ⟨{ memo with parents := next :: memo.parents }, ?_, List.mem_cons_self⟩
  rw [Machine.registeredWith, Array.getElem?_setIfInBounds_self,
    if_pos (Array.getElem?_eq_some_iff.mp hmemo).1]

theorem hands_addMemo (m : Machine) (next : Continuation) :
    (m.addMemo next).1.Hands m.memos.size next :=
  ⟨⟨m.position, [next], none⟩, Array.getElem?_push_size, List.mem_singleton_self next⟩

/-- What a task is to derive **is wanted**. It counts as wanted until the task is done, and the memo
that is opened then takes over. -/
theorem wanted_withTasks (L : Ledger) (m : Machine) {next : Continuation} {expr : ExprId}
    {tasks : List Task} (h : .derive next expr ∈ tasks) :
    Wanted L (m.withTasks tasks) (m.withTasks tasks).tasks next expr m.position :=
  .inr ⟨rfl, List.mem_append_left m.tasks h⟩

/-- **The task of a step** has been done after it. This is why the tasks need not be remembered:
once there is none left, everything is done. -/
theorem done_outcome (hs : Sound g w L m) {task : Task} (ho : Outcome g L m task L' m') :
    Done w L' m' m'.tasks task := by
  cases ho with
  | @registered next id memo record htable hrecord =>
    exact ⟨memo, hs.table id memo htable, hands_registeredWith hrecord next⟩
  | @opened next id e _ _ htable he hexp =>
    have hp := proceeds_expansion hexp
    have hposition : m'.position = m.position := hp.position
    refine ⟨m.memos.size, ?_, hp.hands _ _ (hands_addMemo m next)⟩
    rw [hposition]
    exact hp.grows.goal (hs.goals_addGoal _)
  | accepted => exact fun _ => List.mem_append_right _ (List.mem_singleton_self _)
  -- a root that is there already, or input that is left: nothing to be done
  | acceptedBefore hroot =>
    intro hstop
    refine hroot ?_
    rw [hs.lookahead, hstop, List.getElem?_eq_none (Nat.le_refl _)]
  | sequenceDone => exact made_finishedWith hs.results_size _ _ _
  | sequenceNext => exact wanted_withTasks L m (List.mem_singleton_self _)
  -- the alternative is among those of the result of its memo here
  | choiceFirst =>
    obtain ⟨choice, span, hresult, hnode⟩ := made_finishedWith hs.results_size _ _ _
    exact ⟨choice, hresult, .inr ⟨_, _, span, hnode, List.mem_singleton_self _⟩⟩
  | choiceSame hrecord hresult =>
    obtain ⟨goal, hsound⟩ := hs.memo _ _ hrecord
    exact ⟨_, hsound.result_of_resultAt hresult, .inl rfl⟩
  | choiceKnown hrecord hresult hnode hmem =>
    obtain ⟨goal, hsound⟩ := hs.memo _ _ hrecord
    exact ⟨_, hsound.result_of_resultAt hresult, .inr ⟨_, _, _, hnode, hmem⟩⟩
  | @choiceJoined node existing _ tag _ _ alternatives span hrecord hresult hne hnode hmem =>
    obtain ⟨goal, hsound⟩ := hs.memo _ _ hrecord
    refine ⟨existing, hsound.result_of_resultAt hresult,
      .inr ⟨tag, alternatives ++ [node], span, ?_,
      List.mem_append_right _ (List.mem_singleton_self _)⟩⟩
    rw [Machine.joinedWith, Array.getElem?_setIfInBounds_self,
      if_pos (Array.getElem?_eq_some_iff.mp hnode).1]
  | repetitionEarly hn hmin =>
    refine ⟨fun h => absurd h (Nat.not_le_of_lt hmin), fun hmax _ => wanted_withTasks L m ?_⟩
    rw [if_pos hmax]
    exact List.mem_singleton_self _
  | repetitionLate hn hmin hrecord =>
    refine ⟨fun _ => made_finishedWith (m := m.withTasks _) hs.results_size _ _ _,
      fun hmax hsolid => .inr ⟨rfl, List.mem_append_right _ (List.mem_append_left _ ?_)⟩⟩
    have hempty := hsolid hmin _ (getElem?_push_of_some hn)
    rw [hmax, hempty]
    exact List.mem_singleton_self _
  | omitted | lexical => exact made_finishedWith hs.results_size _ _ _

/-! ### New memos ask for what they need -/

/-- A terminal asks for **no other expression**: it matches the symbol there or is done. -/
theorem expanded_of_isTerminal {due : List Task} {expr : ExprId} {start : Nat}
    (he : e.isTerminal = true) (h : ∀ symbol, w[start]? = some symbol → e.accepts symbol = true →
      Made L m id (start + 1) (.symbol symbol)) : Expanded w L m due id expr start e := by
  cases e with
  | token | pattern => exact h
  | _ => cases he

/-- **A memo that is opened** asks for all that its expression needs. A choice asks for its
alternatives, a sequence for its first part, and a repetition for one more unless it may not go on.
-/
theorem expanded_expansion (hs : Sound g w L m) {expr : ExprId}
    (hgoal : L.goals[id]? = some ⟨expr, false, m.position⟩) (hexp : Expansion L m id e L' m') :
    Expanded w L' m' m'.tasks id expr m.position e := by
  cases hexp with
  | empty => exact made_finishedWith hs.results_size _ _ _
  | sequence hgoal' =>
    obtain rfl := Option.some.inj (hgoal.symm.trans hgoal')
    exact ⟨m.memos.size, hs.goals_addGoal _, hands_addMemo m _,
      wanted_withTasks _ _ (List.mem_singleton_self _)⟩
  | choice => exact fun child hc => wanted_withTasks L m (List.mem_map.mpr ⟨child, hc, rfl⟩)
  | repetition hgoal' hmin =>
    obtain rfl := Option.some.inj (hgoal.symm.trans hgoal')
    refine ⟨m.memos.size, hs.goals_addGoal _, hands_addMemo m _, fun hmax => ?_,
      fun h => absurd h hmin⟩
    refine wanted_withTasks _ _ ?_
    rw [if_neg hmax]
    exact List.mem_singleton_self _
  | @repetitionEmpty tag _ _ _ hgoal' =>
    obtain rfl := Option.some.inj (hgoal.symm.trans hgoal')
    have hhands : ∀ tasks, (((m.addMemo (.choice none id)).1.withTasks tasks).finishedWith
        m.memos.size ⟨m.position, [.choice none id], none⟩ (.sequence tag [])).Hands m.memos.size
          (.choice none id) := fun tasks =>
      (proceeds_finishedWith (m := (m.addMemo (.choice none id)).1.withTasks tasks) L
        Array.getElem?_push_size _).hands _ _ (hands_addMemo m _)
    refine ⟨m.memos.size, hs.goals_addGoal _, hhands _, fun hmax => ?_,
      fun _ => made_finishedWith (m := (m.addMemo (.choice none id)).1.withTasks _)
        hs.results_size _ _ _⟩
    refine .inr ⟨rfl, List.mem_append_right _ (List.mem_append_left _ ?_)⟩
    rw [if_neg hmax]
    exact List.mem_singleton_self _
  | omitted | lexical => exact wanted_withTasks L m (List.mem_singleton_self _)
  | unmatched hterminal hmatch =>
    refine expanded_of_isTerminal hterminal fun symbol hw ha => ?_
    rw [hmatch symbol (hs.lookahead.trans hw)] at ha
    cases ha
  | matched hlook hmatch =>
    refine expanded_of_isTerminal (Expr.isTerminal_of_accepts hmatch) fun symbol hw _ => ?_
    obtain rfl := Option.some.inj (hlook.symm.trans (hs.lookahead.trans hw))
    exact made_addNode hs.results_size id _ _ ⟨m.position, m.position + 1⟩

/-! ### Nothing is lost -/

/-- **Outcomes are exhaustive.** So when no task is left, a memo has all the results that the
grammar gives it by this position. -/
theorem Exhaustive.outcome (hs : Sound g w L m) (hu : Unique L m m.matched) {task : Task}
    (ht : SoundTask g L m.position task) (h : Exhaustive g w L m (task :: m.tasks) m.matched)
    (ho : Outcome g L m task L' m') : Exhaustive g w L' m' m'.tasks m'.matched := by
  have hp := proceeds_outcome ho
  have hdelivered : AllDelivered w L m ([task] ++ m.tasks) m.matched := h.delivered
  have hwanted : ∀ next expr start, Wanted L m ([task] ++ m.tasks) next expr start →
      Wanted L' m' ([task] ++ m'.tasks) next expr start := fun _ _ _ => Wanted.mono hp
  refine Exhaustive.discharge (done_outcome hs ho)
    ⟨hdelivered.outcome hs hu ht ho, ?_, hwanted _ _ _ h.start⟩
  intro id expr start e hgoal he
  -- a goal that was there before stays expanded, since wanting is monotone
  have hold : L.goals[id]? = some ⟨expr, false, start⟩ → Expanded w L' m' (task :: m'.tasks) id expr
      start e := fun hgoal => (h.expanded id expr start e hgoal he).mono hp.toExtends hwanted
  cases task with
  | resume node next => exact hold (goals_resume ho ▸ hgoal)
  | derive next expr' =>
    cases ht with
    | derive ha =>
    cases ho with
    | registered => exact hold hgoal
    | @opened _ _ e' _ _ htable he' hexp =>
      have hgoal' := goals_expansion hexp hgoal
      change (L.goals.push _)[id]? = _ at hgoal'
      rcases getElem?_push_eq_some hgoal' with ⟨hid, heq⟩ | hgoal'
      · -- the new goal is the one just opened, and its expansion is this very step
        obtain rfl : id = m.memos.size := hid.trans hs.goals_size
        obtain ⟨rfl, -, rfl⟩ := Goal.mk.inj heq
        obtain rfl := Option.some.inj (he.symm.trans he')
        have hexpanded := expanded_expansion (hs.opened ⟨e, he⟩ ha) (hs.goals_addGoal _) hexp
        refine hexpanded.mono (.refl L' m') fun next expr start hwanted => ?_
        exact hwanted.imp_right fun hdue => ⟨hdue.1, List.mem_cons_of_mem _ hdue.2⟩
      · exact hold hgoal'

end Machine

end GeneralParsing
