import GeneralParsing.Proofs.Machine.Order

/-!
# Taking turns

The tasks of a machine are a stack, and the start puts its alternatives there in their order. If
the grammar has two sides and the start's early children come before its late ones
(`Grammar.Parted`), then **all that is done for the early side at a position is done before
anything is done for the late one**: what a task gives rise to takes its place on the stack, and is
done for the same side (`Pushes.on`). Moving on puts early tasks on top again, since the tables are
in order (`Ordered.recordAll`).

So the tables of every machine that is reached are in order (`Reached.takesTurns`). Of the start's
results this says that early alternatives are listed before late ones.
-/

namespace GeneralParsing

/-- Two sides in order: the start's **early children come before its late ones**. -/
structure Grammar.Parted (g : Grammar) (early late : ExprId → Prop) : Prop
    extends g.Apart early late where
  order : ∃ tag before after, g.expr? g.start = some (.alt tag (before ++ after)) ∧
    (∀ c ∈ before, early c) ∧ ∀ c ∈ after, late c

namespace Machine

/-- A task is done for a side, **or for the start**. -/
def On (g : Grammar) (L : Ledger) (side : ExprId → Prop) (task : Task) : Prop :=
  task = .derive .accept g.start ∨ Serves g L side task

/-- Tasks of which **no late one comes before an early one**. -/
def InOrder (g : Grammar) (early late : ExprId → Prop) (L : Ledger) (tasks : List Task) : Prop :=
  tasks.Pairwise fun t t' => ¬ (On g L late t ∧ On g L early t')

/-- The expression of which a task **makes results**, if it is no terminal. -/
inductive Makes (g : Grammar) (L : Ledger) : Task → ExprId → Prop
  | derive {next : Continuation} {id : ExprId} {e : Expr} (he : g.expr? id = some e)
      (hterminal : e.isTerminal = false) : Makes g L (.derive next id) id
  | resume {node : NodeId} {next : Continuation} {memo : MemoId} {goal : Goal}
      (hmemo : next.memo? = some memo) (hgoal : L.goals[memo]? = some goal) :
      Makes g L (.resume node next) goal.expr

/-- A task is done only for sides **on which an expression is**. -/
def OnlyFor (g : Grammar) (L : Ledger) (id : ExprId) (task : Task) : Prop :=
  ∀ side, g.Side side → On g L side task → side id

/-- The tasks that a task **gives rise to**. -/
inductive Pushes (g : Grammar) (L L' : Ledger) : Task → List Task → Prop
  /-- Who registers late is served. -/
  | served {next : Continuation} {id : ExprId} {nodes : List NodeId} (hone : nodes.length ≤ 1)
      (hn : ∀ node ∈ nodes, ∃ start stop, L.Result node ⟨id, false, start⟩ stop) :
      Pushes g L L' (.derive next id) (nodes.map (.resume · next))
  /-- The alternatives of the start are asked for in order. -/
  | alternatives {next : Continuation} {tag : Option String} {ids : List ExprId} {memo : MemoId}
      {start : Nat} (he : g.expr? g.start = some (.alt tag ids))
      (hgoal : L'.goals[memo]? = some ⟨g.start, false, start⟩) :
      Pushes g L L' (.derive next g.start) (ids.map (.derive (.choice tag memo)))
  /-- Results are handed on, or parts are asked for. -/
  | within {task : Task} {id : ExprId} {tasks : List Task} (hmakes : Makes g L task id)
      (h : ∀ t ∈ tasks, OnlyFor g L' id t) : Pushes g L L' task tasks
  | none {task : Task} : Pushes g L L' task []

variable {g : Grammar} {w : List String} {early late side : ExprId → Prop}
variable {L L' : Ledger} {m m' : Machine} {id : ExprId} {goal : Goal} {task : Task}
variable {next : Continuation} {node : NodeId} {stop : Nat}

/-! ### For whom a task is done -/

theorem On.congr {position : Nat} (hgrows : L.Grows L') (ht : SoundTask g L position task) :
    On g L' side task ↔ On g L side task := by
  refine or_congr Iff.rfl ?_
  cases ht with
  | derive ha => exact Asks.congr hgrows ha
  | resume hresult hgoal ha =>
    have hn : L.Result _ _ position := ⟨_, hresult, hgoal⟩
    constructor
    · rintro ⟨goal', stop, hn', hasks⟩
      obtain ⟨rfl, -⟩ := (hn.mono hgrows).unique hn'
      exact ⟨_, _, hn, (Asks.congr hgrows ha).mp hasks⟩
    · rintro ⟨goal', stop, hn', hasks⟩
      obtain ⟨rfl, -⟩ := hn.unique hn'
      exact ⟨_, _, hn.mono hgrows, (Asks.congr hgrows ha).mpr hasks⟩

theorem onlyFor_derive {memo : MemoId} {child : ExprId} (hmemo : next.memo? = some memo)
    (hgoal : L.goals[memo]? = some goal) (hne : goal.expr ≠ g.start) :
    OnlyFor g L goal.expr (.derive next child) := by
  rintro side - (haccept | ⟨memo', goal', hmemo', hgoal', hside⟩)
  · obtain ⟨rfl, -⟩ := Task.derive.inj haccept
    cases hmemo
  · obtain rfl := Option.some.inj (hmemo.symm.trans hmemo')
    obtain rfl := Option.some.inj (hgoal.symm.trans hgoal')
    exact hside.resolve_right fun h => hne h.1

theorem onlyFor_resume (hn : L.Result node goal stop) (ha : Awaits g L next goal) :
    OnlyFor g L goal.expr (.resume node next) := by
  rintro side hs (haccept | ⟨goal', stop', hn', hasks⟩)
  · cases haccept
  · obtain ⟨rfl, -⟩ := hn.unique hn'
    exact side_of_asks hs ha hasks

/-- The start is asked for **by nobody** within the grammar. -/
theorem eq_accept_of_start (hp : g.Apart early late) (hsided : Sided g early late L)
    (ha : Awaits g L next goal) (hstart : goal.expr = g.start) : next = .accept := by
  by_contra hne
  rcases asks_or_asks hp hsided ha hne with hasks | hasks
  · exact hp.isSide.start (hstart ▸ side_of_asks hp.isSide ha hasks)
  · exact hp.isOther.start (hstart ▸ side_of_asks hp.isOther ha hasks)

/-- No task is done **for both sides**. -/
theorem not_serves_both {position : Nat} (hp : g.Apart early late)
    (ht : SoundTask g L position task) (h : Serves g L early task) : ¬ Serves g L late task := by
  intro h'
  cases ht with
  | derive ha => exact not_asks_both hp ha h h'
  | resume hresult hgoal ha =>
    have hn : L.Result _ _ position := ⟨_, hresult, hgoal⟩
    obtain ⟨goal, stop, hn₁, hasks⟩ := h
    obtain ⟨goal', stop', hn₂, hasks'⟩ := h'
    obtain ⟨rfl, -⟩ := hn.unique hn₁
    obtain ⟨rfl, -⟩ := hn.unique hn₂
    exact not_asks_both hp ha hasks hasks'

/-- A task that makes results of an expression on a side **is done for that side**. -/
theorem Makes.on {other : ExprId → Prop} {position : Nat} (hp : g.Apart side other)
    (hsided : Sided g side other L) (ht : SoundTask g L position task) (hm : Makes g L task id)
    (hside : side id) : On g L side task := by
  cases hm with
  | @derive next id e he hterminal =>
    cases ht with
    | derive ha =>
      refine .inr (asks_of_side hp hsided ha hside fun hother => ?_)
      rw [hp.terminal id e hside hother he] at hterminal
      cases hterminal
  | @resume node next memo goal' hmemo hgoal' =>
    cases ht with
    | resume hresult hgoal ha =>
      exact .inr ⟨_, _, ⟨_, hresult, hgoal⟩, _, _, hmemo, hgoal', .inl hside⟩

/-- Results are made of expressions that are **on one side only**. -/
theorem Makes.not_both {position : Nat} (hp : g.Apart early late)
    (ht : SoundTask g L position task) (hm : Makes g L task id) : ¬ (late id ∧ early id) := by
  rintro ⟨hlate, hearly⟩
  cases hm with
  | derive he hterminal =>
    rw [hp.terminal _ _ hearly hlate he] at hterminal
    cases hterminal
  | resume hmemo hgoal' =>
    cases ht with
    | resume hresult hgoal ha =>
      obtain ⟨goal'', e, hgoal'', he, hterminal, -⟩ := ha.exists_maker hmemo
      obtain rfl := Option.some.inj (hgoal'.symm.trans hgoal'')
      rw [hp.terminal _ _ hearly hlate he] at hterminal
      cases hterminal

/-! ### What steps give rise to -/

/-- A result that is recorded is handed on **for the sides of its expression**. -/
theorem onlyFor_parents (hs : Sound g w L m) {id : MemoId} {memo : Memo}
    (hmemo : m.memos[id]? = some memo) (hgoal : L.goals[id]? = some goal) (hgrows : L.Grows L')
    (hresult : L'.results[node]? = some (id, stop)) :
    ∀ t ∈ memo.parents.reverse.map (.resume node), OnlyFor g L' goal.expr t := by
  intro t ht
  obtain ⟨k, hk, rfl⟩ := List.mem_map.mp ht
  exact onlyFor_resume ⟨id, hresult, hgrows.goal hgoal⟩
    (((hs.soundMemo hmemo hgoal).parents k (List.mem_reverse.mp hk)).mono hgrows)

/-- What an expansion gives rise to. -/
theorem exists_pushed_of_expansion {L₁ : Ledger} {memo : MemoId} {start : Nat} {e : Expr}
    (hs : Sound g w L₁ m) (hp : g.Apart early late)
    (hgoal : L₁.goals[memo]? = some ⟨id, false, start⟩) (he : g.expr? id = some e)
    (hexp : Expansion L₁ m memo e L' m') (L : Ledger) (next : Continuation) :
    ∃ tasks, m'.tasks = tasks ++ m.tasks ∧ Pushes g L L' (.derive next id) tasks := by
  have hgrows := (proceeds_expansion hexp).grows
  -- the inner memo makes results of the same expression
  have hinner : ∀ {goal}, L₁.goals[memo]? = some goal →
      (L₁.addGoal { goal with inner := true }).goals[m.memos.size]? = some ⟨id, true, start⟩ := by
    intro goal hgoal₁
    obtain rfl := Option.some.inj (hgoal.symm.trans hgoal₁)
    exact hs.goals_addGoal _
  cases hexp with
  | @empty tag record hrecord =>
    exact ⟨_, rfl, .within (.derive he rfl)
      (onlyFor_parents hs hrecord hgoal hgrows (hs.results_addResult memo m.position))⟩
  | sequence hgoal₁ =>
    refine ⟨[_], rfl, .within (.derive he rfl) (List.forall_mem_singleton.mpr ?_)⟩
    exact onlyFor_derive rfl (hinner hgoal₁) (hp.ne_start he nofun)
  | @choice tag ids =>
    by_cases hstart : id = g.start
    · subst hstart
      exact ⟨_, rfl, .alternatives he hgoal⟩
    · refine ⟨_, rfl, .within (.derive he rfl) fun t ht => ?_⟩
      obtain ⟨child, -, rfl⟩ := List.mem_map.mp ht
      exact onlyFor_derive rfl hgoal hstart
  | @repetition tag child min max goal hgoal₁ hmin =>
    refine ⟨_, rfl, .within (.derive he rfl) fun t ht => ?_⟩
    split at ht
    · cases ht
    · rw [List.mem_singleton.mp ht]
      exact onlyFor_derive rfl (hinner hgoal₁) (hp.ne_start he nofun)
  | @repetitionEmpty tag child max goal hgoal₁ =>
    refine ⟨[_] ++ (if max = some 0 then [] else [_]), (List.append_assoc _ _ _).symm,
      .within (.derive he rfl) (List.forall_mem_append.mpr ⟨?_, fun t ht => ?_⟩)⟩
    · refine List.forall_mem_singleton.mpr ?_
      change OnlyFor g _ (Goal.expr ⟨id, true, start⟩) _
      have hresult := (L₁.addGoal { goal with inner := true }).results_addResult_of_size
        hs.results_size m.memos.size m.position
      exact onlyFor_resume ⟨m.memos.size, hresult, hinner hgoal₁⟩
        (.inner (hgrows.goal hgoal) he rfl)
    · split at ht
      · cases ht
      · rw [List.mem_singleton.mp ht]
        exact onlyFor_derive rfl (hinner hgoal₁) (hp.ne_start he nofun)
  | omitted | lexical =>
    refine ⟨[_], rfl, .within (.derive he rfl) (List.forall_mem_singleton.mpr ?_)⟩
    exact onlyFor_derive rfl hgoal (hp.ne_start he nofun)
  | unmatched | matched => exact ⟨[], rfl, .none⟩

/-- A part or an iteration is asked for **on behalf of what it is part of**. -/
theorem onlyFor_part (hp : g.Apart early late) (hgrows : L.Grows L') {memo : MemoId} {e : Expr}
    (hmemo : next.memo? = some memo) (hgoal : L.goals[memo]? = some goal)
    (he : g.expr? goal.expr = some e) (hnot : ∀ tag ids, e ≠ .alt tag ids) (child : ExprId) :
    OnlyFor g L' goal.expr (.derive next child) :=
  onlyFor_derive hmemo (hgrows.goal hgoal) (hp.ne_start he hnot)

/-- A result that finishes a memo is handed on **to the parents of the memo**. -/
theorem pushes_finished (hs : Sound g w L m) (ha : Awaits g L next goal) {memo : MemoId}
    {record : Memo} (hmemo : next.memo? = some memo) (hrecord : m.memos[memo]? = some record) :
    Pushes g L (L.addResult memo m.position) (.resume node next)
      (record.parents.reverse.map (.resume m.nodes.size)) := by
  obtain ⟨goal', -, hgoal', -⟩ := ha.exists_maker hmemo
  exact .within (.resume hmemo hgoal') (onlyFor_parents hs hrecord hgoal' (L.grows_addResult _ _)
    (hs.results_addResult memo m.position))

/-- What a result gives rise to that is **handed to a continuation**. -/
theorem exists_pushed_of_resume (hs : Sound g w L m) (hp : g.Apart early late)
    (ha : Awaits g L next goal) (ho : Outcome g L m (.resume node next) L' m') :
    ∃ tasks, m'.tasks = tasks ++ m.tasks ∧ Pushes g L L' (.resume node next) tasks := by
  have hgrows := (proceeds_outcome ho).grows
  cases ho with
  | accepted | acceptedBefore | choiceSame | choiceKnown | choiceJoined => exact ⟨[], rfl, .none⟩
  | sequenceDone hrecord | choiceFirst hrecord | omitted hrecord | lexical hrecord =>
    exact ⟨_, rfl, pushes_finished hs ha rfl hrecord⟩
  | sequenceNext =>
    cases ha with
    | sequence hmemo he hdone =>
      exact ⟨[_], rfl, .within (.resume rfl hmemo)
        (List.forall_mem_singleton.mpr (onlyFor_part hp hgrows rfl hmemo he nofun _))⟩
  | repetitionEarly =>
    cases ha with
    | repetition hmemo he hdone hmax =>
      refine ⟨_, rfl, .within (.resume rfl hmemo) fun t ht => ?_⟩
      split at ht
      · rw [List.mem_singleton.mp ht]
        exact onlyFor_part hp hgrows rfl hmemo he nofun _
      · cases ht
  | @repetitionLate _ tag memo done child count min max n record hn hmin hrecord =>
    cases ha with
    | repetition hmemo he hdone hmax =>
      refine ⟨_ ++ _, (List.append_assoc _ _ _).symm, .within (.resume rfl hmemo)
        (List.forall_mem_append.mpr ⟨?_, fun t ht => ?_⟩)⟩
      · exact onlyFor_parents hs hrecord hmemo hgrows (hs.results_addResult memo m.position)
      · split at ht
        · rw [List.mem_singleton.mp ht]
          exact onlyFor_part hp hgrows rfl hmemo he nofun _
        · cases ht

/-- **What a step gives rise to** goes on top of the tasks. -/
theorem exists_pushed (hs : Sound g w L m) (hp : g.Apart early late)
    (ht : SoundTask g L m.position task) (ho : Outcome g L m task L' m') :
    ∃ tasks, m'.tasks = tasks ++ m.tasks ∧ Pushes g L L' task tasks := by
  cases ht with
  | @derive next id ha =>
    cases ho with
    | @registered _ _ memo record htable hrecord =>
      refine ⟨_, rfl, .served ?_ fun node hnode => ?_⟩
      · cases record.resultAt m.position <;> simp
      · have hgoal := hs.table id memo htable
        exact ⟨_, _, memo, (hs.soundMemo hrecord hgoal).result_of_resultAt
          (Option.mem_toList.mp hnode), hgoal⟩
    | opened htable he hexp =>
      have hnew := hs.goals_addGoal ⟨id, false, m.position⟩
      exact exists_pushed_of_expansion (hs.opened ⟨_, he⟩ ha) hp hnew he hexp L next
  | resume _ _ ha => exact exists_pushed_of_resume hs hp ha ho

/-! ### The order of tasks -/

/-- What a task gives rise to is done **for its own sides** only. -/
theorem Pushes.on {other : ExprId → Prop} (hp : g.Apart side other) (hsided : Sided g side other L)
    (hgrows : L.Grows L') {position : Nat} (ht : SoundTask g L position task) {tasks : List Task}
    (hpushes : Pushes g L L' task tasks) {t : Task} (hmem : t ∈ tasks) (hon : On g L' side t) :
    On g L side task := by
  cases hpushes with
  | served hone hn =>
    cases ht with
    | derive ha =>
      obtain ⟨node, hnode, rfl⟩ := List.mem_map.mp hmem
      obtain ⟨start, stop, hresult⟩ := hn node hnode
      rcases hon with haccept | ⟨goal, stop', hresult', hasks⟩
      · cases haccept
      · obtain ⟨rfl, -⟩ := (hresult.mono hgrows).unique hresult'
        exact .inr ((Asks.congr hgrows ha).mp hasks)
  | alternatives he hgoal =>
    cases ht with
    | derive ha => exact .inl (by rw [eq_accept_of_start hp hsided ha rfl])
  | within hmakes h => exact hmakes.on hp hsided ht (h t hmem side hp.isSide hon)
  | none => cases hmem

/-- What a task gives rise to **is in order**. Early tasks come to stand above late ones, so they
are done first. -/
theorem Pushes.inOrder (hp : g.Parted early late) {position : Nat}
    (ht : SoundTask g L position task) {tasks : List Task} (hpushes : Pushes g L L' task tasks) :
    InOrder g early late L' tasks := by
  cases hpushes with
  | @served next id nodes hone hn =>
    match nodes, hone with
    | [], _ => exact .nil
    | [node], _ => exact List.pairwise_singleton _ _
  | @alternatives next tag ids memo start he hgoal =>
    obtain ⟨tag', before, after, he', hbefore, hafter⟩ := hp.order
    obtain ⟨-, rfl⟩ := Expr.alt.inj (Option.some.inj (he.symm.trans he'))
    have hside : ∀ {side : ExprId → Prop} {c : ExprId}, g.Side side →
        On g L' side (.derive (.choice tag memo) c) → side c := by
      rintro side c hs (haccept | ⟨memo', goal', hmemo', hgoal', hside⟩)
      · cases haccept
      · obtain rfl := Option.some.inj hmemo'
        obtain rfl := Option.some.inj (hgoal.symm.trans hgoal')
        exact (hside.resolve_left hs.start).2
    have hone : ∀ c ∈ before ++ after, ¬ (early c ∧ late c) := fun c hc =>
      ((hp.child he).2 c hc).2
    refine List.pairwise_map.mpr (List.pairwise_append.mpr ⟨?_, ?_, ?_⟩)
    · refine List.pairwise_of_forall_mem_list fun c hc c' hc' hboth => ?_
      exact hone c (List.mem_append_left _ hc) ⟨hbefore c hc, hside hp.isOther hboth.1⟩
    · refine List.pairwise_of_forall_mem_list fun c hc c' hc' hboth => ?_
      exact hone c' (List.mem_append_right _ hc') ⟨hside hp.isSide hboth.2, hafter c' hc'⟩
    · intro c hc c' hc' hboth
      exact hone c (List.mem_append_left _ hc) ⟨hbefore c hc, hside hp.isOther hboth.1⟩
  | within hmakes h =>
    refine List.pairwise_of_forall_mem_list fun t hmem t' hmem' hboth => ?_
    exact hmakes.not_both hp.toApart ht
      ⟨h t hmem late hp.isOther hboth.1, h t' hmem' early hp.isSide hboth.2⟩
  | none => exact .nil

/-- The machine **takes turns**: its tasks and its tables are in order, and it is quiet as long as
there are early tasks. -/
structure TakesTurns (g : Grammar) (early late : ExprId → Prop) (L : Ledger) (m : Machine) :
    Prop where
  tasks : InOrder g early late L m.tasks
  tables : Ordered g early late (∃ t ∈ m.tasks, On g L early t) L m

/-- Order **depends on quiet times** only. -/
theorem Ordered.imp {quiet quiet' : Prop} (himp : quiet' → quiet)
    (h : Ordered g early late quiet L m) : Ordered g early late quiet' L m :=
  ⟨h.parents, h.matched, h.alternatives, fun hq => h.quietParents (himp hq),
    fun hq => h.quietMatched (himp hq), fun hq => h.quietAlternatives (himp hq)⟩

theorem Ordered.of_withTasks {quiet : Prop} {tasks : List Task}
    (h : Ordered g early late quiet L (m.withTasks tasks)) : Ordered g early late quiet L m :=
  ⟨h.parents, h.matched, h.alternatives, h.quietParents, h.quietMatched, h.quietAlternatives⟩

/-- **A step takes turns.** While an early task is left everything is quiet; afterwards there are
late tasks only. -/
theorem TakesTurns.outcome (hp : g.Parted early late)
    (hfaithful : Faithful g w L (m.withTasks [task]) m.matched)
    (ho : Outcome g L m task L' m') (h : TakesTurns g early late L (m.withTasks [task])) :
    TakesTurns g early late L' m' := by
  have hs := hfaithful.sound.of_withTasks
  have ht : SoundTask g L m.position task := hfaithful.sound.task task List.mem_cons_self
  have hsided : Sided g early late L := hfaithful.rooted.sided hp.toApart
  have hgrows := (proceeds_outcome ho).grows
  obtain ⟨pushed, hpushed, hpushes⟩ := exists_pushed hs hp.toApart ht ho
  obtain ⟨hfirst, hrest⟩ := List.pairwise_cons.mp h.tasks
  have hcongr : ∀ {side : ExprId → Prop}, ∀ t ∈ m.tasks, (On g L' side t ↔ On g L side t) :=
    fun t hmem => On.congr hgrows (hs.task t hmem)
  -- a task that is done for the early side is not done for the late side
  have hone : ∀ {t}, t = task → On g L early t → ¬ Serves g L late task := by
    rintro _ rfl (rfl | hearly)
    · rintro ⟨memo, _, hmemo, -⟩
      cases hmemo
    · exact not_serves_both hp.toApart ht hearly
  constructor
  · -- what is pushed is in order, and comes before the rest only if it may
    rw [hpushed]
    refine List.pairwise_append.mpr ⟨hpushes.inOrder hp ht, ?_, ?_⟩
    · refine hrest.imp_of_mem fun hmem hmem' hnot => ?_
      rwa [hcongr _ hmem, hcongr _ hmem']
    · rintro t hmem t' hmem' ⟨hlate, hearly⟩
      refine hfirst t' hmem' ⟨?_, (hcongr t' hmem').mp hearly⟩
      exact hpushes.on hp.toApart.symm hsided.symm hgrows ht hmem hlate
  · -- during the step it is quiet if there was an early task and this one is not late
    have hquiet : Ordered g early late
        ((∃ t ∈ task :: m.tasks, On g L early t) ∧ ¬ Serves g L late task) L m :=
      Ordered.of_withTasks (h.tables.imp And.left)
    refine (hquiet.outcome hs hfaithful.distinct.table hp.toApart hsided ht (fun hearly => ?_)
      And.right ho).imp ?_
    · exact ⟨⟨task, List.mem_cons_self, .inr hearly⟩, hone rfl (.inr hearly)⟩
    · rintro ⟨t, hmem, hearly⟩
      rw [hpushed] at hmem
      rcases List.mem_append.mp hmem with hmem | hmem
      · have htask := hpushes.on hp.toApart hsided hgrows ht hmem hearly
        exact ⟨⟨task, List.mem_cons_self, htask⟩, hone rfl htask⟩
      · rw [hcongr t hmem] at hearly
        exact ⟨⟨t, List.mem_cons_of_mem _ hmem, hearly⟩,
          fun hlate => hfirst t hmem ⟨.inr hlate, hearly⟩⟩

/-! ### Moving on -/

/-- Whom a result is handed to on behalf of a side **asks on its behalf**. -/
theorem asks_of_on {side : ExprId → Prop} (hn : L.Result node goal stop)
    (hon : On g L side (.resume node next)) : Asks g L side next goal.expr := by
  rcases hon with haccept | ⟨goal', stop', hn', hasks⟩
  · cases haccept
  · rwa [(hn.unique hn').1]

/-- **Nothing late** has been done at a position that has just been reached. The order of the tables
is kept, and it is quiet again. -/
theorem Ordered.nextPosition {quiet quiet' : Prop} (hfaithful : Faithful g w L m m.matched)
    (hp : g.Apart early late) (h : Ordered g early late quiet L m) (symbol : Option String) :
    Ordered g early late quiet' L (m.nextPosition symbol) where
  parents := h.parents
  matched := .nil
  alternatives := h.alternatives
  quietParents _ id memo goal hmemo hgoal hstart := by
    have hsound := hfaithful.sound.soundMemo hmemo hgoal
    have hle := hsound.start_le
    rw [hstart] at hle
    exact absurd hle (Nat.not_succ_le_self _)
  quietMatched _ p hmem := by cases hmem
  quietAlternatives _ node tag as span _ hn := by
    obtain ⟨memo, hresult, hgoal⟩ := hn
    by_cases hwait : (node, memo) ∈ m.matched
    · -- what waits is a terminal, and the start is none
      obtain ⟨-, expr, start, e, hgoal', he, hterminal⟩ := hfaithful.sound.matched node memo hwait
      obtain ⟨tag', ids, he', -⟩ := hp.start
      obtain ⟨rfl, -, -⟩ := Goal.mk.inj (Option.some.inj (hgoal.symm.trans hgoal'))
      obtain rfl := Option.some.inj (he.symm.trans he')
      cases hterminal
    · exact absurd (hfaithful.unique.past node memo _ hresult hwait) (Nat.not_succ_le_self _)

/-- **Recording what waits**, the latest first, puts what is early on top. Tasks are put on top one
after another, so the order of the list is turned around. -/
theorem Ordered.recordAll {quiet : Prop} {waiting : List (NodeId × MemoId)}
    (hp : g.Apart early late) (hfaithful : Faithful g w L m waiting)
    (hwait : Waiting g L m waiting) (h : Ordered g early late quiet L m)
    (htasks : InOrder g early late L m.tasks)
    (hwaiting : waiting.Pairwise fun p p' => ¬ (IsOf L early p.1 ∧ IsOf L late p'.1))
    (hbelow : ∀ p ∈ waiting, IsOf L late p.1 → ∀ t ∈ m.tasks, ¬ On g L early t)
    (hfold : waiting.foldlM (fun m (node, memo) => Machine.complete m memo node) m =
      (.ok m' : Except Fault Machine)) :
    Ordered g early late quiet L m' ∧ InOrder g early late L m'.tasks := by
  induction waiting generalizing m with
  | nil =>
    obtain rfl : m = m' := Except.ok.inj hfold
    exact ⟨h, htasks⟩
  | cons pair waiting ih =>
    obtain ⟨node, id⟩ := pair
    obtain ⟨hresult, -, expr, start, e, hgoal, -⟩ := hwait node id List.mem_cons_self
    obtain ⟨memo, hmemo, hsound⟩ := hfaithful.sound.exists_memo hgoal
    obtain ⟨hfaithful', hwait', -⟩ := hfaithful.record hwait hmemo
    obtain ⟨hfirst, hrest⟩ := List.pairwise_cons.mp hwaiting
    have hn : L.Result node ⟨expr, false, start⟩ m.position := ⟨id, hresult, hgoal⟩
    -- who takes the result on behalf of a side asks for it, so the result is on that side
    have hside : ∀ {side : ExprId → Prop}, g.Side side →
        ∀ t ∈ memo.parents.reverse.map (.resume node), On g L side t → IsOf L side node := by
      intro side hs t ht hon
      obtain ⟨k, hk, rfl⟩ := List.mem_map.mp ht
      exact (isOf_iff hn).mpr
        (side_of_asks hs (hsound.parents k (List.mem_reverse.mp hk)) (asks_of_on hn hon))
    rw [List.foldlM_cons] at hfold
    simp only [complete_eq hmemo] at hfold
    refine ih hfaithful' hwait' (h.completedWith hmemo node) ?_ hrest ?_ hfold
    · refine List.pairwise_append.mpr ⟨?_, htasks, fun t ht t' ht' hboth => ?_⟩
      · refine List.pairwise_map.mpr (List.pairwise_reverse.mpr ?_)
        refine (h.parents id memo _ hmemo hgoal).imp fun hnot hboth => ?_
        exact hnot ⟨asks_of_on hn hboth.2, asks_of_on hn hboth.1⟩
      · exact hbelow _ List.mem_cons_self (hside hp.isOther t ht hboth.1) t' ht' hboth.2
    · intro p hmem hlate t ht hearly
      rcases List.mem_append.mp ht with ht | ht
      · exact hfirst p hmem ⟨hside hp.isSide t ht hearly, hlate⟩
      · exact hbelow p (List.mem_cons_of_mem _ hmem) hlate t ht hearly

/-- The machine **at the beginning** takes turns. -/
theorem takesTurns_initial (g : Grammar) (early late : ExprId → Prop) (symbol : Option String) :
    TakesTurns g early late {} { Machine.initial g with lookahead := symbol } where
  tasks := List.pairwise_singleton _ _
  tables := {
    parents := by simp [Machine.initial]
    matched := .nil
    alternatives := by simp [Machine.initial]
    quietParents := by simp [Machine.initial]
    quietMatched := by simp [Machine.initial]
    quietAlternatives := by simp [Machine.initial] }

/-- **Moving on** takes turns. -/
theorem TakesTurns.advance (hp : g.Apart early late) (hfaithful : Faithful g w L m m.matched)
    (htasks : m.tasks = []) {symbol : String} (hlook : m.lookahead = some symbol)
    (hmatched : m.matched ≠ []) (hadvance : m.advance = .ok m')
    (h : TakesTurns g early late L m) :
    TakesTurns g early late L { m' with lookahead := w[m'.position]? } := by
  obtain ⟨m'', hadvance', -, -, hposition, -⟩ := hfaithful.advance htasks hlook hmatched
  obtain rfl : m' = m'' := Except.ok.inj (hadvance.symm.trans hadvance')
  obtain ⟨hnext, hwait⟩ := hfaithful.nextPosition htasks hlook hmatched
  have hnone : (m.nextPosition w[m.position + 1]?).tasks = [] := htasks
  have hfold := advance_eq m w[m.position + 1]?
  rw [hadvance] at hfold
  obtain ⟨hordered, hinOrder⟩ := Ordered.recordAll hp hnext hwait
    (h.tables.nextPosition hfaithful hp _) (by rw [hnone]; exact .nil) h.tables.matched
    (fun p _ _ t ht => by rw [hnone] at ht; cases ht) hfold
  have hsymbol : w[m'.position]? = w[m.position + 1]? := by rw [hposition]
  rw [hsymbol]
  exact ⟨hinOrder, hordered⟩

/-- Every machine that is reached **takes turns**. This is what makes the order of alternatives in a
forest that of the grammar. -/
theorem Reached.takesTurns (hp : g.Parted early late) (h : Reached g w L m) :
    TakesTurns g early late L m := by
  induction h with
  | start => exact takesTurns_initial g early late _
  | outcome h ho ih => exact ih.outcome hp h.faithful ho
  | advance h htasks hlook hmatched hadvance ih =>
    exact ih.advance hp.toApart h.faithful htasks hlook hmatched hadvance

end Machine

end GeneralParsing
