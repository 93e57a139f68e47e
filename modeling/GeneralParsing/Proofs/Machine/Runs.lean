import GeneralParsing.Forest.Parse
import GeneralParsing.Proofs.Machine.Bound
import GeneralParsing.Proofs.Machine.Distinct
import GeneralParsing.Proofs.Machine.Lossless
import GeneralParsing.Proofs.Machine.Rooted
import Mathlib

/-!
# Runs of the machine

A machine is **faithful** when it is sound, its tickets are held once, its results are unique and
recorded once, nothing is lost, and everything is derived for the start. A step keeps it faithful
and lowers its potential (`Faithful.step`), so a run at one position ends with no task left
(`Faithful.run`). Moving on
records what waited (`Faithful.advance`), and reading an input comes to a faithful machine, at the
end of the input or where no terminal matches (`Faithful.readAll`).
-/

namespace GeneralParsing

namespace Machine

/-- A machine that **does what it should**, with results that wait to be recorded. -/
structure Faithful (g : Grammar) (w : List String) (L : Ledger) (m : Machine)
    (waiting : List (NodeId × MemoId)) : Prop where
  sound : Sound g w L m
  ticketed : Ticketed g L m
  unique : Unique L m waiting
  distinct : Distinct L m waiting
  exhaustive : Exhaustive g w L m m.tasks waiting
  rooted : Rooted g L m.position

variable {g : Grammar} {w : List String} {L L' : Ledger} {m m' : Machine}
variable {waiting : List (NodeId × MemoId)}

/-! ### Steps -/

/-- A machine with a task on top is **the machine without it**, with the task added. So every step
starts from where a task was taken off. -/
theorem eq_withTasks {task : Task} {tasks : List Task} (h : m.tasks = task :: tasks) :
    m = { m with tasks }.withTasks [task] := by
  cases m
  subst h
  rfl

/-- Taking tasks off **keeps the machine sound**. -/
theorem Sound.of_withTasks {tasks : List Task} (h : Sound g w L (m.withTasks tasks)) :
    Sound g w L m :=
  { h with task := fun task ht => h.task task (List.mem_append_right tasks ht) }

theorem Sound.waitingOld (h : Sound g w L m) : WaitingOld m m.matched := by
  rintro ⟨node, id⟩ hmem
  have hlt := (Array.getElem?_eq_some_iff.mp (h.matched node id hmem).1).1
  rwa [h.results_size] at hlt

/-- What a faithful machine **comes to by a step** is faithful. -/
theorem Faithful.outcome {task : Task} (h : Faithful g w L (m.withTasks [task]) m.matched)
    (ho : Outcome g L m task L' m') : Faithful g w L' m' m'.matched := by
  have hs : Sound g w L m := h.sound.of_withTasks
  have hst : SoundTask g L m.position task := h.sound.task task List.mem_cons_self
  have hu : Unique L m m.matched := h.unique.congr rfl (fun _ _ _ hn => hn) rfl fun _ => rfl
  have hx : Exhaustive g w L m (task :: m.tasks) m.matched :=
    ⟨h.exhaustive.delivered, h.exhaustive.expanded, h.exhaustive.start⟩
  refine ⟨(hs.outcome hst ho).2, ?_, ?_, ?_, ?_, ?_⟩
  · cases task with
    | derive next expr => exact h.ticketed.derive hs hst ho
    | resume node next => exact h.ticketed.resume hs hst ho
  · cases task with
    | derive next expr => exact hu.derive hs hst ho
    | resume node next =>
      refine hu.resume hs hst ?_ ho
      cases hst with
      | resume hresult hgoal ha => exact h.ticketed.free ha
  · cases task with
    | derive next expr =>
      exact h.distinct.derive hs hs.waitingOld (fun n id hmem => (hs.matched n id hmem).1) hst ho
    | resume node next => exact h.distinct.resume hs hs.waitingOld ho
  · exact hx.outcome hs hu hst ho
  · rw [(proceeds_outcome ho).position]
    exact Rooted.outcome h.rooted hs hst ho

/-- **A step** of a faithful machine is faithful, and lowers the potential. The step also succeeds:
whatever it looks up is there. -/
theorem Faithful.step (hg : g.Closed) {task : Task}
    (h : Faithful g w L (m.withTasks [task]) m.matched) :
    ∃ L' m', Machine.step g m task = .ok m' ∧ Faithful g w L' m' m'.matched ∧
      m'.potential g < (m.withTasks [task]).potential g ∧ m'.position = m.position := by
  have hs : Sound g w L m := h.sound.of_withTasks
  have hst : SoundTask g L m.position task := h.sound.task task List.mem_cons_self
  obtain ⟨L', m', hstep, ho⟩ := hs.exists_outcome hg hst
  exact ⟨L', m', hstep, h.outcome ho, potential_outcome hs h.ticketed hst ho,
    (proceeds_outcome ho).position⟩

/-- **A run** with enough steps ends with no task left. Since each step lowers the potential, that
many steps are enough. -/
theorem Faithful.run (hg : g.Closed) {fuel : Nat} (h : Faithful g w L m m.matched)
    (hfuel : m.potential g ≤ fuel) :
    ∃ L' m', Machine.run g fuel m = .ok m' ∧ Faithful g w L' m' m'.matched ∧ m'.tasks = [] ∧
      m'.position = m.position := by
  induction fuel generalizing L m with
  | zero =>
    cases ht : m.tasks with
    | nil => exact ⟨L, m, by rw [Machine.run, ht], h, ht, rfl⟩
    | cons task tasks =>
      rw [eq_withTasks ht] at h hfuel
      obtain ⟨L', m', -, -, hlt, -⟩ := h.step hg
      exact absurd (Nat.lt_of_lt_of_le hlt hfuel) (Nat.not_lt_zero _)
  | succ fuel ih =>
    cases ht : m.tasks with
    | nil => exact ⟨L, m, by rw [Machine.run, ht], h, ht, rfl⟩
    | cons task tasks =>
      have heq := eq_withTasks ht
      rw [heq] at h hfuel
      obtain ⟨L', m', hstep, hfaithful, hlt, hposition⟩ := h.step hg
      obtain ⟨L'', m'', hrun, hrest⟩ :=
        ih hfaithful (Nat.le_of_lt_succ (Nat.lt_of_lt_of_le hlt hfuel))
      refine ⟨L'', m'', ?_, hrest.1, hrest.2.1, hrest.2.2.trans hposition⟩
      rw [Machine.run, ht]
      simp only [hstep]
      exact hrun

/-! ### The bound on the steps -/

/-- What a continuation costs is bounded **by the greatest number of steps** in the grammar. -/
theorem cost_le_of_awaits {next : Continuation} {goal : Goal} (ha : Awaits g L next goal)
    (b : Bool) : next.cost b ≤ 2 * (g.maxSteps + 1) := by
  cases ha with
  | sequence hmemo he =>
    have hsteps := g.steps_le_maxSteps he
    simp only [Expr.steps, List.length_append, List.length_cons] at hsteps
    simp only [Continuation.cost]
    omega
  | repetition hmemo he =>
    have hsteps := g.steps_le_maxSteps he
    simp only [Expr.steps] at hsteps
    simp only [Continuation.cost]
    split <;> omega
  | _ =>
    simp only [Continuation.cost]
    omega

theorem sum_map_le_mul {α : Type} {f h : α → Nat} {c : Nat} {xs : List α}
    (hle : ∀ x ∈ xs, f x ≤ c * h x) : (xs.map f).sum ≤ c * (xs.map h).sum := by
  rw [← List.sum_map_mul_left]
  exact List.sum_le_sum hle

/-- With no task left the load is bounded by **how often a continuation was registered**. The
parents of memos are what was registered, and each is paid for by its cost. -/
theorem Sound.load_cost_le (h : Sound g w L m) (htasks : m.tasks = []) :
    m.load Continuation.cost 1 false ≤ 2 * (g.maxSteps + 1) * m.registered := by
  have hmemo : ∀ memo ∈ m.memos.toList, memo.load Continuation.cost false m.position ≤
      2 * (g.maxSteps + 1) * memo.parents.length := by
    intro memo hmemo
    obtain ⟨i, hi⟩ := List.mem_iff_getElem?.mp hmemo
    obtain ⟨goal, hsound⟩ := h.memo i memo (by simpa using hi)
    have hsum : (memo.parents.map (Continuation.cost (memo.start == m.position))).sum ≤
        2 * (g.maxSteps + 1) * (memo.parents.map fun _ => 1).sum := by
      refine sum_map_le_mul fun next hnext => ?_
      rw [Nat.mul_one]
      exact cost_le_of_awaits (hsound.parents next hnext) _
    rw [Memo.load]
    split
    · exact Nat.zero_le _
    · simpa using hsum
  rw [load, tally, htasks, List.map_nil, List.sum_nil, Nat.zero_add]
  exact Nat.le_trans (sum_map_le_mul hmemo) (Nat.mul_le_mul_left _ h.registered)

/-- What is registered and what can be derived **bounds the steps**. The bound is computed from the
machine, so it needs no knowledge of the grammar beyond its widths. -/
theorem potential_le_stepBound
    (hload : m.load Continuation.cost 1 false ≤ 2 * (g.maxSteps + 1) * m.registered + 2) :
    m.potential g ≤ stepBound g.size g.totalWidth g.maxSteps m := by
  have hwidth : 2 * (g.maxSteps + 1) * m.unopened g ≤ 2 * (g.maxSteps + 1) * g.totalWidth :=
    Nat.mul_le_mul_left _ (unopened_le g m)
  rw [potential, stepBound]
  nlinarith [Nat.zero_le (g.maxSteps * m.registered), Nat.zero_le (g.maxSteps * g.totalWidth),
    Nat.zero_le (g.maxSteps * g.size)]

/-! ### Moving on -/

/-- Results that **wait to be recorded**: they end here, and their memos are terminals' without a
result yet. -/
def Waiting (g : Grammar) (L : Ledger) (m : Machine) (waiting : List (NodeId × MemoId)) : Prop :=
  ∀ node id, (node, id) ∈ waiting → L.results[node]? = some (id, m.position) ∧
    m.resultHere id = none ∧ ∃ expr start e, L.goals[id]? = some ⟨expr, false, start⟩ ∧
      g.expr? expr = some e ∧ e.isTerminal = true

/-- A terminal **wraps nothing**. -/
theorem Expr.isWrapper_of_isTerminal {e : Expr} (h : e.isTerminal = true) :
    e.isWrapper = false := by
  cases e with
  | token | pattern => rfl
  | _ => cases h

/-- **Recording** a result that waits. The memo is one that has no result here yet, so its parents
are served for the first time. -/
theorem Faithful.record {node : NodeId} {id : MemoId} {memo : Memo}
    (h : Faithful g w L m ((node, id) :: waiting)) (hwait : Waiting g L m ((node, id) :: waiting))
    (hmemo : m.memos[id]? = some memo) :
    Faithful g w L (m.completedWith id memo node) waiting ∧
      Waiting g L (m.completedWith id memo node) waiting ∧
      ∀ held toll, (m.completedWith id memo node).load held toll false =
        m.load held toll false := by
  obtain ⟨hresult, hfree, expr, start, e, hgoal, he, hterminal⟩ :=
    hwait node id List.mem_cons_self
  have hsound := h.sound.soundMemo hmemo hgoal
  have hempty : m.isEmptyAt node = (memo.start == m.position) := by
    rw [h.sound.isEmptyAt hresult hgoal, hsound.start]
  rw [resultHere_of_memo hmemo] at hfree
  -- the memo's parents are paid for by what was kept for a result here
  have hload : ∀ held toll later, (m.completedWith id memo node).load held toll later =
      m.load held toll later := by
    intro held toll later
    have heq := load_completedWith held toll later hmemo hempty
    rw [Memo.load_of_none hfree] at heq
    omega
  have hold : WaitingOld m ((node, id) :: waiting) := by
    rintro ⟨node', id'⟩ hmem
    have hlt := (Array.getElem?_eq_some_iff.mp (hwait node' id' hmem).1).1
    rwa [h.sound.results_size] at hlt
  have hnot : node ∉ waiting.map Prod.fst := by
    intro hmem
    obtain ⟨⟨_, id'⟩, hpair, rfl⟩ := List.mem_map.mp hmem
    have hresult' := (hwait _ id' (List.mem_cons_of_mem _ hpair)).1
    obtain ⟨rfl, -⟩ := Prod.mk.inj (Option.some.inj (hresult.symm.trans hresult'))
    exact (List.nodup_cons.mp h.unique.nodup).1 (List.mem_map.mpr ⟨_, hpair, rfl⟩)
  have hp := proceeds_completedWith L hmemo node
  have hdelivered : AllDelivered w L m ([] ++ m.tasks) ((node, id) :: waiting) :=
    h.exhaustive.delivered
  have hwanted : ∀ next expr start, Wanted L m ([] ++ m.tasks) next expr start → Wanted L
      (m.completedWith id memo node) ([] ++ (m.completedWith id memo node).tasks) next expr start :=
    fun _ _ _ => Wanted.mono hp
  refine ⟨⟨h.sound.completedWith hmemo hsound hresult, ⟨?_, ?_⟩,
    h.unique.completedWith hmemo ⟨hresult, expr, start, hgoal⟩,
    h.distinct.recorded hold hnot hmemo, ⟨?_, ?_, ?_⟩, h.rooted⟩, ?_,
    fun held toll => hload held toll false⟩
  · -- a terminal is no wrapper, so tickets are those of other memos
    intro id' expr' start' e' hgoal' he' hwrap
    have hne : id ≠ id' := by
      rintro rfl
      cases hgoal.symm.trans hgoal'
      cases he.symm.trans he'
      rw [Expr.isWrapper_of_isTerminal hterminal] at hwrap
      cases hwrap
    rw [hload, resultHere_completedWith_ne hne]
    exact h.ticketed.here id' expr' start' e' hgoal' he' hwrap
  · intro id' hid'
    rw [hload]
    exact h.ticketed.later id' hid'
  · exact hdelivered.completedWith hmemo hresult
  · intro id' expr' start' e' hgoal' he'
    exact (h.exhaustive.expanded id' expr' start' e' hgoal' he').mono hp.toExtends hwanted
  · exact hwanted _ _ _ h.exhaustive.start
  · intro node' id' hmem
    obtain ⟨hresult', hfree', hrest⟩ := hwait node' id' (List.mem_cons_of_mem _ hmem)
    have hne : id ≠ id' := by
      rintro rfl
      exact (List.nodup_cons.mp h.unique.nodup).1 (List.mem_map.mpr ⟨_, hmem, rfl⟩)
    exact ⟨hresult', (resultHere_completedWith_ne hne m memo node).trans hfree', hrest⟩

/-- **Recording** all results that wait, one after another. Their memos are distinct, and recording
one leaves the others as they were. -/
theorem Faithful.recordAll (h : Faithful g w L m waiting) (hwait : Waiting g L m waiting) :
    ∃ m', waiting.foldlM (fun m (node, memo) => Machine.complete m memo node) m =
        (.ok m' : Except Fault Machine) ∧
      Faithful g w L m' [] ∧ m'.load Continuation.cost 1 false = m.load Continuation.cost 1 false ∧
      m'.registered = m.registered ∧ m'.position = m.position ∧ m'.matched = m.matched := by
  induction waiting generalizing m with
  | nil => exact ⟨m, rfl, h, rfl, rfl, rfl, rfl⟩
  | cons pair waiting ih =>
    obtain ⟨node, id⟩ := pair
    obtain ⟨-, -, expr, start, e, hgoal, -⟩ := hwait node id List.mem_cons_self
    obtain ⟨memo, hmemo, -⟩ := h.sound.exists_memo hgoal
    obtain ⟨hfaithful, hwaiting, hload⟩ := h.record hwait hmemo
    obtain ⟨m', hfold, hfaithful', hload', hrest⟩ := ih hfaithful hwaiting
    refine ⟨m', ?_, hfaithful', hload'.trans (hload _ _), hrest⟩
    rw [List.foldlM_cons]
    simp only [complete_eq hmemo]
    exact hfold

/-- The machine **at the next position**, before anything is recorded there. -/
def nextPosition (m : Machine) (symbol : Option String) : Machine :=
  { m with matched := [], table := ∅, position := m.position + 1, lookahead := symbol }

/-- At a position that has just been reached **no memo has a result**. The results that a memo has
recorded end at places that had been reached before. -/
theorem Sound.resultAt_of_lt (h : Sound g w L m) {id : MemoId} {memo : Memo} {position : Nat}
    (hmemo : m.memos[id]? = some memo) (hlt : m.position < position) :
    memo.resultAt position = none := by
  obtain ⟨goal, hsound⟩ := h.memo id memo hmemo
  rw [Memo.resultAt]
  cases hlatest : memo.latest with
  | none => rfl
  | some latest =>
    obtain ⟨stop, node⟩ := latest
    have hle := (hsound.latest stop node hlatest).2
    exact if_neg (Nat.ne_of_lt (Nat.lt_of_le_of_lt hle hlt))

/-- Once all tasks are done **moving on** keeps the machine sound: memos and nodes stay, and the
table is emptied. -/
theorem Sound.nextPosition (h : Sound g w L m) (hroots : m.roots = []) (htasks : m.tasks = []) :
    Sound g w L (m.nextPosition w[m.position + 1]?) where
  goals_size := h.goals_size
  results_size := h.results_size
  memo id memo hmemo := by
    obtain ⟨goal, hsound⟩ := h.memo id memo hmemo
    exact ⟨goal, { hsound with
      start_le := Nat.le_succ_of_le hsound.start_le
      latest := fun stop node hl => ⟨(hsound.latest stop node hl).1,
        Nat.le_succ_of_le (hsound.latest stop node hl).2⟩ }⟩
  node := h.node
  table id memo hid := by
    change (∅ : Std.HashMap ExprId MemoId)[id]? = some memo at hid
    simp at hid
  task task ht := by
    change task ∈ m.tasks at ht
    simp [htasks] at ht
  matched node memo hmem := by
    change (node, memo) ∈ [] at hmem
    simp at hmem
  root root hroot := by
    change root ∈ m.roots at hroot
    simp [hroots] at hroot
  lookahead := rfl
  registered := h.registered

theorem ticket_congr (id : MemoId) (b b' : Bool) :
    Continuation.ticket id b = Continuation.ticket id b' := by
  funext next
  cases next <;> rfl

/-- Moving on leaves every ticket **held at most once**: what was held for later positions now
counts here, and no wrapper has a result at the new position. -/
theorem Ticketed.nextPosition (hs : Sound g w L m) (h : Ticketed g L m) (htasks : m.tasks = [])
    (symbol : Option String) : Ticketed g L (m.nextPosition symbol) := by
  have hnone : ∀ memo ∈ m.memos.toList, memo.resultAt (m.position + 1) = none := by
    intro memo hmemo
    obtain ⟨i, hi⟩ := List.mem_iff_getElem?.mp hmemo
    have hmemo' : m.memos[i]? = some memo := by simpa using hi
    exact hs.resultAt_of_lt hmemo' (Nat.lt_succ_self _)
  have hload : ∀ id later, (m.nextPosition symbol).load (Continuation.ticket id) 0 later =
      m.load (Continuation.ticket id) 0 true := by
    intro id later
    have hmemos : (m.memos.toList.map (Memo.load (Continuation.ticket id) later (m.position + 1))) =
        m.memos.toList.map (Memo.load (Continuation.ticket id) true m.position) := by
      refine List.map_congr_left fun memo hmemo => ?_
      rw [Memo.load_of_none (hnone memo hmemo), Memo.load_later, ticket_congr]
    rw [load, load, tally, tally, Machine.nextPosition, htasks, hmemos]
    rfl
  constructor
  · intro id expr start e hgoal he hwrap
    have hlater := h.later id (Array.getElem?_eq_some_iff.mp hgoal).1
    have hres : (m.nextPosition symbol).resultHere id = none := by
      rw [resultHere, Machine.nextPosition]
      cases hmemo : m.memos[id]? with
      | none => rfl
      | some memo => exact hs.resultAt_of_lt hmemo (Nat.lt_succ_self _)
    rw [hload, hres]
    exact hlater
  · intro id hid
    rw [hload]
    exact h.later id hid

/-- Moving on leaves results **distinct**, as it makes none. Only the table of what has been derived
is new, and that is empty. -/
theorem distinct_nextPosition (hs : Sound g w L m) (h : Distinct L m waiting)
    (symbol : Option String) : Distinct L (m.nextPosition symbol) waiting where
  table id expr hid := by
    obtain ⟨memo, -, hsound⟩ := hs.exists_memo hid
    exact absurd hsound.start_le (Nat.not_succ_le_self _)
  goal := h.goal
  outer := h.outer
  alternatives := h.alternatives
  roots := h.roots
  once memo children := (h.once memo children).mono (Nat.le_refl _) fun _ hnode => hnode

/-- After moving on **nothing has been lost**: what was to be done at the old position is done. A
memo that wants a symbol has got it, or it never will. -/
theorem Exhaustive.nextPosition (h : Exhaustive g w L m m.tasks waiting) (htasks : m.tasks = [])
    (symbol : Option String) : Exhaustive g w L (m.nextPosition symbol)
      (m.nextPosition symbol).tasks waiting := by
  have hx : Extends L m L (m.nextPosition symbol) :=
    ⟨.refl L, fun _ _ h => h, fun _ kind _ h => ⟨kind, h, .same kind⟩, fun _ h => h⟩
  have hwanted : ∀ next expr start, Wanted L m m.tasks next expr start →
      Wanted L (m.nextPosition symbol) (m.nextPosition symbol).tasks next expr start := by
    rintro next expr start (hreg | ⟨-, hmem⟩)
    · exact .inl (hreg.mono hx)
    · simp [htasks] at hmem
  refine ⟨fun node id stop next hresult hwait hhands => ?_, fun id expr start e hgoal he => ?_,
    hwanted _ _ _ h.start⟩
  · rcases h.delivered node id stop next hresult hwait hhands with htaken | ⟨-, hmem⟩
    · exact .inl (htaken.mono hx hwanted)
    · simp [htasks] at hmem
  · exact (h.expanded id expr start e hgoal he).mono hx hwanted

/-- Completing a memo **does not look ahead**. -/
theorem foldlM_complete_lookahead (waiting : List (NodeId × MemoId)) (m : Machine)
    (symbol : Option String) :
    waiting.foldlM (fun m (node, memo) => Machine.complete m memo node)
        { m with lookahead := symbol } =
      (waiting.foldlM (fun m (node, memo) => Machine.complete m memo node) m :
        Except Fault Machine).map fun m => { m with lookahead := symbol } := by
  induction waiting generalizing m with
  | nil => rfl
  | cons pair waiting ih =>
    obtain ⟨node, id⟩ := pair
    rw [List.foldlM_cons, List.foldlM_cons]
    cases hmemo : m.memos[id]? with
    | none =>
      simp only [complete, memo, hmemo]
      rfl
    | some memo =>
      simp only [complete_eq hmemo, complete_eq (m := { m with lookahead := symbol }) hmemo]
      exact ih (m.completedWith id memo node)

/-- At the next position a faithful machine is **faithful**, and what has matched waits. The results
that wait end just here, where they are to be recorded. -/
theorem Faithful.nextPosition (h : Faithful g w L m m.matched) (htasks : m.tasks = [])
    {symbol : String} (hlook : m.lookahead = some symbol) (hwaits : m.matched ≠ []) :
    Faithful g w L (m.nextPosition w[m.position + 1]?) m.matched ∧
      Waiting g L (m.nextPosition w[m.position + 1]?) m.matched := by
  have hroots : m.roots = [] := by
    cases hr : m.roots with
    | nil => rfl
    | cons root roots =>
      have hnone := (h.sound.root root (by simp [hr])).2
      rw [hlook] at hnone
      cases hnone
  refine ⟨⟨h.sound.nextPosition hroots htasks, h.ticketed.nextPosition h.sound htasks _,
    h.unique.nextPosition.congr rfl (fun _ _ _ hn => hn) rfl fun _ => rfl,
    distinct_nextPosition h.sound h.distinct _, h.exhaustive.nextPosition htasks _,
    h.rooted.advance h.sound hwaits⟩, fun node id hmem => ?_⟩
  obtain ⟨hresult, hrest⟩ := h.sound.matched node id hmem
  refine ⟨hresult, ?_, hrest⟩
  rw [resultHere, Machine.nextPosition]
  cases hmemo : m.memos[id]? with
  | none => rfl
  | some memo => exact h.sound.resultAt_of_lt hmemo (Nat.lt_succ_self _)

/-- Moving on is **recording what has matched** at the next position. The symbol in sight makes no
difference to that, so it may be set before or after. -/
theorem advance_eq (m : Machine) (symbol : Option String) :
    m.matched.foldlM (fun m (node, memo) => Machine.complete m memo node)
        (m.nextPosition symbol) =
      m.advance.map fun m' => { m' with lookahead := symbol } :=
  foldlM_complete_lookahead _ { m with matched := [], table := ∅, position := m.position + 1 } _

/-- **Moving on** records all that waited. There is something to record unless the input is
rejected, and then the machine does not move on. -/
theorem Faithful.advance (h : Faithful g w L m m.matched) (htasks : m.tasks = [])
    {symbol : String} (hlook : m.lookahead = some symbol) (hwaits : m.matched ≠ []) :
    ∃ m' : Machine, m.advance = .ok m' ∧
      Faithful g w L { m' with lookahead := w[m.position + 1]? } [] ∧
      m'.load Continuation.cost 1 false ≤ 2 * (g.maxSteps + 1) * m'.registered ∧
      m'.position = m.position + 1 ∧ m'.matched = [] := by
  obtain ⟨hfaithful, hwaiting⟩ := h.nextPosition htasks hlook hwaits
  obtain ⟨m', hfold, hfaithful', hload, hregistered, hposition, hmatched⟩ :=
    hfaithful.recordAll hwaiting
  have hbound := hfaithful.sound.load_cost_le htasks
  rw [← hload, ← hregistered] at hbound
  rw [advance_eq] at hfold
  cases hadvance : m.advance with
  | error e =>
    rw [hadvance] at hfold
    cases hfold
  | ok m'' =>
    rw [hadvance] at hfold
    obtain rfl : { m'' with lookahead := w[m.position + 1]? } = m' := Except.ok.inj hfold
    exact ⟨m'', rfl, hfaithful', hbound, hposition, hmatched⟩

/-! ### Reading an input -/

/-- Where something is left to read, it begins with **the symbol there**, and the rest is left at
the next position. -/
theorem symbol_of_drop {position : Nat} {symbol : String} {rest : List String}
    (hrest : w.drop position = symbol :: rest) :
    w[position]? = some symbol ∧ w.drop (position + 1) = rest := by
  constructor
  · rw [← List.head?_drop, hrest, List.head?_cons]
  · rw [← List.drop_drop, hrest, List.drop_one, List.tail_cons]

/-- **At one position** the machine runs until no task is left. The bound given to the run is the
one that the machine computes itself. -/
theorem Faithful.look (hg : g.Closed)
    (h : Faithful g w L { m with lookahead := w[m.position]? } []) (hmatched : m.matched = [])
    (hload : m.load Continuation.cost 1 false ≤ 2 * (g.maxSteps + 1) * m.registered + 2) :
    ∃ L' m', m.look g g.totalWidth g.maxSteps w[m.position]? = .ok m' ∧
      Faithful g w L' m' m'.matched ∧ m'.tasks = [] ∧ m'.position = m.position := by
  have hbound : Machine.potential g { m with lookahead := w[m.position]? } ≤
      stepBound g.size g.totalWidth g.maxSteps { m with lookahead := w[m.position]? } :=
    potential_le_stepBound hload
  rw [← hmatched] at h
  obtain ⟨L', m', hrun, hrest⟩ := Faithful.run hg h hbound
  exact ⟨L', m', by rw [Machine.look, hrun]; rfl, hrest⟩

/-- Inputs that agree up to a position **begin with the same symbol**. -/
theorem exists_cons_of_take_eq {α : Type} {a : α} {xs ys : List α} {n : Nat}
    (h : ys.take (n + 1) = (a :: xs).take (n + 1)) : ∃ ys', ys = a :: ys' := by
  cases ys with
  | nil => cases h
  | cons b ys =>
    rw [List.take_succ_cons, List.take_succ_cons] at h
    exact ⟨ys, by rw [(List.cons.inj h).1]⟩

/-- A machine rejects an input at a position, **whatever comes after** the symbol there. -/
def RejectedAlike (g : Grammar) (m : Machine) (rest : List String) (position : Nat) : Prop :=
  m.position ≤ position ∧ ∀ rest' : List String,
    rest'.take (position - m.position + 1) = rest.take (position - m.position + 1) →
      m.readAll g g.totalWidth g.maxSteps rest' = .error (.rejected position)

/-- What reading an input **comes to**: the end of the input, or a position where no terminal
matches. -/
theorem Faithful.readAll (hg : g.Closed) {rest : List String}
    (h : Faithful g w L { m with lookahead := w[m.position]? } []) (hmatched : m.matched = [])
    (hload : m.load Continuation.cost 1 false ≤ 2 * (g.maxSteps + 1) * m.registered + 2)
    (hrest : w.drop m.position = rest) (hlength : m.position + rest.length = w.length) :
    ∃ L' m', Faithful g w L' m' m'.matched ∧ m'.tasks = [] ∧
      (m.readAll g g.totalWidth g.maxSteps rest = .ok m' ∧ m'.position = w.length ∨
        m.readAll g g.totalWidth g.maxSteps rest = .error (.rejected m'.position) ∧
          m'.matched = [] ∧ m'.position < w.length ∧ RejectedAlike g m rest m'.position) := by
  obtain ⟨L₁, m₁, hlook, hfaithful, htasks, hposition⟩ := Faithful.look hg h hmatched hload
  induction rest generalizing L m L₁ m₁ with
  | nil =>
    have hnone : w[m.position]? = none := by simpa using hrest
    rw [hnone] at hlook
    exact ⟨L₁, m₁, hfaithful, htasks, .inl ⟨hlook, hposition.trans hlength⟩⟩
  | cons symbol rest ih =>
    obtain ⟨hsymbol, hdrop⟩ := symbol_of_drop hrest
    rw [List.length_cons] at hlength
    rw [hsymbol] at hlook
    cases hwaits : m₁.matched with
    | nil =>
      -- nothing waits for the symbol: any input that goes on with it is rejected here
      have hread : ∀ rest', m.readAll g g.totalWidth g.maxSteps (symbol :: rest') =
          .error (.rejected m₁.position) := by
        intro rest'
        rw [Machine.readAll, hlook]
        simp [hwaits, bind, Except.bind, throw, throwThe, MonadExceptOf.throw]
      refine ⟨L₁, m₁, hfaithful, htasks, .inr ⟨hread rest, hwaits, by omega,
        Nat.le_of_eq hposition.symm, fun rest' htake => ?_⟩⟩
      obtain ⟨rest'', rfl⟩ := exists_cons_of_take_eq htake
      exact hread rest''
    | cons pair waiting =>
      have hlook₁ : m₁.lookahead = some symbol := by
        rw [hfaithful.sound.lookahead, hposition, hsymbol]
      obtain ⟨m₂, hadvance, hfaithful₂, hload₂, hposition₂, hmatched₂⟩ :=
        hfaithful.advance htasks hlook₁ (by simp [hwaits])
      rw [← hposition₂] at hfaithful₂
      have hrest₂ : w.drop m₂.position = rest := by rw [hposition₂, hposition, hdrop]
      have hlength₂ : m₂.position + rest.length = w.length := by omega
      have hload₂' := Nat.le_add_right_of_le (k := 2) hload₂
      obtain ⟨L₃, m₃, hlook₃, hfaithful₃, htasks₃, hposition₃⟩ :=
        Faithful.look hg hfaithful₂ hmatched₂ hload₂'
      obtain ⟨L', m', hfaithful', htasks', hend⟩ := ih hfaithful₂ hmatched₂ hload₂' hrest₂ hlength₂
        L₃ m₃ hlook₃ hfaithful₃ htasks₃ hposition₃
      -- one symbol further the rest is read, and whatever is said of the rest holds of the whole
      have hread : ∀ rest', m.readAll g g.totalWidth g.maxSteps (symbol :: rest') =
          m₂.readAll g g.totalWidth g.maxSteps rest' := by
        intro rest'
        rw [Machine.readAll, hlook]
        simp [hwaits, hadvance, bind, Except.bind, Except.mapError]
      rw [hread]
      refine ⟨L', m', hfaithful', htasks', hend.imp_right ?_⟩
      rintro ⟨herror, hnone, hlt, hle, halike⟩
      refine ⟨herror, hnone, hlt, by omega, fun rest' htake => ?_⟩
      obtain ⟨rest'', rfl⟩ := exists_cons_of_take_eq htake
      have hcount : m'.position - m.position = m'.position - m₂.position + 1 := by omega
      rw [hcount, List.take_succ_cons, List.take_succ_cons] at htake
      rw [hread]
      exact halike rest'' (List.cons.inj htake).2

/-- The machine **at the beginning** is faithful. -/
theorem faithful_initial (g : Grammar) (w : List String) :
    Faithful g w {} { Machine.initial g with lookahead := w[0]? } [] where
  sound := {
    goals_size := rfl
    results_size := rfl
    memo := by simp [Machine.initial]
    node := by simp [Machine.initial]
    table := by simp [Machine.initial]
    task := fun task ht => by
      obtain rfl := List.mem_singleton.mp ht
      exact .derive .accept
    matched := by simp [Machine.initial]
    root := by simp [Machine.initial]
    lookahead := rfl
    registered := Nat.le_refl 0 }
  ticketed := ⟨by simp, by simp⟩
  unique := ⟨by simp [Ledger.OuterResult], by simp [Ledger.OuterResult], by simp, .nil⟩
  distinct := {
    table := by simp
    goal := by simp
    outer := by simp
    alternatives := by simp [Machine.initial]
    roots := by simp [Machine.initial]
    once := fun memo children =>
      ⟨Nat.zero_le 1, by simp [Records], by simp [Records]⟩ }
  exhaustive := {
    delivered := by simp [AllDelivered]
    expanded := by simp
    start := .inr ⟨rfl, List.mem_singleton_self _⟩ }
  rooted := ⟨by simp, .inl rfl⟩

end Machine

open Machine in
/-- **What parsing comes to**: the machine has read the whole input and the roots are the forest's,
or the input is rejected. -/
theorem Forest.exists_faithful {g : Grammar} (hg : g.Closed) (w : List String) :
    ∃ L m, Faithful g w L m m.matched ∧ m.tasks = [] ∧
      (Forest.parse g w = .ok ⟨m.nodes, m.roots, m.position⟩ ∧ m.position = w.length ∧
          m.roots ≠ [] ∨
        Forest.parse g w = .error (.rejected m.position) ∧
          (m.position = w.length ∧ m.roots = [] ∨ m.position < w.length ∧ m.matched = [] ∧
            ∀ w', w'.take (m.position + 1) = w.take (m.position + 1) →
              Forest.parse g w' = .error (.rejected m.position))) := by
  have hload : (Machine.initial g).load Continuation.cost 1 false ≤
      2 * (g.maxSteps + 1) * (Machine.initial g).registered + 2 :=
        Nat.le_of_eq (Nat.zero_add 2).symm
  obtain ⟨L, m, hfaithful, htasks, hend⟩ := (faithful_initial g w).readAll hg rfl hload
    (List.drop_zero) (Nat.zero_add _)
  refine ⟨L, m, hfaithful, htasks, ?_⟩
  have hreject : ∀ {w'}, (Machine.initial g).readAll g g.totalWidth g.maxSteps w' =
      .error (.rejected m.position) → Forest.parse g w' = .error (.rejected m.position) := by
    intro w' hread
    rw [Forest.parse, hread]
    rfl
  rcases hend with ⟨hread, hposition⟩ | ⟨hread, hmatched, hlt, -, halike⟩
  · cases hroots : m.roots with
    | nil =>
      refine .inr ⟨?_, .inl ⟨hposition, rfl⟩⟩
      rw [Forest.parse, hread]
      simp [hroots, bind, Except.bind, throw, throwThe, MonadExceptOf.throw]
    | cons root roots =>
      refine .inl ⟨?_, hposition, by simp⟩
      rw [Forest.parse, hread]
      simp [hroots, bind, Except.bind, pure, Except.pure]
  · exact .inr ⟨hreject hread, .inr ⟨hlt, hmatched, fun w' htake => hreject (halike w' htake)⟩⟩

end GeneralParsing
