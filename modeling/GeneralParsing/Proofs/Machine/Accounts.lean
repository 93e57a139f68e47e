import GeneralParsing.Proofs.Machine.Serving

/-!
# Accounts of a run

Along a trace accounts are kept of what has been completed and of what has been resumed
(`Accounted`): with a result that a memo has been given, a continuation has been resumed, or is
about to be, as often as it has been registered with the memo. Each of the two kinds of change keeps
the balance (`Accounted.registers`, `Accounted.completes`), and so does a resumption, which takes a
task off the stack (`Accounted.done`). Hence it holds in every trace (`Trace.exists_traced`).

Every parse has a trace, whether the input has a forest or is rejected (`Forest.exists_trace`).
-/

namespace GeneralParsing

namespace Machine

/-- The completions of memos and the resumptions of continuations are **accounted for**: a memo has
been completed once by each result that it has been given, and a continuation has been resumed with
such a result, or will be, as often as it has been registered. -/
structure Accounted (L : Ledger) (m : Machine) (waiting : List (NodeId × MemoId))
    (completed : MemoId → List (Nat × NodeId)) (resumed : List (Nat × NodeId × Continuation)) :
    Prop where
  nodup : ∀ id, (completed id).Nodup
  mem : ∀ id stop node, (stop, node) ∈ completed id ↔ Given L waiting node id stop
  latest : ∀ id stop node, m.latestOf id = some (stop, node) → Given L waiting node id stop
  count : ∀ node id stop next, Given L waiting node id stop →
    resumed.count (stop, node, next) + m.tasks.count (.resume node next) =
      (m.parentsOf id).count next
  given : ∀ stop node next, (stop, node, next) ∈ resumed → ∃ id, Given L waiting node id stop
  tasks : ∀ node next, .resume node next ∈ m.tasks → ∃ id stop, Given L waiting node id stop

section

variable {g : Grammar} {w : List String} {L L' : Ledger} {m m' : Machine} {id : MemoId}
variable {waiting waiting' : List (NodeId × MemoId)} {node : NodeId}
variable {completed : MemoId → List (Nat × NodeId)} {resumed : List (Nat × NodeId × Continuation)}

theorem eq_of_resume_mem_map {n : NodeId} {next : Continuation} {nexts : List Continuation}
    (h : .resume n next ∈ nexts.map (Task.resume node)) : n = node := by
  obtain ⟨_, -, heq⟩ := List.mem_map.mp h
  exact (Task.resume.inj heq).1.symm

namespace Accounted

section

variable (h : Accounted L m waiting completed resumed)

include h

/-- A task **is done**, and a resumption is noted. -/
theorem done {task : Task} {tasks : List Task} (htasks : m.tasks = task :: tasks)
    (ht : SoundTask g L m.position task) :
    Accounted L { m with tasks } waiting completed
      (Transition.resumptions ⟨m, .task task, m'⟩ ++ resumed) := by
  have htail : ∀ node next, .resume node next ∈ tasks → ∃ id stop, Given L waiting node id stop :=
    fun node next hmem => h.tasks node next (htasks ▸ List.mem_cons_of_mem _ hmem)
  refine ⟨h.nodup, h.mem, h.latest, ?_, ?_, htail⟩
  · intro node id stop next hgiven
    change _ + tasks.count (.resume node next) = (m.parentsOf id).count next
    rw [← h.count node id stop next hgiven, htasks]
    cases ht with
    | derive => exact congrArg _ (List.count_cons_of_ne (by simp)).symm
    | @resume node' next' _ _ hresult =>
      change ((m.position, node', next') :: resumed).count _ + _ = _
      by_cases heq : node' = node ∧ next' = next
      · obtain ⟨rfl, rfl⟩ := heq
        obtain ⟨-, rfl⟩ := hgiven.unique hresult
        rw [List.count_cons_self, List.count_cons_self]
        omega
      · rw [List.count_cons_of_ne (by simpa using fun _ => not_and.mp heq),
          List.count_cons_of_ne (by simpa using heq)]
  · intro stop node next hmem
    rcases List.mem_append.mp hmem with hmem | hmem
    · cases ht with
      | derive => cases hmem
      | resume hresult =>
        obtain ⟨rfl, hpair⟩ := Prod.mk.inj (List.mem_singleton.mp hmem)
        obtain ⟨rfl, rfl⟩ := Prod.mk.inj hpair
        obtain ⟨id, stop, hgiven⟩ := h.tasks node next (htasks ▸ List.mem_cons_self)
        obtain ⟨-, rfl⟩ := hgiven.unique hresult
        exact ⟨id, hgiven⟩
    · exact h.given stop node next hmem

/-- Registrations that are served **are accounted for**. -/
theorem registers (hs : Registers L m waiting L' m' waiting') :
    Accounted L' m' waiting' completed resumed where
  nodup := h.nodup
  mem id stop node := (h.mem id stop node).trans (hs.given node id stop).symm
  latest id stop node hlatest := by
    rw [hs.latest] at hlatest
    exact (hs.given node id stop).mpr (h.latest id stop node hlatest)
  count node id stop next hgiven := by
    have hgiven := (hs.given node id stop).mp hgiven
    have hbefore := h.count node id stop next hgiven
    have hserved := hs.served node id stop next hgiven
    omega
  given stop node next hmem := by
    obtain ⟨id, hgiven⟩ := h.given stop node next hmem
    exact ⟨id, (hs.given node id stop).mpr hgiven⟩
  tasks node next hmem := by
    have hgiven : ∃ id stop, Given L waiting node id stop :=
      (hs.tasks node next hmem).elim (h.tasks node next) fun hgiven => hgiven
    obtain ⟨id, stop, hgiven⟩ := hgiven
    exact ⟨id, stop, (hs.given node id stop).mpr hgiven⟩

/-- A completion that is handed to all parents **is accounted for**. -/
theorem completes (hc : Completes L m waiting L' m' waiting' id node) :
    Accounted L' m' waiting'
      (fun i => if id = i then (m'.position, node) :: completed i else completed i) resumed := by
  have hold : ∀ {n i stop}, Given L waiting n i stop → Given L' waiting' n i stop :=
    fun hgiven => (hc.given _ _ _).mpr (.inr hgiven)
  have hnew : Given L' waiting' node id m'.position := (hc.given _ _ _).mpr (.inl ⟨rfl, rfl, rfl⟩)
  refine ⟨fun i => ?_, fun i stop n => ?_, fun i stop n hlatest => ?_,
    fun n i stop next hgiven => ?_, fun stop n next hmem => ?_, fun n next hmem => ?_⟩
  · -- no memo completes twice at a position
    split
    · exact List.nodup_cons.mpr ⟨fun hmem => hc.fresh _ _ ((h.mem _ _ _).mp hmem), h.nodup i⟩
    · exact h.nodup i
  · -- what is on record is what has been given
    rw [hc.given, ← h.mem]
    by_cases hid : id = i
    · subst hid
      rw [if_pos rfl, List.mem_cons, Prod.mk.injEq]
      exact or_congr_left ⟨fun ⟨hstop, hn⟩ => ⟨hn, rfl, hstop⟩, fun ⟨hn, _, hstop⟩ => ⟨hstop, hn⟩⟩
    · rw [if_neg hid]
      exact ⟨.inr, fun hmem => hmem.resolve_left fun ⟨_, heq, _⟩ => hid heq.symm⟩
  · -- the latest result of the memo is the new one
    rw [hc.latest] at hlatest
    split at hlatest
    · next heq =>
      obtain ⟨rfl, rfl⟩ := Prod.mk.inj (Option.some.inj hlatest)
      exact heq ▸ hnew
    · exact hold (h.latest i stop n hlatest)
  · -- a result is handed to each parent once: by a task now, or by one before
    rw [hc.parents, hc.tasks, List.count_append]
    rcases (hc.given n i stop).mp hgiven with ⟨rfl, rfl, rfl⟩ | hgiven
    · -- nothing has been done with the node before
      have hresumed : (m'.position, n, next) ∉ resumed := fun hmem =>
        let ⟨i, hgiven⟩ := h.given _ n next hmem
        hc.fresh i _ hgiven
      have htasks : .resume n next ∉ m.tasks := fun hmem =>
        let ⟨i, stop, hgiven⟩ := h.tasks n next hmem
        hc.fresh i stop hgiven
      have hinjective : Function.Injective (Task.resume n) := fun _ _ heq => (Task.resume.inj heq).2
      rw [List.count_eq_zero.mpr hresumed, List.count_eq_zero.mpr htasks, Nat.zero_add,
        Nat.add_zero, List.count_map_of_injective _ _ hinjective, List.count_reverse]
    · have hmap : .resume n next ∉ (m.parentsOf id).reverse.map (Task.resume node) := by
        intro hmem
        obtain rfl := eq_of_resume_mem_map hmem
        exact hc.fresh i stop hgiven
      rw [List.count_eq_zero.mpr hmap, Nat.zero_add]
      exact h.count n i stop next hgiven
  · -- what was resumed, or is to be, was given
    obtain ⟨i, hgiven⟩ := h.given stop n next hmem
    exact ⟨i, hold hgiven⟩
  · rw [hc.tasks, List.mem_append] at hmem
    rcases hmem with hmem | hmem
    · obtain rfl := eq_of_resume_mem_map hmem
      exact ⟨id, _, hnew⟩
    · obtain ⟨i, stop, hgiven⟩ := h.tasks n next hmem
      exact ⟨i, stop, hold hgiven⟩

end

end Accounted

/-- A change **is accounted for** once it is noted. Steps and recordings are of three kinds here:
they register, they complete, or they do neither. -/
theorem Accounted.progresses {ts : List Transition} {m₀ : Machine} {move : Move}
    (h : Accounted L m waiting (completions ts) resumed)
    (hp : Progresses L m waiting L' m' waiting') (hmemos : m₀.memos = m.memos) :
    Accounted L' m' waiting' (completions (⟨m₀, move, m'⟩ :: ts)) resumed := by
  have hbefore : ∀ i, m₀.latestOf i = m.latestOf i := by
    intro i
    rw [latestOf, latestOf, hmemos]
  rcases hp with hs | ⟨L₁, m₁, waiting₁, id, node, hs, hc⟩
  · have hnone : completions (⟨m₀, move, m'⟩ :: ts) = completions ts := by
      funext i
      rw [completions_cons, completions_of_latestOf_eq ((hs.latest i).trans (hbefore i).symm),
        List.nil_append]
    rw [hnone]
    exact h.registers hs
  · have hone : completions (⟨m₀, move, m'⟩ :: ts) =
        fun i => if id = i then (m'.position, node) :: completions ts i else completions ts i := by
      funext i
      have hlatest := hc.latest i
      rw [hs.latest, ← hbefore] at hlatest
      rw [completions_cons]
      split at hlatest
      · next hid =>
        rw [if_pos hid, completions_of_latestOf_ne hlatest, List.singleton_append]
        intro hold
        rw [hbefore] at hold
        exact hc.fresh i _ ((hs.given node i _).mpr (h.latest i _ node hold))
      · next hid =>
        rw [if_neg hid, completions_of_latestOf_eq hlatest, List.nil_append]
    rw [hone]
    exact (h.registers hs).completes hc

/-! ### Traces are accounted for -/

/-- A trace in which everything that has happened **is noted**. -/
structure Traced (L : Ledger) (ts : List Transition) (m : Machine)
    (waiting : List (NodeId × MemoId)) : Prop where
  accounted : Accounted L m waiting (completions ts) (resumptions ts)
  registered : ∀ id, registrations ts id = m.parentsOf id
  tabled : ∀ expr start id, Tabled ts expr start id ↔ L.goals[id]? = some ⟨expr, false, start⟩

/-- **A transition** is noted. -/
theorem Traced.extend {ts : List Transition} {m₀ : Machine} {move : Move}
    (h : Traced L ts m₀ waiting) (hmemos : m₀.memos = m.memos)
    (ha : Accounted L m waiting (completions ts)
      (Transition.resumptions ⟨m₀, move, m'⟩ ++ resumptions ts))
    (hp : Progresses L m waiting L' m' waiting') (hgrows : L.Grows L') (hs : Sound g w L' m')
    (hgoals : ∀ (id : MemoId) expr start, L'.goals[id]? = some ⟨expr, false, start⟩ →
      L.goals[id]? = some ⟨expr, false, start⟩ ∨
        start = m'.position ∧ m'.table[expr]? = some id) :
    Traced L' (⟨m₀, move, m'⟩ :: ts) m' waiting' where
  accounted := by
    rw [resumptions_cons]
    exact ha.progresses hp hmemos
  registered id := by
    have hparents := hp.parents id
    rw [parentsOf, ← hmemos, ← parentsOf] at hparents
    rw [registrations_cons, h.registered, registrations_append_of_suffix hparents]
  tabled expr start id := by
    rw [tabled_cons, h.tabled]
    constructor
    · rintro (⟨rfl, htable⟩ | hgoal)
      · exact hs.table expr id htable
      · exact hgrows.goal hgoal
    · intro hgoal
      exact (hgoals id expr start hgoal).symm.imp_left (And.imp_left Eq.symm)

theorem traced_initial (g : Grammar) (w : List String) :
    Traced {} [] { Machine.initial g with lookahead := w[0]? } [] where
  accounted := {
    nodup := fun _ => List.nodup_nil
    mem := by simp [completions, Given]
    latest := by simp [latestOf, Machine.initial]
    count := by simp [Given]
    given := by simp [resumptions]
    tasks := by simp [Machine.initial] }
  registered := by simp [registrations, parentsOf, Machine.initial]
  tabled := by simp [Tabled]

/-- In every trace what has happened **is noted**, and the machine is faithful. This is what the
other results about traces rest on: the ledger, the waiting results and the accounts, together at
every point. -/
theorem Trace.exists_traced {ts : List Transition} (h : Trace g w ts m waiting) :
    ∃ L, Faithful g w L m (waiting ++ m.matched) ∧ Waiting g L m waiting ∧
      (waiting = [] ∨ m.matched = []) ∧ Traced L ts m (waiting ++ m.matched) := by
  induction h with
  | start =>
    exact ⟨{}, faithful_initial g w, by simp [Waiting], .inl rfl, traced_initial g w⟩
  -- a step
  | @task ts m m' task tasks _ htasks hstep ih =>
    obtain ⟨L, hf, -, -, ht⟩ := ih
    rw [List.nil_append] at ht
    have hf₀ : Faithful g w L (Machine.withTasks { m with tasks } [task]) m.matched := by
      rw [← eq_withTasks htasks]
      exact hf
    have hs : Sound g w L { m with tasks } := hf₀.sound.of_withTasks
    have hst := hf₀.sound.task task List.mem_cons_self
    have hu : Unique L { m with tasks } m.matched :=
      hf₀.unique.congr rfl (fun _ _ _ hn => hn) rfl fun _ => rfl
    obtain ⟨L', ho⟩ := hs.exists_outcome_of_step hst hstep
    have hf' : Faithful g w L' m' m'.matched := Faithful.outcome hf₀ ho
    refine ⟨L', hf', by simp [Waiting], .inl rfl, ?_⟩
    refine ht.extend (m := { m with tasks }) rfl (ht.accounted.done htasks hst)
      (progresses_outcome hs hu hst ho) (proceeds_outcome ho).grows hf'.sound
        fun id expr start hgoal => ?_
    refine (goals_outcome ho hgoal).imp_right fun hstart => ?_
    -- only memos of this position are new, and these are in the table
    have hposition : m'.position = m.position := (proceeds_outcome ho).position
    obtain rfl : start = m'.position := hstart.trans hposition.symm
    exact ⟨rfl, hf'.distinct.table id expr hgoal⟩
  -- the machine goes to the next position, where what has matched waits
  | @turn ts m symbol _ htasks hlook hmatched ih =>
    obtain ⟨L, hf, -, -, ht⟩ := ih
    rw [List.nil_append] at hf ht
    obtain ⟨hf', hwait⟩ := hf.nextPosition htasks hlook hmatched
    have hnone : (m.nextPosition w[m.position + 1]?).matched = [] := rfl
    refine ⟨L, ?_, hwait, .inr hnone, ?_⟩
    · rwa [hnone, List.append_nil]
    · rw [hnone, List.append_nil]
      exact ht.extend rfl ht.accounted (.inl (.nextPosition L m _)) (.refl L) hf'.sound
        fun _ _ _ => .inl
  -- the first result that waits is recorded
  | @record ts m m' node id waiting _ hcomplete ih =>
    obtain ⟨L, hf, hwait, hnone, ht⟩ := ih
    have hnone : m.matched = [] := hnone.resolve_left (List.cons_ne_nil _ _)
    rw [hnone, List.append_nil] at hf ht
    cases hmemo : m.memos[id]? with
    | none =>
      rw [complete, Machine.memo, hmemo] at hcomplete
      cases hcomplete
    | some memo =>
      obtain rfl := Except.ok.inj ((complete_eq hmemo node).symm.trans hcomplete)
      obtain ⟨hf', hwait', -⟩ := hf.record hwait hmemo
      have hnone' : (m.completedWith id memo node).matched = [] := hnone
      have hnot : (node, id) ∉ waiting := fun hmem =>
        (List.nodup_cons.mp hf.unique.nodup).1 (List.mem_map.mpr ⟨_, hmem, rfl⟩)
      refine ⟨L, ?_, hwait', .inr hnone', ?_⟩
      · rwa [hnone', List.append_nil]
      · rw [hnone', List.append_nil]
        exact ht.extend rfl ht.accounted (Completes.completedWith
          (hwait node id List.mem_cons_self).1 hnot hmemo).progresses (.refl L) hf'.sound
            fun _ _ _ => .inl

/-! ### Parses have traces -/

/-- At one position the machine stops early **for a fault** only. With a bound that is large enough
there is no such fault, so it never stops early. -/
theorem broken_of_look {totalWidth maxSteps : Nat} {symbol : Option String} {stop : Stop}
    (hlook : m.look g totalWidth maxSteps symbol = .error stop) :
    ∃ fault, stop = .broken fault := by
  rw [Machine.look] at hlook
  generalize Machine.run g _ _ = ran at hlook
  cases ran with
  | error fault => exact ⟨fault, (Except.error.inj hlook).symm⟩
  | ok m₁ => cases hlook

namespace Trace

variable {ts : List Transition}

/-- A trace goes on **with every run**. -/
theorem run {fuel : Nat} (h : Trace g w ts m []) (hrun : Machine.run g fuel m = .ok m') :
    ∃ ts', Trace g w ts' m' [] ∧ m'.tasks = [] ∧ m'.position = m.position := by
  induction fuel using Nat.strongRecOn generalizing ts m with
  | ind fuel ih =>
    cases htasks : m.tasks with
    | nil =>
      rw [run_of_nil g fuel htasks] at hrun
      cases hrun
      exact ⟨ts, h, htasks, rfl⟩
    | cons task tasks =>
      obtain ⟨fuel', hlt, m₁, hstep, hrun⟩ := exists_step_of_run htasks hrun
      obtain ⟨L, hf, -⟩ := h.exists_traced
      have hs : Sound g w L (Machine.withTasks { m with tasks } [task]) := by
        rw [← eq_withTasks htasks]
        exact hf.sound
      obtain ⟨L', ho⟩ :=
        hs.of_withTasks.exists_outcome_of_step (hs.task task List.mem_cons_self) hstep
      obtain ⟨ts', htrace, hnone, hposition⟩ := ih fuel' hlt (h.task htasks hstep) hrun
      exact ⟨ts', htrace, hnone, hposition.trans (proceeds_outcome ho).position⟩

/-- A trace goes on with **everything that waits** recorded. -/
theorem recordAll (h : Trace g w ts m waiting)
    (hall : waiting.foldlM (fun m (node, memo) => Machine.complete m memo node) m =
      (.ok m' : Except Fault Machine)) :
    ∃ ts', Trace g w ts' m' [] ∧ m'.position = m.position := by
  induction waiting generalizing ts m with
  | nil =>
    cases hall
    exact ⟨ts, h, rfl⟩
  | cons pair waiting ih =>
    obtain ⟨memo, hmemo, hall⟩ := exists_record_of_foldlM hall
    obtain ⟨ts', htrace, hposition⟩ := ih (h.record (complete_eq hmemo _)) hall
    exact ⟨ts', htrace, hposition⟩

/-- A trace goes on **at the next position**. -/
theorem advance {symbol : String} (h : Trace g w ts m []) (htasks : m.tasks = [])
    (hlook : m.lookahead = some symbol) (hmatched : m.matched ≠ [])
    (hadvance : m.advance = .ok m') :
    ∃ ts', Trace g w ts' { m' with lookahead := w[m'.position]? } [] ∧
      m'.position = m.position + 1 := by
  have hall := advance_eq m w[m.position + 1]?
  rw [hadvance] at hall
  obtain ⟨ts', htrace, hposition⟩ := (h.turn htasks hlook hmatched).recordAll hall
  have hposition : m'.position = m.position + 1 := hposition
  have hsymbol : w[m'.position]? = w[m.position + 1]? := by rw [hposition]
  refine ⟨ts', ?_, hposition⟩
  rw [hsymbol]
  exact htrace

/-- A trace goes on **with a symbol in sight**, until no task is left. -/
theorem look {totalWidth maxSteps : Nat}
    (h : Trace g w ts { m with lookahead := w[m.position]? } [])
    (hlook : m.look g totalWidth maxSteps w[m.position]? = .ok m') :
    ∃ ts', Trace g w ts' m' [] ∧ m'.tasks = [] ∧ m'.position = m.position := by
  obtain ⟨fuel, hrun⟩ := run_of_look hlook
  exact Trace.run (m := { m with lookahead := w[m.position]? }) h hrun

/-- Reading an input **goes on with the trace** to the end of the input, or to a symbol that nothing
matches. -/
theorem readAll {totalWidth maxSteps : Nat} {rest : List String}
    (h : Trace g w ts { m with lookahead := w[m.position]? } []) (hrest : w.drop m.position = rest)
    (hbroken : ∀ fault, m.readAll g totalWidth maxSteps rest ≠ .error (.broken fault)) :
    ∃ ts' m', Trace g w ts' m' [] ∧ m'.tasks = [] ∧
      (m.readAll g totalWidth maxSteps rest = .ok m' ∨
        m.readAll g totalWidth maxSteps rest = .error (.rejected m'.position)) := by
  induction rest generalizing ts m with
  | nil =>
    have hnone : w[m.position]? = none := by simpa using hrest
    cases hlook : m.look g totalWidth maxSteps w[m.position]? with
    | error stop =>
      obtain ⟨fault, rfl⟩ := broken_of_look hlook
      rw [hnone] at hlook
      exact absurd hlook (hbroken fault)
    | ok m₁ =>
      obtain ⟨ts', htrace, htasks, -⟩ := h.look hlook
      rw [hnone] at hlook
      exact ⟨ts', m₁, htrace, htasks, .inl hlook⟩
  | cons symbol rest ih =>
    obtain ⟨hsymbol, hdrop⟩ := symbol_of_drop hrest
    rw [Machine.readAll, ← hsymbol] at hbroken ⊢
    cases hlook : m.look g totalWidth maxSteps w[m.position]? with
    | error stop =>
      obtain ⟨fault, rfl⟩ := broken_of_look hlook
      rw [hlook] at hbroken
      exact absurd rfl (hbroken fault)
    | ok m₁ =>
      obtain ⟨ts₁, htrace, htasks, hposition⟩ := h.look hlook
      rw [hlook] at hbroken
      simp only [bind, Except.bind] at hbroken ⊢
      -- without a match the input is rejected, and otherwise the trace goes on
      by_cases hmatched : m₁.matched = []
      · refine ⟨ts₁, m₁, htrace, htasks, .inr ?_⟩
        simp [hmatched, throw, throwThe, MonadExceptOf.throw]
      · have hsome : m₁.matched.isEmpty = false := by simpa using hmatched
        rw [hsome] at hbroken ⊢
        cases hadvance : m₁.advance with
        | error fault =>
          rw [hadvance] at hbroken
          exact absurd rfl (hbroken fault)
        | ok m₂ =>
          rw [hadvance] at hbroken
          obtain ⟨L, hf, -⟩ := htrace.exists_traced
          have hlook₁ : m₁.lookahead = some symbol := by
            rw [hf.sound.lookahead, hposition, hsymbol]
          obtain ⟨ts₂, htrace₂, hposition₂⟩ := htrace.advance htasks hlook₁ hmatched hadvance
          refine ih htrace₂ ?_ hbroken
          rw [hposition₂, hposition, hdrop]

end Trace

end

end Machine

open Machine in
/-- **A parse is a run** of the machine that ends with no task left, whether the input has a forest
or is rejected. -/
theorem Forest.exists_trace {g : Grammar} (hg : g.Closed) (w : List String) :
    ∃ ts m, Trace g w ts m [] ∧ m.tasks = [] ∧
      (Forest.parse g w = .ok ⟨m.nodes, m.roots, m.position⟩ ∧ m.roots ≠ [] ∨
        Forest.parse g w = .error (.rejected m.position)) := by
  obtain ⟨L, m₀, -, -, hparse⟩ := exists_faithful hg w
  have hbroken : ∀ fault, (Machine.initial g).readAll g g.totalWidth g.maxSteps w ≠
      .error (.broken fault) := by
    intro fault hread
    rw [Forest.parse, hread] at hparse
    rcases hparse with ⟨heq, -⟩ | ⟨heq, -⟩ <;> cases heq
  obtain ⟨ts, m, htrace, htasks, hread⟩ :=
    Trace.readAll (m := Machine.initial g) .start List.drop_zero hbroken
  refine ⟨ts, m, htrace, htasks, ?_⟩
  rw [Forest.parse]
  rcases hread with hread | hread
  · rw [hread]
    cases hroots : m.roots with
    | nil => exact .inr (by simp [hroots, bind, Except.bind, throw, throwThe, MonadExceptOf.throw])
    | cons root roots =>
      exact .inl ⟨by simp [hroots, bind, Except.bind, pure, Except.pure], List.cons_ne_nil _ _⟩
  · rw [hread]
    exact .inr rfl

end GeneralParsing
