import GeneralParsing.Proofs.Machine.Runs

/-!
# The machines that are come by

What holds of a machine at the end of an input, and is not a matter of its tables alone, is seen by
going with it from the beginning. `Reached g w L m` says that the machine is come by on an input: it
is the one at the beginning, or the outcome of a task, or it has moved on to the next position.
Every forest is that of a machine which is reached and has no task left
(`Forest.exists_reached`).

Machines of two grammars can be compared over a whole input when they are related in a way that runs
and moves to the next position keep (`Machine.KeepsStep`). The induction on the input is made here
once for all such relations (`Machine.KeepsStep.readAll`).
-/

namespace GeneralParsing

namespace Machine

/-- The machine **is come by** on the input, with the ledger of what its numbers stand for. -/
inductive Reached (g : Grammar) (w : List String) : Ledger → Machine → Prop
  | start : Reached g w {} { Machine.initial g with lookahead := w[0]? }
  | outcome {L L' : Ledger} {m m' : Machine} {task : Task}
      (h : Reached g w L (m.withTasks [task])) (ho : Outcome g L m task L' m') : Reached g w L' m'
  | advance {L : Ledger} {m m' : Machine} {symbol : String} (h : Reached g w L m)
      (htasks : m.tasks = []) (hlook : m.lookahead = some symbol) (hmatched : m.matched ≠ [])
      (hadvance : m.advance = .ok m') :
      Reached g w L { m' with lookahead := w[m'.position]? }

variable {g : Grammar} {w : List String} {L : Ledger} {m m' : Machine}

/-- A machine that is reached **is faithful**. -/
theorem Reached.faithful (h : Reached g w L m) : Faithful g w L m m.matched := by
  induction h with
  | start => exact faithful_initial g w
  | outcome _ ho ih => exact ih.outcome ho
  | @advance L m m' symbol _ htasks hlook hmatched hadvance ih =>
    obtain ⟨m'', hadvance', hfaithful, -, hposition, hnone⟩ := ih.advance htasks hlook hmatched
    obtain rfl : m' = m'' := Except.ok.inj (hadvance.symm.trans hadvance')
    rw [← hposition, ← hnone] at hfaithful
    exact hfaithful

/-! ### Runs, taken apart -/

theorem run_of_nil (g : Grammar) (fuel : Nat) (htasks : m.tasks = []) :
    Machine.run g fuel m = .ok m := by
  rw [Machine.run, htasks]

/-- A run that ends **does the first task** and goes on. Properties of reached machines are carried
along a run by this, one step at a time. -/
theorem exists_step_of_run {fuel : Nat} {task : Task} {tasks : List Task}
    (htasks : m.tasks = task :: tasks) (hrun : Machine.run g fuel m = .ok m') :
    ∃ fuel' < fuel, ∃ m₁, Machine.step g { m with tasks } task = .ok m₁ ∧
      Machine.run g fuel' m₁ = .ok m' := by
  rw [Machine.run, htasks] at hrun
  cases fuel with
  | zero => cases hrun
  | succ fuel =>
    cases hstep : Machine.step g { m with tasks } task with
    | error fault =>
      simp only [hstep] at hrun
      cases hrun
    | ok m₁ =>
      simp only [hstep] at hrun
      exact ⟨fuel, Nat.lt_succ_self fuel, m₁, rfl, hrun⟩

theorem run_of_look {totalWidth maxSteps : Nat} {symbol : Option String}
    (hlook : m.look g totalWidth maxSteps symbol = .ok m') :
    ∃ fuel, Machine.run g fuel { m with lookahead := symbol } = .ok m' := by
  rw [Machine.look] at hlook
  generalize stepBound g.size totalWidth maxSteps _ = fuel at hlook
  refine ⟨fuel, ?_⟩
  cases hrun : Machine.run g fuel { m with lookahead := symbol } with
  | error fault =>
    rw [hrun] at hlook
    cases hlook
  | ok m₁ =>
    rw [hrun] at hlook
    cases hlook
    rfl

/-- Reading that ends **reads the first symbol**, which something matches, and goes on. Both parts
of it are successful, so that the induction on the input can go on. -/
theorem exists_advance_of_readAll {totalWidth maxSteps : Nat} {symbol : String}
    {rest : List String} (hread : m.readAll g totalWidth maxSteps (symbol :: rest) = .ok m') :
    ∃ m₁ m₂, m.look g totalWidth maxSteps (some symbol) = .ok m₁ ∧ m₁.matched ≠ [] ∧
      m₁.advance = .ok m₂ ∧ m₂.readAll g totalWidth maxSteps rest = .ok m' := by
  rw [Machine.readAll] at hread
  cases hlook : m.look g totalWidth maxSteps (some symbol) with
  | error stop =>
    rw [hlook] at hread
    cases hread
  | ok m₁ =>
    rw [hlook] at hread
    cases hmatched : m₁.matched with
    | nil => simp [hmatched, bind, Except.bind, throw, throwThe, MonadExceptOf.throw] at hread
    | cons pair waiting =>
      simp only [hmatched, bind, Except.bind] at hread
      cases hadvance : m₁.advance with
      | error fault =>
        simp [hadvance, Except.mapError] at hread
      | ok m₂ =>
        simp only [hadvance, Except.mapError] at hread
        exact ⟨m₁, m₂, rfl, by simp [hmatched], hadvance, hread⟩

/-- Recording what waits that ends **records the first result** and goes on. -/
theorem exists_record_of_foldlM {node : NodeId} {id : MemoId} {waiting : List (NodeId × MemoId)}
    (hall : ((node, id) :: waiting).foldlM (fun m (node, memo) => Machine.complete m memo node) m =
      (.ok m' : Except Fault Machine)) :
    ∃ memo, m.memos[id]? = some memo ∧
      waiting.foldlM (fun m (node, memo) => Machine.complete m memo node)
        (m.completedWith id memo node) = (.ok m' : Except Fault Machine) := by
  rw [List.foldlM_cons] at hall
  cases hmemo : m.memos[id]? with
  | none =>
    simp only [complete, Machine.memo, hmemo] at hall
    cases hall
  | some memo =>
    simp only [complete_eq hmemo] at hall
    exact ⟨memo, rfl, hall⟩

/-! ### Runs end in what is reached -/

/-- **A step** leads from what is reached to what is reached. -/
theorem Reached.step {task : Task} (h : Reached g w L (m.withTasks [task]))
    (hstep : Machine.step g m task = .ok m') :
    ∃ L', Outcome g L m task L' m' ∧ Reached g w L' m' ∧ m'.position = m.position := by
  have hs := h.faithful.sound
  obtain ⟨L', ho⟩ := hs.of_withTasks.exists_outcome_of_step (hs.task task List.mem_cons_self) hstep
  exact ⟨L', ho, h.outcome ho, (proceeds_outcome ho).position⟩

/-- Where a run ends **is reached**, at the same position. -/
theorem Reached.run {fuel : Nat} (h : Reached g w L m)
    (hrun : Machine.run g fuel m = .ok m') :
    ∃ L', Reached g w L' m' ∧ m'.tasks = [] ∧ m'.position = m.position := by
  induction fuel using Nat.strongRecOn generalizing L m with
  | ind fuel ih =>
    cases htasks : m.tasks with
    | nil =>
      rw [run_of_nil g fuel htasks] at hrun
      cases hrun
      exact ⟨L, h, htasks, rfl⟩
    | cons task tasks =>
      obtain ⟨fuel', hlt, m₁, hstep, hrun⟩ := exists_step_of_run htasks hrun
      rw [eq_withTasks htasks] at h
      obtain ⟨L₁, -, hreached₁, hposition₁⟩ := h.step hstep
      obtain ⟨L', hreached, hnone, hposition⟩ := ih fuel' hlt hreached₁ hrun
      exact ⟨L', hreached, hnone, hposition.trans hposition₁⟩

/-- What the machine comes to **with a symbol in sight** is reached. -/
theorem Reached.look {m : Machine}
    (h : Reached g w L { m with lookahead := w[m.position]? }) {totalWidth maxSteps : Nat}
    (hlook : m.look g totalWidth maxSteps w[m.position]? = .ok m') :
    ∃ L', Reached g w L' m' ∧ m'.tasks = [] ∧ m'.position = m.position := by
  obtain ⟨fuel, hrun⟩ := run_of_look hlook
  exact Reached.run (m := { m with lookahead := w[m.position]? }) h hrun

/-- What **moving on** comes to is reached. -/
theorem Reached.advanced (h : Reached g w L m) (htasks : m.tasks = [])
    (hin : w[m.position]?.isSome) (hmatched : m.matched ≠ []) (hadvance : m.advance = .ok m') :
    Reached g w L { m' with lookahead := w[m'.position]? } ∧ m'.position = m.position + 1 := by
  obtain ⟨symbol, hsymbol⟩ := Option.isSome_iff_exists.mp hin
  have hlook : m.lookahead = some symbol := by rw [h.faithful.sound.lookahead, hsymbol]
  obtain ⟨m₂, hadvance', -, -, hposition, -⟩ := h.faithful.advance htasks hlook hmatched
  obtain rfl : m' = m₂ := Except.ok.inj (hadvance.symm.trans hadvance')
  exact ⟨h.advance htasks hlook hmatched hadvance, hposition⟩

/-- What is come to with **the symbol in sight read** is reached. -/
theorem Reached.readNext {m m₁ m₂ : Machine} {symbol : String} {rest : List String}
    (h : Reached g w L { m with lookahead := w[m.position]? })
    (hrest : w.drop m.position = symbol :: rest) {totalWidth maxSteps : Nat}
    (hlook : m.look g totalWidth maxSteps (some symbol) = .ok m₁) (hmatched : m₁.matched ≠ [])
    (hadvance : m₁.advance = .ok m₂) :
    (∃ L', Reached g w L' { m₂ with lookahead := w[m₂.position]? }) ∧
      m₂.position = m.position + 1 ∧ w.drop m₂.position = rest := by
  obtain ⟨hsymbol, hdrop⟩ := symbol_of_drop hrest
  rw [← hsymbol] at hlook
  obtain ⟨L₁, hreached, htasks, hposition⟩ := h.look hlook
  obtain ⟨hreached₂, hposition₂⟩ :=
    hreached.advanced htasks (by rw [hposition, hsymbol]; rfl) hmatched hadvance
  rw [hposition] at hposition₂
  exact ⟨⟨L₁, hreached₂⟩, hposition₂, hposition₂ ▸ hdrop⟩

/-- Where the reading of symbols ends **is reached**. -/
theorem Reached.readAll {rest : List String} {m : Machine}
    (h : Reached g w L { m with lookahead := w[m.position]? }) (hrest : w.drop m.position = rest)
    {totalWidth maxSteps : Nat} (hread : m.readAll g totalWidth maxSteps rest = .ok m') :
    ∃ L', Reached g w L' m' ∧ m'.tasks = [] ∧ m'.position = m.position + rest.length := by
  induction rest generalizing L m with
  | nil =>
    have hnone : w[m.position]? = none := by simpa using hrest
    rw [Machine.readAll, ← hnone] at hread
    exact h.look hread
  | cons symbol rest ih =>
    obtain ⟨m₁, m₂, hlook, hmatched, hadvance, hread⟩ := exists_advance_of_readAll hread
    obtain ⟨⟨L₂, hreached⟩, hposition, hdrop⟩ := h.readNext hrest hlook hmatched hadvance
    obtain ⟨L', hreached', htasks', hposition'⟩ := ih hreached hdrop hread
    refine ⟨L', hreached', htasks', ?_⟩
    rw [hposition', hposition, List.length_cons, Nat.add_right_comm, Nat.add_assoc]

/-! ### Two machines in step -/

/-- Related machines of two grammars **keep in step** while they read an input. They are at the same
position, they come to related machines with any symbol in sight, and so they do by moving on. -/
structure KeepsStep (g h : Grammar) (w : List String) (Rel : Machine → Machine → Prop) : Prop where
  position : ∀ {m m'}, Rel m m' → m'.position = m.position
  withLookahead : ∀ {m m'} (symbol : Option String), Rel m m' →
    Rel { m with lookahead := symbol } { m' with lookahead := symbol }
  /-- The two runs may be of different lengths. -/
  run : ∀ {L L' m m' m₁ m₁' fuel fuel'}, Rel m m' → Reached g w L m → Reached h w L' m' →
    Machine.run g fuel m = .ok m₁ → Machine.run h fuel' m' = .ok m₁' → Rel m₁ m₁'
  advance : ∀ {m m' m₁ m₁'}, Rel m m' → m.advance = .ok m₁ → m'.advance = .ok m₁' → Rel m₁ m₁'

namespace KeepsStep

variable {h : Grammar} {L' : Ledger} {m₁ m₁' : Machine} {Rel : Machine → Machine → Prop}
variable {totalWidth totalWidth' maxSteps maxSteps' : Nat}

/-- What comes of **a symbol in sight**, in both machines. -/
theorem look (hkeeps : KeepsStep g h w Rel) (hm : Rel m m') {symbol : Option String}
    (hr : Reached g w L { m with lookahead := symbol })
    (hr' : Reached h w L' { m' with lookahead := symbol })
    (hlook : m.look g totalWidth maxSteps symbol = .ok m₁)
    (hlook' : m'.look h totalWidth' maxSteps' symbol = .ok m₁') : Rel m₁ m₁' := by
  obtain ⟨fuel, hrun⟩ := run_of_look hlook
  obtain ⟨fuel', hrun'⟩ := run_of_look hlook'
  exact hkeeps.run (hkeeps.withLookahead symbol hm) hr hr' hrun hrun'

/-- **Reading an input**, in both machines. What is in sight is the same, since they are at the same
position. -/
theorem readAll (hkeeps : KeepsStep g h w Rel) (hm : Rel m m') {rest : List String}
    (hr : Reached g w L { m with lookahead := w[m.position]? })
    (hr' : Reached h w L' { m' with lookahead := w[m'.position]? })
    (hrest : w.drop m.position = rest)
    (hread : m.readAll g totalWidth maxSteps rest = .ok m₁)
    (hread' : m'.readAll h totalWidth' maxSteps' rest = .ok m₁') : Rel m₁ m₁' := by
  induction rest generalizing L L' m m' with
  | nil =>
    have hnone : w[m.position]? = none := by simpa using hrest
    have hnone' : w[m'.position]? = none := hkeeps.position hm ▸ hnone
    exact hkeeps.look hm (hnone ▸ hr) (hnone' ▸ hr') hread hread'
  | cons symbol rest ih =>
    obtain ⟨m₂, m₃, hlook, hmatched, hadvance, hread⟩ := exists_advance_of_readAll hread
    obtain ⟨m₂', m₃', hlook', hmatched', hadvance', hread'⟩ := exists_advance_of_readAll hread'
    have hsymbol : w[m.position]? = some symbol := (symbol_of_drop hrest).1
    have hsymbol' : w[m'.position]? = some symbol := hkeeps.position hm ▸ hsymbol
    have hm₂ := hkeeps.look hm (hsymbol ▸ hr) (hsymbol' ▸ hr') hlook hlook'
    obtain ⟨⟨L₃, hreached⟩, -, hdrop⟩ := hr.readNext hrest hlook hmatched hadvance
    obtain ⟨⟨L₃', hreached'⟩, -, -⟩ :=
      hr'.readNext (hkeeps.position hm ▸ hrest) hlook' hmatched' hadvance'
    exact ih (hkeeps.advance hm₂ hadvance hadvance') hreached hreached' hdrop hread hread'

end KeepsStep

end Machine

open Machine in
/-- A forest is what the machine holds **when the input is read**. Without roots the input would
have been rejected. -/
theorem Forest.exists_readAll {g : Grammar} {w : List String} {f : Forest}
    (hf : Forest.parse g w = .ok f) :
    ∃ m, (Machine.initial g).readAll g g.totalWidth g.maxSteps w = .ok m ∧
      f = ⟨m.nodes, m.roots, m.position⟩ ∧ m.roots ≠ [] := by
  rw [Forest.parse] at hf
  cases hread : (Machine.initial g).readAll g g.totalWidth g.maxSteps w with
  | error stop =>
    rw [hread] at hf
    cases hf
  | ok m =>
    rw [hread] at hf
    cases hroots : m.roots with
    | nil => simp [hroots, bind, Except.bind, throw, throwThe, MonadExceptOf.throw] at hf
    | cons root roots =>
      simp only [hroots, bind, Except.bind] at hf
      obtain rfl := Except.ok.inj hf
      exact ⟨m, rfl, by rw [hroots], by simp [hroots]⟩

open Machine in
/-- A forest is that of **a machine that is reached** at the end of the input, with no task left.
All results about forests begin here, with the invariants of such a machine. -/
theorem Forest.exists_reached {g : Grammar} {w : List String} {f : Forest}
    (hf : Forest.parse g w = .ok f) : ∃ L m, Reached g w L m ∧ m.tasks = [] ∧
      f = ⟨m.nodes, m.roots, m.position⟩ ∧ m.roots ≠ [] ∧ m.position = w.length := by
  obtain ⟨m, hread, rfl, hroots⟩ := exists_readAll hf
  obtain ⟨L, hreached, htasks, hposition⟩ := Reached.readAll .start List.drop_zero hread
  exact ⟨L, m, hreached, htasks, rfl, hroots, hposition.trans (Nat.zero_add _)⟩

end GeneralParsing
