import GeneralParsing.Proofs.Derivation.Counterparts
import GeneralParsing.Proofs.Machine.Reached
import GeneralParsing.Proofs.Machine.Sought

/-!
# Runs of grammars with counterparts

Counterparts are derived in the same way, but not always shared in the same way: two expressions may
have one counterpart, and where both are looked for one grammar has two memos and the other one.
Grammars **share alike** on an input when, of what is looked for at one position, different
expressions have different counterparts (`Grammar.SharesAlike`).

Then their machines go in step. They are in the same state but for the names of expressions
(`Machine.Renamed`), a step of one is answered by a step of the other (`Machine.Renamed.step`), and
so they end with the same results, in the same order (`Machine.keepsStep_renamed`).
-/

namespace GeneralParsing

/-- A continuation **under other names** for the expressions. -/
inductive Continuation.Renamed (R : ExprId → ExprId → Prop) : Continuation → Continuation → Prop
  | accept : Renamed R .accept .accept
  | sequence {tag : Option String} {memo : MemoId} {done : List NodeId} {rest rest' : List ExprId}
      (hrest : List.Forall₂ R rest rest') :
      Renamed R (.sequence tag memo done rest) (.sequence tag memo done rest')
  | choice {tag : Option String} {memo : MemoId} : Renamed R (.choice tag memo) (.choice tag memo)
  | repetition {tag : Option String} {memo : MemoId} {done : List NodeId} {child child' : ExprId}
      {count min : Nat} {max : Option Nat} (hchild : R child child') :
      Renamed R (.repetition tag memo done child count min max)
        (.repetition tag memo done child' count min max)
  | omitted {memo : MemoId} : Renamed R (.omitted memo) (.omitted memo)
  | lexical {memo : MemoId} : Renamed R (.lexical memo) (.lexical memo)

/-- A task **under other names**. -/
inductive Task.Renamed (R : ExprId → ExprId → Prop) : Task → Task → Prop
  | derive {next next' : Continuation} {id id' : ExprId} (hnext : next.Renamed R next')
      (hid : R id id') : Renamed R (.derive next id) (.derive next' id')
  | resume {node : NodeId} {next next' : Continuation} (hnext : next.Renamed R next') :
      Renamed R (.resume node next) (.resume node next')

/-- A memo **under other names**. -/
structure Memo.Renamed (R : ExprId → ExprId → Prop) (memo memo' : Memo) : Prop where
  start : memo'.start = memo.start
  latest : memo'.latest = memo.latest
  parents : List.Forall₂ (Continuation.Renamed R) memo.parents memo'.parents

variable {R Meet : ExprId → ExprId → Prop}

/-- A terminal matches **itself** only. -/
theorem Expr.Matches.eq_of_isTerminal {x y : Expr} (hxy : Matches R x y)
    (hx : x.isTerminal = true) : y = x := by
  cases hxy with
  | token | pattern => rfl
  | _ => cases hx

/-- Memos that differ in names only have **the same result** at each position, since results are
nodes and nodes keep their numbers. -/
theorem Memo.Renamed.resultAt_eq {memo memo' : Memo} (h : memo.Renamed R memo') (position : Nat) :
    memo'.resultAt position = memo.resultAt position := by
  rw [resultAt, resultAt, h.latest]

namespace Machine

/-- A machine **under other names**: everything but the names is the same, and names that meet here
have the same memo here. -/
structure Renamed (R Meet : ExprId → ExprId → Prop) (m m' : Machine) : Prop where
  nodes : m'.nodes = m.nodes
  memos_size : m'.memos.size = m.memos.size
  memo : ∀ (id : MemoId) memo, m.memos[id]? = some memo →
    ∃ memo', m'.memos[id]? = some memo' ∧ memo.Renamed R memo'
  table : ∀ a b, Meet a b → m'.table[b]? = m.table[a]?
  tasks : List.Forall₂ (Task.Renamed R) m.tasks m'.tasks
  matched : m'.matched = m.matched
  roots : m'.roots = m.roots
  position : m'.position = m.position
  lookahead : m'.lookahead = m.lookahead

section

variable {m m' m₁ : Machine} {id : MemoId} {memo memo' : Memo} {next next' : Continuation}

/-! ### Moves -/

/-- Machines that differ in names only **remain such** when they get tasks that do, and so after
each of the moves below. -/
theorem Renamed.withTasks (h : Renamed R Meet m m') {tasks tasks' : List Task}
    (htasks : List.Forall₂ (Task.Renamed R) tasks tasks') :
    Renamed R Meet (m.withTasks tasks) (m'.withTasks tasks') :=
  { h with tasks := List.rel_append htasks h.tasks }

theorem Renamed.withRoot (h : Renamed R Meet m m') (node : NodeId) :
    Renamed R Meet (m.withRoot node) (m'.withRoot node) :=
  { h with roots := congrArg (· ++ [node]) h.roots }

/-- Both machines give a new node **the same number**, as they have equally many. So the nodes of
both forests come out the same, number by number. -/
theorem Renamed.addNode (h : Renamed R Meet m m') (kind : Forest.Kind) (span : Span) :
    Renamed R Meet (m.addNode kind span).1 (m'.addNode kind span).1 :=
  { h with nodes := by simp only [Machine.addNode, h.nodes] }

theorem Renamed.joinedWith (h : Renamed R Meet m m') (choice : NodeId) (tag : Option String)
    (alternatives : List NodeId) (span : Span) (node : NodeId) :
    Renamed R Meet (m.joinedWith choice tag alternatives span node)
      (m'.joinedWith choice tag alternatives span node) :=
  { h with nodes := by simp only [Machine.joinedWith, h.nodes] }

theorem Renamed.matchedWith (h : Renamed R Meet m m') (id : MemoId) (symbol : String) :
    Renamed R Meet (m.matchedWith id symbol) (m'.matchedWith id symbol) where
  nodes := by simp only [Machine.matchedWith, Machine.addNode, h.nodes, h.position]
  memos_size := h.memos_size
  memo := h.memo
  table := h.table
  tasks := h.tasks
  matched := by simp only [Machine.matchedWith, Machine.addNode, h.nodes, h.matched]
  roots := h.roots
  position := h.position
  lookahead := h.lookahead

/-- Both machines give a new memo **the same number**, as they have equally many. -/
theorem Renamed.addMemo (h : Renamed R Meet m m') (hnext : next.Renamed R next') :
    Renamed R Meet (m.addMemo next).1 (m'.addMemo next').1 :=
  { h with
    memos_size := by simp only [Machine.addMemo, Array.size_push, h.memos_size]
    memo := fun id memo hid => by
      simp only [Machine.addMemo, Array.getElem?_push, h.memos_size] at hid ⊢
      split at hid
      · next heq =>
        obtain rfl := Option.some.inj hid
        exact ⟨_, if_pos heq, h.position, rfl, .cons hnext .nil⟩
      · next hne =>
        rw [if_neg hne]
        exact h.memo id memo hid }

/-- A memo that is opened is **the one of the names that meet**, and of no others. Tables are not
equal, as the names are not; but what the one finds under a name the other finds under the name that
meets it. -/
theorem Renamed.opened (h : Renamed R Meet m m') (hnext : next.Renamed R next') {a b : ExprId}
    (halone : ∀ c d, Meet c d → (a = c ↔ b = d)) :
    Renamed R Meet (m.opened next a) (m'.opened next' b) :=
  { h.addMemo hnext with
    table := fun c d hcd => by
      simp only [Machine.opened, Std.HashMap.getElem?_insert, beq_iff_eq, h.memos_size,
        halone c d hcd]
      split
      · rfl
      · exact h.table c d hcd }

/-- A memo that is replaced is replaced **by the same under other names**. -/
theorem Renamed.replaceMemo (h : Renamed R Meet m m') (hmemo : memo.Renamed R memo')
    {tasks tasks' : List Task} {registered registered' : Nat}
    (htasks : List.Forall₂ (Task.Renamed R) tasks tasks') :
    Renamed R Meet { m with memos := m.memos.setIfInBounds id memo, tasks, registered }
      { m' with
        memos := m'.memos.setIfInBounds id memo', tasks := tasks', registered := registered' } :=
  { h with
    memos_size := by simp only [Array.size_setIfInBounds, h.memos_size]
    memo := fun i old hold => by
      rw [Array.getElem?_setIfInBounds] at hold ⊢
      rw [h.memos_size]
      by_cases hi : id = i
      · rw [if_pos hi] at hold ⊢
        split at hold
        · next hlt =>
          obtain rfl := Option.some.inj hold
          exact ⟨memo', if_pos hlt, hmemo⟩
        · cases hold
      · rw [if_neg hi] at hold ⊢
        exact h.memo i old hold
    tasks := htasks }

/-- A result is handed **to the same continuations** under other names. As they are in the same
order, the tasks are too. -/
theorem forall₂_resume {nexts nexts' : List Continuation}
    (h : List.Forall₂ (Continuation.Renamed R) nexts nexts') (node : NodeId) :
    List.Forall₂ (Task.Renamed R) (nexts.map (.resume node)) (nexts'.map (.resume node)) :=
  List.forall₂_map_left_iff.mpr (List.forall₂_map_right_iff.mpr (h.imp fun _ _ hnext =>
    .resume hnext))

/-- A continuation is registered **under the same number** in both machines. -/
theorem Renamed.registeredWith (h : Renamed R Meet m m') (hmemo : memo.Renamed R memo')
    (hnext : next.Renamed R next') :
    Renamed R Meet (m.registeredWith id memo next) (m'.registeredWith id memo' next') := by
  have hmore : Memo.Renamed R { memo with parents := next :: memo.parents }
      { memo' with parents := next' :: memo'.parents } :=
    ⟨hmemo.start, hmemo.latest, .cons hnext hmemo.parents⟩
  refine h.replaceMemo hmore ?_
  rw [hmemo.resultAt_eq, h.position]
  refine List.rel_append ?_ h.tasks
  cases memo.resultAt m.position with
  | none => exact .nil
  | some node => exact .cons (.resume hnext) .nil

theorem Renamed.completedWith (h : Renamed R Meet m m') (hmemo : memo.Renamed R memo')
    (node : NodeId) :
    Renamed R Meet (m.completedWith id memo node) (m'.completedWith id memo' node) := by
  have hparents : List.Forall₂ (Continuation.Renamed R) memo.parents.reverse
      memo'.parents.reverse := List.rel_reverse hmemo.parents
  have hlatest : Memo.Renamed R { memo with latest := some (m.position, node) }
      { memo' with latest := some (m'.position, node) } :=
    ⟨hmemo.start, by rw [h.position], hmemo.parents⟩
  exact h.replaceMemo hlatest (List.rel_append (forall₂_resume hparents node) h.tasks)

theorem Renamed.finishedWith (h : Renamed R Meet m m') (hmemo : memo.Renamed R memo')
    (kind : Forest.Kind) :
    Renamed R Meet (m.finishedWith id memo kind) (m'.finishedWith id memo' kind) := by
  rw [Machine.finishedWith, Machine.finishedWith, hmemo.start, h.position, h.nodes]
  exact (h.addNode _ _).completedWith hmemo _

/-- Finishing a memo that is there **succeeds under other names**, too. The number of parents, nodes
and tasks is the same, so the failing cases are as well. -/
theorem Renamed.exists_finish (h : Renamed R Meet m m') (hmemo : m.memos[id]? = some memo)
    (kind : Forest.Kind) :
    ∃ m₁', m'.finish id kind = .ok m₁' ∧ Renamed R Meet (m.finishedWith id memo kind) m₁' := by
  obtain ⟨memo', hmemo', hrenamed⟩ := h.memo id memo hmemo
  exact ⟨_, finish_eq hmemo' kind, h.finishedWith hrenamed kind⟩

/-! ### Expanding -/

/-- A repetition **begins** under other names, unless it may not. -/
theorem Renamed.begun (h : Renamed R Meet m m') {tag : Option String} {a b : ExprId} {min : Nat}
    {max : Option Nat} (hab : R a b) :
    Renamed R Meet ((m.addMemo (.choice none id)).1.withTasks (if max = some 0 then []
        else [.derive (.repetition tag m.memos.size [] a 1 min max) a]))
      ((m'.addMemo (.choice none id)).1.withTasks (if max = some 0 then []
        else [.derive (.repetition tag m.memos.size [] b 1 min max) b])) := by
  refine (h.addMemo .choice).withTasks ?_
  split
  · exact .nil
  · exact .cons (.derive (.repetition hab) hab) .nil

/-- **Expanding** matching expressions. The tags and bounds are the same, and the children
correspond in their order. -/
theorem Renamed.expand {L L' : Ledger} {x y : Expr} (h : Renamed R Meet m m')
    (hxy : Expr.Matches R x y) (hx : Expansion L m id x L' m₁) :
    ∃ m₁', m'.expand id y = .ok m₁' ∧ Renamed R Meet m₁ m₁' := by
  -- what the first machine has done says which case it is, and the second does the same
  cases hx with
  | empty hrecord =>
    cases hxy with
    | seq hs =>
      cases hs
      exact h.exists_finish hrecord _
  | sequence =>
    cases hxy with
    | seq hs =>
      obtain ⟨b, rest', hab, hrest, rfl⟩ := List.forall₂_cons_left_iff.mp hs
      refine ⟨_, rfl, (h.addMemo .choice).withTasks (.cons (.derive ?_ hab) .nil)⟩
      rw [← h.memos_size]
      exact .sequence hrest
  | choice =>
    cases hxy with
    | alt hs =>
      exact ⟨_, rfl, h.withTasks (List.forall₂_map_left_iff.mpr (List.forall₂_map_right_iff.mpr
        (hs.imp fun _ _ hab => .derive .choice hab)))⟩
  | repetition hgoal hmin =>
    cases hxy with
    | rep hab =>
      rw [expand_rep, h.memos_size]
      exact ⟨_, if_neg hmin, h.begun hab⟩
  | repetitionEmpty hgoal =>
    cases hxy with
    | rep hab =>
      rw [expand_rep, h.memos_size]
      dsimp only
      rw [if_pos rfl]
      exact (h.begun hab).exists_finish Array.getElem?_push_size _
  | omitted =>
    cases hxy with
    | omitted hab => exact ⟨_, rfl, h.withTasks (.cons (.derive .omitted hab) .nil)⟩
  | lexical =>
    cases hxy with
    | lexical hab => exact ⟨_, rfl, h.withTasks (.cons (.derive .lexical hab) .nil)⟩
  | unmatched hx hmatch =>
    obtain rfl := hxy.eq_of_isTerminal hx
    refine ⟨m', ?_, h⟩
    rw [expand_terminal _ _ hx, h.lookahead]
    cases hlook : m.lookahead with
    | none => rfl
    | some symbol => exact if_neg (by simp [hmatch symbol hlook])
  | @matched _ symbol hlook hmatch =>
    have hx := Expr.isTerminal_of_accepts hmatch
    obtain rfl := hxy.eq_of_isTerminal hx
    refine ⟨_, ?_, h.matchedWith id symbol⟩
    rw [expand_terminal _ _ hx, h.lookahead, hlook]
    exact if_pos hmatch

/-! ### Resuming -/

section

variable {g : Grammar} {L L' : Ledger} {node : NodeId} {tag : Option String}

/-- Resuming a continuation of a choice does **the same in both machines**: it has only to do with
memos and nodes. -/
theorem Renamed.resume_choice (h : Renamed R Meet m m')
    (ho : Outcome g L m (.resume node (.choice tag id)) L' m₁) :
    ∃ m₁', m'.resume node (.choice tag id) = .ok m₁' ∧ Renamed R Meet m₁ m₁' := by
  cases ho with
  | choiceFirst hrecord hresult =>
    obtain ⟨record', hrecord', hrenamed⟩ := h.memo _ _ hrecord
    rw [Machine.resume_choice hrecord', hrenamed.resultAt_eq, h.position, hresult]
    exact ⟨_, rfl, h.finishedWith hrenamed _⟩
  | choiceSame hrecord hresult =>
    obtain ⟨record', hrecord', hrenamed⟩ := h.memo _ _ hrecord
    rw [Machine.resume_choice hrecord', hrenamed.resultAt_eq, h.position, hresult]
    exact ⟨m', if_pos rfl, h⟩
  | choiceKnown hrecord hresult hnode hmem =>
    obtain ⟨record', hrecord', hrenamed⟩ := h.memo _ _ hrecord
    rw [Machine.resume_choice hrecord', hrenamed.resultAt_eq, h.position, hresult]
    refine ⟨m', ?_, h⟩
    dsimp only
    rw [join, h.nodes, hnode]
    simp [hmem]
  | choiceJoined hrecord hresult hne hnode hmem =>
    obtain ⟨record', hrecord', hrenamed⟩ := h.memo _ _ hrecord
    rw [Machine.resume_choice hrecord', hrenamed.resultAt_eq, h.position, hresult]
    refine ⟨_, ?_, h.joinedWith _ _ _ _ _⟩
    dsimp only
    rw [if_neg hne, join, h.nodes, hnode]
    simp [hmem, Machine.joinedWith, h.nodes]

/-- Resuming a repetition does the same in both machines, **as the counts are the same** and the
repeated expressions go together. -/
theorem Renamed.resume_repetition (h : Renamed R Meet m m') {done : List NodeId} {a b : ExprId}
    {count min : Nat} {max : Option Nat} (hab : R a b)
    (ho : Outcome g L m (.resume node (.repetition tag id done a count min max)) L' m₁) :
    ∃ m₁', m'.resume node (.repetition tag id done b count min max) = .ok m₁' ∧
      Renamed R Meet m₁ m₁' := by
  have hgoes : ∀ {goesOn : Bool}, Renamed R Meet
      (m.withTasks (if goesOn then
        [.derive (.repetition tag id (node :: done) a (count + 1) min max) a] else []))
      (m'.withTasks (if goesOn then
        [.derive (.repetition tag id (node :: done) b (count + 1) min max) b] else [])) := by
    intro goesOn
    refine h.withTasks ?_
    cases goesOn with
    | false => exact .nil
    | true => exact .cons (.derive (.repetition hab) hab) .nil
  cases ho with
  | repetitionEarly hnode hmin =>
    rw [← h.nodes] at hnode
    exact ⟨_, resume_repetition_early hnode _ _ _ _ _ hmin, hgoes⟩
  | repetitionLate hnode hmin hrecord =>
    obtain ⟨record', hrecord', hrenamed⟩ := h.memo _ _ hrecord
    rw [← h.nodes] at hnode
    rw [Machine.resume_repetition hrecord' hnode]
    dsimp only
    rw [if_pos hmin]
    exact ⟨_, rfl, hgoes.finishedWith hrenamed _⟩

/-- **Resuming** under other names. Which case applies is decided by counts, spans and numbers of
nodes, on which both machines agree. -/
theorem Renamed.resume (h : Renamed R Meet m m') (hnext : next.Renamed R next')
    (ho : Outcome g L m (.resume node next) L' m₁) :
    ∃ m₁', m'.resume node next' = .ok m₁' ∧ Renamed R Meet m₁ m₁' := by
  cases hnext with
  | accept =>
    rw [resume_accept, h.lookahead, h.roots]
    cases ho with
    | accepted hlook hroot =>
      rw [if_pos ⟨hlook, hroot⟩]
      exact ⟨_, rfl, h.withRoot node⟩
    | acceptedBefore hbefore =>
      rw [if_neg fun hroot => hroot.2 (hbefore hroot.1)]
      exact ⟨_, rfl, h⟩
  | sequence hrest =>
    cases ho with
    | sequenceDone hrecord =>
      cases hrest
      exact h.exists_finish hrecord _
    | sequenceNext =>
      obtain ⟨b, rest', hab, hothers, rfl⟩ := List.forall₂_cons_left_iff.mp hrest
      exact ⟨_, rfl, h.withTasks (.cons (.derive (.sequence hothers) hab) .nil)⟩
  | choice => exact h.resume_choice ho
  | repetition hab => exact h.resume_repetition hab ho
  | omitted =>
    cases ho with
    | omitted hrecord => exact h.exists_finish hrecord _
  | lexical =>
    cases ho with
    | lexical hrecord => exact h.exists_finish hrecord _

end

end

/-! ### Steps -/

variable {g h : Grammar} {w : List String} {L L' : Ledger} {m m' m₁ m₁' : Machine}

/-- **A step is answered** by a step under other names, if names that meet here are the same on one
side when they are on the other. -/
theorem Renamed.step (hR : g.Counterparts h R) (hm : Renamed R Meet m m')
    (halone : ∀ a b c d, Meet a b → Meet c d → (a = c ↔ b = d)) {task task' : Task}
    (ht : task.Renamed R task') (hmeet : ∀ next next' a b, task = .derive next a →
      task' = .derive next' b → R a b → Meet a b) (ho : Outcome g L m task L' m₁) :
    ∃ m₁', Machine.step h m' task' = .ok m₁' ∧ Renamed R Meet m₁ m₁' := by
  cases ht with
  | resume hnext => exact hm.resume hnext ho
  | @derive next next' a b hnext hab =>
    have hmet : Meet a b := hmeet next next' a b rfl rfl hab
    have htable : m'.table[b]? = m.table[a]? := hm.table a b hmet
    cases ho with
    | @registered _ _ memo record hfound hrecord =>
      obtain ⟨record', hrecord', hrenamed⟩ := hm.memo memo record hrecord
      refine ⟨_, ?_, hm.registeredWith hrenamed hnext⟩
      rw [Machine.step, derive, htable, hfound]
      exact register_eq hrecord' next'
    | opened hnone he hexp =>
      obtain ⟨y, hy, hxy⟩ := hR.exists_matches he hab
      obtain ⟨m₁', hexpand, hrenamed⟩ :=
        (hm.opened hnext fun c d => halone a b c d hmet).expand hxy hexp
      refine ⟨m₁', ?_, hrenamed⟩
      rw [Machine.step, derive, htable, hnone, hy, ← hexpand, ← hm.memos_size]
      rfl

/-- **Recording** what waits, under other names. -/
theorem Renamed.recordAll (hm : Renamed R Meet m m') {waiting : List (NodeId × MemoId)}
    (hall : waiting.foldlM (fun m (node, memo) => Machine.complete m memo node) m =
      (.ok m₁ : Except Fault Machine))
    (hall' : waiting.foldlM (fun m (node, memo) => Machine.complete m memo node) m' =
      (.ok m₁' : Except Fault Machine)) : Renamed R Meet m₁ m₁' := by
  induction waiting generalizing m m' with
  | nil =>
    cases hall
    cases hall'
    exact hm
  | cons pair waiting ih =>
    obtain ⟨node, id⟩ := pair
    obtain ⟨memo, hmemo, hall⟩ := exists_record_of_foldlM hall
    obtain ⟨memo', hmemo', hall'⟩ := exists_record_of_foldlM hall'
    obtain ⟨memo₁, hmemo₁, hrenamed⟩ := hm.memo id memo hmemo
    obtain rfl := Option.some.inj (hmemo'.symm.trans hmemo₁)
    exact ih (hm.completedWith hrenamed node) hall hall'

/-- **Moving on** under other names. At the next position nothing has a memo yet, whatever names
meet there. -/
theorem Renamed.advance (hm : Renamed R Meet m m') (Meet' : ExprId → ExprId → Prop)
    (hadvance : m.advance = .ok m₁) (hadvance' : m'.advance = .ok m₁') :
    Renamed R Meet' m₁ m₁' := by
  rw [Machine.advance] at hadvance hadvance'
  rw [hm.matched] at hadvance'
  have hnext : Renamed R Meet' { m with matched := [], table := ∅, position := m.position + 1 }
      { m' with matched := [], table := ∅, position := m'.position + 1 } :=
    { hm with
      matched := rfl
      position := congrArg (· + 1) hm.position
      table := fun _ _ _ => by simp }
  exact hnext.recordAll hadvance hadvance'

/-- Both machines look at **the same symbol**. -/
theorem Renamed.withLookahead (hm : Renamed R Meet m m') (symbol : Option String) :
    Renamed R Meet { m with lookahead := symbol } { m' with lookahead := symbol } :=
  { hm with lookahead := rfl }

end Machine

/-! ### Whole inputs -/

namespace Grammar

variable (g h : Grammar) (R : ExprId → ExprId → Prop) (w : List String)

/-- Related expressions **meet** at a position where both grammars look for theirs. -/
def MeetAt (position : Nat) (a b : ExprId) : Prop :=
  R a b ∧ g.Sought w a position ∧ h.Sought w b position

/-- Two grammars **share alike** on an input: of what meets at one position, what is the same in one
grammar is the same in the other. -/
def SharesAlike : Prop :=
  ∀ position a b c d, g.MeetAt h R w position a b → g.MeetAt h R w position c d → (a = c ↔ b = d)

end Grammar

namespace Machine

variable {g h : Grammar} {w : List String} {L L' : Ledger} {m m' m₁ m₁' : Machine}

section

variable (hR : g.Counterparts h R) (hshare : g.SharesAlike h R w)

include hR hshare

/-- **A run** under other names. The bounds on the steps may differ; a run that ends does not depend
on how many it could have had. -/
theorem Renamed.run (hm : Renamed R (g.MeetAt h R w m.position) m m') (hr : Reached g w L m)
    (hr' : Reached h w L' m') {fuel fuel' : Nat} (hrun : Machine.run g fuel m = .ok m₁)
    (hrun' : Machine.run h fuel' m' = .ok m₁') :
    Renamed R (g.MeetAt h R w m₁.position) m₁ m₁' := by
  induction fuel using Nat.strongRecOn generalizing L L' m m' fuel' with
  | ind fuel ih =>
    have htasks := hm.tasks
    cases hts : m.tasks with
    | nil =>
      have hts' : m'.tasks = [] := List.forall₂_nil_left_iff.mp (hts ▸ htasks)
      rw [run_of_nil g fuel hts] at hrun
      rw [run_of_nil h fuel' hts'] at hrun'
      cases hrun
      cases hrun'
      exact hm
    | cons task tasks =>
      rw [hts] at htasks
      obtain ⟨task', tasks', ht, hrest, hts'⟩ := List.forall₂_cons_left_iff.mp htasks
      obtain ⟨n, hlt, m₂, hstep, hrun⟩ := exists_step_of_run hts hrun
      obtain ⟨n', -, m₂', hstep', hrun'⟩ := exists_step_of_run hts' hrun'
      -- what is to be derived here is looked for here, in both grammars
      have hmeet : ∀ next next' a b, task = .derive next a → task' = .derive next' b → R a b →
          g.MeetAt h R w m.position a b := by
        rintro next next' a b rfl rfl hab
        have ha := hr.faithful.sought_of_derive (by rw [hts]; exact List.mem_cons_self)
        have hb := hr'.faithful.sought_of_derive (by rw [hts']; exact List.mem_cons_self)
        exact ⟨hab, ha, hm.position ▸ hb⟩
      rw [eq_withTasks hts] at hr
      rw [eq_withTasks hts'] at hr'
      obtain ⟨L₂, ho, hreached, hposition⟩ := hr.step hstep
      obtain ⟨L₂', -, hreached', -⟩ := hr'.step hstep'
      have hrenamed : Renamed R (g.MeetAt h R w m.position) { m with tasks }
          { m' with tasks := tasks' } := { hm with tasks := hrest }
      obtain ⟨m₄', hstep₄', hm₂⟩ := hrenamed.step hR (hshare m.position) ht hmeet ho
      obtain rfl : m₂' = m₄' := Except.ok.inj (hstep'.symm.trans hstep₄')
      rw [← show m₂.position = m.position from hposition] at hm₂
      exact ih n hlt hm₂ hreached hreached' hrun hrun'

/-- Machines that are the same under other names **keep in step**. In particular neither rejects an
input where the other goes on. -/
theorem keepsStep_renamed :
    KeepsStep g h w fun m m' => Renamed R (g.MeetAt h R w m.position) m m' where
  position hm := hm.position
  withLookahead symbol hm := hm.withLookahead symbol
  run hm hr hr' hrun hrun' := hm.run hR hshare hr hr' hrun hrun'
  advance hm hadvance hadvance' := hm.advance _ hadvance hadvance'

end

end Machine

end GeneralParsing
