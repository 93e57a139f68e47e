import GeneralParsing.Proofs.Machine.Unique

/-!
# The machine is exhaustive

`Exhaustive g w L m due waiting` says that nothing is lost: every result of a memo has been handed
to every continuation registered with it, the memo of every expression has asked for all that the
expression needs, and the start is wanted. What has not been done is due as a task; what waits for
the next position is not handed on yet.

Doing one task discharges it (`Exhaustive.discharge`) and otherwise only adds memos, parents,
results, alternatives and tasks (`Extends`).
-/

namespace GeneralParsing

/-- A kind that **has grown**: a choice may have got more alternatives. -/
inductive Forest.Kind.Grows : Forest.Kind → Forest.Kind → Prop
  | same (kind : Forest.Kind) : Grows kind kind
  | choice (tag : Option String) (alternatives more : List NodeId) :
      Grows (.choice tag alternatives) (.choice tag (alternatives ++ more))

/-- Growing **goes on**. -/
theorem Forest.Kind.Grows.trans {k k' k'' : Forest.Kind} (h : k.Grows k') (h' : k'.Grows k'') :
    k.Grows k'' := by
  cases h with
  | same => exact h'
  | choice tag alternatives more =>
    cases h' with
    | same => exact .choice tag alternatives more
    | choice _ _ more' =>
      rw [List.append_assoc]
      exact .choice tag alternatives (more ++ more')

namespace Machine

/-! ### What is to be done -/

/-- A memo **hands its results** to a continuation. -/
def Hands (m : Machine) (id : MemoId) (next : Continuation) : Prop :=
  ∃ memo, m.memos[id]? = some memo ∧ next ∈ memo.parents

/-- The results of a goal **are handed** to a continuation. -/
def Registered (L : Ledger) (m : Machine) (next : Continuation) (goal : Goal) : Prop :=
  ∃ id : MemoId, L.goals[id]? = some goal ∧ m.Hands id next

/-- The results of an expression are handed to a continuation, or **will be**. -/
def Wanted (L : Ledger) (m : Machine) (due : List Task) (next : Continuation) (id : ExprId)
    (start : Nat) : Prop :=
  Registered L m next ⟨id, false, start⟩ ∨ start = m.position ∧ .derive next id ∈ due

/-- A result of a memo **has been made**. -/
def Made (L : Ledger) (m : Machine) (id : MemoId) (stop : Nat) (kind : Forest.Kind) : Prop :=
  ∃ (node : NodeId) (span : Span),
    L.results[node]? = some (id, stop) ∧ m.nodes[node]? = some ⟨kind, span⟩

/-- A node **is among the alternatives** of a memo's result, or is that result itself. -/
def Chosen (L : Ledger) (m : Machine) (id : MemoId) (stop : Nat) (node : NodeId) : Prop :=
  ∃ choice : NodeId, L.results[choice]? = some (id, stop) ∧ (choice = node ∨
    ∃ tag alternatives span, m.nodes[choice]? = some ⟨.choice tag alternatives, span⟩ ∧
      node ∈ alternatives)

/-- A continuation **has taken a result**, and what it gives rise to is done or due. -/
def Taken (w : List String) (L : Ledger) (m : Machine) (due : List Task) (node : NodeId)
    (stop : Nat) : Continuation → Prop
  | .accept => stop = w.length → node ∈ m.roots
  | .sequence tag memo done [] => Made L m memo stop (.sequence tag (node :: done).reverse)
  | .sequence tag memo done (child :: rest) =>
    Wanted L m due (.sequence tag memo (node :: done) rest) child stop
  | .choice _ memo => Chosen L m memo stop node
  | .repetition tag memo done child count min max =>
    (min ≤ count → Made L m memo stop (.sequence tag (node :: done).reverse)) ∧
    (max.all (count < ·) = true →
      (min ≤ count → ∀ n, m.nodes[node]? = some n → n.span.isEmpty = false) →
      Wanted L m due (.repetition tag memo (node :: done) child (count + 1) min max) child stop)
  | .omitted memo => Made L m memo stop .omitted
  | .lexical memo => Made L m memo stop (.lexical node)

/-- A continuation has taken a result, or **will**. -/
def Delivered (w : List String) (L : Ledger) (m : Machine) (due : List Task) (node : NodeId)
    (stop : Nat) (next : Continuation) : Prop :=
  Taken w L m due node stop next ∨ stop = m.position ∧ .resume node next ∈ due

/-- An expression **has asked** for all it needs. -/
def Expanded (w : List String) (L : Ledger) (m : Machine) (due : List Task) (id : MemoId)
    (expr : ExprId) (start : Nat) : Expr → Prop
  | .seq tag [] => Made L m id start (.sequence tag [])
  | .seq tag (child :: rest) =>
    ∃ inner : MemoId, L.goals[inner]? = some ⟨expr, true, start⟩ ∧ m.Hands inner (.choice none id) ∧
      Wanted L m due (.sequence tag inner [] rest) child start
  | .alt tag children => ∀ child ∈ children, Wanted L m due (.choice tag id) child start
  | .rep tag child min max =>
    ∃ inner : MemoId, L.goals[inner]? = some ⟨expr, true, start⟩ ∧ m.Hands inner (.choice none id) ∧
      (max ≠ some 0 → Wanted L m due (.repetition tag inner [] child 1 min max) child start) ∧
      (min = 0 → Made L m inner start (.sequence tag []))
  | .omitted child => Wanted L m due (.omitted id) child start
  | .lexical child => Wanted L m due (.lexical id) child start
  | e => ∀ symbol, w[start]? = some symbol → e.accepts symbol = true →
    Made L m id (start + 1) (.symbol symbol)

/-- Every result that does not wait has been **handed on**, or will be. -/
def AllDelivered (w : List String) (L : Ledger) (m : Machine) (due : List Task)
    (waiting : List (NodeId × MemoId)) : Prop :=
  ∀ (node : NodeId) id stop next, L.results[node]? = some (id, stop) → (node, id) ∉ waiting →
    m.Hands id next → Delivered w L m due node stop next

/-- A machine in which **nothing is lost**. -/
structure Exhaustive (g : Grammar) (w : List String) (L : Ledger) (m : Machine) (due : List Task)
    (waiting : List (NodeId × MemoId)) : Prop where
  delivered : AllDelivered w L m due waiting
  expanded : ∀ (id : MemoId) expr start e, L.goals[id]? = some ⟨expr, false, start⟩ →
    g.expr? expr = some e → Expanded w L m due id expr start e
  start : Wanted L m due .accept g.start 0

/-! ### Growing keeps it -/

/-- A machine that **has grown**. -/
structure Extends (L : Ledger) (m : Machine) (L' : Ledger) (m' : Machine) : Prop where
  grows : L.Grows L'
  hands : ∀ id next, m.Hands id next → m'.Hands id next
  nodes : ∀ (id : NodeId) kind span, m.nodes[id]? = some ⟨kind, span⟩ →
    ∃ kind', m'.nodes[id]? = some ⟨kind', span⟩ ∧ kind.Grows kind'
  roots : ∀ root ∈ m.roots, root ∈ m'.roots

theorem Extends.refl (L : Ledger) (m : Machine) : Extends L m L m :=
  ⟨.refl L, fun _ _ h => h, fun _ kind _ h => ⟨kind, h, .same kind⟩, fun _ h => h⟩

/-- A machine that has grown and grows again **has grown**, with the ledger beside it. -/
theorem Extends.trans {L L' L'' : Ledger} {m m' m'' : Machine} (h : Extends L m L' m')
    (h' : Extends L' m' L'' m'') : Extends L m L'' m'' where
  grows := h.grows.trans h'.grows
  hands id next hn := h'.hands id next (h.hands id next hn)
  nodes id kind span hn := by
    obtain ⟨kind', hn', hgrows⟩ := h.nodes id kind span hn
    obtain ⟨kind'', hn'', hgrows'⟩ := h'.nodes id kind' span hn'
    exact ⟨kind'', hn'', hgrows.trans hgrows'⟩
  roots root hr := h'.roots root (h.roots root hr)

/-- A machine that has grown **at its position**, its tasks included. -/
structure Proceeds (L : Ledger) (m : Machine) (L' : Ledger) (m' : Machine) : Prop
    extends Extends L m L' m' where
  position : m'.position = m.position
  tasks : ∀ task ∈ m.tasks, task ∈ m'.tasks

theorem Proceeds.refl (L : Ledger) (m : Machine) : Proceeds L m L m :=
  ⟨.refl L m, rfl, fun _ h => h⟩

/-- Proceeding **goes on**, as long as the position is the same. -/
theorem Proceeds.trans {L L' L'' : Ledger} {m m' m'' : Machine} (h : Proceeds L m L' m')
    (h' : Proceeds L' m' L'' m'') : Proceeds L m L'' m'' :=
  ⟨h.toExtends.trans h'.toExtends, h'.position.trans h.position,
    fun task ht => h'.tasks task (h.tasks task ht)⟩

section

variable {g : Grammar} {w : List String} {L L' : Ledger} {m m' : Machine} {due due' : List Task}
variable {id : MemoId} {node : NodeId} {next : Continuation} {start stop : Nat} {expr : ExprId}

/-- A continuation that is handed results **stays among those** that are. -/
theorem Registered.mono (hx : Extends L m L' m') {goal : Goal} (h : Registered L m next goal) :
    Registered L' m' next goal :=
  let ⟨id, hgoal, hhands⟩ := h
  ⟨id, hx.grows.goal hgoal, hx.hands id next hhands⟩

/-- A result that is no choice **stays what it is**; only choices get alternatives later. -/
theorem Made.mono (hx : Extends L m L' m') {kind : Forest.Kind}
    (hkind : ∀ tag alternatives, kind ≠ .choice tag alternatives) (h : Made L m id stop kind) :
    Made L' m' id stop kind := by
  obtain ⟨node, span, hresult, hnode⟩ := h
  obtain ⟨kind', hnode', hgrows⟩ := hx.nodes node kind span hnode
  cases hgrows with
  | same => exact ⟨node, span, hx.grows.result hresult, hnode'⟩
  | choice tag alternatives => exact (hkind tag alternatives rfl).elim

/-- What is among the alternatives of a result **stays among them**. -/
theorem Chosen.mono (hx : Extends L m L' m') (h : Chosen L m id stop node) :
    Chosen L' m' id stop node := by
  obtain ⟨choice, hresult, hchoice⟩ := h
  refine ⟨choice, hx.grows.result hresult, hchoice.imp_right ?_⟩
  rintro ⟨tag, alternatives, span, hnode, hmem⟩
  obtain ⟨kind', hnode', hgrows⟩ := hx.nodes choice _ span hnode
  cases hgrows with
  | same => exact ⟨tag, alternatives, span, hnode', hmem⟩
  | choice _ _ more => exact ⟨tag, _, span, hnode', List.mem_append_left more hmem⟩

section

variable (hx : Extends L m L' m') (hwanted : ∀ next expr start,
  Wanted L m due next expr start → Wanted L' m' due' next expr start)

include hx hwanted

/-- What a result has given rise to **is still done or due** in a machine that has grown. That
depends on the kind of the continuation, but each of these facts stays. -/
theorem Taken.mono (h : Taken w L m due node stop next) : Taken w L' m' due' node stop next := by
  cases next with
  | accept => exact fun hstop => hx.roots node (h hstop)
  | sequence tag memo done rest =>
    cases rest with
    | nil => exact Made.mono hx (by simp) h
    | cons child rest => exact hwanted _ _ _ h
  | choice tag memo => exact Chosen.mono hx h
  | repetition tag memo done child count min max =>
    refine ⟨fun hmin => (h.1 hmin).mono hx (by simp), fun hmax hsolid => ?_⟩
    refine hwanted _ _ _ (h.2 hmax fun hmin n hn => ?_)
    obtain ⟨kind', hn', -⟩ := hx.nodes node n.kind n.span hn
    exact hsolid hmin ⟨kind', n.span⟩ hn'
  | omitted memo | lexical memo => exact Made.mono hx (by simp) h

/-- What an expression has asked for **is still wanted** in a machine that has grown. -/
theorem Expanded.mono {e : Expr} (h : Expanded w L m due id expr start e) :
    Expanded w L' m' due' id expr start e := by
  cases e with
  | token | pattern =>
    exact fun symbol hw ha => (h symbol hw ha).mono hx (by simp)
  | seq tag children =>
    cases children with
    | nil => exact Made.mono hx (by simp) h
    | cons child rest =>
      obtain ⟨inner, hgoal, hhands, hnext⟩ := h
      exact ⟨inner, hx.grows.goal hgoal, hx.hands _ _ hhands, hwanted _ _ _ hnext⟩
  | alt tag children => exact fun child hc => hwanted _ _ _ (h child hc)
  | rep tag child min max =>
    obtain ⟨inner, hgoal, hhands, hnext, hmade⟩ := h
    exact ⟨inner, hx.grows.goal hgoal, hx.hands _ _ hhands,
      fun hmax => hwanted _ _ _ (hnext hmax), fun hmin => (hmade hmin).mono hx (by simp)⟩
  | omitted child | lexical child => exact hwanted _ _ _ h

end

section

variable (hp : Proceeds L m L' m') {extra : List Task}

include hp

/-- What is wanted is still wanted **when tasks have been added**. -/
theorem Wanted.mono (h : Wanted L m (extra ++ m.tasks) next expr start) :
    Wanted L' m' (extra ++ m'.tasks) next expr start := by
  refine h.imp (Registered.mono hp.toExtends) ?_
  rintro ⟨rfl, hmem⟩
  exact ⟨hp.position.symm, (List.mem_append.mp hmem).elim (List.mem_append_left _)
    fun h => List.mem_append_right _ (hp.tasks _ h)⟩

/-- What is delivered is still delivered **when tasks have been added**. -/
theorem Delivered.mono (h : Delivered w L m (extra ++ m.tasks) node stop next) :
    Delivered w L' m' (extra ++ m'.tasks) node stop next := by
  refine h.imp (Taken.mono hp.toExtends fun _ _ _ => Wanted.mono hp) ?_
  rintro ⟨rfl, hmem⟩
  exact ⟨hp.position.symm, (List.mem_append.mp hmem).elim (List.mem_append_left _)
    fun h => List.mem_append_right _ (hp.tasks _ h)⟩

end

/-! ### Discharging a task -/

/-- A task **has been done**. -/
def Done (w : List String) (L : Ledger) (m : Machine) (due : List Task) : Task → Prop
  | .derive next id => Registered L m next ⟨id, false, m.position⟩
  | .resume node next => Taken w L m due node m.position next

variable {task : Task} {waiting : List (NodeId × MemoId)}

/-- Once a task has been done, what was wanted by it **is wanted without it**. -/
theorem Wanted.discharge (hd : Done w L m due task) (h : Wanted L m (task :: due) next expr start) :
    Wanted L m due next expr start := by
  rcases h with h | ⟨rfl, hmem⟩
  · exact .inl h
  · rcases List.mem_cons.mp hmem with rfl | hmem
    · exact .inl hd
    · exact .inr ⟨rfl, hmem⟩

/-- Once a task has been done, what it was to deliver **has been delivered**. -/
theorem Delivered.discharge (hd : Done w L m due task)
    (h : Delivered w L m (task :: due) node stop next) : Delivered w L m due node stop next := by
  rcases h with h | ⟨rfl, hmem⟩
  · exact .inl (h.mono (.refl L m) fun _ _ _ => Wanted.discharge hd)
  · rcases List.mem_cons.mp hmem with rfl | hmem
    · exact .inl hd
    · exact .inr ⟨rfl, hmem⟩

/-- A task that has been done **is due no more**. So it is enough to show for each task what it does
before it is taken off. -/
theorem Exhaustive.discharge (hd : Done w L m due task)
    (h : Exhaustive g w L m (task :: due) waiting) : Exhaustive g w L m due waiting where
  delivered node id stop next hresult hwait hhands :=
    (h.delivered node id stop next hresult hwait hhands).discharge hd
  expanded id expr start e hgoal he :=
    (h.expanded id expr start e hgoal he).mono (.refl L m) fun _ _ _ => Wanted.discharge hd
  start := h.start.discharge hd

/-! ### Moves extend the machine -/

/-- A memo that is replaced **keeps its continuations**, if the new one has them all. -/
theorem hands_setIfInBounds {memo memo' : Memo} (hmemo : m.memos[id]? = some memo)
    (hmemos : m'.memos = m.memos.setIfInBounds id memo')
    (hparents : ∀ k ∈ memo.parents, k ∈ memo'.parents) (i : MemoId) (k : Continuation)
    (hk : m.Hands i k) : m'.Hands i k := by
  obtain ⟨record, hrecord, hmem⟩ := hk
  by_cases hid : id = i
  · subst hid
    obtain rfl := Option.some.inj (hmemo.symm.trans hrecord)
    refine ⟨memo', ?_, hparents k hmem⟩
    rw [hmemos, Array.getElem?_setIfInBounds_self, if_pos (Array.getElem?_eq_some_iff.mp hmemo).1]
  · refine ⟨record, ?_, hmem⟩
    rw [hmemos, Array.getElem?_setIfInBounds, if_neg hid, hrecord]

/-- New tasks **change nothing else**, and the same holds of every other move below. -/
theorem proceeds_withTasks (L : Ledger) (m : Machine) (tasks : List Task) :
    Proceeds L m L (m.withTasks tasks) :=
  ⟨⟨.refl L, fun _ _ h => h, fun _ kind _ h => ⟨kind, h, .same kind⟩, fun _ h => h⟩, rfl,
    fun _ h => List.mem_append_right tasks h⟩

theorem proceeds_withRoot (L : Ledger) (m : Machine) (node : NodeId) :
    Proceeds L m L (m.withRoot node) :=
  ⟨⟨.refl L, fun _ _ h => h, fun _ kind _ h => ⟨kind, h, .same kind⟩,
    fun _ h => List.mem_append_left _ h⟩, rfl, fun _ h => h⟩

theorem proceeds_addMemo (L : Ledger) (m : Machine) (goal : Goal) (next : Continuation) :
    Proceeds L m (L.addGoal goal) (m.addMemo next).1 := by
  refine ⟨⟨L.grows_addGoal goal, ?_, fun _ kind _ h => ⟨kind, h, .same kind⟩, fun _ h => h⟩, rfl,
    fun _ h => h⟩
  rintro id k ⟨memo, hmemo, hmem⟩
  exact ⟨memo, getElem?_push_of_some hmemo, hmem⟩

theorem proceeds_opened (L : Ledger) (m : Machine) (goal : Goal) (next : Continuation)
    (expr : ExprId) : Proceeds L m (L.addGoal goal) (m.opened next expr) :=
  let h := proceeds_addMemo L m goal next
  ⟨⟨h.grows, h.hands, h.nodes, h.roots⟩, rfl, h.tasks⟩

/-- A memo that gets one more continuation **keeps the others**. -/
theorem proceeds_registeredWith {memo : Memo} (L : Ledger) (hmemo : m.memos[id]? = some memo)
    (next : Continuation) : Proceeds L m L (m.registeredWith id memo next) :=
  ⟨⟨.refl L, hands_setIfInBounds hmemo rfl fun _ h => List.mem_cons_of_mem next h,
    fun _ kind _ h => ⟨kind, h, .same kind⟩, fun _ h => h⟩, rfl,
    fun _ h => List.mem_append_right _ h⟩

theorem proceeds_completedWith {memo : Memo} (L : Ledger) (hmemo : m.memos[id]? = some memo)
    (node : NodeId) : Proceeds L m L (m.completedWith id memo node) :=
  ⟨⟨.refl L, hands_setIfInBounds hmemo rfl fun _ h => h,
    fun _ kind _ h => ⟨kind, h, .same kind⟩, fun _ h => h⟩, rfl,
    fun _ h => List.mem_append_right _ h⟩

/-- A new node leaves **the older ones as they are**. -/
theorem proceeds_addNode (L : Ledger) (m : Machine) (id : MemoId) (stop : Nat)
    (kind : Forest.Kind) (span : Span) :
    Proceeds L m (L.addResult id stop) (m.addNode kind span).1 :=
  ⟨⟨L.grows_addResult id stop, fun _ _ h => h,
    fun _ kind _ h => ⟨kind, getElem?_push_of_some h, .same kind⟩, fun _ h => h⟩, rfl,
    fun _ h => h⟩

theorem proceeds_finishedWith {memo : Memo} (L : Ledger) (hmemo : m.memos[id]? = some memo)
    (kind : Forest.Kind) :
    Proceeds L m (L.addResult id m.position) (m.finishedWith id memo kind) :=
  (proceeds_addNode L m id m.position kind ⟨memo.start, m.position⟩).trans
    (proceeds_completedWith (m := (m.addNode kind ⟨memo.start, m.position⟩).1) _ hmemo _)

theorem proceeds_matchedWith (L : Ledger) (m : Machine) (id : MemoId) (symbol : String) :
    Proceeds L m (L.addResult id (m.position + 1)) (m.matchedWith id symbol) :=
  let h := proceeds_addNode L m id (m.position + 1) (.symbol symbol) ⟨m.position, m.position + 1⟩
  ⟨⟨h.grows, h.hands, h.nodes, h.roots⟩, rfl, h.tasks⟩

/-- A choice that gets one more alternative **has grown**, and no other node has changed. -/
theorem proceeds_joinedWith {choice : NodeId} {tag : Option String} {alternatives : List NodeId}
    {span : Span} (L : Ledger) (hnode : m.nodes[choice]? = some ⟨.choice tag alternatives, span⟩)
    (node : NodeId) : Proceeds L m L (m.joinedWith choice tag alternatives span node) := by
  refine ⟨⟨.refl L, fun _ _ h => h, fun id kind span' h => ?_, fun _ h => h⟩, rfl, fun _ h => h⟩
  by_cases hid : choice = id
  · subst hid
    obtain ⟨rfl, rfl⟩ := Forest.Node.mk.inj (Option.some.inj (hnode.symm.trans h))
    refine ⟨_, ?_, .choice tag alternatives [node]⟩
    rw [joinedWith, Array.getElem?_setIfInBounds_self, if_pos (Array.getElem?_eq_some_iff.mp h).1]
  · refine ⟨kind, ?_, .same kind⟩
    rw [joinedWith, Array.getElem?_setIfInBounds, if_neg hid, h]

/-- **Asking for an expression** makes the machine proceed, whichever kind it is. -/
theorem proceeds_expansion {e : Expr} (hexp : Expansion L m id e L' m') : Proceeds L m L' m' := by
  cases hexp with
  | empty hrecord => exact proceeds_finishedWith L hrecord _
  | sequence | repetition => exact (proceeds_addMemo L m _ _).trans (proceeds_withTasks _ _ _)
  | repetitionEmpty =>
    refine ((proceeds_addMemo L m _ _).trans (proceeds_withTasks _ _ _)).trans
      (proceeds_finishedWith _ ?_ _)
    exact Array.getElem?_push_size
  | choice | omitted | lexical => exact proceeds_withTasks L m _
  | unmatched => exact .refl L m
  | matched => exact proceeds_matchedWith L m id _

/-- **Doing a task** makes the machine proceed, whatever comes of it. All that holds of a machine
because it has grown holds after every step, then. -/
theorem proceeds_outcome (ho : Outcome g L m task L' m') : Proceeds L m L' m' := by
  cases ho with
  | registered htable hrecord => exact proceeds_registeredWith L hrecord _
  | opened htable he hexp => exact (proceeds_opened L m _ _ _).trans (proceeds_expansion hexp)
  | accepted => exact proceeds_withRoot L m _
  | acceptedBefore | choiceSame | choiceKnown => exact .refl L m
  | sequenceDone hrecord | choiceFirst hrecord | omitted hrecord | lexical hrecord =>
    exact proceeds_finishedWith L hrecord _
  | sequenceNext | repetitionEarly => exact proceeds_withTasks L m _
  | choiceJoined hrecord hresult hne hnode => exact proceeds_joinedWith L hnode _
  | repetitionLate hn hmin hrecord =>
    exact (proceeds_withTasks L m _).trans
      (proceeds_finishedWith (m := m.withTasks _) L hrecord _)

end

end Machine

end GeneralParsing
