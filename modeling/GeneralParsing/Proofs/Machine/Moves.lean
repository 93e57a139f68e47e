import GeneralParsing.Proofs.Machine.Goals
import Mathlib

/-!
# What a step can do

The steps of the machine are put together from a few **moves**: tasks are added, a memo is opened
or finished with a new result, a continuation is registered, an alternative is joined to a choice, a
symbol is matched, a root is found. `Outcome` lists what a step can come to, as moves of the
machine and of its ledger; every invariant follows it case by case.
-/

namespace GeneralParsing

namespace Machine

/-! ### Moves -/

/-- The machine with **more tasks**. -/
def withTasks (m : Machine) (tasks : List Task) : Machine := { m with tasks := tasks ++ m.tasks }

/-- The machine with **another root**. -/
def withRoot (m : Machine) (node : NodeId) : Machine := { m with roots := m.roots ++ [node] }

/-- The machine with **a memo for an expression** that is derived here. -/
def opened (m : Machine) (next : Continuation) (id : ExprId) : Machine :=
  { (m.addMemo next).1 with table := m.table.insert id m.memos.size }

/-- The machine with **a continuation registered**, and served if there is a result here. -/
def registeredWith (m : Machine) (id : MemoId) (memo : Memo) (next : Continuation) : Machine :=
  { m with
    memos := m.memos.setIfInBounds id { memo with parents := next :: memo.parents }
    tasks := (memo.resultAt m.position).toList.map (.resume · next) ++ m.tasks
    registered := m.registered + 1 }

/-- The machine with **a result recorded** for a memo and handed on. -/
def completedWith (m : Machine) (id : MemoId) (memo : Memo) (node : NodeId) : Machine :=
  { m with
    memos := m.memos.setIfInBounds id { memo with latest := some (m.position, node) }
    tasks := memo.parents.reverse.map (.resume node) ++ m.tasks }

/-- The machine with **a new result** for a memo, which is handed on. -/
def finishedWith (m : Machine) (id : MemoId) (memo : Memo) (kind : Forest.Kind) : Machine :=
  (m.addNode kind ⟨memo.start, m.position⟩).1.completedWith id memo m.nodes.size

/-- The machine with **an alternative more** in a choice. -/
def joinedWith (m : Machine) (choice : NodeId) (tag : Option String) (alternatives : List NodeId)
    (span : Span) (node : NodeId) : Machine :=
  { m with
    nodes := m.nodes.setIfInBounds choice ⟨.choice tag (alternatives ++ [node]), span⟩ }

/-- The machine with **a symbol matched** by a terminal. -/
def matchedWith (m : Machine) (id : MemoId) (symbol : String) : Machine :=
  { (m.addNode (.symbol symbol) ⟨m.position, m.position + 1⟩).1 with
    matched := (m.nodes.size, id) :: m.matched }

/-- The continuations of a memo are resumed **latest first**, since each task is put on top of the
others. -/
theorem foldl_resume (node : NodeId) (parents : List Continuation) (tasks : List Task) :
    parents.foldl (fun tasks next => .resume node next :: tasks) tasks =
      parents.reverse.map (.resume node) ++ tasks := by
  induction parents generalizing tasks with
  | nil => rfl
  | cons next parents ih => simp [ih]

section

variable {m : Machine} {id : MemoId} {memo : Memo}

/-- Where a memo is there, **looking it up does not fail**. The other lookups below rest on this. -/
theorem memo_eq (h : m.memos[id]? = some memo) : m.memo id = .ok memo := by
  rw [Machine.memo, h]

/-- Where its memo is there, **completing** does not fail. -/
theorem complete_eq (h : m.memos[id]? = some memo) (node : NodeId) :
    m.complete id node = .ok (m.completedWith id memo node) := by
  rw [complete, memo_eq h, completedWith, ← foldl_resume]
  rfl

/-- Where its memo is there, **finishing** does not fail. -/
theorem finish_eq (h : m.memos[id]? = some memo) (kind : Forest.Kind) :
    m.finish id kind = .ok (m.finishedWith id memo kind) := by
  rw [finish, memo_eq h]
  exact complete_eq (m := (m.addNode kind ⟨memo.start, m.position⟩).1) h _

/-- Where its memo is there, **registering** does not fail. -/
theorem register_eq (h : m.memos[id]? = some memo) (next : Continuation) :
    m.register id next = .ok (m.registeredWith id memo next) := by
  rw [register, memo_eq h, registeredWith]
  cases hr : memo.resultAt m.position <;> simp [hr, pure, Except.pure, bind, Except.bind]

end

/-- Expanding a terminal **looks at the next symbol** and does nothing else. -/
theorem expand_terminal (m : Machine) (id : MemoId) {e : Expr} (he : e.isTerminal = true) :
    m.expand id e =
      match m.lookahead with
      | none => .ok m
      | some symbol => if e.accepts symbol then .ok (m.matchedWith id symbol) else .ok m := by
  cases e <;> first | (cases he; done) | rfl

theorem expand_rep (m : Machine) (id : MemoId) (tag : Option String) (child : ExprId) (min : Nat)
    (max : Option Nat) :
    m.expand id (.rep tag child min max) =
      let m' := (m.addMemo (.choice none id)).1.withTasks (if max = some 0 then []
        else [.derive (.repetition tag m.memos.size [] child 1 min max) child])
      if min = 0 then m'.finish m.memos.size (.sequence tag []) else .ok m' := by
  by_cases hmax : max = some 0
  · simp only [expand, hmax, if_true]
    rfl
  · simp only [expand, hmax, if_false]
    rfl

/-- A result of the start becomes a root **at the end of the input**, once. -/
theorem resume_accept (m : Machine) (node : NodeId) :
    m.resume node .accept =
      if m.lookahead = none ∧ node ∉ m.roots then .ok (m.withRoot node) else .ok m := by
  by_cases h : m.lookahead = none ∧ node ∉ m.roots
  · rw [resume, if_pos (by simpa using h), if_pos h]
    rfl
  · rw [resume, if_neg (by simpa using h), if_neg h]
    rfl

/-- Resuming a continuation of a choice depends on whether its memo **has a result here**. There is
one node for all alternatives that end at the same place, and the second joins the first. -/
theorem resume_choice {m : Machine} {memo : MemoId} {record : Memo}
    (hrecord : m.memos[memo]? = some record) (node : NodeId) (tag : Option String) :
    m.resume node (.choice tag memo) =
      match record.resultAt m.position with
      | some existing => if existing = node then .ok m else m.join existing node
      | none => .ok (m.finishedWith memo record (.choice tag [node])) := by
  rw [resume, memo_eq hrecord, ← finish_eq hrecord]
  rfl

/-- A repetition that has not enough **only goes on**, if it may. The count is what matters here; an
empty part counts like any other. -/
theorem resume_repetition_early {m : Machine} {node : NodeId} {n : Forest.Node}
    (hnode : m.nodes[node]? = some n) (tag : Option String) (memo : MemoId) (done : List NodeId)
    (child : ExprId) {count min : Nat} (max : Option Nat) (hmin : count < min) :
    m.resume node (.repetition tag memo done child count min max) =
      .ok (m.withTasks (if max.all (count < ·) then
        [.derive (.repetition tag memo (node :: done) child (count + 1) min max) child]
        else [])) := by
  have hempty : m.isEmptyNode node = .ok n.span.isEmpty := by rw [isEmptyNode, hnode]
  have hnot : ¬ min ≤ count := Nat.not_le_of_lt hmin
  have hbind : ∀ k : Bool → Except Fault Machine,
    (Except.ok n.span.isEmpty >>= k) = k n.span.isEmpty :=
    fun _ => rfl
  rw [resume, hempty, hbind]
  simp only [hnot, if_false, decide_false, Bool.and_false, Bool.not_false, Bool.and_true]
  generalize max.all (count < ·) = goesOn
  cases goesOn <;> rfl

/-- A repetition **goes on** if it may, and finishes if it has enough. An empty part ends the going
on, or a repetition of nothing would not end. -/
theorem resume_repetition {m : Machine} {memo : MemoId} {record : Memo} {node : NodeId}
    {n : Forest.Node} (hrecord : m.memos[memo]? = some record) (hnode : m.nodes[node]? = some n)
    (tag : Option String) (done : List NodeId) (child : ExprId) (count min : Nat)
    (max : Option Nat) :
    m.resume node (.repetition tag memo done child count min max) =
      let next : Task :=
        .derive (.repetition tag memo (node :: done) child (count + 1) min max) child
      if min ≤ count then
        .ok ((m.withTasks
          (if max.all (count < ·) && !n.span.isEmpty then [next] else [])).finishedWith
          memo record (.sequence tag (node :: done).reverse))
      else .ok (m.withTasks (if max.all (count < ·) then [next] else [])) := by
  by_cases hmin : min ≤ count
  · have hempty : m.isEmptyNode node = .ok n.span.isEmpty := by rw [isEmptyNode, hnode]
    have hbind : ∀ k : Bool → Except Fault Machine,
      (Except.ok n.span.isEmpty >>= k) = k n.span.isEmpty :=
      fun _ => rfl
    rw [resume, hempty, hbind]
    simp only [hmin, if_true, decide_true, Bool.and_true]
    generalize (max.all (count < ·) && !n.span.isEmpty) = goesOn
    cases goesOn with
    | false => exact finish_eq hrecord _
    | true => exact finish_eq (m := m.withTasks [_]) hrecord _
  · simp only [hmin, if_false]
    exact resume_repetition_early hnode tag memo done child max (Nat.lt_of_not_le hmin)

/-! ### Outcomes -/

/-- What the **expansion** of an expression for a memo can come to. -/
inductive Expansion (L : Ledger) (m : Machine) (memo : MemoId) : Expr → Ledger → Machine → Prop
  | empty {tag : Option String} {record : Memo} (hrecord : m.memos[memo]? = some record) :
      Expansion L m memo (.seq tag []) (L.addResult memo m.position)
        (m.finishedWith memo record (.sequence tag []))
  | sequence {tag : Option String} {child : ExprId} {rest : List ExprId} {goal : Goal}
      (hgoal : L.goals[memo]? = some goal) :
      Expansion L m memo (.seq tag (child :: rest)) (L.addGoal { goal with inner := true })
        ((m.addMemo (.choice none memo)).1.withTasks
          [.derive (.sequence tag m.memos.size [] rest) child])
  | choice {tag : Option String} {children : List ExprId} :
      Expansion L m memo (.alt tag children) L
        (m.withTasks (children.map (.derive (.choice tag memo))))
  | repetition {tag : Option String} {child : ExprId} {min : Nat} {max : Option Nat} {goal : Goal}
      (hgoal : L.goals[memo]? = some goal) (hmin : min ≠ 0) :
      Expansion L m memo (.rep tag child min max) (L.addGoal { goal with inner := true })
        ((m.addMemo (.choice none memo)).1.withTasks (if max = some 0 then []
          else [.derive (.repetition tag m.memos.size [] child 1 min max) child]))
  | repetitionEmpty {tag : Option String} {child : ExprId} {max : Option Nat} {goal : Goal}
      (hgoal : L.goals[memo]? = some goal) :
      Expansion L m memo (.rep tag child 0 max)
        ((L.addGoal { goal with inner := true }).addResult m.memos.size m.position)
        (((m.addMemo (.choice none memo)).1.withTasks (if max = some 0 then []
          else [.derive (.repetition tag m.memos.size [] child 1 0 max) child])).finishedWith
            m.memos.size ⟨m.position, [.choice none memo], none⟩ (.sequence tag []))
  | omitted {child : ExprId} :
      Expansion L m memo (.omitted child) L (m.withTasks [.derive (.omitted memo) child])
  | lexical {child : ExprId} :
      Expansion L m memo (.lexical child) L (m.withTasks [.derive (.lexical memo) child])
  | unmatched {e : Expr} (hterminal : e.isTerminal = true)
      (hmatch : ∀ symbol, m.lookahead = some symbol → e.accepts symbol = false) :
      Expansion L m memo e L m
  | matched {e : Expr} {symbol : String} (hlook : m.lookahead = some symbol)
      (hmatch : e.accepts symbol = true) :
      Expansion L m memo e (L.addResult memo (m.position + 1)) (m.matchedWith memo symbol)

/-- What **a step** can come to. -/
inductive Outcome (g : Grammar) (L : Ledger) (m : Machine) : Task → Ledger → Machine → Prop
  | registered {next : Continuation} {id : ExprId} {memo : MemoId} {record : Memo}
      (htable : m.table[id]? = some memo) (hrecord : m.memos[memo]? = some record) :
      Outcome g L m (.derive next id) L (m.registeredWith memo record next)
  | opened {next : Continuation} {id : ExprId} {e : Expr} {L' : Ledger} {m' : Machine}
      (htable : m.table[id]? = none) (he : g.expr? id = some e)
      (h : Expansion (L.addGoal ⟨id, false, m.position⟩) (m.opened next id) m.memos.size e L' m') :
      Outcome g L m (.derive next id) L' m'
  | accepted {node : NodeId} (hlook : m.lookahead = none) (hroot : node ∉ m.roots) :
      Outcome g L m (.resume node .accept) L (m.withRoot node)
  | acceptedBefore {node : NodeId} (h : m.lookahead = none → node ∈ m.roots) :
      Outcome g L m (.resume node .accept) L m
  | sequenceDone {node : NodeId} {tag : Option String} {memo : MemoId} {done : List NodeId}
      {record : Memo} (hrecord : m.memos[memo]? = some record) :
      Outcome g L m (.resume node (.sequence tag memo done [])) (L.addResult memo m.position)
        (m.finishedWith memo record (.sequence tag (node :: done).reverse))
  | sequenceNext {node : NodeId} {tag : Option String} {memo : MemoId} {done : List NodeId}
      {child : ExprId} {rest : List ExprId} :
      Outcome g L m (.resume node (.sequence tag memo done (child :: rest))) L
        (m.withTasks [.derive (.sequence tag memo (node :: done) rest) child])
  | choiceFirst {node : NodeId} {tag : Option String} {memo : MemoId} {record : Memo}
      (hrecord : m.memos[memo]? = some record) (hresult : record.resultAt m.position = none) :
      Outcome g L m (.resume node (.choice tag memo)) (L.addResult memo m.position)
        (m.finishedWith memo record (.choice tag [node]))
  | choiceSame {node : NodeId} {tag : Option String} {memo : MemoId} {record : Memo}
      (hrecord : m.memos[memo]? = some record)
      (hresult : record.resultAt m.position = some node) :
      Outcome g L m (.resume node (.choice tag memo)) L m
  | choiceKnown {node existing : NodeId} {tag tag' : Option String} {memo : MemoId} {record : Memo}
      {alternatives : List NodeId} {span : Span} (hrecord : m.memos[memo]? = some record)
      (hresult : record.resultAt m.position = some existing)
      (hnode : m.nodes[existing]? = some ⟨.choice tag' alternatives, span⟩)
      (hmem : node ∈ alternatives) : Outcome g L m (.resume node (.choice tag memo)) L m
  | choiceJoined {node existing : NodeId} {tag tag' : Option String} {memo : MemoId}
      {record : Memo} {alternatives : List NodeId} {span : Span}
      (hrecord : m.memos[memo]? = some record)
      (hresult : record.resultAt m.position = some existing) (hne : existing ≠ node)
      (hnode : m.nodes[existing]? = some ⟨.choice tag' alternatives, span⟩)
      (hmem : node ∉ alternatives) :
      Outcome g L m (.resume node (.choice tag memo)) L
        (m.joinedWith existing tag' alternatives span node)
  | repetitionEarly {node : NodeId} {tag : Option String} {memo : MemoId} {done : List NodeId}
      {child : ExprId} {count min : Nat} {max : Option Nat} {n : Forest.Node}
      (hnode : m.nodes[node]? = some n) (hmin : count < min) :
      Outcome g L m (.resume node (.repetition tag memo done child count min max)) L
        (m.withTasks (if max.all (count < ·) then
          [.derive (.repetition tag memo (node :: done) child (count + 1) min max) child] else []))
  | repetitionLate {node : NodeId} {tag : Option String} {memo : MemoId} {done : List NodeId}
      {child : ExprId} {count min : Nat} {max : Option Nat} {n : Forest.Node} {record : Memo}
      (hnode : m.nodes[node]? = some n) (hmin : min ≤ count)
      (hrecord : m.memos[memo]? = some record) :
      Outcome g L m (.resume node (.repetition tag memo done child count min max))
        (L.addResult memo m.position)
        ((m.withTasks (if max.all (count < ·) && !n.span.isEmpty then
          [.derive (.repetition tag memo (node :: done) child (count + 1) min max) child]
          else [])).finishedWith memo record (.sequence tag (node :: done).reverse))
  | omitted {node : NodeId} {memo : MemoId} {record : Memo}
      (hrecord : m.memos[memo]? = some record) :
      Outcome g L m (.resume node (.omitted memo)) (L.addResult memo m.position)
        (m.finishedWith memo record .omitted)
  | lexical {node : NodeId} {memo : MemoId} {record : Memo}
      (hrecord : m.memos[memo]? = some record) :
      Outcome g L m (.resume node (.lexical memo)) (L.addResult memo m.position)
        (m.finishedWith memo record (.lexical node))

end Machine

end GeneralParsing
