import GeneralParsing.Forest.Machine
import GeneralParsing.Proofs.Arrays

/-!
# What memos and results stand for

The machine's tables hold numbers. A **ledger** says what the numbers stand for: every memo works on
a goal, an expression derived from a position, and every result is one of some memo and ends
somewhere. A sequence with children and a repetition have two memos, an inner one that collects
sequences of results and an outer one that hands on the choice among these.

`Awaits` says which goal's results a continuation can take, and `Explains` says why a node is a
result of a goal. Both speak of the ledger only, which grows and never changes, so both stay true
as the machine goes on.
-/

namespace GeneralParsing

/-- What a memo **works on**: an expression derived from a position. The inner goal of a sequence or
a repetition has sequences of results, the outer goal has the choice among them. -/
structure Goal where
  /-- The expression. -/
  expr : ExprId
  /-- Whether the results are the sequences of parts. -/
  inner : Bool
  /-- The position it is derived from. -/
  start : Nat
  deriving DecidableEq

/-- What the **numbers stand for**. -/
structure Ledger where
  /-- The goal of each memo. -/
  goals : Array Goal := #[]
  /-- The memo of each result, and the position where the result ends. -/
  results : Array (MemoId × Nat) := #[]

/-- Whether an expression has an **inner goal**. -/
def Expr.hasInner : Expr → Bool
  | seq _ (_ :: _) => true
  | rep _ _ _ _ => true
  | _ => false

/-- Whether an expression **is a terminal**. -/
def Expr.isTerminal : Expr → Bool
  | token _ => true
  | pattern _ => true
  | _ => false

/-- Only terminals **accept symbols**. -/
theorem Expr.isTerminal_of_accepts {e : Expr} {symbol : String} (h : e.accepts symbol = true) :
    e.isTerminal = true := by
  cases e <;> first | rfl | cases h

theorem Expr.isTerminal_of_hasInner {e : Expr} (h : e.hasInner = true) : e.isTerminal = false := by
  cases e with
  | token | pattern => cases h
  | _ => rfl

namespace Ledger

/-- The ledger with **one more memo**. -/
def addGoal (L : Ledger) (goal : Goal) : Ledger := { L with goals := L.goals.push goal }

/-- The ledger with **one more result**. -/
def addResult (L : Ledger) (memo : MemoId) (stop : Nat) : Ledger :=
  { L with results := L.results.push (memo, stop) }

/-- A node is a **result of a goal** and ends at a position. -/
def Result (L : Ledger) (node : NodeId) (goal : Goal) (stop : Nat) : Prop :=
  ∃ memo, L.results[node]? = some (memo, stop) ∧ L.goals[memo]? = some goal

/-- Results of expressions **in order**, from a position to another. -/
inductive Covers (L : Ledger) : List NodeId → List ExprId → Nat → Nat → Prop
  | nil (start : Nat) : Covers L [] [] start start
  | cons {node : NodeId} {id : ExprId} {nodes : List NodeId} {ids : List ExprId}
      {start middle stop : Nat} (h : L.Result node ⟨id, false, start⟩ middle)
      (hs : Covers L nodes ids middle stop) : Covers L (node :: nodes) (id :: ids) start stop

/-- A ledger that **has grown**. -/
structure Grows (L L' : Ledger) : Prop where
  goal : ∀ {memo : MemoId} {goal : Goal}, L.goals[memo]? = some goal →
    L'.goals[memo]? = some goal
  result : ∀ {node : NodeId} {result : MemoId × Nat}, L.results[node]? = some result →
    L'.results[node]? = some result

variable {L L' L'' : Ledger}

theorem Grows.refl (L : Ledger) : L.Grows L := ⟨id, id⟩

/-- Growing **goes on**. -/
theorem Grows.trans (h : L.Grows L') (h' : L'.Grows L'') : L.Grows L'' :=
  ⟨fun hm => h'.goal (h.goal hm), fun hn => h'.result (h.result hn)⟩

/-- Once as many results are listed as there are nodes, **the next one** is of the next node. -/
theorem results_addResult_of_size {n : Nat} (hsize : L.results.size = n) (memo : MemoId)
    (stop : Nat) : (L.addResult memo stop).results[n]? = some (memo, stop) := by
  rw [← hsize]
  exact Array.getElem?_push_size

theorem grows_addGoal (L : Ledger) (goal : Goal) : L.Grows (L.addGoal goal) :=
  ⟨fun h => getElem?_push_of_some h, id⟩

theorem grows_addResult (L : Ledger) (memo : MemoId) (stop : Nat) :
    L.Grows (L.addResult memo stop) :=
  ⟨id, fun h => getElem?_push_of_some h⟩

/-- A node is a result of **one goal** and ends at one position. So the goal, and with it the
expression and the span, can be read off the node. -/
theorem Result.unique {node : NodeId} {goal goal' : Goal} {stop stop' : Nat}
    (h : L.Result node goal stop) (h' : L.Result node goal' stop') :
    goal = goal' ∧ stop = stop' := by
  obtain ⟨memo, hresult, hgoal⟩ := h
  obtain ⟨memo', hresult', hgoal'⟩ := h'
  obtain ⟨rfl, rfl⟩ := Prod.mk.inj (Option.some.inj (hresult.symm.trans hresult'))
  exact ⟨Option.some.inj (hgoal.symm.trans hgoal'), rfl⟩

/-- A result stays in the ledger **while it grows**. -/
theorem Result.mono (h : L.Grows L') {node : NodeId} {goal : Goal} {stop : Nat}
    (hn : L.Result node goal stop) : L'.Result node goal stop :=
  let ⟨memo, hresult, hgoal⟩ := hn
  ⟨memo, h.result hresult, h.goal hgoal⟩

/-- What covers a stretch still does so **when the ledger has grown**. -/
theorem Covers.mono (h : L.Grows L') {nodes : List NodeId} {ids : List ExprId}
    {start stop : Nat} (hc : L.Covers nodes ids start stop) : L'.Covers nodes ids start stop := by
  induction hc with
  | nil start => exact .nil start
  | cons hn _ ih => exact .cons (hn.mono h) ih

/-- Results in order **go on** with one more. This is how the results of a sequence or a repetition
are put together, the first one first. -/
theorem Covers.snoc {nodes : List NodeId} {ids : List ExprId} {start middle stop : Nat}
    (hc : L.Covers nodes ids start middle) {node : NodeId} {id : ExprId}
    (hn : L.Result node ⟨id, false, middle⟩ stop) :
    L.Covers (nodes ++ [node]) (ids ++ [id]) start stop := by
  induction hc with
  | nil start => exact .cons hn (.nil stop)
  | cons h _ ih => exact .cons h (ih hn)

/-- Whatever covers a stretch together with others **is a result**. -/
theorem Covers.result_of_mem {nodes : List NodeId} {ids : List ExprId} {start stop : Nat}
    (hc : L.Covers nodes ids start stop) {node : NodeId} (hn : node ∈ nodes) :
    ∃ goal stop, L.Result node goal stop := by
  induction hc with
  | nil => simp at hn
  | cons h _ ih =>
    rcases List.mem_cons.mp hn with rfl | hn
    · exact ⟨_, _, h⟩
    · exact ih hn

/-- A stretch is covered by **one result for each expression**. -/
theorem Covers.length_eq {nodes : List NodeId} {ids : List ExprId} {start stop : Nat}
    (hc : L.Covers nodes ids start stop) : nodes.length = ids.length := by
  induction hc with
  | nil => rfl
  | cons _ _ ih => rw [List.length_cons, List.length_cons, ih]

end Ledger

/-! ### Continuations -/

/-- A continuation **awaits** the results of a goal. -/
inductive Awaits (g : Grammar) (L : Ledger) : Continuation → Goal → Prop
  | accept : Awaits g L .accept ⟨g.start, false, 0⟩
  | sequence {tag : Option String} {memo : MemoId} {done : List NodeId} {ids : List ExprId}
      {child : ExprId} {rest : List ExprId} {id : ExprId} {start stop : Nat}
      (hmemo : L.goals[memo]? = some ⟨id, true, start⟩)
      (he : g.expr? id = some (.seq tag (ids ++ child :: rest)))
      (hdone : L.Covers done.reverse ids start stop) :
      Awaits g L (.sequence tag memo done rest) ⟨child, false, stop⟩
  | choice {tag : Option String} {memo : MemoId} {children : List ExprId} {child : ExprId}
      {id : ExprId} {start : Nat} (hmemo : L.goals[memo]? = some ⟨id, false, start⟩)
      (he : g.expr? id = some (.alt tag children)) (hc : child ∈ children) :
      Awaits g L (.choice tag memo) ⟨child, false, start⟩
  | inner {memo : MemoId} {id : ExprId} {e : Expr} {start : Nat}
      (hmemo : L.goals[memo]? = some ⟨id, false, start⟩) (he : g.expr? id = some e)
      (hinner : e.hasInner = true) : Awaits g L (.choice none memo) ⟨id, true, start⟩
  | repetition {tag : Option String} {memo : MemoId} {done : List NodeId} {child : ExprId}
      {min : Nat} {max : Option Nat} {id : ExprId} {start stop : Nat}
      (hmemo : L.goals[memo]? = some ⟨id, true, start⟩)
      (he : g.expr? id = some (.rep tag child min max))
      (hdone : L.Covers done.reverse (List.replicate done.length child) start stop)
      (hmax : ∀ m, max = some m → done.length + 1 ≤ m) :
      Awaits g L (.repetition tag memo done child (done.length + 1) min max) ⟨child, false, stop⟩
  | omitted {memo : MemoId} {child : ExprId} {id : ExprId} {start : Nat}
      (hmemo : L.goals[memo]? = some ⟨id, false, start⟩)
      (he : g.expr? id = some (.omitted child)) :
      Awaits g L (.omitted memo) ⟨child, false, start⟩
  | lexical {memo : MemoId} {child : ExprId} {id : ExprId} {start : Nat}
      (hmemo : L.goals[memo]? = some ⟨id, false, start⟩)
      (he : g.expr? id = some (.lexical child)) :
      Awaits g L (.lexical memo) ⟨child, false, start⟩

variable {g : Grammar} {L L' : Ledger}

/-- A continuation still awaits its goal **when the ledger has grown**. -/
theorem Awaits.mono (h : L.Grows L') {next : Continuation} {goal : Goal}
    (ha : Awaits g L next goal) : Awaits g L' next goal := by
  cases ha with
  | accept => exact .accept
  | sequence hmemo he hdone => exact .sequence (h.goal hmemo) he (hdone.mono h)
  | choice hmemo he hc => exact .choice (h.goal hmemo) he hc
  | inner hmemo he hinner => exact .inner (h.goal hmemo) he hinner
  | repetition hmemo he hdone hmax => exact .repetition (h.goal hmemo) he (hdone.mono h) hmax
  | omitted hmemo he => exact .omitted (h.goal hmemo) he
  | lexical hmemo he => exact .lexical (h.goal hmemo) he

/-- What is awaited is an expression **of the grammar**. References stay inside the grammar, so no
expression is missing when it is derived. -/
theorem Awaits.exists_expr (hg : g.Closed) {next : Continuation} {goal : Goal}
    (ha : Awaits g L next goal) : ∃ e, g.expr? goal.expr = some e := by
  cases ha with
  | accept => exact g.exists_expr?_of_lt g.start_lt
  | sequence _ he _ => exact g.exists_expr?_of_lt (hg.child_lt he (by simp [Expr.children]))
  | choice _ he hc => exact g.exists_expr?_of_lt (hg.child_lt he hc)
  | inner _ he _ => exact ⟨_, he⟩
  | repetition _ he _ _ => exact g.exists_expr?_of_lt (hg.child_lt he (by simp [Expr.children]))
  | omitted _ he => exact g.exists_expr?_of_lt (hg.child_lt he (by simp [Expr.children]))
  | lexical _ he => exact g.exists_expr?_of_lt (hg.child_lt he (by simp [Expr.children]))

/-! ### Nodes -/

/-- Why a node is a **result of a goal**. What it is made of is older, but for later
alternatives. -/
inductive Explains (g : Grammar) (w : List String) (L : Ledger) (node : NodeId) :
    Forest.Kind → Goal → Nat → Prop
  | symbol {id : ExprId} {e : Expr} {text : String} {start : Nat} (he : g.expr? id = some e)
      (ha : e.accepts text = true) (hw : w[start]? = some text) :
      Explains g w L node (.symbol text) ⟨id, false, start⟩ (start + 1)
  | empty {id : ExprId} {tag : Option String} {start : Nat}
      (he : g.expr? id = some (.seq tag [])) :
      Explains g w L node (.sequence tag []) ⟨id, false, start⟩ start
  | sequence {id : ExprId} {tag : Option String} {child : ExprId} {ids : List ExprId}
      {children : List NodeId} {start stop : Nat}
      (he : g.expr? id = some (.seq tag (child :: ids)))
      (hcovers : L.Covers children (child :: ids) start stop) (hold : ∀ c ∈ children, c < node) :
      Explains g w L node (.sequence tag children) ⟨id, true, start⟩ stop
  | repetition {id : ExprId} {tag : Option String} {child : ExprId} {min : Nat}
      {max : Option Nat} {children : List NodeId} {start stop : Nat}
      (he : g.expr? id = some (.rep tag child min max))
      (hcovers : L.Covers children (List.replicate children.length child) start stop)
      (hmin : min ≤ children.length) (hmax : ∀ m, max = some m → children.length ≤ m)
      (hold : ∀ c ∈ children, c < node) :
      Explains g w L node (.sequence tag children) ⟨id, true, start⟩ stop
  | choice {id : ExprId} {tag : Option String} {ids : List ExprId} {first : NodeId}
      {more : List NodeId} {start stop : Nat} (he : g.expr? id = some (.alt tag ids))
      (hresult : ∀ a ∈ first :: more, ∃ child ∈ ids, L.Result a ⟨child, false, start⟩ stop)
      (hold : first < node) :
      Explains g w L node (.choice tag (first :: more)) ⟨id, false, start⟩ stop
  | inner {id : ExprId} {e : Expr} {first : NodeId} {more : List NodeId} {start stop : Nat}
      (he : g.expr? id = some e) (hinner : e.hasInner = true)
      (hresult : ∀ a ∈ first :: more, L.Result a ⟨id, true, start⟩ stop) (hold : first < node) :
      Explains g w L node (.choice none (first :: more)) ⟨id, false, start⟩ stop
  | omitted {id : ExprId} {child : ExprId} {part : NodeId} {start stop : Nat}
      (he : g.expr? id = some (.omitted child))
      (hresult : L.Result part ⟨child, false, start⟩ stop) (hold : part < node) :
      Explains g w L node .omitted ⟨id, false, start⟩ stop
  | lexical {id : ExprId} {child : ExprId} {part : NodeId} {start stop : Nat}
      (he : g.expr? id = some (.lexical child))
      (hresult : L.Result part ⟨child, false, start⟩ stop) (hold : part < node) :
      Explains g w L node (.lexical part) ⟨id, false, start⟩ stop

section

variable {w : List String} {node : NodeId} {kind : Forest.Kind} {id : ExprId} {start stop : Nat}

/-- The results of an alternation are **choices** among the results of its children. The first of
them is older than the choice, which is what makes spelling end. -/
theorem Explains.of_alt {tag : Option String} {ids : List ExprId}
    (he : g.expr? id = some (.alt tag ids)) (h : Explains g w L node kind ⟨id, false, start⟩ stop) :
    ∃ first more, kind = .choice tag (first :: more) ∧ first < node ∧
      ∀ a ∈ first :: more, ∃ child ∈ ids, L.Result a ⟨child, false, start⟩ stop := by
  cases h with
  | symbol he' ha => cases he.symm.trans he'; cases ha
  | empty he' | omitted he' | lexical he' => cases he.symm.trans he'
  | choice he' hresult hold =>
    cases he.symm.trans he'
    exact ⟨_, _, rfl, hold, hresult⟩
  | inner he' hinner => cases he.symm.trans he'; cases hinner

/-- The results of an expression with an inner goal are **choices** among the results of that. -/
theorem Explains.of_hasInner {e : Expr} (he : g.expr? id = some e) (hinner : e.hasInner = true)
    (h : Explains g w L node kind ⟨id, false, start⟩ stop) :
    ∃ first more, kind = .choice none (first :: more) ∧ first < node ∧
      ∀ a ∈ first :: more, L.Result a ⟨id, true, start⟩ stop := by
  cases h with
  | symbol he' ha =>
    cases he.symm.trans he'
    exact absurd (Expr.isTerminal_of_accepts ha) (by simp [Expr.isTerminal_of_hasInner hinner])
  | empty he' | omitted he' | lexical he' | choice he' =>
    cases he.symm.trans he'
    cases hinner
  | inner _ _ hresult hold => exact ⟨_, _, rfl, hold, hresult⟩

end

/-- What explains a result still does so **when the ledger has grown**. -/
theorem Explains.mono (h : L.Grows L') {w : List String} {node : NodeId} {kind : Forest.Kind}
    {goal : Goal} {stop : Nat} (hex : Explains g w L node kind goal stop) :
    Explains g w L' node kind goal stop := by
  cases hex with
  | symbol he ha hw => exact .symbol he ha hw
  | empty he => exact .empty he
  | sequence he hcovers hold => exact .sequence he (hcovers.mono h) hold
  | repetition he hcovers hmin hmax hold => exact .repetition he (hcovers.mono h) hmin hmax hold
  | choice he hresult hold =>
    exact .choice he (fun a ha => let ⟨c, hc, hr⟩ := hresult a ha; ⟨c, hc, hr.mono h⟩) hold
  | inner he hinner hresult hold => exact .inner he hinner (fun a ha => (hresult a ha).mono h) hold
  | omitted he hresult hold => exact .omitted he (hresult.mono h) hold
  | lexical he hresult hold => exact .lexical he (hresult.mono h) hold

end GeneralParsing
