import GeneralParsing.Proofs.Machine.Accounts
import GeneralParsing.Proofs.Parsing.Recognition
import GeneralParsing.Proofs.Parsing.Unambiguous

/-!
# Everything happens exactly once

A continuation may be registered with a memo before the memo has a result, when it has one here, or
when its latest result is an earlier one. Whenever it comes, it is resumed with every result of the
memo once: where no task is left, each completion has reached each parent as often as it was
registered (`Trace.exactlyOnce`).

So no derivation is recorded twice. A memo is completed once at a position, the results that are
choices can be told from each other by their expression and their span, and two alternatives of a
sequence or a repetition have different children.

Every parse is such a run (`Forest.exactly_once`), whether the input has a forest or is rejected.
-/

namespace GeneralParsing

/-- Whether the results of an expression are **choices**: it is an alternation, or a sequence or a
repetition, whose results are the lists of results of its parts. -/
def Expr.hasChoice : Expr → Bool
  | alt _ _ => true
  | e => e.hasInner

theorem Expr.hasChoice_of_hasInner {e : Expr} (h : e.hasInner = true) : e.hasChoice = true := by
  cases e with
  | alt => rfl
  | _ => exact h

namespace Machine

/-- A node is the **result of an expression** from a position to another: it completed the memo in
the table for the expression. -/
def ResultOf (ts : List Transition) (expr : ExprId) (start stop : Nat) (node : NodeId) : Prop :=
  ∃ id, Tabled ts expr start id ∧ (stop, node) ∈ completions ts id

/-- The **children** of a node that lists them. -/
def listOf (m : Machine) (node : NodeId) : Option (List NodeId) :=
  match (m.nodes[node]?).map Forest.Node.kind with
  | some (.sequence _ children) => some children
  | _ => none

/-- What happens in a run **happens exactly once**. -/
structure ExactlyOnce (g : Grammar) (ts : List Transition) (m : Machine) : Prop where
  /-- At a position there is one memo in the table for an expression. -/
  memo : ∀ expr start id id', Tabled ts expr start id → Tabled ts expr start id' → id = id'
  /-- A memo is in the table for one expression, at one position. -/
  goal : ∀ expr expr' start start' id, Tabled ts expr start id → Tabled ts expr' start' id →
    expr = expr' ∧ start = start'
  /-- A memo in the table is completed at most once at each position. -/
  completed : ∀ expr start id, Tabled ts expr start id → ((completions ts id).map Prod.fst).Nodup
  /-- Where a memo is completed, a continuation is resumed with the result once for each time that
  it was registered with the memo, be it before or after. -/
  resumed : ∀ id stop node next, (stop, node) ∈ completions ts id →
    (resumptions ts).count (stop, node, next) = (registrations ts id).count next
  /-- A continuation is resumed for no other reason. -/
  reason : ∀ stop node next, (stop, node, next) ∈ resumptions ts →
    ∃ id, (stop, node) ∈ completions ts id ∧ next ∈ registrations ts id
  /-- Where there are roots there is one. -/
  root : m.roots ≠ [] → ∃ root, m.roots = [root]
  /-- A choice is the result of an alternation, a sequence or a repetition over its span. -/
  choice : ∀ node tag alternatives span, m.nodes[node]? = some ⟨.choice tag alternatives, span⟩ →
    ∃ expr e, g.expr? expr = some e ∧ e.hasChoice = true ∧
      ResultOf ts expr span.start span.stop node
  /-- An expression has one result from a position to another. -/
  result : ∀ expr start stop node node', ResultOf ts expr start stop node →
    ResultOf ts expr start stop node' → node = node'
  /-- A node is the result of one expression, from one position to one other. -/
  source : ∀ expr expr' start start' stop stop' node, ResultOf ts expr start stop node →
    ResultOf ts expr' start' stop' node → expr = expr' ∧ start = start' ∧ stop = stop'
  /-- The result of a sequence or a repetition is a choice among lists that are all different. -/
  lists : ∀ expr e start stop node, g.expr? expr = some e → e.hasInner = true →
    ResultOf ts expr start stop node → ∃ (alternatives : List NodeId) (lists : List (List NodeId)),
      m.nodes[node]? = some ⟨.choice none alternatives, ⟨start, stop⟩⟩ ∧
        alternatives.map m.listOf = lists.map some ∧ lists.Nodup

section

variable {g : Grammar} {w : List String} {L : Ledger} {m : Machine} {ts : List Transition}
variable {waiting : List (NodeId × MemoId)} {id : MemoId} {expr : ExprId} {start stop : Nat}
variable {node : NodeId}

theorem Traced.resultOf_iff (h : Traced L ts m waiting) : ResultOf ts expr start stop node ↔
    ∃ id, L.goals[id]? = some ⟨expr, false, start⟩ ∧ Given L waiting node id stop :=
  exists_congr fun id => and_congr (h.tabled expr start id) (h.accounted.mem id stop node)

theorem Traced.result (h : Traced L ts m waiting) (hn : ResultOf ts expr start stop node) :
    L.Result node ⟨expr, false, start⟩ stop := by
  obtain ⟨id, hgoal, hgiven⟩ := h.resultOf_iff.mp hn
  exact ⟨id, hgiven.1, hgoal⟩

/-- A memo in the table is **completed once** at most at each position. Two completions at one place
would be two results of an outer memo there. -/
theorem Traced.nodup_completions (h : Traced L ts m waiting) (hu : Unique L m waiting)
    (hid : Tabled ts expr start id) : ((completions ts id).map Prod.fst).Nodup := by
  refine (h.accounted.nodup id).map_on ?_
  rintro ⟨stop, node⟩ hmem ⟨stop', node'⟩ hmem' (rfl : stop = stop')
  have hgoal := (h.tabled expr start id).mp hid
  have hresult := ((h.accounted.mem id stop node).mp hmem).1
  have hresult' := ((h.accounted.mem id stop node').mp hmem').1
  rw [hu.one node node' id stop ⟨hresult, expr, start, hgoal⟩ ⟨hresult', expr, start, hgoal⟩]

/-- Where no task is left **every registration has led to a resumption**. What is registered before
is served when the memo is completed, and what is registered after that is served at once. -/
theorem Traced.count_resumptions (h : Traced L ts m waiting) (htasks : m.tasks = [])
    (hmem : (stop, node) ∈ completions ts id) (next : Continuation) :
    (resumptions ts).count (stop, node, next) = (registrations ts id).count next := by
  have hcount := h.accounted.count node id stop next ((h.accounted.mem id stop node).mp hmem)
  rw [htasks, List.count_nil, Nat.add_zero] at hcount
  rw [hcount, h.registered]

/-- A choice **is a result**, of an expression whose results are choices. Other expressions have
results of other kinds. -/
theorem Sound.choice_source (hs : Sound g w L m) {tag : Option String} {alternatives : List NodeId}
    {span : Span} (hnode : m.nodes[node]? = some ⟨.choice tag alternatives, span⟩) :
    ∃ id expr e, L.results[node]? = some (id, span.stop) ∧
      L.goals[id]? = some ⟨expr, false, span.start⟩ ∧ g.expr? expr = some e ∧
        e.hasChoice = true := by
  obtain ⟨id, goal, stop, hsound⟩ := hs.node node _ hnode
  obtain ⟨hresult, hgoal, hspan, -, hexplained⟩ := hsound
  obtain rfl : span = ⟨goal.start, stop⟩ := hspan
  cases hexplained with
  | choice he => exact ⟨id, _, _, hresult, hgoal, he, rfl⟩
  | inner he hinner => exact ⟨id, _, _, hresult, hgoal, he, Expr.hasChoice_of_hasInner hinner⟩

/-- A choice **does not wait**. -/
theorem Sound.not_mem_matched_of_choice (hs : Sound g w L m) {tag : Option String}
    {alternatives : List NodeId} {span : Span}
    (hnode : m.nodes[node]? = some ⟨.choice tag alternatives, span⟩) (id : MemoId) :
    (node, id) ∉ m.matched := by
  intro hmem
  obtain ⟨hresult, expr, start, e, hgoal, he, hterminal⟩ := hs.matched node id hmem
  obtain ⟨id', expr', e', hresult', hgoal', he', hchoice⟩ := hs.choice_source hnode
  obtain ⟨rfl, -⟩ := Prod.mk.inj (Option.some.inj (hresult.symm.trans hresult'))
  obtain ⟨rfl, -, -⟩ := Goal.mk.inj (Option.some.inj (hgoal.symm.trans hgoal'))
  obtain rfl := Option.some.inj (he.symm.trans he')
  cases e with
  | token | pattern => cases hchoice
  | _ => cases hterminal

/-- The results of an inner goal **list nodes**. They are what a repetition or a sequence has gone
through so far, up to its end. -/
theorem Sound.listOf_of_inner (hs : Sound g w L m)
    (hn : L.Result node ⟨expr, true, start⟩ stop) : ∃ tag children,
      m.nodes[node]? = some ⟨.sequence tag children, ⟨start, stop⟩⟩ ∧
        m.listOf node = some children := by
  obtain ⟨kind, hnode, hex⟩ := hs.explained hn
  have hnode : m.nodes[node]? = some ⟨kind, ⟨start, stop⟩⟩ := hnode
  cases hex with
  | sequence | repetition => exact ⟨_, _, hnode, by rw [listOf, hnode]; rfl⟩

/-- The alternatives of a sequence or a repetition **list different nodes**. Two alternatives with
the same list would be the same result made twice. -/
theorem Faithful.exists_lists (h : Faithful g w L m waiting) {e : Expr}
    (he : g.expr? expr = some e) (hinner : e.hasInner = true)
    (hn : L.Result node ⟨expr, false, start⟩ stop) :
    ∃ (alternatives : List NodeId) (lists : List (List NodeId)),
      m.nodes[node]? = some ⟨.choice none alternatives, ⟨start, stop⟩⟩ ∧
        alternatives.map m.listOf = lists.map some ∧ lists.Nodup := by
  obtain ⟨kind, hnode, hex⟩ := h.sound.explained hn
  obtain ⟨first, more, rfl, -, hresults⟩ := hex.of_hasInner he hinner
  generalize first :: more = alternatives at hnode hresults
  choose! tag parts hparts hlists using fun a ha => h.sound.listOf_of_inner (hresults a ha)
  refine ⟨alternatives, alternatives.map parts, hnode, ?_, ?_⟩
  · rw [List.map_map]
    exact List.map_congr_left hlists
  · have hnodup := h.distinct.alternatives node none alternatives _ hnode
    refine hnodup.map_on fun a ha b hb hab => ?_
    obtain ⟨memo, hresult, hgoal⟩ := hresults a ha
    obtain ⟨memo', hresult', hgoal'⟩ := hresults b hb
    obtain rfl := h.distinct.goal memo memo' _ hgoal hgoal'
    have hb := hparts b hb
    rw [← hab] at hb
    exact (h.distinct.once memo (parts a)).one a b ⟨⟨stop, hresult⟩, _, _, hparts a ha⟩
      ⟨⟨stop, hresult'⟩, _, _, hb⟩

/-- Where a run has no task left everything has happened **exactly once**. Without tasks nothing
that was owed is open. -/
theorem Trace.exactlyOnce (h : Trace g w ts m []) (htasks : m.tasks = []) :
    ExactlyOnce g ts m := by
  obtain ⟨L, hf, -, -, ht⟩ := h.exists_traced
  rw [List.nil_append] at hf ht
  refine
    { memo := fun expr start id id' hid hid' => ?_
      goal := fun expr expr' start start' id hid hid' => ?_
      completed := fun expr start id hid => ht.nodup_completions hf.unique hid
      resumed := fun id stop node next hmem => ht.count_resumptions htasks hmem next
      reason := fun stop node next hmem => ?_
      root := fun hroots => ?_
      choice := fun node tag alternatives span hnode => ?_
      result := fun expr start stop node node' hn hn' =>
        hf.result_unique (ht.result hn) (ht.result hn')
      source := fun expr expr' start start' stop stop' node hn hn' => ?_
      lists := fun expr e start stop node he hinner hn => hf.exists_lists he hinner (ht.result hn) }
  · exact hf.distinct.goal id id' _ ((ht.tabled expr start id).mp hid)
      ((ht.tabled expr start id').mp hid')
  · obtain ⟨hexpr, -, hstart⟩ := Goal.mk.inj (Option.some.inj
      (((ht.tabled expr start id).mp hid).symm.trans ((ht.tabled expr' start' id).mp hid')))
    exact ⟨hexpr, hstart⟩
  · -- a resumption is counted by its registration: it was given because its goal was completed
    obtain ⟨id, hgiven⟩ := ht.accounted.given stop node next hmem
    have hcompleted := (ht.accounted.mem id stop node).mpr hgiven
    refine ⟨id, hcompleted, List.count_pos_iff.mp ?_⟩
    rw [← ht.count_resumptions htasks hcompleted next]
    exact List.count_pos_iff.mpr hmem
  · obtain ⟨root, hroot, -⟩ := hf.exists_root hroots
    exact ⟨root, hroot⟩
  · obtain ⟨id, expr, e, hresult, hgoal, he, hchoice⟩ := hf.sound.choice_source hnode
    exact ⟨expr, e, he, hchoice, ht.resultOf_iff.mpr
      ⟨id, hgoal, hresult, hf.sound.not_mem_matched_of_choice hnode id⟩⟩
  · obtain ⟨hgoal, hstop⟩ := (ht.result hn).unique (ht.result hn')
    obtain ⟨hexpr, -, hstart⟩ := Goal.mk.inj hgoal
    exact ⟨hexpr, hstart, hstop⟩

end

end Machine

open Machine in
/-- **Everything happens exactly once.** A parse is a run of the machine, and wherever a run has no
task left every completion has reached every parent exactly once, and every derivation has been
recorded once. Where the input has a forest there is one root. -/
theorem Forest.exactly_once {g : Grammar} (hg : g.Closed) (w : List String) :
    (∃ ts m, Trace g w ts m [] ∧ m.tasks = [] ∧
      (parse g w = .ok ⟨m.nodes, m.roots, m.position⟩ ∧ (∃ root, m.roots = [root]) ∨
        parse g w = .error (.rejected m.position))) ∧
    ∀ ts m, Trace g w ts m [] → m.tasks = [] → ExactlyOnce g ts m := by
  obtain ⟨ts, m, htrace, htasks, hparse⟩ := exists_trace hg w
  have hparse := hparse.imp_left fun ⟨hok, hroots⟩ => And.intro hok <|
    (htrace.exactlyOnce htasks).root hroots
  exact ⟨⟨ts, m, htrace, htasks, hparse⟩, fun _ _ => Trace.exactlyOnce⟩

/-- Symbols in a row, `S ::= "" | S S | "a"`. The pair is registered with the memo of the `S` that
it is in, on the left at once, and on the right where the left is empty, after that is known. -/
def Grammar.repeats : Grammar where
  exprs := #[.token "a", .seq none [], .seq none [3, 3], .alt (some "S") [1, 2, 0]]
  start := 3
  start_lt := by decide

open Machine in
theorem Forest.exactly_once_repeats : Grammar.repeats.Closed ∧
    ∃ ts m, Trace Grammar.repeats ["a"] ts m [] ∧ m.tasks = [] ∧
      parse Grammar.repeats ["a"] = .ok ⟨m.nodes, m.roots, m.position⟩ ∧
      (∃ root, m.roots = [root]) ∧ ExactlyOnce Grammar.repeats ts m := by
  have hclosed : Grammar.repeats.Closed := by
    rw [Grammar.Closed, Grammar.repeats]
    decide
  have hmember : Grammar.repeats.Derives 0 ["a"] := .terminal (e := .token "a") rfl rfl
  have hderives : Grammar.repeats.Derives 3 ["a"] := .choice rfl (by decide) hmember
  obtain ⟨f, hf⟩ := exists_parse_of_derives hclosed hderives
  obtain ⟨⟨ts, m, htrace, htasks, hparse⟩, honce⟩ := Forest.exactly_once hclosed ["a"]
  obtain ⟨hparse, hroot⟩ : parse Grammar.repeats ["a"] = .ok ⟨m.nodes, m.roots, m.position⟩ ∧
      ∃ root, m.roots = [root] := by
    refine hparse.resolve_right fun hrejected => ?_
    rw [hf] at hrejected
    cases hrejected
  exact ⟨hclosed, ts, m, htrace, htasks, hparse, hroot, honce ts m htrace htasks⟩

end GeneralParsing
