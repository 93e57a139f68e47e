import GeneralParsing.Proofs.Machine.Reached
import GeneralParsing.Proofs.Parsing.FirstTree

/-!
# Nodes and the input

`Forest.Consistent f w` says how the nodes of a forest lie over the input `w`. A matched symbol
covers the one symbol it holds. The children of a sequence lie side by side and fill its span, and
whatever is handed on unchanged, an alternative of a choice or the content of a lexical node, has
the span of the node that hands it on. Children and first alternatives are older than their node; a
later alternative need not be, but it is another than those before it, and never the choice itself.
Every root covers the whole input.

Every forest of an input is consistent with it (`Forest.consistent_of_parse`). Most of this is what
the ledger says of results at any time. That no choice is an alternative of itself is not, and two
choices may well be alternatives of each other. It is kept by each step, because a choice begins
with an older node, and a step joins to a choice only what is not that choice
(`Machine.Unlooped.outcome`).
-/

namespace GeneralParsing

namespace Forest

/-- The **span** of a node, if there is one. -/
def span? (f : Forest) (id : NodeId) : Option Span := (f.node? id).map Node.span

/-- Nodes **side by side**: each begins where the one before it ends. -/
inductive Tile (f : Forest) : List NodeId → Nat → Nat → Prop
  | nil (start : Nat) : Tile f [] start start
  | cons {id : NodeId} {ids : List NodeId} {start middle stop : Nat}
      (h : f.span? id = some ⟨start, middle⟩) (hs : Tile f ids middle stop) :
      Tile f (id :: ids) start stop

/-- A kind of node **fits** its span and its number. -/
inductive Fits (f : Forest) (w : List String) (id : NodeId) (span : Span) : Kind → Prop
  | symbol {text : String} (hstop : span.stop = span.start + 1)
      (htext : w[span.start]? = some text) : Fits f w id span (.symbol text)
  | sequence {tag : Option String} {children : List NodeId}
      (htile : f.Tile children span.start span.stop) (hold : ∀ child ∈ children, child < id) :
      Fits f w id span (.sequence tag children)
  | choice {tag : Option String} {first : NodeId} {more : List NodeId} (hold : first < id)
      (hdistinct : (first :: more).Nodup) (hself : id ∉ first :: more)
      (hspan : ∀ alternative ∈ first :: more, f.span? alternative = some span) :
      Fits f w id span (.choice tag (first :: more))
  | omitted : Fits f w id span .omitted
  | lexical {child : NodeId} (hold : child < id) (hspan : f.span? child = some span) :
      Fits f w id span (.lexical child)

/-- A forest that is **consistent** with an input. -/
structure Consistent (f : Forest) (w : List String) : Prop where
  tokens : f.tokens = w.length
  start_le_stop : ∀ id kind span, f.node? id = some ⟨kind, span⟩ → span.start ≤ span.stop
  stop_le : ∀ id kind span, f.node? id = some ⟨kind, span⟩ → span.stop ≤ w.length
  fits : ∀ id kind span, f.node? id = some ⟨kind, span⟩ → f.Fits w id span kind
  root : ∀ root ∈ f.roots, f.span? root = some ⟨0, w.length⟩

end Forest

namespace Machine

variable {g : Grammar} {w : List String} {L L' : Ledger} {m m' : Machine}

/-! ### No choice is its own alternative -/

/-- No choice is **an alternative of itself**. -/
def Unlooped (m : Machine) : Prop :=
  ∀ (id : NodeId) tag alternatives span, m.nodes[id]? = some ⟨.choice tag alternatives, span⟩ →
    id ∉ alternatives

theorem Unlooped.congr (h : m.Unlooped) (hnodes : m'.nodes = m.nodes) : m'.Unlooped := by
  intro id tag alternatives span hnode
  rw [hnodes] at hnode
  exact h id tag alternatives span hnode

/-- **A new node**, not itself among its alternatives if it is a choice. All alternatives are older
than the machine's next node. -/
theorem Unlooped.push (h : m.Unlooped) {kind : Forest.Kind} {span : Span}
    (hnodes : m'.nodes = m.nodes.push ⟨kind, span⟩)
    (hkind : ∀ tag alternatives, kind = .choice tag alternatives → m.nodes.size ∉ alternatives) :
    m'.Unlooped := by
  intro id tag alternatives span' hnode
  rw [hnodes, Array.getElem?_push] at hnode
  split at hnode
  · next heq =>
    rw [heq]
    exact hkind tag alternatives (Forest.Node.mk.inj (Option.some.inj hnode)).1
  · exact h id tag alternatives span' hnode

/-- **Another alternative**, which is not the choice. -/
theorem Unlooped.joinedWith (h : m.Unlooped) {existing node : NodeId} {tag : Option String}
    {alternatives : List NodeId} {span : Span} (hne : existing ≠ node)
    (hnode : m.nodes[existing]? = some ⟨.choice tag alternatives, span⟩) :
    (m.joinedWith existing tag alternatives span node).Unlooped := by
  intro id tag' alternatives' span' hid
  change (m.nodes.setIfInBounds existing _)[id]? = _ at hid
  rcases getElem?_setIfInBounds_eq_some hid with ⟨rfl, heq⟩ | hid
  · cases heq
    simpa [hne] using h existing tag alternatives span hnode
  · exact h id tag' alternatives' span' hid

theorem Unlooped.expansion {id : MemoId} {e : Expr} (h : m.Unlooped)
    (hexp : Expansion L m id e L' m') : m'.Unlooped := by
  cases hexp with
  | empty | repetitionEmpty | matched => exact h.push rfl (by simp)
  | sequence | choice | repetition | omitted | lexical | unmatched => exact h.congr rfl

/-- **A step** makes no choice an alternative of itself. The alternative that is joined is looked at
first, and left out if it is the choice. -/
theorem Unlooped.outcome (hs : Sound g w L m) {task : Task} (ht : SoundTask g L m.position task)
    (h : m.Unlooped) (ho : Outcome g L m task L' m') : m'.Unlooped := by
  cases ho with
  | @opened next id _ _ _ _ _ hexp =>
    have hopened : (m.opened next id).Unlooped := h.congr rfl
    exact hopened.expansion hexp
  | registered | accepted | acceptedBefore | sequenceNext | choiceSame | choiceKnown
  | repetitionEarly => exact h.congr rfl
  | sequenceDone | repetitionLate | omitted | lexical => exact h.push rfl (by simp)
  | choiceJoined _ _ hne hnode => exact h.joinedWith hne hnode
  | @choiceFirst node tag =>
    refine h.push rfl fun tag' alternatives heq hmem => ?_
    obtain ⟨-, rfl⟩ := Forest.Kind.choice.inj heq
    obtain rfl := List.mem_singleton.mp hmem
    -- the first alternative is a result, and so is older than the choice
    cases ht with
    | resume hresult hgoal => exact Nat.lt_irrefl _ (hs.lt_of_result ⟨_, hresult, hgoal⟩)

/-- **Recording** what waits makes no nodes. -/
theorem nodes_recordAll {waiting : List (NodeId × MemoId)}
    (hall : waiting.foldlM (fun m (node, memo) => Machine.complete m memo node) m =
      (.ok m' : Except Fault Machine)) : m'.nodes = m.nodes := by
  induction waiting generalizing m with
  | nil =>
    cases hall
    rfl
  | cons pair waiting ih =>
    obtain ⟨memo, -, hall⟩ := exists_record_of_foldlM hall
    have hrest := ih hall
    exact hrest

theorem nodes_advance (hadvance : m.advance = .ok m') : m'.nodes = m.nodes :=
  @nodes_recordAll { m with matched := [], table := ∅, position := m.position + 1 } m' _ hadvance

/-- In every machine that is reached **no choice is an alternative of itself**. -/
theorem Reached.unlooped (h : Reached g w L m) : m.Unlooped := by
  induction h with
  | start =>
    intro id tag alternatives span hnode
    simp [Machine.initial] at hnode
  | outcome h ho ih =>
    have hs := h.faithful.sound
    exact Unlooped.outcome hs.of_withTasks (hs.task _ List.mem_cons_self) (ih.congr rfl) ho
  | advance _ _ _ _ hadvance ih =>
    have hnodes := nodes_advance hadvance
    exact ih.congr hnodes

/-! ### Results fit -/

theorem Sound.span?_of_result (hs : Sound g w L m) {node : NodeId} {expr : ExprId} {inner : Bool}
    {start stop : Nat} (hn : L.Result node ⟨expr, inner, start⟩ stop) :
    m.forest.span? node = some ⟨start, stop⟩ := by
  obtain ⟨kind, hnode, -⟩ := hs.explained hn
  rw [Forest.span?, hnode]
  rfl

/-- Results in order **lie side by side**. In this form spans can be checked on the forest alone. -/
theorem Sound.tile_of_covers (hs : Sound g w L m) {nodes : List NodeId} {ids : List ExprId}
    {start stop : Nat} (hcovers : L.Covers nodes ids start stop) :
    m.forest.Tile nodes start stop := by
  induction hcovers with
  | nil start => exact .nil start
  | cons hn _ ih => exact .cons (hs.span?_of_result hn) ih

/-- A result **ends within the input**. A symbol that is matched is one of the input, so nothing
reaches beyond it. -/
theorem Sound.stop_le_length (hs : Sound g w L m) {node : NodeId} {goal : Goal} {stop : Nat}
    (hstart : goal.start ≤ w.length) (hn : L.Result node goal stop) : stop ≤ w.length := by
  obtain ⟨d, hd, -⟩ := hs.exists_behind hn
  have hlen := hd.reads.length_le
  have hends := hd.ends
  rw [List.length_drop] at hlen
  omega

/-- What is explained **fits**. Each kind of node has its own clause, and an explanation has the
same cases. -/
theorem Sound.fits_of_explains (hs : Sound g w L m) {node : NodeId} {kind : Forest.Kind}
    {goal : Goal} {stop : Nat} (hex : Explains g w L node kind goal stop)
    (hdistinct : ∀ tag alternatives, kind = .choice tag alternatives →
      alternatives.Nodup ∧ node ∉ alternatives) :
    m.forest.Fits w node ⟨goal.start, stop⟩ kind := by
  cases hex with
  | symbol _ _ hw => exact .symbol rfl hw
  | empty => exact .sequence (.nil _) (by simp)
  | sequence _ hcovers hold => exact .sequence (hs.tile_of_covers hcovers) hold
  | repetition _ hcovers _ _ hold => exact .sequence (hs.tile_of_covers hcovers) hold
  | choice _ hresult hold =>
    obtain ⟨hnodup, hself⟩ := hdistinct _ _ rfl
    refine .choice hold hnodup hself fun a ha => ?_
    obtain ⟨child, -, hresult⟩ := hresult a ha
    exact hs.span?_of_result hresult
  | inner _ _ hresult hold =>
    obtain ⟨hnodup, hself⟩ := hdistinct _ _ rfl
    exact .choice hold hnodup hself fun a ha => hs.span?_of_result (hresult a ha)
  | omitted => exact .omitted
  | lexical _ hresult hold => exact .lexical hold (hs.span?_of_result hresult)

/-- The forest of a machine that is reached and has read the input **is consistent** with it. -/
theorem Reached.consistent (h : Reached g w L m) (hposition : m.position = w.length) :
    m.forest.Consistent w := by
  have hs := h.faithful.sound
  have hnode : ∀ id kind span, m.forest.node? id = some ⟨kind, span⟩ → ∃ goal stop,
      span = ⟨goal.start, stop⟩ ∧ goal.start ≤ stop ∧ goal.start ≤ w.length ∧
        L.Result id goal stop ∧ Explains g w L id kind goal stop := by
    intro id kind span hid
    obtain ⟨memo, goal, stop, hsound⟩ := hs.node id _ hid
    obtain ⟨record, -, hrecord⟩ := hs.exists_memo hsound.works
    exact ⟨goal, stop, hsound.span, hsound.start_le, hposition ▸ hrecord.start_le,
      ⟨memo, hsound.result, hsound.works⟩, hsound.explained⟩
  refine ⟨hposition, fun id kind span hid => ?_, fun id kind span hid => ?_,
    fun id kind span hid => ?_, fun root hroot => ?_⟩
  · obtain ⟨goal, stop, rfl, hle, -⟩ := hnode id kind span hid
    exact hle
  · obtain ⟨goal, stop, rfl, -, hstart, hresult, -⟩ := hnode id kind span hid
    exact hs.stop_le_length hstart hresult
  · obtain ⟨goal, stop, rfl, -, -, -, hex⟩ := hnode id kind span hid
    refine hs.fits_of_explains hex ?_
    rintro tag alternatives rfl
    exact ⟨h.faithful.distinct.alternatives id tag alternatives _ hid,
      h.unlooped id tag alternatives _ hid⟩
  · rw [hs.span?_of_result (hs.root root hroot).1, hposition]

end Machine

namespace Forest

open Machine

variable {g : Grammar} {w : List String} {f : Forest}

/-- Every forest is that of a machine that is reached at **the end of the input**, and has roots. -/
theorem exists_reached_forest (hf : parse g w = .ok f) :
    ∃ L m, Reached g w L m ∧ f = m.forest ∧ m.roots ≠ [] ∧ m.position = w.length := by
  obtain ⟨L, m, hreached, -, rfl, hroots, hposition⟩ := exists_reached hf
  exact ⟨L, m, hreached, rfl, hroots, hposition⟩

/-- **Forests are consistent with the input** that they are parsed from. That is: spans lie in the
input, references lead to nodes of the forest, symbols are those of the input, the parts of a
sequence tile its span, and the alternatives of a choice are distinct and all over its span. -/
theorem consistent_of_parse (hf : parse g w = .ok f) : f.Consistent w := by
  obtain ⟨L, m, hreached, rfl, -, hposition⟩ := exists_reached_forest hf
  exact hreached.consistent hposition

end Forest

namespace Grammar

/-- `a`, which may be called an `A`, and that a `B`, and that an `A` again, **and so on**. -/
def mutualCycle : Grammar where
  exprs := #[.token "a", .alt (some "A") [2, 0], .alt (some "B") [1]]
  start := 1
  start_lt := by decide

theorem closed_mutualCycle : mutualCycle.Closed := by
  rw [Closed, mutualCycle]
  decide

theorem derives_mutualCycle : mutualCycle.Derives mutualCycle.start ["a"] := by
  have ha : (0 : ExprId) ∈ [2, 0] := by decide
  exact .choice rfl ha (.terminal rfl rfl)

end Grammar

namespace Forest

open Grammar

/-- The forest of `a`, where two choices are **alternatives of each other**, is consistent. So
references may go in circles, and the theorem does not say otherwise. -/
theorem consistent_of_parse_mutualCycle :
    ∃ f, parse mutualCycle ["a"] = .ok f ∧ f.Consistent ["a"] := by
  obtain ⟨f, hf⟩ := exists_parse_of_derives closed_mutualCycle derives_mutualCycle
  exact ⟨f, hf, consistent_of_parse hf⟩

end Forest

end GeneralParsing
