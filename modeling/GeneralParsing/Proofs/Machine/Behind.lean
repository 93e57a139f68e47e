import GeneralParsing.Proofs.Derivation.Shape
import GeneralParsing.Proofs.Machine.Sound
import Mathlib

/-!
# The derivation behind a result

Behind every result of a sound machine there is a derivation of the result's expression, from the
position where the result's goal starts to the position where the result ends. It takes the first
alternative of every choice (`Sound.exists_takesFirst`). Of each choice the first alternative is
older than the choice, so going down by first alternatives ends at symbols, and the text that the
forest finds under a node by going down in this way is the text of that derivation
(`TakesFirst.hasText`).
-/

namespace GeneralParsing

namespace Derivation

/-- A derivation of an expression **from a position to another**. -/
structure Spans (g : Grammar) (w : List String) (d : Derivation) (id : ExprId)
    (start stop : Nat) : Prop where
  valid : d.Valid g
  root : d.root = id
  reads : d.yield <+: w.drop start
  ends : start + d.yield.length = stop

/-- Derivations of expressions **in order**, from a position to another. -/
structure SpansAll (g : Grammar) (w : List String) (ds : List Derivation) (ids : List ExprId)
    (start stop : Nat) : Prop where
  valid : ∀ d ∈ ds, d.Valid g
  roots : ds.map root = ids
  reads : ds.flatMap yield <+: w.drop start
  ends : start + (ds.flatMap yield).length = stop

variable {g : Grammar} {w : List String} {d d' : Derivation} {ds : List Derivation}
variable {id id' : ExprId} {ids : List ExprId} {start middle stop : Nat}

/-- Derivations from a position to another derive **the same symbols**. How long a derivation is can
be seen from where it starts and stops. -/
theorem Spans.yield_eq (h : d.Spans g w id start stop) (h' : d'.Spans g w id' start stop) :
    d.yield = d'.yield := by
  have hlen : d.yield.length = d'.yield.length := by
    have hends := h.ends
    have hends' := h'.ends
    omega
  exact (List.prefix_of_prefix_length_le h.reads h'.reads (Nat.le_of_eq hlen)).eq_of_length hlen

/-- A symbol that is accepted where it stands has **a derivation over it**. -/
theorem spans_symbol {e : Expr} {text : String} (he : g.expr? id = some e)
    (ha : e.accepts text = true) (hw : w[start]? = some text) :
    (symbol id text).Spans g w id start (start + 1) := by
  obtain ⟨hlt, hget⟩ := List.getElem?_eq_some_iff.mp hw
  refine ⟨.symbol he ha, rfl, ⟨w.drop (start + 1), ?_⟩, rfl⟩
  rw [List.drop_eq_getElem_cons hlt, hget]
  rfl

theorem spansAll_nil (start : Nat) : SpansAll g w [] [] start start :=
  ⟨by simp, rfl, List.nil_prefix, rfl⟩

/-- Derivations over neighbouring stretches **cover both in order**. -/
theorem Spans.cons (h : d.Spans g w id start middle) (hs : SpansAll g w ds ids middle stop) :
    SpansAll g w (d :: ds) (id :: ids) start stop where
  valid := List.forall_mem_cons.mpr ⟨h.valid, hs.valid⟩
  roots := by rw [List.map_cons, h.root, hs.roots]
  reads := by
    obtain ⟨rest, hrest⟩ := h.reads
    have hreads := hs.reads
    rw [← h.ends, ← List.drop_drop, ← hrest, List.drop_left] at hreads
    rw [List.flatMap_cons, ← hrest]
    exact (List.prefix_append_right_inj d.yield).mpr hreads
  ends := by
    have hends := h.ends
    have hends' := hs.ends
    rw [List.flatMap_cons, List.length_append]
    omega

/-- A derivation **of one part** over the symbols of that part. -/
theorem Spans.of_part (h : d.Spans g w id start stop) {d' : Derivation} (hvalid : d'.Valid g)
    (hroot : d'.root = id') (hyield : d'.yield = d.yield) : d'.Spans g w id' start stop :=
  ⟨hvalid, hroot, hyield ▸ h.reads, hyield ▸ h.ends⟩

/-- Derivations of the parts in order make **a derivation of the sequence** over the same stretch.
-/
theorem SpansAll.sequence {tag : Option String} (h : SpansAll g w ds ids start stop)
    (he : g.expr? id = some (.seq tag ids)) : (Derivation.sequence id ds).Spans g w id start stop :=
  ⟨.sequence (h.roots ▸ he) h.valid, rfl, by simpa using h.reads, by simpa using h.ends⟩

/-- Derivations of the iterations make **a derivation of the repetition**, if their number is
allowed. -/
theorem SpansAll.repetition {tag : Option String} {child : ExprId} {min count : Nat}
    {max : Option Nat} (h : SpansAll g w ds (List.replicate count child) start stop)
    (he : g.expr? id = some (.rep tag child min max)) (hmin : min ≤ count)
    (hmax : ∀ m, max = some m → count ≤ m) :
    (Derivation.sequence id ds).Spans g w id start stop := by
  have hlen : ds.length = count := by simpa using congrArg List.length h.roots
  refine ⟨.repetition he (fun d hd => ?_) (hlen ▸ hmin) (hlen ▸ hmax) h.valid, rfl,
    by simpa using h.reads, by simpa using h.ends⟩
  have hmem : d.root ∈ List.replicate count child := h.roots ▸ List.mem_map_of_mem hd
  exact List.eq_of_mem_replicate hmem

end Derivation

/-! ### Texts under nodes -/

namespace Forest

/-- The text under a node is **this one**, however deep one may go beyond its number. -/
def HasText (f : Forest) (node : NodeId) (text : String) : Prop :=
  ∀ depth, node < depth → ∀ before, f.appendText depth before node = before ++ text

variable {f : Forest} {node : NodeId}

/-- A node that has a text **has just one**, the one that is spelled. -/
theorem HasText.text_eq {text : String} (h : f.HasText node text) : f.text node = text := by
  rw [Forest.text, h (node + 1) (Nat.lt_succ_self node), String.empty_append]

/-- It is enough to look at depths **beyond the number of the node**, as the parts are older. -/
theorem hasText_of_succ {text : String} (h : ∀ depth, node ≤ depth → ∀ before,
    f.appendText (depth + 1) before node = before ++ text) : f.HasText node text := by
  intro depth hdepth before
  cases depth with
  | zero => exact absurd hdepth (Nat.not_lt_zero _)
  | succ depth => exact h depth (Nat.le_of_lt_succ hdepth) before

/-- A node with the text **of an older one**. -/
theorem HasText.of_part {part : NodeId} {text : String} (h : f.HasText part text)
    (hold : part < node) (hnode : ∀ depth before,
      f.appendText (depth + 1) before node = f.appendText depth before part) :
    f.HasText node text :=
  hasText_of_succ fun depth hdepth before =>
    (hnode depth before).trans (h depth (Nat.lt_of_lt_of_le hold hdepth) before)

/-- The text **of nodes in order**. -/
theorem foldl_appendText {nodes : List NodeId}
    {ds : List Derivation} {depth : Nat}
    (h : List.Forall₂ (fun node d => f.HasText node d.text) nodes ds)
    (hdepth : ∀ node ∈ nodes, node < depth) (before : String) :
    nodes.foldl (f.appendText depth) before = before ++ Derivation.textAll ds := by
  induction h generalizing before with
  | nil => simp [Derivation.textAll]
  | cons hnode _ ih =>
    obtain ⟨hfirst, hothers⟩ := List.forall_mem_cons.mp hdepth
    rw [List.foldl_cons, hnode depth hfirst, ih hothers, Derivation.textAll, String.append_assoc]

/-! ### First alternatives -/

/-- The derivation at a node that **takes the first alternative** of every choice. Nodes it goes on
to are older. A choice that only collects the results of a sequence is no part of the derivation,
and what is omitted has left no trace, so it may have any derivation. -/
inductive TakesFirst (f : Forest) : NodeId → Derivation → Prop
  | symbol {node : NodeId} {id : ExprId} {text : String} {span : Span}
      (hnode : f.node? node = some ⟨.symbol text, span⟩) : TakesFirst f node (.symbol id text)
  | sequence {node : NodeId} {id : ExprId} {tag : Option String} {children : List NodeId}
      {ds : List Derivation} {span : Span}
      (hnode : f.node? node = some ⟨.sequence tag children, span⟩)
      (hold : ∀ child ∈ children, child < node) (h : List.Forall₂ (TakesFirst f) children ds) :
      TakesFirst f node (.sequence id ds)
  | choice {node : NodeId} {id : ExprId} {tag : Option String} {first : NodeId}
      {more : List NodeId} {d : Derivation} {span : Span}
      (hnode : f.node? node = some ⟨.choice tag (first :: more), span⟩) (hold : first < node)
      (h : TakesFirst f first d) : TakesFirst f node (.choice id d)
  | collected {node first : NodeId} {more : List NodeId} {d : Derivation} {span : Span}
      (hnode : f.node? node = some ⟨.choice none (first :: more), span⟩) (hold : first < node)
      (h : TakesFirst f first d) : TakesFirst f node d
  | omitted {node : NodeId} {id : ExprId} {d : Derivation} {span : Span}
      (hnode : f.node? node = some ⟨.omitted, span⟩) : TakesFirst f node (.omitted id d)
  | lexical {node : NodeId} {id : ExprId} {child : NodeId} {d : Derivation} {span : Span}
      (hnode : f.node? node = some ⟨.lexical child, span⟩) (hold : child < node)
      (h : TakesFirst f child d) : TakesFirst f node (.lexical id d)

/-- The text under a node is **the text of the derivation** that takes first alternatives. Spelling
goes down the same way, so there is no more to show for lexical texts. -/
theorem TakesFirst.hasText {d : Derivation} (h : f.TakesFirst node d) : f.HasText node d.text := by
  induction node using Nat.strongRecOn generalizing d with
  | ind node ih =>
    cases h with
    | symbol hnode =>
      refine hasText_of_succ fun depth _ before => ?_
      rw [appendText, hnode]
      rfl
    | @sequence _ _ _ children ds _ hnode hold h =>
      have htexts : List.Forall₂ (fun node d => f.HasText node d.text) children ds :=
        ((List.forall₂_and_left children ds).mpr ⟨hold, h⟩).imp fun c d hcd => ih c hcd.1 hcd.2
      refine hasText_of_succ fun depth hdepth before => ?_
      rw [appendText, hnode]
      exact foldl_appendText htexts (fun c hc => Nat.lt_of_lt_of_le (hold c hc) hdepth) before
    | choice hnode hold h | collected hnode hold h | lexical hnode hold h =>
      refine (ih _ hold h).of_part hold fun depth before => ?_
      rw [appendText, hnode]
      rfl
    | omitted hnode =>
      refine hasText_of_succ fun depth _ before => ?_
      rw [appendText, hnode]
      exact (String.append_empty).symm

end Forest

namespace Machine

open GeneralParsing.Derivation

/-- The **forest** of a machine's results. -/
def forest (m : Machine) : Forest := ⟨m.nodes, m.roots, m.position⟩

variable {g : Grammar} {w : List String} {L : Ledger} {m : Machine}

/-- The node of a result **is there, and explained**. Other proofs go by cases on the explanation,
and so by the kind of the node. -/
theorem Sound.explained (h : Sound g w L m) {node : NodeId} {goal : Goal} {stop : Nat}
    (hn : L.Result node goal stop) : ∃ kind,
      m.forest.node? node = some ⟨kind, ⟨goal.start, stop⟩⟩ ∧
        Explains g w L node kind goal stop := by
  obtain ⟨memo, hresult, hgoal⟩ := hn
  obtain ⟨⟨kind, span⟩, goal', hnode, hsound⟩ := h.exists_node hresult
  obtain rfl := Option.some.inj (hgoal.symm.trans hsound.works)
  obtain rfl : span = _ := hsound.span
  exact ⟨kind, hnode, hsound.explained⟩

/-- The kind of a node **explains the result** that it stands for. -/
theorem Sound.explained_of_node (h : Sound g w L m) {node : NodeId} {goal : Goal} {stop : Nat}
    (hn : L.Result node goal stop) {kind : Forest.Kind} {span : Span}
    (hnode : m.nodes[node]? = some ⟨kind, span⟩) : Explains g w L node kind goal stop := by
  obtain ⟨kind', hnode', hex⟩ := h.explained hn
  obtain ⟨rfl, -⟩ := Forest.Node.mk.inj (Option.some.inj (hnode.symm.trans hnode'))
  exact hex

/-- Behind results that cover a stretch there are **derivations that do so**. -/
theorem exists_spansAll_of_covers {P : NodeId → Derivation → Prop} {nodes : List NodeId}
    {ids : List ExprId} {start stop : Nat} (hcovers : L.Covers nodes ids start stop)
    (h : ∀ node ∈ nodes, ∀ goal stop, L.Result node goal stop →
      ∃ d, d.Spans g w goal.expr goal.start stop ∧ P node d) :
    ∃ ds, SpansAll g w ds ids start stop ∧ List.Forall₂ P nodes ds := by
  induction hcovers with
  | nil start => exact ⟨[], spansAll_nil start, .nil⟩
  | cons hn _ ih =>
    obtain ⟨hfirst, hothers⟩ := List.forall_mem_cons.mp h
    obtain ⟨d, hd, hp⟩ := hfirst _ _ hn
    obtain ⟨ds, hds, hps⟩ := ih hothers
    exact ⟨d :: ds, hd.cons hds, .cons hp hps⟩

/-- At every result there is a derivation **that takes first alternatives**. The first alternatives
are older than their choices, so the proof goes by the number of the node. -/
theorem Sound.exists_takesFirst (h : Sound g w L m) {node : NodeId} {goal : Goal} {stop : Nat}
    (hn : L.Result node goal stop) :
    ∃ d, d.Spans g w goal.expr goal.start stop ∧ m.forest.TakesFirst node d := by
  induction node using Nat.strongRecOn generalizing goal stop with
  | ind node ih =>
    obtain ⟨kind, hnode, hex⟩ := h.explained hn
    -- what the three kinds of sequence have in common: their children are older, and so known
    have hsequence : ∀ {tag ids children start}, kind = .sequence tag children →
        L.Covers children ids start stop → (∀ c ∈ children, c < node) →
        ∃ ds, SpansAll g w ds ids start stop ∧
          ∀ id, m.forest.TakesFirst node (.sequence id ds) := by
      rintro tag ids children start rfl hcovers hold
      obtain ⟨ds, hds, hfirst⟩ := exists_spansAll_of_covers hcovers fun c hc _ _ => ih c (hold c hc)
      exact ⟨ds, hds, fun id => .sequence hnode hold hfirst⟩
    cases hex with
    | symbol he ha hw => exact ⟨_, spans_symbol he ha hw, .symbol hnode⟩
    | empty he =>
      obtain ⟨ds, hds, hfirst⟩ := hsequence rfl (.nil _) (by simp)
      exact ⟨_, hds.sequence he, hfirst _⟩
    | sequence he hcovers hold =>
      obtain ⟨ds, hds, hfirst⟩ := hsequence rfl hcovers hold
      exact ⟨_, hds.sequence he, hfirst _⟩
    | repetition he hcovers hmin hmax hold =>
      obtain ⟨ds, hds, hfirst⟩ := hsequence rfl hcovers hold
      exact ⟨_, hds.repetition he hmin hmax, hfirst _⟩
    | @choice id tag ids first more start stop he hresult hold =>
      obtain ⟨child, hc, hresult⟩ := hresult first List.mem_cons_self
      obtain ⟨d, hd, hfirst⟩ := ih first hold hresult
      exact ⟨.choice id d, hd.of_part (.choice he (hd.root ▸ hc) hd.valid) rfl rfl,
        .choice hnode hold hfirst⟩
    | @inner id e first more start stop he hinner hresult hold =>
      obtain ⟨d, hd, hfirst⟩ := ih first hold (hresult first List.mem_cons_self)
      exact ⟨d, hd.of_part hd.valid hd.root rfl, .collected hnode hold hfirst⟩
    -- an omission is silent: what its part took first does not matter
    | @omitted id child part start stop he hresult hold =>
      obtain ⟨d, hd, -⟩ := ih part hold hresult
      exact ⟨.omitted id d, hd.of_part (.omitted (hd.root ▸ he) hd.valid) rfl rfl, .omitted hnode⟩
    | @lexical id child part start stop he hresult hold =>
      obtain ⟨d, hd, hfirst⟩ := ih part hold hresult
      exact ⟨.lexical id d, hd.of_part (.lexical (hd.root ▸ he) hd.valid) rfl rfl,
        .lexical hnode hold hfirst⟩

/-- A derivation is **behind a node**: it is one of the goal, and has the node's text. -/
def Behind (g : Grammar) (w : List String) (m : Machine) (goal : Goal) (stop : Nat) (node : NodeId)
    (d : Derivation) : Prop :=
  d.Spans g w goal.expr goal.start stop ∧ m.forest.HasText node d.text

/-- **Behind every result there is a derivation**. This is the heart of soundness: nothing is in a
forest that the grammar does not derive. -/
theorem Sound.exists_behind (h : Sound g w L m) {node : NodeId} {goal : Goal} {stop : Nat}
    (hn : L.Result node goal stop) : ∃ d, Behind g w m goal stop node d := by
  obtain ⟨d, hd, hfirst⟩ := h.exists_takesFirst hn
  exact ⟨d, hd, hfirst.hasText⟩

/-- Behind results in order there are **derivations in order**. -/
theorem Sound.exists_spansAll (h : Sound g w L m) {nodes : List NodeId} {ids : List ExprId}
    {start stop : Nat} (hcovers : L.Covers nodes ids start stop) :
    ∃ ds, SpansAll g w ds ids start stop := by
  obtain ⟨ds, hds, -⟩ := exists_spansAll_of_covers hcovers fun _ _ _ _ hn => h.exists_takesFirst hn
  exact ⟨ds, hds⟩

end Machine

end GeneralParsing
