import GeneralParsing.Proofs.Derivation.Unrolled
import GeneralParsing.Proofs.Machine.Reached

/-!
# Machines that are twins

Where a repetition of an exact number of times is unrolled, the machine of one grammar counts
iterations and the machine of the other has a list of children that are left. `Machine.Twins` says
that two machines are in the same state but for that, and for the numbers of their results and
memos. Which numbers go together is said by `Pairs`, which grow. Where the number of times is not
zero the results are the same, number by number (`Machine.Same`).

With zero times there is a difference in the results, too. The repetition has a memo of its own for
lists of iterations, and hands on a choice among these, of which there is one, the empty one. The
sequence without children hands on the empty list itself. So one machine takes a step more, has a
memo and a result more (`Pairs.hollow`), and a choice that goes together with a sequence
(`Forest.Kind.Twin.hollow`).
-/

namespace GeneralParsing

/-! ### What goes together -/

/-- Which results and memos of two machines **go together**. -/
structure Pairs where
  /-- The results. -/
  nodes : NodeId → NodeId → Prop
  /-- The memos. -/
  memos : MemoId → MemoId → Prop
  /-- Results of the first machine without parts that go together with none, with tag and span. -/
  hollow : NodeId → Option String → Span → Prop

namespace Pairs

/-- Pairs that **have grown**. -/
structure Grows (P Q : Pairs) : Prop where
  node : ∀ {a b : NodeId}, P.nodes a b → Q.nodes a b
  memo : ∀ {a b : MemoId}, P.memos a b → Q.memos a b
  hollow : ∀ {e : NodeId} {tag : Option String} {span : Span}, P.hollow e tag span →
    Q.hollow e tag span

/-- The pairs with **two results more**. -/
def withNodes (P : Pairs) (a b : NodeId) : Pairs :=
  { P with nodes := fun x y => P.nodes x y ∨ x = a ∧ y = b }

/-- The pairs with **two memos more**. -/
def withMemos (P : Pairs) (a b : MemoId) : Pairs :=
  { P with memos := fun x y => P.memos x y ∨ x = a ∧ y = b }

/-- The pairs with **a result more that stands alone**. -/
def withHollow (P : Pairs) (e : NodeId) (tag : Option String) (span : Span) : Pairs :=
  { P with hollow := fun x t s => P.hollow x t s ∨ x = e ∧ t = tag ∧ s = span }

variable {P Q : Pairs}

theorem grows_withNodes (P : Pairs) (a b : NodeId) : P.Grows (P.withNodes a b) := ⟨.inl, id, id⟩

theorem grows_withMemos (P : Pairs) (a b : MemoId) : P.Grows (P.withMemos a b) := ⟨id, .inl, id⟩

theorem grows_withHollow (P : Pairs) (e : NodeId) (tag : Option String) (span : Span) :
    P.Grows (P.withHollow e tag span) :=
  ⟨id, id, .inl⟩

/-- Two numbers that go together with none before may **go together**. This is how the pairing of
memos and of nodes grows. -/
theorem biUnique_or {R : Nat → Nat → Prop} (h : Relator.BiUnique R) {a b : Nat}
    (ha : ∀ y, ¬ R a y) (hb : ∀ x, ¬ R x b) :
    Relator.BiUnique fun x y => R x y ∨ x = a ∧ y = b := by
  constructor
  · rintro x y z (hxz | ⟨rfl, rfl⟩) (hyz | ⟨rfl, hz⟩)
    · exact h.1 hxz hyz
    · exact absurd (hz ▸ hxz) (hb x)
    · exact absurd hyz (hb y)
    · rfl
  · rintro x y z (hxy | ⟨rfl, rfl⟩) (hxz | ⟨hx, rfl⟩)
    · exact h.2 hxy hxz
    · exact absurd (hx ▸ hxy) (ha y)
    · exact absurd hxz (ha z)
    · rfl

theorem optionRel_imp {α β : Type} {R S : α → β → Prop} {x : Option α} {y : Option β}
    (h : Option.Rel R x y) (hRS : ∀ a b, R a b → S a b) : Option.Rel S x y := by
  cases h with
  | none => exact .none
  | some hab => exact .some (hRS _ _ hab)

/-- What is related to nothing **is nothing**. -/
theorem eq_none_of_rel {α β : Type} {R : α → β → Prop} {y : Option β}
    (h : Option.Rel R none y) : y = none := by
  cases h
  rfl

/-- What is related to something **is something**. -/
theorem exists_of_rel {α β : Type} {R : α → β → Prop} {a : α} {y : Option β}
    (h : Option.Rel R (some a) y) : ∃ b, y = some b ∧ R a b := by
  cases h with
  | some hab => exact ⟨_, rfl, hab⟩

end Pairs

/-! ### Twins -/

variable {r : Repeat} {P Q : Pairs}

/-- A continuation and **its twin**. What is left of a sequence that is unrolled are the iterations
that the repetition has yet to count. -/
inductive Continuation.Twin (r : Repeat) (P : Pairs) : Continuation → Continuation → Prop
  | accept : Twin r P .accept .accept
  | sequence {tag : Option String} {a b : MemoId} {done done' : List NodeId} {rest : List ExprId}
      (hmemo : P.memos a b) (hdone : List.Forall₂ P.nodes done done') :
      Twin r P (.sequence tag a done rest) (.sequence tag b done' rest)
  | unrolled {a b : MemoId} {done done' : List NodeId} {count : Nat} (hmemo : P.memos a b)
      (hdone : List.Forall₂ P.nodes done done') (hcount : count ≤ r.times) :
      Twin r P (.repetition r.tag a done r.child count r.times (some r.times))
        (.sequence r.tag b done' (List.replicate (r.times - count) r.child))
  | choice {tag : Option String} {a b : MemoId} (hmemo : P.memos a b) :
      Twin r P (.choice tag a) (.choice tag b)
  | repetition {tag : Option String} {a b : MemoId} {done done' : List NodeId} {child : ExprId}
      {count min : Nat} {max : Option Nat} (hmemo : P.memos a b)
      (hdone : List.Forall₂ P.nodes done done') :
      Twin r P (.repetition tag a done child count min max)
        (.repetition tag b done' child count min max)
  | omitted {a b : MemoId} (hmemo : P.memos a b) : Twin r P (.omitted a) (.omitted b)
  | lexical {a b : MemoId} (hmemo : P.memos a b) : Twin r P (.lexical a) (.lexical b)

/-- A task and **its twin**. -/
inductive Task.Twin (r : Repeat) (P : Pairs) : Task → Task → Prop
  | derive {next next' : Continuation} {id : ExprId} (hnext : next.Twin r P next') :
      Twin r P (.derive next id) (.derive next' id)
  | resume {a b : NodeId} {next next' : Continuation} (hnode : P.nodes a b)
      (hnext : next.Twin r P next') : Twin r P (.resume a next) (.resume b next')

/-- A memo and **its twin**. -/
structure Memo.Twin (r : Repeat) (P : Pairs) (memo memo' : Memo) : Prop where
  start : memo'.start = memo.start
  latest : Option.Rel (fun x y => x.1 = y.1 ∧ P.nodes x.2 y.2) memo.latest memo'.latest
  parents : List.Forall₂ (Continuation.Twin r P) memo.parents memo'.parents

/-- What a node stands for, over a span, and **its twin**. -/
inductive Forest.Kind.Twin (P : Pairs) (span : Span) : Forest.Kind → Forest.Kind → Prop
  | symbol (text : String) : Twin P span (.symbol text) (.symbol text)
  | sequence {tag : Option String} {as bs : List NodeId} (h : List.Forall₂ P.nodes as bs) :
      Twin P span (.sequence tag as) (.sequence tag bs)
  | choice {tag : Option String} {as bs : List NodeId} (h : List.Forall₂ P.nodes as bs) :
      Twin P span (.choice tag as) (.choice tag bs)
  | omitted : Twin P span .omitted .omitted
  | lexical {a b : NodeId} (h : P.nodes a b) : Twin P span (.lexical a) (.lexical b)
  | hollow {e : NodeId} {tag : Option String} (h : P.hollow e tag span) :
      Twin P span (.choice none [e]) (.sequence tag [])

section

variable (hP : P.Grows Q)

include hP

/-- Twins remain twins **when more goes together**. -/
theorem Continuation.Twin.mono {next next' : Continuation} (h : next.Twin r P next') :
    next.Twin r Q next' := by
  cases h with
  | accept => exact .accept
  | sequence hmemo hdone => exact .sequence (hP.memo hmemo) (hdone.imp fun _ _ => hP.node)
  | unrolled hmemo hdone hcount =>
    exact .unrolled (hP.memo hmemo) (hdone.imp fun _ _ => hP.node) hcount
  | choice hmemo => exact .choice (hP.memo hmemo)
  | repetition hmemo hdone => exact .repetition (hP.memo hmemo) (hdone.imp fun _ _ => hP.node)
  | omitted hmemo => exact .omitted (hP.memo hmemo)
  | lexical hmemo => exact .lexical (hP.memo hmemo)

theorem Task.Twin.mono {task task' : Task} (h : task.Twin r P task') : task.Twin r Q task' := by
  cases h with
  | derive hnext => exact .derive (hnext.mono hP)
  | resume hnode hnext => exact .resume (hP.node hnode) (hnext.mono hP)

theorem Memo.Twin.mono {memo memo' : Memo} (h : memo.Twin r P memo') : memo.Twin r Q memo' where
  start := h.start
  latest := Pairs.optionRel_imp h.latest fun _ _ hxy => ⟨hxy.1, hP.node hxy.2⟩
  parents := h.parents.imp fun _ _ hnext => hnext.mono hP

/-- Nodes that are twins remain so **when more goes together**. -/
theorem Forest.Kind.Twin.mono {span : Span} {kind kind' : Forest.Kind}
    (h : kind.Twin P span kind') : kind.Twin Q span kind' := by
  cases h with
  | symbol text => exact .symbol text
  | sequence h => exact .sequence (h.imp fun _ _ => hP.node)
  | choice h => exact .choice (h.imp fun _ _ => hP.node)
  | omitted => exact .omitted
  | lexical h => exact .lexical (hP.node h)
  | hollow h => exact .hollow (hP.hollow h)

end

/-- The results of twins at a position **go together**. If one of them has none, then neither has
the other. -/
theorem Memo.Twin.resultAt {memo memo' : Memo} (h : memo.Twin r P memo') (position : Nat) :
    Option.Rel P.nodes (memo.resultAt position) (memo'.resultAt position) := by
  have hlatest := h.latest
  rw [Memo.resultAt, Memo.resultAt]
  generalize memo.latest = x at hlatest ⊢
  generalize memo'.latest = y at hlatest ⊢
  cases hlatest with
  | none => exact .none
  | @some x y hxy =>
    obtain ⟨stop, node⟩ := x
    obtain ⟨stop', node'⟩ := y
    obtain rfl : stop = stop' := hxy.1
    dsimp only
    split
    · exact .some hxy.2
    · exact .none

namespace Machine

/-- Two machines in which results are **the same, number by number**. -/
structure Same (P : Pairs) (m m' : Machine) : Prop where
  size : m'.nodes.size = m.nodes.size
  eq : ∀ a b, P.nodes a b → a = b
  all : ∀ a < m.nodes.size, P.nodes a a
  hollow : ∀ e tag span, ¬ P.hollow e tag span

/-- Two machines are **twins**: what goes together in them is the same. -/
structure Twins (r : Repeat) (P : Pairs) (m m' : Machine) : Prop where
  memo : ∀ a b, P.memos a b → ∃ memo memo', m.memos[a]? = some memo ∧ m'.memos[b]? = some memo' ∧
    memo.Twin r P memo'
  memos : Relator.BiUnique P.memos
  node : ∀ a b, P.nodes a b → ∃ kind kind' span, m.nodes[a]? = some ⟨kind, span⟩ ∧
    m'.nodes[b]? = some ⟨kind', span⟩ ∧ kind.Twin P span kind'
  nodes : Relator.BiUnique P.nodes
  hollow : ∀ e tag span, P.hollow e tag span → m.nodes[e]? = some ⟨.sequence tag [], span⟩ ∧
    ∀ b, ¬ P.nodes e b
  table : ∀ id : ExprId, Option.Rel P.memos m.table[id]? m'.table[id]?
  tasks : List.Forall₂ (Task.Twin r P) m.tasks m'.tasks
  matched : List.Forall₂ (fun p q => P.nodes p.1 q.1 ∧ P.memos p.2 q.2) m.matched m'.matched
  roots : List.Forall₂ P.nodes m.roots m'.roots
  position : m'.position = m.position
  lookahead : m'.lookahead = m.lookahead
  same : r.times ≠ 0 → Same P m m'

section

variable {m m' m₁ : Machine} {a b : MemoId} {memo memo' : Memo} {next next' : Continuation}
variable {kind kind' : Forest.Kind} {span : Span}

/-! ### Numbers that are new -/

/-- Memos that go together **are there**, so that new numbers go with nothing yet. Numbers are given
in order, so this is all one has to know of them. -/
theorem Twins.memos_lt (h : Twins r P m m') {a b : MemoId} (hab : P.memos a b) :
    a < m.memos.size ∧ b < m'.memos.size := by
  obtain ⟨memo, memo', hmemo, hmemo', -⟩ := h.memo a b hab
  exact ⟨(Array.getElem?_eq_some_iff.mp hmemo).1, (Array.getElem?_eq_some_iff.mp hmemo').1⟩

/-- Nodes that go together **are there**. -/
theorem Twins.nodes_lt (h : Twins r P m m') {a b : NodeId} (hab : P.nodes a b) :
    a < m.nodes.size ∧ b < m'.nodes.size := by
  obtain ⟨kind, kind', span, hnode, hnode', -⟩ := h.node a b hab
  exact ⟨(Array.getElem?_eq_some_iff.mp hnode).1, (Array.getElem?_eq_some_iff.mp hnode').1⟩

/-- The next memos **may go together**. -/
theorem Twins.memos_withMemos (h : Twins r P m m') :
    Relator.BiUnique (P.withMemos m.memos.size m'.memos.size).memos :=
  Pairs.biUnique_or h.memos (fun _ hab => Nat.lt_irrefl _ (h.memos_lt hab).1)
    fun _ hab => Nat.lt_irrefl _ (h.memos_lt hab).2

/-- The next results **may go together**. -/
theorem Twins.nodes_withNodes (h : Twins r P m m') :
    Relator.BiUnique (P.withNodes m.nodes.size m'.nodes.size).nodes :=
  Pairs.biUnique_or h.nodes (fun _ hab => Nat.lt_irrefl _ (h.nodes_lt hab).1)
    fun _ hab => Nat.lt_irrefl _ (h.nodes_lt hab).2

/-! ### Moves -/

/-- Twins that get tasks that are twins **remain twins**, and so after each move below. The pairing
does not change in this case. -/
theorem Twins.withTasks (h : Twins r P m m') {tasks tasks' : List Task}
    (htasks : List.Forall₂ (Task.Twin r P) tasks tasks') :
    Twins r P (m.withTasks tasks) (m'.withTasks tasks') :=
  { h with
    tasks := List.rel_append htasks h.tasks
    same := fun hr => { h.same hr with } }

/-- Twins that get roots that go together **remain twins**. -/
theorem Twins.withRoot (h : Twins r P m m') {a b : NodeId} (hab : P.nodes a b) :
    Twins r P (m.withRoot a) (m'.withRoot b) :=
  { h with
    roots := List.rel_append h.roots (.cons hab .nil)
    same := fun hr => { h.same hr with } }

/-- New memos **go together**. The pairing gets one pair more, which is compatible with what there
was. -/
theorem Twins.addMemo (h : Twins r P m m') (hnext : next.Twin r P next') :
    Twins r (P.withMemos m.memos.size m'.memos.size) (m.addMemo next).1 (m'.addMemo next').1 := by
  have hgrows := P.grows_withMemos m.memos.size m'.memos.size
  refine { h with
    memo := ?_, memos := h.memos_withMemos, node := ?_, table := ?_, tasks := ?_, matched := ?_
    same := fun hr => { h.same hr with } }
  · rintro a b (hab | ⟨rfl, rfl⟩)
    · obtain ⟨memo, memo', hmemo, hmemo', htwin⟩ := h.memo a b hab
      exact ⟨memo, memo', getElem?_push_of_some hmemo,
        getElem?_push_of_some hmemo', htwin.mono hgrows⟩
    · exact ⟨_, _, Array.getElem?_push_size, Array.getElem?_push_size, h.position, .none,
        .cons (hnext.mono hgrows) .nil⟩
  · intro a b hab
    obtain ⟨kind, kind', span, hnode, hnode', htwin⟩ := h.node a b hab
    exact ⟨kind, kind', span, hnode, hnode', htwin.mono hgrows⟩
  · exact fun id => Pairs.optionRel_imp (h.table id) fun _ _ => hgrows.memo
  · exact h.tasks.imp fun _ _ htask => htask.mono hgrows
  · exact h.matched.imp fun _ _ hpair => ⟨hpair.1, hgrows.memo hpair.2⟩

/-- Twins that open an expression each **remain twins**, and the new memos go together. Their tables
are those of one position, and the new entries are under the same name. -/
theorem Twins.opened (h : Twins r P m m') (hnext : next.Twin r P next') (id : ExprId) :
    Twins r (P.withMemos m.memos.size m'.memos.size) (m.opened next id) (m'.opened next' id) := by
  have hadd := h.addMemo hnext
  refine { hadd with table := fun id' => ?_, same := fun hr => { hadd.same hr with } }
  simp only [Machine.opened, Std.HashMap.getElem?_insert]
  split
  · exact .some (.inr ⟨rfl, rfl⟩)
  · exact hadd.table id'

/-- New results of the same kind **go together**. They may be of different number, as one machine
may have made nodes that the other has not. -/
theorem Twins.addNode (h : Twins r P m m') (hkind : kind.Twin P span kind') :
    Twins r (P.withNodes m.nodes.size m'.nodes.size) (m.addNode kind span).1
      (m'.addNode kind' span).1 := by
  have hgrows := P.grows_withNodes m.nodes.size m'.nodes.size
  refine { h with
    memo := ?_, node := ?_, nodes := h.nodes_withNodes, hollow := ?_
    tasks := h.tasks.imp fun _ _ htask => htask.mono hgrows
    matched := h.matched.imp fun _ _ hpair => ⟨hgrows.node hpair.1, hpair.2⟩
    roots := h.roots.imp fun _ _ => hgrows.node
    same := ?_ }
  · intro a b hab
    obtain ⟨memo, memo', hmemo, hmemo', htwin⟩ := h.memo a b hab
    exact ⟨memo, memo', hmemo, hmemo', htwin.mono hgrows⟩
  · rintro a b (hab | ⟨rfl, rfl⟩)
    · obtain ⟨kind, kind', span, hnode, hnode', htwin⟩ := h.node a b hab
      exact ⟨kind, kind', span, getElem?_push_of_some hnode,
        getElem?_push_of_some hnode', htwin.mono hgrows⟩
    · exact ⟨kind, kind', span, Array.getElem?_push_size, Array.getElem?_push_size,
        hkind.mono hgrows⟩
  · intro e tag span' he
    obtain ⟨hnode, hfree⟩ := h.hollow e tag span' he
    refine ⟨getElem?_push_of_some hnode, fun b hb => ?_⟩
    rcases hb with hb | ⟨heq, -⟩
    · exact hfree b hb
    · exact Nat.ne_of_lt (Array.getElem?_eq_some_iff.mp hnode).1 heq
  · intro hr
    have hsame := h.same hr
    refine ⟨by simp [Machine.addNode, hsame.size], ?_, fun a ha => ?_, hsame.hollow⟩
    · rintro a b (hab | ⟨rfl, rfl⟩)
      · exact hsame.eq a b hab
      · exact hsame.size.symm
    · simp only [Machine.addNode, Array.size_push] at ha
      rcases Nat.lt_succ_iff_lt_or_eq.mp ha with ha | rfl
      · exact .inl (hsame.all a ha)
      · exact .inr ⟨rfl, hsame.size.symm⟩

/-- Memos that go together are replaced **by twins**. Memos that go together with no other are
untouched, so all pairs are as before or this one. -/
theorem Twins.replaceMemo (h : Twins r P m m') (hab : P.memos a b) (hmemo : memo.Twin r P memo')
    {tasks tasks' : List Task} {registered registered' : Nat}
    (htasks : List.Forall₂ (Task.Twin r P) tasks tasks') :
    Twins r P { m with memos := m.memos.setIfInBounds a memo, tasks, registered }
      { m' with
        memos := m'.memos.setIfInBounds b memo', tasks := tasks', registered := registered' } := by
  refine { h with
    memo := fun x y hxy => ?_, tasks := htasks, same := fun hr => { h.same hr with } }
  obtain ⟨old, old', hold, hold', htwin⟩ := h.memo x y hxy
  obtain ⟨hx, hy⟩ := h.memos_lt hxy
  by_cases hxa : a = x
  · subst hxa
    obtain rfl : b = y := h.memos.2 hab hxy
    exact ⟨memo, memo', by simp [hx], by simp [hy], hmemo⟩
  · have hyb : b ≠ y := fun heq => hxa (h.memos.1 (heq ▸ hab) hxy)
    refine ⟨old, old', ?_, ?_, htwin⟩
    · rw [Array.getElem?_setIfInBounds_ne hxa, hold]
    · rw [Array.getElem?_setIfInBounds_ne hyb, hold']

/-- Twins that register continuations that are twins **remain twins**. -/
theorem Twins.registeredWith (h : Twins r P m m') (hab : P.memos a b)
    (hmemo : memo.Twin r P memo') (hnext : next.Twin r P next') :
    Twins r P (m.registeredWith a memo next) (m'.registeredWith b memo' next') := by
  have hmore : Memo.Twin r P { memo with parents := next :: memo.parents }
      { memo' with parents := next' :: memo'.parents } :=
    ⟨hmemo.start, hmemo.latest, .cons hnext hmemo.parents⟩
  refine h.replaceMemo hab hmore (List.rel_append ?_ h.tasks)
  have hresults := hmemo.resultAt m.position
  rw [h.position]
  cases hresult : memo.resultAt m.position with
  | none =>
    rw [hresult] at hresults
    rw [Pairs.eq_none_of_rel hresults]
    exact .nil
  | some c =>
    rw [hresult] at hresults
    obtain ⟨d, hd, hcd⟩ := Pairs.exists_of_rel hresults
    rw [hd]
    exact .cons (.resume hcd hnext) .nil

/-- Twins that complete memos with results that go together **remain twins**. -/
theorem Twins.completedWith (h : Twins r P m m') (hab : P.memos a b) (hmemo : memo.Twin r P memo')
    {c d : NodeId} (hcd : P.nodes c d) :
    Twins r P (m.completedWith a memo c) (m'.completedWith b memo' d) := by
  have hlatest : Memo.Twin r P { memo with latest := some (m.position, c) }
      { memo' with latest := some (m'.position, d) } :=
    ⟨hmemo.start, .some ⟨h.position.symm, hcd⟩, hmemo.parents⟩
  refine h.replaceMemo hab hlatest (List.rel_append ?_ h.tasks)
  rw [List.forall₂_map_left_iff, List.forall₂_map_right_iff]
  exact (List.rel_reverse hmemo.parents).imp fun _ _ hnext => .resume hcd hnext

/-- Memos that go together are finished **with new results that do**. The continuations that the
results are handed to are twins, in the same order. -/
theorem Twins.finishedWith (h : Twins r P m m') (hab : P.memos a b) (hmemo : memo.Twin r P memo')
    (hkind : kind.Twin P ⟨memo.start, m.position⟩ kind') :
    Twins r (P.withNodes m.nodes.size m'.nodes.size) (m.finishedWith a memo kind)
      (m'.finishedWith b memo' kind') := by
  rw [Machine.finishedWith, Machine.finishedWith, hmemo.start, h.position]
  exact (h.addNode hkind).completedWith hab
    (hmemo.mono (P.grows_withNodes m.nodes.size m'.nodes.size)) (.inr ⟨rfl, rfl⟩)

/-- Twins that match a symbol each **remain twins**, and the new nodes go together. -/
theorem Twins.matchedWith (h : Twins r P m m') (hab : P.memos a b) (symbol : String) :
    Twins r (P.withNodes m.nodes.size m'.nodes.size) (m.matchedWith a symbol)
      (m'.matchedWith b symbol) := by
  rw [Machine.matchedWith, Machine.matchedWith, h.position]
  have hadd : Twins r _ (m.addNode (.symbol symbol) ⟨m.position, m.position + 1⟩).1
      (m'.addNode (.symbol symbol) ⟨m.position, m.position + 1⟩).1 := h.addNode (.symbol symbol)
  exact { hadd with
    matched := .cons ⟨.inr ⟨rfl, rfl⟩, hab⟩ hadd.matched
    same := fun hr => { hadd.same hr with } }

/-- Alternatives that go together are joined to choices that do. -/
theorem Twins.joinedWith (h : Twins r P m m') {a b c d : NodeId} {tag : Option String}
    {as bs : List NodeId} (hab : P.nodes a b) (has : List.Forall₂ P.nodes as bs)
    (hcd : P.nodes c d) :
    Twins r P (m.joinedWith a tag as span c) (m'.joinedWith b tag bs span d) := by
  refine { h with node := fun x y hxy => ?_, hollow := fun e tag' span' he => ?_, same := fun hr =>
    { h.same hr with
      size := by simp [Machine.joinedWith, (h.same hr).size]
      all := by simpa [Machine.joinedWith] using (h.same hr).all } }
  · obtain ⟨kind, kind', span', hx, hy, htwin⟩ := h.node x y hxy
    obtain ⟨hxlt, hylt⟩ := h.nodes_lt hxy
    by_cases hxa : a = x
    · subst hxa
      obtain rfl : b = y := h.nodes.2 hab hxy
      exact ⟨.choice tag (as ++ [c]), .choice tag (bs ++ [d]), span,
        by simp [Machine.joinedWith, hxlt], by simp [Machine.joinedWith, hylt],
        .choice (List.rel_append has (.cons hcd .nil))⟩
    · have hyb : b ≠ y := fun heq => hxa (h.nodes.1 (heq ▸ hab) hxy)
      refine ⟨kind, kind', span', ?_, ?_, htwin⟩
      · rw [Machine.joinedWith, Array.getElem?_setIfInBounds_ne hxa, hx]
      · rw [Machine.joinedWith, Array.getElem?_setIfInBounds_ne hyb, hy]
  · obtain ⟨he, hfree⟩ := h.hollow e tag' span' he
    have hae : a ≠ e := fun heq => hfree b (heq ▸ hab)
    exact ⟨by rw [Machine.joinedWith, Array.getElem?_setIfInBounds_ne hae, he], hfree⟩

/-! ### What one machine has alone -/

/-- A memo that **goes together with none**. An empty repetition needs a memo for its lists, for
which the sequence has no counterpart. -/
theorem Twins.addMemo_alone (h : Twins r P m m') (hr : r.times = 0) (next : Continuation) :
    Twins r P (m.addMemo next).1 m' := by
  refine { h with memo := fun a b hab => ?_, same := fun hne => absurd hr hne }
  obtain ⟨memo, memo', hmemo, hrest⟩ := h.memo a b hab
  exact ⟨memo, memo', getElem?_push_of_some hmemo, hrest⟩

/-- A result without parts that **goes together with none**. It stands for the empty list that the
repetition has made, and which the choice takes up. -/
theorem Twins.addNode_alone (h : Twins r P m m') (hr : r.times = 0) (tag : Option String)
    (span : Span) :
    Twins r (P.withHollow m.nodes.size tag span) (m.addNode (.sequence tag []) span).1 m' := by
  have hgrows := P.grows_withHollow m.nodes.size tag span
  refine { h with
    memo := ?_, node := ?_, hollow := ?_
    tasks := h.tasks.imp fun _ _ htask => htask.mono hgrows
    same := fun hne => absurd hr hne }
  · intro a b hab
    obtain ⟨memo, memo', hmemo, hmemo', htwin⟩ := h.memo a b hab
    exact ⟨memo, memo', hmemo, hmemo', htwin.mono hgrows⟩
  · intro a b hab
    obtain ⟨kind, kind', span, hnode, hnode', htwin⟩ := h.node a b hab
    exact ⟨kind, kind', span, getElem?_push_of_some hnode, hnode', htwin.mono hgrows⟩
  · rintro e tag' span' (he | ⟨rfl, rfl, rfl⟩)
    · obtain ⟨hnode, hfree⟩ := h.hollow e tag' span' he
      exact ⟨getElem?_push_of_some hnode, hfree⟩
    · exact ⟨Array.getElem?_push_size, fun b hb => Nat.lt_irrefl _ (h.nodes_lt hb).1⟩

/-- A memo that goes together with none **may be replaced** by any. Nothing in the other machine
depends on it. -/
theorem Twins.replaceMemo_alone (h : Twins r P m m') (hr : r.times = 0) (hfree : ∀ b, ¬ P.memos a b)
    (memo : Memo) : Twins r P { m with memos := m.memos.setIfInBounds a memo } m' := by
  refine { h with memo := fun x y hxy => ?_, same := fun hne => absurd hr hne }
  obtain ⟨old, old', hold, hrest⟩ := h.memo x y hxy
  have hax : a ≠ x := fun heq => hfree y (heq ▸ hxy)
  exact ⟨old, old', by rw [Array.getElem?_setIfInBounds_ne hax, hold], hrest⟩

end

end Machine

end GeneralParsing
