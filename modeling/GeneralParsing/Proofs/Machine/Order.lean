import GeneralParsing.Proofs.Machine.Behind
import GeneralParsing.Proofs.Machine.Reached
import GeneralParsing.Proofs.Machine.Sides

/-!
# First come, first served

Where a grammar has two sides, one may come before the other: results are to be handed on for the
**early** side first. The tables of a machine are in order when in every memo the early parents
were registered before the late ones, early terminals matched before late ones, and the start's
alternatives list the early ones first (`Machine.Ordered`).

This is kept by every move that does something early only as long as nothing late has been done at
the position (`Ordered.outcome`). As long as that is so it is **quiet**; whoever asks late then
finds the early ones in front. Terminals that are shared by the two sides are no exception: they
match once, and as no other terminal accepts their symbol the order of what matched does not
matter.
-/

namespace GeneralParsing

namespace Machine

/-- Tables in which what is **early comes before what is late**. Parents and matched terminals are
listed the latest first, alternatives the earliest first. While it is quiet, nothing late has been
done at this position. -/
structure Ordered (g : Grammar) (early late : ExprId → Prop) (quiet : Prop) (L : Ledger)
    (m : Machine) : Prop where
  parents : ∀ (id : MemoId) memo goal, m.memos[id]? = some memo → L.goals[id]? = some goal →
    memo.parents.Pairwise fun k k' =>
      ¬ (Asks g L early k goal.expr ∧ Asks g L late k' goal.expr)
  matched : m.matched.Pairwise fun p p' => ¬ (IsOf L early p.1 ∧ IsOf L late p'.1)
  alternatives : ∀ (node : NodeId) tag as span stop, m.nodes[node]? = some ⟨.choice tag as, span⟩ →
    L.Result node ⟨g.start, false, 0⟩ stop →
      as.Pairwise fun a a' => ¬ (IsOf L late a ∧ IsOf L early a')
  quietParents : quiet → ∀ (id : MemoId) memo goal, m.memos[id]? = some memo →
    L.goals[id]? = some goal → goal.start = m.position →
      ∀ k ∈ memo.parents, ¬ Asks g L late k goal.expr
  quietMatched : quiet → ∀ p ∈ m.matched, IsOf L early p.1
  quietAlternatives : quiet → ∀ (node : NodeId) tag as span,
    m.nodes[node]? = some ⟨.choice tag as, span⟩ →
      L.Result node ⟨g.start, false, 0⟩ m.position → ∀ a ∈ as, ¬ IsOf L late a

variable {g : Grammar} {w : List String} {early late : ExprId → Prop} {quiet : Prop}
variable {L L' : Ledger} {m m' : Machine} {id : MemoId} {memo : Memo} {goal : Goal}
variable {next : Continuation} {node : NodeId} {kind : Forest.Kind} {span : Span} {stop : Nat}

theorem IsOf.mono_iff {side : ExprId → Prop} (hgrows : L.Grows L') (hn : L.Result node goal stop) :
    IsOf L' side node ↔ IsOf L side node :=
  (IsOf.congr hgrows hn).trans (isOf_iff hn).symm

/-- The alternatives of a result of the start **are results** of what the start refers to. Roots are
results of the start, so this brings one down to an early or a late one. -/
theorem Sound.result_of_alternative (hs : Sound g w L m) (hp : g.Apart early late)
    {tag : Option String} {as : List NodeId}
    (hnode : m.nodes[node]? = some ⟨.choice tag as, span⟩)
    (hn : L.Result node ⟨g.start, false, 0⟩ stop) {a : NodeId} (ha : a ∈ as) :
    ∃ goal, L.Result a goal stop := by
  obtain ⟨tag', ids, he, -⟩ := hp.start
  obtain ⟨first, more, hkind, -, hresult⟩ := (hs.explained_of_node hn hnode).of_alt he
  obtain ⟨-, rfl⟩ := Forest.Kind.choice.inj hkind
  obtain ⟨child, -, hchild⟩ := hresult a ha
  exact ⟨_, hchild⟩

/-- A terminal that has matched is **one that began here** and accepts the symbol in sight. So what
waits for the next position can be told early or late by its expression. -/
theorem Sound.accepts_of_matched (hs : Sound g w L m) {p : NodeId × MemoId} (hp : p ∈ m.matched) :
    ∃ expr e symbol, L.goals[p.2]? = some ⟨expr, false, m.position⟩ ∧
      L.Result p.1 ⟨expr, false, m.position⟩ (m.position + 1) ∧ g.expr? expr = some e ∧
        m.lookahead = some symbol ∧ e.accepts symbol = true := by
  obtain ⟨hresult, expr, start, e, hgoal, he, hterminal⟩ := hs.matched p.1 p.2 hp
  have hn : L.Result p.1 ⟨expr, false, start⟩ (m.position + 1) := ⟨p.2, hresult, hgoal⟩
  obtain ⟨kind, -, hexplained⟩ := hs.explained hn
  generalize hstop : m.position + 1 = stop at hresult hexplained
  cases hexplained with
  | @symbol _ e' text _ he' ha hw =>
    obtain rfl : m.position = start := Nat.succ.inj hstop
    obtain rfl := Option.some.inj (he.symm.trans he')
    exact ⟨expr, e, text, hgoal, ⟨p.2, hresult, hgoal⟩, he, hs.lookahead.trans hw, ha⟩
  | empty he' | choice he' | omitted he' | lexical he' =>
    obtain rfl := Option.some.inj (he.symm.trans he')
    cases hterminal
  | inner he' hinner =>
    obtain rfl := Option.some.inj (he.symm.trans he')
    exact absurd hterminal (by simp [Expr.isTerminal_of_hasInner hinner])

namespace Ordered

/-- The order **stays as it is** when the ledger grows. Whether a node is early or late is a matter
of its goal, and goals are never changed. -/
theorem mono (hs : Sound g w L m) (hp : g.Apart early late) (hgrows : L.Grows L')
    (h : Ordered g early late quiet L m) : Ordered g early late quiet L' m := by
  -- memos keep their goals, and choices that there are had their results before
  have hgoals : ∀ {id memo goal}, m.memos[id]? = some memo → L'.goals[id]? = some goal →
      SoundMemo g L m.position id memo goal := by
    intro id memo goal hmemo hgoal
    obtain ⟨goal', hsound⟩ := hs.memo id memo hmemo
    obtain rfl := Option.some.inj (hgoal.symm.trans (hgrows.goal hsound.works))
    exact hsound
  have hresults : ∀ {node tag as span goal stop}, m.nodes[node]? = some ⟨.choice tag as, span⟩ →
      L'.Result node goal stop → L.Result node goal stop := by
    intro node tag as span goal stop hnode hn
    obtain ⟨memo, goal', stop', hsound⟩ := hs.node node _ hnode
    have hn' : L.Result node goal' stop' := ⟨memo, hsound.result, hsound.works⟩
    obtain ⟨rfl, rfl⟩ := hn.unique (hn'.mono hgrows)
    exact hn'
  have hmatched : ∀ {side : ExprId → Prop}, ∀ p ∈ m.matched,
      (IsOf L' side p.1 ↔ IsOf L side p.1) := by
    rintro side ⟨node, id⟩ hmem
    obtain ⟨hresult, expr, start, e, hgoal, -⟩ := hs.matched node id hmem
    exact IsOf.mono_iff hgrows ⟨id, hresult, hgoal⟩
  constructor
  · intro id memo goal hmemo hgoal
    have hsound := hgoals hmemo hgoal
    refine (h.parents id memo goal hmemo hsound.works).imp_of_mem fun hk hk' hnot => ?_
    rwa [Asks.congr hgrows (hsound.parents _ hk), Asks.congr hgrows (hsound.parents _ hk')]
  · refine h.matched.imp_of_mem fun hk hk' hnot => ?_
    rwa [hmatched _ hk, hmatched _ hk']
  · intro node tag as span stop hnode hn
    have hn' := hresults hnode hn
    refine (h.alternatives node tag as span stop hnode hn').imp_of_mem fun ha ha' hnot => ?_
    obtain ⟨_, hresult⟩ := hs.result_of_alternative hp hnode hn' ha
    obtain ⟨_, hresult'⟩ := hs.result_of_alternative hp hnode hn' ha'
    rwa [IsOf.mono_iff hgrows hresult, IsOf.mono_iff hgrows hresult']
  · intro hquiet id memo goal hmemo hgoal hstart k hk
    have hsound := hgoals hmemo hgoal
    rw [Asks.congr hgrows (hsound.parents k hk)]
    exact h.quietParents hquiet id memo goal hmemo hsound.works hstart k hk
  · intro hquiet p hp'
    rw [hmatched p hp']
    exact h.quietMatched hquiet p hp'
  · intro hquiet node tag as span hnode hn a ha
    have hn' := hresults hnode hn
    obtain ⟨_, hresult⟩ := hs.result_of_alternative hp hnode hn' ha
    rw [IsOf.mono_iff hgrows hresult]
    exact h.quietAlternatives hquiet node tag as span hnode hn' a ha

/-! ### Moves keep the order -/

section

variable (h : Ordered g early late quiet L m)

include h

theorem withTasks (tasks : List Task) : Ordered g early late quiet L (m.withTasks tasks) :=
  ⟨h.parents, h.matched, h.alternatives, h.quietParents, h.quietMatched, h.quietAlternatives⟩

theorem withRoot (node : NodeId) : Ordered g early late quiet L (m.withRoot node) :=
  ⟨h.parents, h.matched, h.alternatives, h.quietParents, h.quietMatched, h.quietAlternatives⟩

/-- A memo is added **with its only parent**. With one parent there is nothing that could be out of
order. -/
theorem addMemo (hnext : quiet → ∀ goal, L.goals[m.memos.size]? = some goal →
    ¬ Asks g L late next goal.expr) : Ordered g early late quiet L (m.addMemo next).1 where
  parents id memo goal hmemo hgoal := by
    change (m.memos.push _)[id]? = some memo at hmemo
    rw [Array.getElem?_push] at hmemo
    split at hmemo
    · obtain rfl := Option.some.inj hmemo
      exact List.pairwise_singleton _ _
    · exact h.parents id memo goal hmemo hgoal
  matched := h.matched
  alternatives := h.alternatives
  quietParents hquiet id memo goal hmemo hgoal hstart := by
    change (m.memos.push _)[id]? = some memo at hmemo
    rw [Array.getElem?_push] at hmemo
    split at hmemo
    · next heq =>
      obtain rfl := Option.some.inj hmemo
      simpa using hnext hquiet goal (heq ▸ hgoal)
    · exact h.quietParents hquiet id memo goal hmemo hgoal hstart
  quietMatched := h.quietMatched
  quietAlternatives := h.quietAlternatives

theorem opened {expr : ExprId} (hnext : quiet → ∀ goal, L.goals[m.memos.size]? = some goal →
    ¬ Asks g L late next goal.expr) : Ordered g early late quiet L (m.opened next expr) :=
  let h' := h.addMemo hnext
  ⟨h'.parents, h'.matched, h'.alternatives, h'.quietParents, h'.quietMatched,
    h'.quietAlternatives⟩

/-- A parent is added to a memo of this position, an early one **while it is quiet**. Latest parents
stand first, so an early one has to come before any late one has come. -/
theorem registeredWith (hmemo : m.memos[id]? = some memo) (hgoal : L.goals[id]? = some goal)
    (hstart : goal.start = m.position) (hearly : Asks g L early next goal.expr → quiet)
    (hlate : quiet → ¬ Asks g L late next goal.expr) :
    Ordered g early late quiet L (m.registeredWith id memo next) where
  parents id' memo' goal' hmemo' hgoal' := by
    change (m.memos.setIfInBounds id _)[id']? = some memo' at hmemo'
    rcases getElem?_setIfInBounds_eq_some hmemo' with ⟨rfl, rfl⟩ | hmemo'
    · obtain rfl := Option.some.inj (hgoal.symm.trans hgoal')
      refine List.pairwise_cons.mpr ⟨fun k hk => ?_, h.parents id memo goal hmemo hgoal⟩
      rintro ⟨hnext, hk'⟩
      exact h.quietParents (hearly hnext) id memo goal hmemo hgoal hstart k hk hk'
    · exact h.parents id' memo' goal' hmemo' hgoal'
  matched := h.matched
  alternatives := h.alternatives
  quietParents hquiet id' memo' goal' hmemo' hgoal' hstart' := by
    change (m.memos.setIfInBounds id _)[id']? = some memo' at hmemo'
    rcases getElem?_setIfInBounds_eq_some hmemo' with ⟨rfl, rfl⟩ | hmemo'
    · obtain rfl := Option.some.inj (hgoal.symm.trans hgoal')
      exact List.forall_mem_cons.mpr ⟨hlate hquiet,
        h.quietParents hquiet id memo goal hmemo hgoal hstart⟩
    · exact h.quietParents hquiet id' memo' goal' hmemo' hgoal' hstart'
  quietMatched := h.quietMatched
  quietAlternatives := h.quietAlternatives

/-- A result that is recorded **changes no parents**. -/
theorem completedWith (hmemo : m.memos[id]? = some memo) (node : NodeId) :
    Ordered g early late quiet L (m.completedWith id memo node) := by
  have hold : ∀ {id' : MemoId} {memo' : Memo},
      (m.completedWith id memo node).memos[id']? = some memo' →
        ∃ old : Memo, m.memos[id']? = some old ∧ memo'.parents = old.parents := by
    intro id' memo' hmemo'
    change (m.memos.setIfInBounds id _)[id']? = some memo' at hmemo'
    rcases getElem?_setIfInBounds_eq_some hmemo' with ⟨rfl, rfl⟩ | hmemo'
    · exact ⟨memo, hmemo, rfl⟩
    · exact ⟨memo', hmemo', rfl⟩
  refine ⟨fun id' memo' goal' hmemo' hgoal' => ?_, h.matched, h.alternatives,
    fun hquiet id' memo' goal' hmemo' hgoal' hstart => ?_, h.quietMatched, h.quietAlternatives⟩
  · obtain ⟨old, hold, heq⟩ := hold hmemo'
    exact heq ▸ h.parents id' old goal' hold hgoal'
  · obtain ⟨old, hold, heq⟩ := hold hmemo'
    exact heq ▸ h.quietParents hquiet id' old goal' hold hgoal' hstart

/-- A node is added. If it is a result of the start, it has **one alternative**, and no late one
while it is quiet. -/
theorem addNode (hkind : ∀ tag as, kind = .choice tag as →
      (∃ stop, L.Result m.nodes.size ⟨g.start, false, 0⟩ stop) →
        ∃ a, as = [a] ∧ (quiet → ¬ IsOf L late a)) :
    Ordered g early late quiet L (m.addNode kind span).1 where
  parents := h.parents
  matched := h.matched
  alternatives node tag as span stop hnode hn := by
    change (m.nodes.push _)[node]? = some _ at hnode
    rcases getElem?_push_eq_some hnode with ⟨rfl, heq⟩ | hnode
    · obtain ⟨rfl, -⟩ := Forest.Node.mk.inj heq
      obtain ⟨a, rfl, -⟩ := hkind tag as rfl ⟨stop, hn⟩
      exact List.pairwise_singleton _ _
    · exact h.alternatives node tag as span stop hnode hn
  quietParents := h.quietParents
  quietMatched := h.quietMatched
  quietAlternatives hquiet node tag as span hnode hn := by
    change (m.nodes.push _)[node]? = some _ at hnode
    rcases getElem?_push_eq_some hnode with ⟨rfl, heq⟩ | hnode
    · obtain ⟨rfl, -⟩ := Forest.Node.mk.inj heq
      obtain ⟨a, rfl, ha⟩ := hkind tag as rfl ⟨_, hn⟩
      simpa using ha hquiet
    · exact h.quietAlternatives hquiet node tag as span hnode hn

theorem finishedWith (hmemo : m.memos[id]? = some memo) (hkind : ∀ tag as, kind = .choice tag as →
      (∃ stop, L.Result m.nodes.size ⟨g.start, false, 0⟩ stop) →
        ∃ a, as = [a] ∧ (quiet → ¬ IsOf L late a)) :
    Ordered g early late quiet L (m.finishedWith id memo kind) :=
  Ordered.completedWith (m := (m.addNode kind ⟨memo.start, m.position⟩).1) (h.addNode hkind) hmemo _

/-- A terminal matches, an early one **while nothing late has**. What has matched is recorded in
turn at the next position, which keeps the order for later. -/
theorem matchedWith {symbol : String} (hquiet : quiet → IsOf L early m.nodes.size)
    (hafter : ∀ p ∈ m.matched, ¬ (IsOf L early m.nodes.size ∧ IsOf L late p.1)) :
    Ordered g early late quiet L (m.matchedWith id symbol) :=
  let h' : Ordered g early late quiet L
    (m.addNode (.symbol symbol) ⟨m.position, m.position + 1⟩).1 := h.addNode nofun
  ⟨h'.parents, List.pairwise_cons.mpr ⟨hafter, h.matched⟩, h'.alternatives, h'.quietParents,
    fun hq => List.forall_mem_cons.mpr ⟨hquiet hq, h.quietMatched hq⟩, h'.quietAlternatives⟩

/-- An alternative is joined to a result of this position, an early one **while it is quiet**.
Alternatives of the start are where the order is seen in the end. -/
theorem joinedWith {choice : NodeId} {tag : Option String} {as : List NodeId}
    (hnode : m.nodes[choice]? = some ⟨.choice tag as, span⟩)
    (hjoin : ∀ stop, L.Result choice ⟨g.start, false, 0⟩ stop → stop = m.position ∧
      (IsOf L early node → quiet) ∧ (quiet → ¬ IsOf L late node)) :
    Ordered g early late quiet L (m.joinedWith choice tag as span node) where
  parents := h.parents
  matched := h.matched
  alternatives node' tag' as' span' stop hnode' hn := by
    change (m.nodes.setIfInBounds choice _)[node']? = some _ at hnode'
    rcases getElem?_setIfInBounds_eq_some hnode' with ⟨rfl, heq⟩ | hnode'
    · obtain ⟨hkind, -⟩ := Forest.Node.mk.inj heq
      obtain ⟨-, rfl⟩ := Forest.Kind.choice.inj hkind
      -- the new alternative comes last, so none before it may be late if it is early
      obtain ⟨rfl, hearly, -⟩ := hjoin stop hn
      refine List.pairwise_append.mpr ⟨h.alternatives choice tag as span _ hnode hn,
        List.pairwise_singleton _ _, fun a ha a' ha' => ?_⟩
      rw [List.mem_singleton.mp ha']
      rintro ⟨hlate, hnew⟩
      exact h.quietAlternatives (hearly hnew) choice tag as span hnode hn a ha hlate
    · exact h.alternatives node' tag' as' span' stop hnode' hn
  quietParents := h.quietParents
  quietMatched := h.quietMatched
  quietAlternatives hquiet node' tag' as' span' hnode' hn := by
    change (m.nodes.setIfInBounds choice _)[node']? = some _ at hnode'
    rcases getElem?_setIfInBounds_eq_some hnode' with ⟨rfl, heq⟩ | hnode'
    · obtain ⟨hkind, -⟩ := Forest.Node.mk.inj heq
      obtain ⟨-, rfl⟩ := Forest.Kind.choice.inj hkind
      obtain ⟨-, -, hlate⟩ := hjoin _ hn
      refine List.forall_mem_append.mpr
        ⟨h.quietAlternatives hquiet choice tag as span hnode hn, ?_⟩
      simpa using hlate hquiet
    · exact h.quietAlternatives hquiet node' tag' as' span' hnode' hn

end

/-! ### Steps keep the order -/

/-- Expansions keep the order, if while it is quiet nothing late is expanded, and no terminal
matches **after a later one**. -/
theorem expansion {L₁ : Ledger} {e : Expr} {expr : ExprId} {start : Nat}
    (hs : Sound g w L₁ m) (hgoal : L₁.goals[id]? = some ⟨expr, false, start⟩) (hgrows : L₁.Grows L')
    (hinner : e.hasInner = true → quiet → ¬ late expr)
    (hquiet : ∀ symbol, e.accepts symbol = true → quiet → early expr)
    (hafter : ∀ symbol, m.lookahead = some symbol → e.accepts symbol = true →
      ∀ p ∈ m.matched, ¬ (early expr ∧ IsOf L' late p.1))
    (h : Ordered g early late quiet L' m) (hexp : Expansion L₁ m id e L' m') :
    Ordered g early late quiet L' m' := by
  -- the inner memo has one parent, which asks on behalf of the expression itself
  have hadd : ∀ {goal}, L₁.goals[id]? = some goal →
      (L₁.addGoal { goal with inner := true }).Grows L' → e.hasInner = true →
        Ordered g early late quiet L' (m.addMemo (.choice none id)).1 := by
    intro goal hgoal₁ hgrows' hin
    obtain rfl := Option.some.inj (hgoal.symm.trans hgoal₁)
    refine h.addMemo fun hq goal' hgoal' hasks => ?_
    have hnew := hs.goals_addGoal ⟨expr, true, start⟩
    obtain rfl := Option.some.inj ((hgrows'.goal hnew).symm.trans hgoal')
    obtain ⟨memo, goal'', hmemo, hgoal'', hside | ⟨-, hside⟩⟩ := hasks
    · obtain rfl := Option.some.inj hmemo
      obtain rfl := Option.some.inj ((hgrows.goal hgoal).symm.trans hgoal'')
      exact hinner hin hq hside
    · exact hinner hin hq hside
  cases hexp with
  | empty hrecord => exact h.finishedWith hrecord nofun
  | sequence hgoal₁ => exact (hadd hgoal₁ (.refl _) rfl).withTasks _
  | choice | omitted | lexical => exact h.withTasks _
  | repetition hgoal₁ _ => exact (hadd hgoal₁ (.refl _) rfl).withTasks _
  | repetitionEmpty hgoal₁ =>
    refine ((hadd hgoal₁ (Ledger.grows_addResult _ _ _) rfl).withTasks _).finishedWith ?_ nofun
    exact Array.getElem?_push_size
  | unmatched => exact h
  | @matched e symbol hlook ha =>
    have hnew : (L₁.addResult id (m.position + 1)).Result m.nodes.size ⟨expr, false, start⟩
        (m.position + 1) := ⟨id, hs.results_addResult _ _, hgoal⟩
    refine h.matchedWith (fun hq => (isOf_iff hnew).mpr (hquiet symbol ha hq)) fun p hp => ?_
    rw [isOf_iff hnew]
    exact hafter symbol hlook ha p hp

/-- A terminal that is asked for **for the early side** matches before anything late has. -/
theorem matched_apart {e : Expr} {expr : ExprId} {symbol : String} (hs : Sound g w L m)
    (htables : ∀ (id : MemoId) expr, L.goals[id]? = some ⟨expr, false, m.position⟩ →
      m.table[expr]? = some id)
    (hp : g.Apart early late) (hsided : Sided g early late L)
    (ha : Awaits g L next ⟨expr, false, m.position⟩) (hearly : Asks g L early next expr → quiet)
    (htable : m.table[expr]? = none) (he : g.expr? expr = some e) (hnext : next ≠ .accept)
    (hlook : m.lookahead = some symbol) (haccepts : e.accepts symbol = true)
    (h : Ordered g early late quiet L m) : ∀ p ∈ m.matched, ¬ (early expr ∧ IsOf L late p.1) := by
  rintro p hmem ⟨hside, hother⟩
  obtain ⟨expr', e', symbol', hgoal, hn, he', hlook', haccepts'⟩ := hs.accepts_of_matched hmem
  obtain rfl : symbol = symbol' := Option.some.inj (hlook.symm.trans hlook')
  rw [isOf_iff hn] at hother
  have hne : expr' ≠ expr := by
    rintro rfl
    cases htable.symm.trans (htables p.2 expr' hgoal)
  -- both terminals accept the symbol, so neither of them is on both sides
  rcases asks_or_asks hp hsided ha hnext with hasks | hasks
  · have hfirst := (isOf_iff hn).mp (h.quietMatched (hearly hasks) p hmem)
    exact hne (hp.alone expr' expr e' e symbol hfirst hother (.inl hside) he' he haccepts' haccepts)
  · have hlast := side_of_asks hp.isOther ha hasks
    exact hne (hp.alone expr expr' e e' symbol hside hlast (.inr hother) he he' haccepts
      haccepts').symm

/-- What is opened for the early side **is opened while it is quiet**. -/
theorem derive {expr : ExprId} (hs : Sound g w L m)
    (htables : ∀ (id : MemoId) expr, L.goals[id]? = some ⟨expr, false, m.position⟩ →
      m.table[expr]? = some id)
    (hp : g.Apart early late) (hsided : Sided g early late L)
    (ha : Awaits g L next ⟨expr, false, m.position⟩) (hearly : Asks g L early next expr → quiet)
    (hlate : quiet → ¬ Asks g L late next expr) (hgrows : L.Grows L')
    (ho : Outcome g L m (.derive next expr) L' m') (h : Ordered g early late quiet L m) :
    Ordered g early late quiet L' m' := by
  have h' : Ordered g early late quiet L' m := h.mono hs hp hgrows
  cases ho with
  | registered htable hrecord =>
    exact h.registeredWith hrecord (hs.table expr _ htable) rfl hearly hlate
  | @opened _ _ e _ _ htable he hexp =>
    have hnew := hs.goals_addGoal ⟨expr, false, m.position⟩
    have hopened := hs.opened ⟨e, he⟩ ha
    obtain ⟨hgrows', -⟩ := hopened.expansion hnew rfl he hexp
    have hordered : Ordered g early late quiet L' (m.opened next expr) := by
      refine h'.opened fun hq goal hgoal => ?_
      obtain rfl := Option.some.inj ((hgrows'.goal hnew).symm.trans hgoal)
      rw [Asks.congr hgrows ha]
      exact hlate hq
    have hnext : ∀ symbol, e.accepts symbol = true → next ≠ .accept := by
      rintro symbol haccepts rfl
      refine hp.ne_start he ?_ (congrArg Goal.expr (ha.of_memo?_eq_none rfl).2)
      rintro tag ids rfl
      cases haccepts
    refine expansion hopened hnew hgrows' (fun hinner hq hside => ?_)
      (fun symbol haccepts hq => ?_) (fun symbol hlook haccepts p hmem => ?_) hordered hexp
    · refine hlate hq (asks_of_side hp.symm hsided.symm ha hside fun hboth => ?_)
      have hterminal := hp.terminal expr e hboth hside he
      rw [Expr.isTerminal_of_hasInner hinner] at hterminal
      cases hterminal
    · exact side_of_asks hp.isSide ha
        ((asks_or_asks hp hsided ha (hnext symbol haccepts)).resolve_right (hlate hq))
    · obtain ⟨_, _, _, _, hn, _⟩ := hs.accepts_of_matched hmem
      rw [IsOf.mono_iff hgrows hn]
      exact h.matched_apart hs htables hp hsided ha hearly htable he (hnext symbol haccepts) hlook
        haccepts p hmem

/-- A result is taken for the early side **while it is quiet**. What comes of a result is for the
same side, and while it is quiet that is the early one. -/
theorem resume (hs : Sound g w L m) (hp : g.Apart early late) (hn : L.Result node goal m.position)
    (hearly : Asks g L early next goal.expr → quiet)
    (hlate : quiet → ¬ Asks g L late next goal.expr) (hgrows : L.Grows L')
    (ho : Outcome g L m (.resume node next) L' m') (h : Ordered g early late quiet L m) :
    Ordered g early late quiet L' m' := by
  have h' : Ordered g early late quiet L' m := h.mono hs hp hgrows
  -- a choice of the start's takes alternatives on behalf of the alternatives themselves
  have hasks : ∀ {side : ExprId → Prop} {tag : Option String} {id : MemoId},
      L.goals[id]? = some ⟨g.start, false, 0⟩ → next = .choice tag id → IsOf L' side node →
        Asks g L side next goal.expr := by
    rintro side tag id hstart rfl hside
    exact ⟨id, _, rfl, hstart, .inr ⟨rfl, (IsOf.congr hgrows hn).mp hside⟩⟩
  cases ho with
  | accepted => exact h.withRoot node
  | acceptedBefore | choiceSame | choiceKnown => exact h
  | sequenceDone hrecord | omitted hrecord | lexical hrecord => exact h'.finishedWith hrecord nofun
  | sequenceNext | repetitionEarly => exact h.withTasks _
  | repetitionLate _ _ hrecord =>
    exact Ordered.finishedWith (m := m.withTasks _) (h'.withTasks _) hrecord nofun
  | @choiceFirst _ tag id record hrecord hnone =>
    refine h'.finishedWith hrecord ?_
    rintro tag' as hkind ⟨stop, id', hresult', hstart⟩
    obtain ⟨-, rfl⟩ := Forest.Kind.choice.inj hkind
    have hnew := hs.results_addResult id m.position
    obtain ⟨rfl, -⟩ := Prod.mk.inj (Option.some.inj (hnew.symm.trans hresult'))
    exact ⟨node, rfl, fun hq hside => hlate hq (hasks hstart rfl hside)⟩
  | @choiceJoined _ existing tag tag' id record as span hrecord hhere hne hexisting hmem =>
    refine h.joinedWith hexisting fun stop hstart => ?_
    obtain ⟨id', hresult', hstart⟩ := hstart
    obtain ⟨goal', hsound⟩ := hs.memo id record hrecord
    obtain ⟨rfl, rfl⟩ := Prod.mk.inj (Option.some.inj
      ((hsound.result_of_resultAt hhere).symm.trans hresult'))
    exact ⟨rfl, fun hside => hearly (hasks hstart rfl hside),
      fun hq hside => hlate hq (hasks hstart rfl hside)⟩

/-- Outcomes keep the order, if what is done **for the early side** is done while it is quiet, and
what is done for the late side is not. -/
theorem outcome {task : Task} (hs : Sound g w L m)
    (htables : ∀ (id : MemoId) expr, L.goals[id]? = some ⟨expr, false, m.position⟩ →
      m.table[expr]? = some id)
    (hp : g.Apart early late) (hsided : Sided g early late L) (ht : SoundTask g L m.position task)
    (hearly : Serves g L early task → quiet) (hlate : quiet → ¬ Serves g L late task)
    (ho : Outcome g L m task L' m') (h : Ordered g early late quiet L m) :
    Ordered g early late quiet L' m' := by
  obtain ⟨hgrows, -⟩ := hs.outcome ht ho
  cases ht with
  | derive ha => exact h.derive hs htables hp hsided ha hearly hlate hgrows ho
  | resume hresult hgoal ha =>
    have hn : L.Result _ _ m.position := ⟨_, hresult, hgoal⟩
    exact h.resume hs hp hn (fun hasks => hearly ⟨_, _, hn, hasks⟩)
      (fun hq hasks => hlate hq ⟨_, _, hn, hasks⟩) hgrows ho

end Ordered

end Machine

end GeneralParsing
