import GeneralParsing.Proofs.Machine.Tickets

/-!
# Results are unique

An outer memo gets **one result for each position** where its expression ends: alternatives go to
one choice, terminals match once, and wrappers are resumed once. So the latest result is all there
is to know about the results here (`Unique.here`), and who registers late is served with it.
-/

namespace GeneralParsing

/-- A node is a result **of an outer memo** and ends at a position. -/
def Ledger.OuterResult (L : Ledger) (node : NodeId) (id : MemoId) (stop : Nat) : Prop :=
  L.results[node]? = some (id, stop) ∧ ∃ expr start, L.goals[id]? = some ⟨expr, false, start⟩

theorem Ledger.getElem?_addResult {L : Ledger} {id : MemoId} {stop : Nat} {node : NodeId}
    {result : MemoId × Nat} : (L.addResult id stop).results[node]? = some result ↔
      node = L.results.size ∧ result = (id, stop) ∨ L.results[node]? = some result := by
  rw [addResult, Array.getElem?_push]
  constructor
  · intro h
    split at h
    · next heq => exact .inl ⟨heq, (Option.some.inj h).symm⟩
    · exact .inr h
  · rintro (⟨rfl, rfl⟩ | h)
    · exact if_pos rfl
    · have hlt := (Array.getElem?_eq_some_iff.mp h).1
      rw [if_neg (Nat.ne_of_lt hlt), h]

namespace Machine

/-- Results of outer memos are **unique**, and the latest is the one here. Those that wait are to be
recorded yet. -/
structure Unique (L : Ledger) (m : Machine) (waiting : List (NodeId × MemoId)) : Prop where
  one : ∀ n n' id stop, L.OuterResult n id stop → L.OuterResult n' id stop → n = n'
  here : ∀ n id, L.OuterResult n id m.position → (n, id) ∉ waiting → m.resultHere id = some n
  past : ∀ (n : NodeId) id stop, L.results[n]? = some (id, stop) → (n, id) ∉ waiting →
    stop ≤ m.position
  nodup : (waiting.map Prod.snd).Nodup

section

variable {g : Grammar} {w : List String} {L L' : Ledger} {m m' : Machine} {id : MemoId}
variable {waiting : List (NodeId × MemoId)} {memo : Memo} {next : Continuation}

/-- A new memo **has no results**. -/
theorem Sound.lt_of_results (h : Sound g w L m) {node : NodeId} {stop : Nat}
    (hresult : L.results[node]? = some (id, stop)) : id < L.goals.size := by
  obtain ⟨n, goal, -, hsound⟩ := h.exists_node hresult
  exact (Array.getElem?_eq_some_iff.mp hsound.works).1

theorem Sound.outerResult_of_addGoal (h : Sound g w L m) {goal : Goal} {node : NodeId} {stop : Nat}
    (hn : (L.addGoal goal).OuterResult node id stop) : L.OuterResult node id stop := by
  obtain ⟨hresult, expr, start, hgoal⟩ := hn
  refine ⟨hresult, expr, start, ?_⟩
  change (L.goals.push goal)[id]? = _ at hgoal
  rwa [Array.getElem?_push, if_neg (Nat.ne_of_lt (h.lt_of_results hresult))] at hgoal

namespace Unique

section

variable (h : Unique L m waiting)

include h

/-- Uniqueness depends on **the results and the results here** only. Most moves leave both of these
alone. -/
theorem congr (hresults : L'.results = L.results)
    (houter : ∀ n id stop, L'.OuterResult n id stop → L.OuterResult n id stop)
    (hposition : m'.position = m.position) (hhere : ∀ id, m'.resultHere id = m.resultHere id) :
    Unique L' m' waiting where
  one n n' id stop hn hn' := h.one n n' id stop (houter _ _ _ hn) (houter _ _ _ hn')
  here n id hn hwait := by
    rw [hhere]
    exact h.here n id (hposition ▸ houter _ _ _ hn) hwait
  past n id stop hn hwait := by
    rw [hposition]
    exact h.past n id stop (hresults ▸ hn) hwait
  nodup := h.nodup

theorem withTasks (tasks : List Task) : Unique L (m.withTasks tasks) waiting :=
  h.congr rfl (fun _ _ _ hn => hn) rfl fun _ => rfl

theorem addMemo (hs : Sound g w L m) (goal : Goal) (next : Continuation) :
    Unique (L.addGoal goal) (m.addMemo next).1 waiting :=
  h.congr rfl (fun _ _ _ => hs.outerResult_of_addGoal) rfl (resultHere_addMemo m next)

theorem registeredWith (hmemo : m.memos[id]? = some memo) (next : Continuation) :
    Unique L (m.registeredWith id memo next) waiting :=
  h.congr rfl (fun _ _ _ hn => hn) rfl (resultHere_registeredWith hmemo next)

/-- A result at a place where its memo had none **is the only one** there, and others stay so. -/
theorem one_addResult {stop' stop : Nat} {n n' : NodeId} {i : MemoId}
    (hnot : ∀ n, ¬ L.OuterResult n id stop') (hn : (L.addResult id stop').OuterResult n i stop)
    (hn' : (L.addResult id stop').OuterResult n' i stop) : n = n' := by
  obtain ⟨hresult, houter⟩ := hn
  obtain ⟨hresult', -⟩ := hn'
  rcases Ledger.getElem?_addResult.mp hresult with ⟨rfl, heq⟩ | hold <;>
    rcases Ledger.getElem?_addResult.mp hresult' with ⟨rfl, heq'⟩ | hold'
  · rfl
  · obtain ⟨rfl, rfl⟩ := Prod.mk.inj heq
    exact (hnot n' ⟨hold', houter⟩).elim
  · obtain ⟨rfl, rfl⟩ := Prod.mk.inj heq'
    exact (hnot n ⟨hold, houter⟩).elim
  · exact h.one n n' i stop ⟨hold, houter⟩ ⟨hold', houter⟩

/-- A result here of a memo that **had none**, or of an inner memo. Inner memos may have several
results at one place, one for each way to divide the stretch. -/
theorem finishedWith (hsize : L.results.size = m.nodes.size) (hmemo : m.memos[id]? = some memo)
    (hnot : ∀ n, ¬ L.OuterResult n id m.position) (kind : Forest.Kind) :
    Unique (L.addResult id m.position) (m.finishedWith id memo kind) waiting where
  one _ _ _ _ := h.one_addResult hnot
  here n i hn hwait := by
    obtain ⟨hresult, houter⟩ := hn
    rcases Ledger.getElem?_addResult.mp hresult with ⟨rfl, heq⟩ | hold
    · obtain ⟨rfl, -⟩ := Prod.mk.inj heq
      rw [hsize]
      exact resultHere_completedWith_self
        (m := (m.addNode kind ⟨memo.start, m.position⟩).1) hmemo m.nodes.size
    · by_cases hid : id = i
      · subst hid
        exact (hnot n ⟨hold, houter⟩).elim
      · rw [resultHere_finishedWith_ne hid]
        exact h.here n i ⟨hold, houter⟩ hwait
  past n i stop hn hwait := by
    rcases Ledger.getElem?_addResult.mp hn with ⟨-, heq⟩ | hold
    · exact Nat.le_of_eq (Prod.mk.inj heq).2
    · exact h.past n i stop hold hwait
  nodup := h.nodup

/-- A result **at the next position** of a memo that has no others. A terminal matches one symbol
and is then done. -/
theorem matchedWith (hs : Sound g w L m)
    (hnone : ∀ (n : NodeId) stop, L.results[n]? ≠ some (id, stop))
    (hwait : id ∉ waiting.map Prod.snd) (symbol : String) :
    Unique (L.addResult id (m.position + 1)) (m.matchedWith id symbol)
      ((m.nodes.size, id) :: waiting) where
  one _ _ _ _ := h.one_addResult fun n hn => hnone n _ hn.1
  here n i hn hnot := by
    obtain ⟨hresult, houter⟩ := hn
    rcases Ledger.getElem?_addResult.mp hresult with ⟨-, heq⟩ | hold
    · exact absurd (Prod.mk.inj heq).2 (Nat.ne_of_lt (Nat.lt_succ_self m.position))
    · exact h.here n i ⟨hold, houter⟩ fun hmem => hnot (List.mem_cons_of_mem _ hmem)
  past n i stop hn hnot := by
    rcases Ledger.getElem?_addResult.mp hn with ⟨rfl, heq⟩ | hold
    · obtain ⟨rfl, -⟩ := Prod.mk.inj heq
      rw [hs.results_size] at hnot
      exact absurd List.mem_cons_self hnot
    · exact h.past n i stop hold fun hmem => hnot (List.mem_cons_of_mem _ hmem)
  nodup := List.nodup_cons.mpr ⟨hwait, h.nodup⟩

omit h in
/-- A result that waited **is recorded**. -/
theorem completedWith {node : NodeId} (h : Unique L m ((node, id) :: waiting))
    (hmemo : m.memos[id]? = some memo) (hnode : L.OuterResult node id m.position) :
    Unique L (m.completedWith id memo node) waiting where
  one := h.one
  here n i hn hwait := by
    by_cases hid : id = i
    · subst hid
      rw [h.one n node id _ hn hnode]
      exact resultHere_completedWith_self hmemo node
    · rw [resultHere_completedWith_ne hid]
      refine h.here n i hn fun hmem => ?_
      rcases List.mem_cons.mp hmem with heq | hmem
      · exact hid (Prod.mk.inj heq).2.symm
      · exact hwait hmem
  past n i stop hn hwait := by
    by_cases hnew : (n, i) = (node, id)
    · obtain ⟨rfl, rfl⟩ := Prod.mk.inj hnew
      exact Nat.le_of_eq (Prod.mk.inj (Option.some.inj (hn.symm.trans hnode.1))).2
    · exact h.past n i stop hn fun hmem => (List.mem_cons.mp hmem).elim hnew hwait
  nodup := (List.nodup_cons.mp h.nodup).2

/-- At the next position **nothing is recorded** yet. What has matched is on the way to be, and is
counted as waiting. -/
theorem nextPosition : Unique L
    { m with matched := [], table := ∅, position := m.position + 1 } waiting where
  one := h.one
  here n i hn hwait :=
    absurd (h.past n i (m.position + 1) hn.1 hwait) (Nat.not_succ_le_self m.position)
  past n i stop hn hwait := Nat.le_succ_of_le (h.past n i stop hn hwait)
  nodup := h.nodup

/-- A memo that has no result here **may get one**. What it has got at an earlier place does not
count, and what waits ends one further. -/
theorem not_outerResult (hwait : ∀ n i, (n, i) ∈ waiting → L.results[n]? = some (i, m.position + 1))
    (hfree : m.resultHere id = none) (n : NodeId) : ¬ L.OuterResult n id m.position := by
  intro hn
  have hhere := h.here n id hn fun hmem => by
    have heq := (Prod.mk.inj (Option.some.inj (hn.1.symm.trans (hwait n id hmem)))).2
    exact absurd heq (Nat.ne_of_lt (Nat.lt_succ_self _))
  rw [hfree] at hhere
  cases hhere

end

/-! ### Outcomes keep it -/

/-- An inner memo's results **are not outer ones**. -/
theorem not_outerResult_of_inner {expr : ExprId} {start stop : Nat}
    (hid : L.goals[id]? = some ⟨expr, true, start⟩) (n : NodeId) : ¬ L.OuterResult n id stop := by
  rintro ⟨-, expr', start', hgoal⟩
  cases hid.symm.trans hgoal

theorem expansion (hs : Sound g w L m) (h : Unique L m m.matched) {e : Expr}
    (hnone : ∀ (n : NodeId) stop, L.results[n]? ≠ some (id, stop))
    (hexp : Expansion L m id e L' m') : Unique L' m' m'.matched := by
  cases hexp with
  | empty hrecord => exact h.finishedWith hs.results_size hrecord (fun n hn => hnone n _ hn.1) _
  | sequence | repetition => exact (h.addMemo hs _ _).withTasks _
  | @repetitionEmpty tag child max goal hgoal =>
    have hinner : (L.addGoal { goal with inner := true }).goals[m.memos.size]? =
        some ⟨goal.expr, true, goal.start⟩ := hs.goals_addGoal _
    exact ((h.addMemo hs { goal with inner := true } (.choice none id)).withTasks _).finishedWith
      hs.results_size Array.getElem?_push_size (not_outerResult_of_inner hinner) _
  | choice | omitted | lexical => exact h.withTasks _
  | unmatched => exact h
  | matched =>
    refine h.matchedWith hs hnone (fun hmem => ?_) _
    obtain ⟨⟨node, id'⟩, hnode, rfl⟩ := List.mem_map.mp hmem
    exact hnone node _ (hs.matched node id' hnode).1

theorem derive (hs : Sound g w L m) (h : Unique L m m.matched) {expr : ExprId}
    (ht : SoundTask g L m.position (.derive next expr))
    (ho : Outcome g L m (.derive next expr) L' m') : Unique L' m' m'.matched := by
  cases ho with
  | registered htable hrecord => exact h.registeredWith hrecord next
  | @opened _ _ e _ _ htable he hexp =>
    cases ht with
    | derive ha =>
      have hopened : Unique (L.addGoal ⟨expr, false, m.position⟩) (m.opened next expr)
          (m.opened next expr).matched :=
        (h.addMemo hs _ next).congr rfl (fun _ _ _ hn => hn) rfl fun _ => rfl
      refine hopened.expansion (hs.opened ⟨e, he⟩ ha) (fun n stop hn => ?_) hexp
      have hlt : m.memos.size < L.goals.size := hs.lt_of_results hn
      exact absurd hs.goals_size.symm (Nat.ne_of_lt hlt)

theorem resume (hs : Sound g w L m) (h : Unique L m m.matched) {node : NodeId}
    (ht : SoundTask g L m.position (.resume node next))
    (hfree : ∀ id memo, next = .omitted id ∨ next = .lexical id → m.memos[id]? = some memo →
      memo.resultAt m.position = none)
    (ho : Outcome g L m (.resume node next) L' m') : Unique L' m' m'.matched := by
  have hunresolved : ∀ {id : MemoId} {memo : Memo} (kind : Forest.Kind),
      m.memos[id]? = some memo → memo.resultAt m.position = none →
      Unique (L.addResult id m.position) (m.finishedWith id memo kind) m.matched := by
    intro id memo kind hmemo hnone
    refine h.finishedWith hs.results_size hmemo (h.not_outerResult ?_ ?_) kind
    · exact fun n i hmem => (hs.matched n i hmem).1
    · rw [resultHere_of_memo hmemo, hnone]
  cases ht with
  | resume hresult hgoal ha =>
  cases ho with
  | acceptedBefore | choiceSame | choiceKnown => exact h
  | sequenceNext | repetitionEarly => exact h.withTasks _
  | accepted | choiceJoined => exact h.congr rfl (fun _ _ _ hn => hn) rfl fun _ => rfl
  | sequenceDone hrecord =>
    cases ha with
    | sequence hmemo =>
      exact h.finishedWith hs.results_size hrecord (not_outerResult_of_inner hmemo) _
  | choiceFirst hrecord hnone => exact hunresolved _ hrecord hnone
  | repetitionLate hn hmin hrecord =>
    cases ha with
    | repetition hmemo =>
      exact (h.withTasks _).finishedWith hs.results_size hrecord (not_outerResult_of_inner hmemo) _
  | omitted hrecord => exact hunresolved _ hrecord (hfree _ _ (.inl rfl) hrecord)
  | lexical hrecord => exact hunresolved _ hrecord (hfree _ _ (.inr rfl) hrecord)

end Unique

end

end Machine

end GeneralParsing
