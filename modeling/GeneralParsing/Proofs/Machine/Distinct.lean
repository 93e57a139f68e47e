import GeneralParsing.Proofs.Machine.Prospects
import GeneralParsing.Proofs.Machine.Unique
import Mathlib

/-!
# Nothing is worked on or recorded twice

Every goal has one memo, alternatives of a choice are distinct, and no list of results is recorded
twice for one memo (`Distinct`). For the lists this is a count of prospects: as long as a list
has not been recorded there is at most one, and none is left afterwards (`Once`).
-/

namespace GeneralParsing

/-- A node **records** a list of results for a memo. -/
def Records (L : Ledger) (m : Machine) (memo : MemoId) (children : List NodeId) (node : NodeId) :
    Prop :=
  (∃ stop, L.results[node]? = some (memo, stop)) ∧
    ∃ tag span, m.nodes[node]? = some ⟨.sequence tag children, span⟩

/-- A list of results is recorded for a memo **once at most**. -/
structure Once (L : Ledger) (m : Machine) (waiting : List (NodeId × MemoId)) (memo : MemoId)
    (children : List NodeId) : Prop where
  prospects : m.prospects memo children waiting ≤ 1
  spent : ∀ node, Records L m memo children node → m.prospects memo children waiting = 0
  one : ∀ node node', Records L m memo children node → Records L m memo children node' →
    node = node'

/-- Memos, alternatives, roots and recorded lists are **distinct**. -/
structure Distinct (L : Ledger) (m : Machine) (waiting : List (NodeId × MemoId)) : Prop where
  table : ∀ (id : MemoId) expr, L.goals[id]? = some ⟨expr, false, m.position⟩ →
    m.table[expr]? = some id
  goal : ∀ (id id' : MemoId) goal, L.goals[id]? = some goal → L.goals[id']? = some goal → id = id'
  outer : ∀ (id : MemoId) expr start, L.goals[id]? = some ⟨expr, true, start⟩ →
    ∃ id' : MemoId, L.goals[id']? = some ⟨expr, false, start⟩
  alternatives : ∀ (node : NodeId) tag as span, m.nodes[node]? = some ⟨.choice tag as, span⟩ →
    as.Nodup
  roots : m.roots.Nodup
  once : ∀ memo children, Once L m waiting memo children

section

variable {g : Grammar} {w : List String} {L L' : Ledger} {m m' : Machine} {memo id : MemoId}
variable {waiting waiting' : List (NodeId × MemoId)} {children : List NodeId} {record : Memo}
variable {node : NodeId} {next : Continuation} {kind : Forest.Kind}

/-! ### Lists are recorded once -/

/-- A step uses up a prospect **for every record** that it makes. This is the one argument for
distinctness; the lemmas below say how many records and prospects there are. -/
theorem Once.step {n : Nat} {a : NodeId} (h : Once L m waiting memo children)
    (hle : m'.prospects memo children waiting' + n ≤ m.prospects memo children waiting)
    (hrecords : ∀ node, Records L' m' memo children node →
      Records L m memo children node ∨ node = a ∧ n = 1) :
    Once L' m' waiting' memo children where
  prospects := Nat.le_trans (Nat.le_of_add_right_le hle) h.prospects
  spent node hnode := by
    have hone := h.prospects
    rcases hrecords node hnode with hold | ⟨-, rfl⟩
    · have hspent := h.spent node hold
      omega
    · omega
  one node node' hnode hnode' := by
    rcases hrecords node hnode with hold | ⟨rfl, rfl⟩ <;>
      rcases hrecords node' hnode' with hold' | ⟨rfl, hn⟩
    · exact h.one node node' hold hold'
    · have hspent := h.spent node hold
      omega
    · have hspent := h.spent node' hold'
      omega
    · rfl

/-- Where **nothing new is recorded** prospects have to be no more. Most moves are of this kind. -/
theorem Once.mono (h : Once L m waiting memo children)
    (hle : m'.prospects memo children waiting' ≤ m.prospects memo children waiting)
    (hrecords : ∀ node, Records L' m' memo children node → Records L m memo children node) :
    Once L' m' waiting' memo children :=
  h.step (n := 0) (a := 0) hle fun node hnode => .inl (hrecords node hnode)

/-- Whether a kind of node is **this list** of results. -/
def Forest.Kind.lists (children : List NodeId) : Forest.Kind → Bool
  | .sequence _ nodes => nodes == children
  | _ => false

/-- How often a result of this kind of one memo records a list **for another**. -/
def recordCount (memo id : MemoId) (children : List NodeId) (kind : Forest.Kind) : Nat :=
  (id == memo && kind.lists children).toNat

theorem records_finishedWith (hsize : L.results.size = m.nodes.size)
    (hnode : Records (L.addResult id m.position) (m.finishedWith id record kind) memo children
      node) : Records L m memo children node ∨
        node = m.nodes.size ∧ recordCount memo id children kind = 1 := by
  obtain ⟨⟨stop, hresult⟩, tag, span, hn⟩ := hnode
  change (m.nodes.push _)[node]? = _ at hn
  rw [Array.getElem?_push] at hn
  rcases Ledger.getElem?_addResult.mp hresult with ⟨rfl, heq⟩ | hold
  · obtain ⟨rfl, -⟩ := Prod.mk.inj heq
    rw [if_pos hsize] at hn
    obtain ⟨rfl, -⟩ := Forest.Node.mk.inj (Option.some.inj hn)
    exact .inr ⟨hsize, by simp [recordCount, Forest.Kind.lists]⟩
  · have hlt := (Array.getElem?_eq_some_iff.mp hold).1
    rw [if_neg (Nat.ne_of_lt (Nat.lt_of_lt_of_eq hlt hsize))] at hn
    exact .inl ⟨⟨stop, hold⟩, tag, span, hn⟩

/-- **A result** records its list and uses up a prospect of it. -/
theorem Once.finishedWith {m₀ : Machine} (h : Once L m₀ waiting memo children)
    (hrecords : ∀ node, Records L m memo children node → Records L m₀ memo children node)
    (hsize : L.results.size = m.nodes.size) (hwait : Machine.WaitingOld m waiting)
    (hrecord : m.memos[id]? = some record)
    (hle : m.prospects memo children waiting + recordCount memo id children kind ≤
      m₀.prospects memo children waiting) :
    Once (L.addResult id m.position) (m.finishedWith id record kind) waiting memo children := by
  have hfinished : _ ≤ m.prospects memo children waiting :=
    Machine.prospects_finishedWith hwait hrecord kind
  refine h.step (n := recordCount memo id children kind) (a := m.nodes.size) (by omega)
    fun node hnode => ?_
  exact (records_finishedWith hsize hnode).imp_left (hrecords node)

/-- Results that are given the one they expect **expect the next one**, or are the whole list. So a
repetition or a sequence in the making expects each list of results at most once. -/
theorem expecting_next {done : List NodeId}
    (hkind : kind.lists children = true → (node :: done).reverse = children) :
    (expecting memo children (fun _ => true) id (node :: done)).toNat +
        recordCount memo id children kind ≤
          (expecting memo children (· == node) id done).toNat := by
  cases hnext : expecting memo children (fun _ => true) id (node :: done) with
  | true =>
    obtain ⟨hid, hprefix, hlt⟩ := prefix_of_expecting hnext
    have hlists : kind.lists children = false := by
      rw [Bool.eq_false_iff]
      intro hlists
      rw [← hkind hlists, List.length_reverse] at hlt
      exact absurd hlt (Nat.lt_irrefl _)
    rw [expecting_iff.mpr ⟨hid, hprefix⟩, recordCount, hlists, Bool.and_false]
    exact Nat.le_refl _
  | false =>
    rw [Bool.toNat_false, Nat.zero_add, recordCount]
    cases hcount : id == memo && kind.lists children with
    | false => exact Nat.zero_le _
    | true =>
      rw [Bool.and_eq_true, beq_iff_eq] at hcount
      rw [expecting_iff.mpr ⟨hcount.1, (hkind hcount.2) ▸ List.prefix_rfl⟩]

/-- With the result they expect **expectations are no more** than before. -/
theorem expecting_cons_le {done : List NodeId} :
    (expecting memo children (fun _ => true) id (node :: done)).toNat ≤
      (expecting memo children (· == node) id done).toNat := by
  have hkind : Forest.Kind.omitted.lists children = true → (node :: done).reverse = children :=
    fun hlists => by cases hlists
  exact Nat.le_of_add_right_le (expecting_next hkind)

/-- With no results yet **any list but the empty one** may be expected. -/
theorem expecting_nil_le (memo id : MemoId) (children : List NodeId) :
    (expecting memo children (fun _ => true) id []).toNat ≤
      if id = memo ∧ children ≠ [] then 1 else 0 := by
  cases hexpecting : expecting memo children (fun _ => true) id [] with
  | false => exact Nat.zero_le _
  | true =>
    obtain ⟨hid, -, hlt⟩ := prefix_of_expecting hexpecting
    rw [if_pos ⟨hid, List.ne_nil_of_length_pos hlt⟩]
    exact Nat.le_refl 1

/-! ### Steps keep it -/

namespace Distinct

open Machine

/-- What is distinct stays so where **the goals are the same**. -/
theorem congr (h : Distinct L m waiting) (hgoals : L'.goals = L.goals) (htable : m'.table = m.table)
    (hposition : m'.position = m.position)
    (halternatives : ∀ (node : NodeId) tag as span,
      m'.nodes[node]? = some ⟨.choice tag as, span⟩ → as.Nodup)
    (hroots : m'.roots.Nodup) (honce : ∀ memo children, Once L' m' waiting' memo children) :
    Distinct L' m' waiting' where
  table id expr := by
    rw [hgoals, hposition, htable]
    exact h.table id expr
  goal := hgoals ▸ h.goal
  outer := hgoals ▸ h.outer
  alternatives := halternatives
  roots := hroots
  once := honce

/-- With **a node more** alternatives stay distinct. -/
theorem alternatives_push (h : Distinct L m waiting)
    (hkind : ∀ tag as, kind = .choice tag as → as.Nodup) {span span' : Span} {tag : Option String}
    {as : List NodeId} (hnode : (m.nodes.push ⟨kind, span'⟩)[node]? = some ⟨.choice tag as, span⟩) :
    as.Nodup := by
  rcases getElem?_push_eq_some hnode with ⟨-, heq⟩ | hnode
  · exact hkind tag as (Forest.Node.mk.inj heq).1
  · exact h.alternatives node tag as span hnode

/-- **A result** of a resumption. -/
theorem finishedWith {task : Task} (h : Distinct L (m.withTasks [task]) waiting)
    (hsize : L.results.size = m.nodes.size) (hwait : WaitingOld m waiting)
    (tasks : List Task) (hrecord : m.memos[id]? = some record)
    (hkind : ∀ tag as, kind = .choice tag as → as.Nodup)
    (hle : ∀ memo children, (tasks.map (Task.prospects memo children)).sum +
      recordCount memo id children kind ≤ task.prospects memo children) :
    Distinct (L.addResult id m.position) ((m.withTasks tasks).finishedWith id record kind)
      waiting := by
  refine h.congr rfl rfl rfl (fun _ _ _ _ hnode => h.alternatives_push hkind hnode) h.roots
    fun memo children => ?_
  refine (h.once memo children).finishedWith (m := m.withTasks tasks) (fun _ hnode => hnode) hsize
    hwait hrecord ?_
  rw [prospects_withTasks, prospects_withTasks, List.map_singleton, List.sum_singleton]
  have hle := hle memo children
  omega

/-- Tasks **in the place of a task** that hold no more prospects. -/
theorem withTasks {task : Task} (h : Distinct L (m.withTasks [task]) waiting) (tasks : List Task)
    (hle : ∀ memo children, (tasks.map (Task.prospects memo children)).sum ≤
      task.prospects memo children) : Distinct L (m.withTasks tasks) waiting := by
  refine h.congr rfl rfl rfl h.alternatives h.roots fun memo children =>
    (h.once memo children).mono ?_ fun _ hnode => hnode
  rw [prospects_withTasks, prospects_withTasks, List.map_singleton, List.sum_singleton]
  exact Nat.add_le_add_right (hle memo children) _

/-- Tasks that **hold no prospects**. -/
theorem withIdleTasks (h : Distinct L m waiting) {tasks : List Task}
    (hzero : ∀ memo children, ∀ task ∈ tasks, task.prospects memo children = 0) :
    Distinct L (m.withTasks tasks) waiting := by
  refine h.congr rfl rfl rfl h.alternatives h.roots fun memo children =>
    (h.once memo children).mono (Nat.le_of_eq ?_) fun _ hnode => hnode
  rw [prospects_withTasks, List.sum_eq_zero_iff.mpr, Nat.zero_add]
  intro n hn
  obtain ⟨task, htask, rfl⟩ := List.mem_map.mp hn
  exact hzero memo children task htask

/-- **One more alternative** that was not there. Choices come to have distinct alternatives in this
way. -/
theorem joinedWith {existing : NodeId} {tag : Option String} {alternatives : List NodeId}
    {span : Span} (h : Distinct L m waiting)
    (hnode : m.nodes[existing]? = some ⟨.choice tag alternatives, span⟩)
    (hmem : node ∉ alternatives) :
    Distinct L (m.joinedWith existing tag alternatives span node) waiting := by
  refine h.congr rfl rfl rfl (fun n tag' as span' hn => ?_) h.roots fun memo children =>
    (h.once memo children).mono (Nat.le_of_eq (prospects_joinedWith ..)) ?_
  · change (m.nodes.setIfInBounds existing _)[n]? = _ at hn
    rcases getElem?_setIfInBounds_eq_some hn with ⟨-, heq⟩ | hn
    · cases heq
      refine List.Nodup.append (h.alternatives existing _ alternatives span hnode)
        (List.nodup_singleton node) ?_
      simpa using hmem
    · exact h.alternatives n tag' as span' hn
  · rintro n ⟨hresult, tag', span', hn⟩
    refine ⟨hresult, tag', span', ?_⟩
    change (m.nodes.setIfInBounds existing _)[n]? = _ at hn
    rcases getElem?_setIfInBounds_eq_some hn with ⟨-, heq⟩ | hn
    · cases heq
    · exact hn

theorem recordCount_eq_zero (hkind : ∀ tag nodes, kind ≠ .sequence tag nodes) :
    recordCount memo id children kind = 0 := by
  cases kind with
  | sequence tag nodes => exact absurd rfl (hkind tag nodes)
  | symbol | choice | omitted | lexical => simp [recordCount, Forest.Kind.lists]

theorem lists_sequence {tag : Option String} {nodes : List NodeId}
    (h : Forest.Kind.lists children (.sequence tag nodes) = true) : nodes = children := eq_of_beq h

/-- **A resumption** keeps everything distinct. Here the prospects are used up: a list is recorded
when its last result arrives. -/
theorem resume (hs : Sound g w L m) (h : Distinct L (m.withTasks [.resume node next]) m.matched)
    (hwait : WaitingOld m m.matched) (ho : Outcome g L m (.resume node next) L' m') :
    Distinct L' m' m'.matched := by
  have hnone : Distinct L (m.withTasks []) m.matched := h.withTasks [] fun _ _ => Nat.zero_le _
  -- results that list nothing use up no prospect
  have hquiet : ∀ {id : MemoId} {record : Memo} {kind : Forest.Kind},
      m.memos[id]? = some record → (∀ tag nodes, kind ≠ .sequence tag nodes) →
      (∀ tag as, kind = .choice tag as → as.Nodup) →
      Distinct (L.addResult id m.position) (m.finishedWith id record kind) m.matched := by
    intro id record kind hrecord hsequence hnodup
    refine h.finishedWith hs.results_size hwait [] hrecord hnodup fun memo children => ?_
    rw [recordCount_eq_zero hsequence]
    exact Nat.zero_le _
  cases ho with
  | accepted _ hroot =>
    refine hnone.congr rfl rfl rfl hnone.alternatives ?_ fun memo children =>
      (hnone.once memo children).mono (Nat.le_refl _) fun _ hnode => hnode
    exact List.Nodup.append h.roots (List.nodup_singleton _) (by simpa using hroot)
  | acceptedBefore | choiceSame | choiceKnown => exact hnone
  | @sequenceDone _ tag memo done record hrecord =>
    -- the list that is recorded is one that the continuation was expecting
    refine h.finishedWith hs.results_size hwait [] hrecord (by simp) fun memo' children => ?_
    refine Nat.le_trans (Nat.add_le_add_right (Nat.zero_le _) _) (expecting_next lists_sequence)
  | sequenceNext =>
    refine h.withTasks _ fun memo' children => ?_
    exact expecting_cons_le
  | choiceFirst hrecord =>
    refine hquiet hrecord (by simp) ?_
    rintro tag as heq
    cases heq
    exact List.nodup_singleton node
  | choiceJoined _ _ _ hnode hmem => exact hnone.joinedWith (m := m.withTasks []) hnode hmem
  | repetitionEarly =>
    refine h.withTasks _ fun memo' children => ?_
    split
    · exact expecting_cons_le
    · exact Nat.zero_le _
  | repetitionLate hnode hmin hrecord =>
    refine h.finishedWith hs.results_size hwait _ hrecord (by simp) fun memo' children => ?_
    refine Nat.le_trans (Nat.add_le_add_right ?_ _) (expecting_next lists_sequence)
    split
    · exact Nat.le_refl _
    · exact Nat.zero_le _
  | omitted hrecord => exact hquiet hrecord (by simp) (by simp)
  | lexical hrecord => exact hquiet hrecord (by simp) (by simp)

/-- A memo for a goal that has **none yet**, or for the inner goal of one that has. The new memo may
expect any list, since it has had none. -/
theorem addGoal (h : Distinct L m waiting) {goal : Goal}
    (hnew : ∀ id : MemoId, L.goals[id]? ≠ some goal)
    (houter : goal.inner = true →
      ∃ id : MemoId, L.goals[id]? = some ⟨goal.expr, false, goal.start⟩)
    (htable : ∀ (id : MemoId) expr, (L.addGoal goal).goals[id]? = some ⟨expr, false, m'.position⟩ →
      m'.table[expr]? = some id)
    (halternatives : ∀ (node : NodeId) tag as span,
      m'.nodes[node]? = some ⟨.choice tag as, span⟩ → as.Nodup) (hroots : m'.roots.Nodup)
    (honce : ∀ memo children, Once (L.addGoal goal) m' waiting' memo children) :
    Distinct (L.addGoal goal) m' waiting' where
  table := htable
  goal id id' goal' hid hid' := by
    change (L.goals.push goal)[id]? = _ at hid
    change (L.goals.push goal)[id']? = _ at hid'
    rw [Array.getElem?_push] at hid hid'
    split at hid <;> split at hid'
    · next heq heq' => rw [heq, heq']
    · exact absurd (Option.some.inj hid ▸ hid') (hnew id')
    · exact absurd (Option.some.inj hid' ▸ hid) (hnew id)
    · exact h.goal id id' goal' hid hid'
  outer id expr start hid := by
    have hgrows := L.grows_addGoal goal
    change (L.goals.push goal)[id]? = _ at hid
    rcases getElem?_push_eq_some hid with ⟨-, rfl⟩ | hid
    · exact (houter rfl).imp fun _ hgoal => hgrows.goal hgoal
    · exact (h.outer id expr start hid).imp fun _ hgoal => hgrows.goal hgoal
  alternatives := halternatives
  roots := hroots
  once := honce

/-- A memo that is **opened** for an expression that has none here. -/
theorem opened {expr : ExprId} (hs : Sound g w L m)
    (h : Distinct L (m.withTasks [.derive next expr]) waiting) (htable : m.table[expr]? = none) :
    Distinct (L.addGoal ⟨expr, false, m.position⟩) (m.opened next expr) waiting := by
  refine h.addGoal (fun id hid => ?_) (by simp) (fun id expr' hid => ?_) h.alternatives
    h.roots fun memo children => ?_
  · cases htable.symm.trans (h.table id expr hid)
  · change (m.table.insert expr m.memos.size)[expr']? = some id
    change (L.goals.push _)[id]? = _ at hid
    rw [Array.getElem?_push] at hid
    rw [Std.HashMap.getElem?_insert]
    split at hid
    · next heq =>
      obtain ⟨rfl, -, -⟩ := Goal.mk.inj (Option.some.inj hid)
      rw [if_pos (beq_self_eq_true expr), heq, hs.goals_size]
    · have hold : m.table[expr']? = some id := h.table id expr' hid
      rw [if_neg, hold]
      intro heq
      rw [eq_of_beq heq, hold] at htable
      cases htable
  · refine (h.once memo children).mono ?_ fun _ hnode => hnode
    have hadd : (m.opened next expr).prospects memo children waiting = _ :=
      prospects_addMemo (m := m) next
    rw [hadd, prospects_withTasks, List.map_singleton, List.sum_singleton, Nat.add_comm]
    exact Nat.add_le_add_right (Continuation.expects_mono fun _ _ => rfl) _

/-- The **inner memo** of a goal that has none. -/
theorem openedInner {goal : Goal} (hs : Sound g w L m) (h : Distinct L m waiting)
    (hgoal : L.goals[id]? = some goal) (houter : goal.inner = false)
    (hnew : ∀ id : MemoId, L.goals[id]? ≠ some { goal with inner := true }) (tasks : List Task)
    (htasks : ∀ memo children, (tasks.map (Task.prospects memo children)).sum ≤
      if m.memos.size = memo ∧ children ≠ [] then 1 else 0) :
    Distinct (L.addGoal { goal with inner := true })
      ((m.addMemo (.choice none id)).1.withTasks tasks) waiting := by
  refine h.addGoal hnew (fun _ => ⟨id, ?_⟩) (fun id' expr hid => ?_)
    h.alternatives h.roots fun memo children => ?_
  · rw [hgoal]
    cases goal
    cases houter
    rfl
  · change (L.goals.push _)[id']? = _ at hid
    rcases getElem?_push_eq_some hid with ⟨-, heq⟩ | hid
    · cases heq
    · exact h.table id' expr hid
  · have hadd : ((m.addMemo (.choice none id)).1.withTasks tasks).prospects memo children waiting =
        (tasks.map (Task.prospects memo children)).sum + m.prospects memo children waiting := by
      rw [prospects_withTasks, prospects_addMemo]
      rfl
    have htask := htasks memo children
    by_cases hmemo : m.memos.size = memo
    · -- nothing has been recorded for the new memo
      have hnone : ∀ node, ¬ Records L m memo children node := by
        rintro node ⟨⟨stop, hresult⟩, -⟩
        exact absurd (hs.lt_of_results hresult)
          (by rw [← hmemo, hs.goals_size]; exact Nat.lt_irrefl _)
      have hzero : m.prospects memo children waiting = 0 :=
        hs.prospects_eq_zero (by rw [← hmemo, hs.goals_size])
      refine ⟨?_, fun node hnode => absurd hnode (hnone node),
        fun node _ hnode _ => absurd hnode (hnone node)⟩
      rw [hadd, hzero]
      split at htask <;> omega
    · rw [if_neg fun hand => hmemo hand.1] at htask
      refine (h.once memo children).mono (by omega) fun _ hnode => hnode

/-- The **empty list** recorded for a memo that has no results. -/
theorem finishedEmpty (h : Distinct L m waiting) (hsize : L.results.size = m.nodes.size)
    (hwait : WaitingOld m waiting)
    (hnone : ∀ (n : NodeId) stop, L.results[n]? ≠ some (id, stop))
    (hrecord : m.memos[id]? = some record) (tag : Option String) :
    Distinct (L.addResult id m.position) (m.finishedWith id record (.sequence tag [])) waiting := by
  refine h.congr rfl rfl rfl (fun _ _ _ _ hnode => h.alternatives_push (by simp) hnode) h.roots
    fun memo children => ?_
  have hfinished : _ ≤ m.prospects memo children waiting :=
    prospects_finishedWith hwait hrecord (.sequence tag [])
  by_cases hnew : id = memo ∧ children = []
  · obtain ⟨rfl, rfl⟩ := hnew
    have hone : ∀ node, Records (L.addResult id m.position)
        (m.finishedWith id record (.sequence tag [])) id [] node → node = m.nodes.size := by
      intro node hnode
      rcases records_finishedWith hsize hnode with ⟨⟨stop, hresult⟩, -⟩ | ⟨heq, -⟩
      · exact absurd hresult (hnone node stop)
      · exact heq
    refine ⟨by rw [prospects_nil]; exact Nat.zero_le 1, fun _ _ => prospects_nil, ?_⟩
    exact fun node node' hnode hnode' => (hone node hnode).trans (hone node' hnode').symm
  · refine (h.once memo children).mono hfinished fun node hnode => ?_
    refine (records_finishedWith hsize hnode).resolve_right fun hcount => hnew ?_
    have hcount := hcount.2
    rw [recordCount] at hcount
    have htrue : (id == memo && Forest.Kind.lists children (.sequence tag [])) = true := by
      cases hb : (id == memo && Forest.Kind.lists children (.sequence tag [])) with
      | true => rfl
      | false => simp [hb] at hcount
    rw [Bool.and_eq_true, beq_iff_eq] at htrue
    exact ⟨htrue.1, (lists_sequence htrue.2).symm⟩

/-- **A terminal that matches** is no list, and no choice. -/
theorem matchedWith (h : Distinct L m waiting) (hsize : L.results.size = m.nodes.size)
    {waiting' : List (NodeId × MemoId)} {id : MemoId} {symbol : String}
    (hprospects : ∀ memo children, (m.matchedWith id symbol).prospects memo children waiting' =
      m.prospects memo children waiting) :
    Distinct (L.addResult id (m.position + 1)) (m.matchedWith id symbol) waiting' := by
  refine h.congr rfl rfl rfl (fun _ _ _ _ hnode => h.alternatives_push (by simp) hnode) h.roots
    fun memo children => (h.once memo children).mono (Nat.le_of_eq (hprospects memo children)) ?_
  rintro node ⟨⟨stop, hresult⟩, tag, span, hnode⟩
  change (m.nodes.push _)[node]? = _ at hnode
  rw [Array.getElem?_push] at hnode
  split at hnode
  · cases hnode
  · next hne =>
    refine ⟨⟨stop, ?_⟩, tag, span, hnode⟩
    rcases Ledger.getElem?_addResult.mp hresult with ⟨heq, -⟩ | hold
    · exact absurd (heq.trans hsize) hne
    · exact hold

/-- **An expansion** keeps everything distinct. -/
theorem expansion {expr : ExprId} {e : Expr} (hs : Sound g w L m) (h : Distinct L m m.matched)
    (hwait : WaitingOld m m.matched) (hgoal : L.goals[id]? = some ⟨expr, false, m.position⟩)
    (hresults : ∀ (n : NodeId) stop, L.results[n]? ≠ some (id, stop))
    (hinner : ∀ id : MemoId, L.goals[id]? ≠ some ⟨expr, true, m.position⟩)
    (hexp : Expansion L m id e L' m') : Distinct L' m' m'.matched := by
  cases hexp with
  | empty hrecord => exact h.finishedEmpty hs.results_size hwait hresults hrecord _
  | sequence hgoal' =>
    cases hgoal.symm.trans hgoal'
    refine h.openedInner hs hgoal rfl hinner _ fun memo children => ?_
    rw [List.map_singleton, List.sum_singleton]
    exact expecting_nil_le memo m.memos.size children
  | choice =>
    refine h.withIdleTasks fun memo children task htask => ?_
    obtain ⟨child, -, rfl⟩ := List.mem_map.mp htask
    rfl
  | @repetition tag child min max _ hgoal' hmin =>
    cases hgoal.symm.trans hgoal'
    refine h.openedInner hs hgoal rfl hinner _ fun memo children => ?_
    split
    · exact Nat.zero_le _
    · rw [List.map_singleton, List.sum_singleton]
      exact expecting_nil_le memo m.memos.size children
  | @repetitionEmpty tag child max _ hgoal' =>
    cases hgoal.symm.trans hgoal'
    have hopened := h.openedInner hs hgoal rfl hinner (if max = some 0 then []
        else [.derive (.repetition tag m.memos.size [] child 1 0 max) child])
          fun memo children => by
      split
      · exact Nat.zero_le _
      · rw [List.map_singleton, List.sum_singleton]
        exact expecting_nil_le memo m.memos.size children
    have hnone : ∀ (n : NodeId) stop, L.results[n]? ≠ some (m.memos.size, stop) :=
      fun n stop hresult => absurd hs.goals_size (Nat.ne_of_gt (hs.lt_of_results hresult))
    exact hopened.finishedEmpty hs.results_size hwait hnone Array.getElem?_push_size tag
  | omitted | lexical =>
    refine h.withIdleTasks fun memo children task htask => ?_
    obtain rfl := List.mem_singleton.mp htask
    rfl
  | unmatched => exact h
  | matched => exact h.matchedWith hs.results_size fun _ _ => prospects_matchedWith id _

/-- **Who registers** is resumed with a result of before, if there is one. That a result is taken
twice is ruled out by the table, which has one memo for an expression here. -/
theorem registered {expr : ExprId} {memo : MemoId} (hs : Sound g w L m)
    (h : Distinct L (m.withTasks [.derive next expr]) m.matched)
    (hlater : ∀ n id, (n, id) ∈ m.matched → L.results[n]? = some (id, m.position + 1))
    (htable : m.table[expr]? = some memo) (hrecord : m.memos[memo]? = some record) :
    Distinct L (m.registeredWith memo record next) m.matched := by
  refine h.congr rfl rfl rfl h.alternatives h.roots fun memo' children =>
    (h.once memo' children).mono ?_ fun _ hnode => hnode
  rw [prospects_withTasks, List.map_singleton, List.sum_singleton, Nat.add_comm]
  refine prospects_registeredWith hrecord (fun node hnode => ?_) next
  have hresult := (hs.soundMemo hrecord (hs.table expr memo htable)).result_of_resultAt hnode
  rw [Bool.eq_false_iff, Ne, pending_iff]
  rintro (hle | hmem)
  · have hlt := (Array.getElem?_eq_some_iff.mp hresult).1
    rw [hs.results_size] at hlt
    exact absurd hlt (Nat.not_lt_of_le hle)
  · obtain ⟨⟨n, id⟩, hpair, rfl⟩ := List.mem_map.mp hmem
    have hstop := (Prod.mk.inj (Option.some.inj (hresult.symm.trans (hlater n id hpair)))).2
    exact absurd hstop (Nat.ne_of_lt (Nat.lt_succ_self _))

/-- **A derivation** keeps everything distinct. -/
theorem derive {expr : ExprId} (hs : Sound g w L m)
    (h : Distinct L (m.withTasks [.derive next expr]) m.matched) (hwait : WaitingOld m m.matched)
    (hlater : ∀ n id, (n, id) ∈ m.matched → L.results[n]? = some (id, m.position + 1))
    (ht : SoundTask g L m.position (.derive next expr))
    (ho : Outcome g L m (.derive next expr) L' m') : Distinct L' m' m'.matched := by
  cases ht with
  | derive ha =>
  cases ho with
  | registered htable hrecord => exact h.registered hs hlater htable hrecord
  | @opened _ _ e _ _ htable he hexp =>
    have hs' := hs.opened ⟨e, he⟩ ha
    have hopened := h.opened hs htable
    have hnew : ∀ id : MemoId, L.goals[id]? ≠ some ⟨expr, false, m.position⟩ := by
      intro id hid
      cases htable.symm.trans (h.table id expr hid)
    have hgoal := hs.goals_addGoal ⟨expr, false, m.position⟩
    refine hopened.expansion hs' hwait hgoal (fun n stop hresult => ?_) (fun id hid => ?_) hexp
    · exact absurd hs.goals_size (Nat.ne_of_gt (hs.lt_of_results hresult))
    · change (L.goals.push _)[id]? = _ at hid
      rw [Array.getElem?_push] at hid
      split at hid
      · cases hid
      · obtain ⟨id', hid'⟩ := h.outer id expr m.position hid
        exact hnew id' hid'

/-- **Recording** a result that waits keeps everything distinct. -/
theorem recorded (h : Distinct L m ((node, id) :: waiting))
    (hwait : WaitingOld m ((node, id) :: waiting)) (hnot : node ∉ waiting.map Prod.fst)
    (hrecord : m.memos[id]? = some record) :
    Distinct L (m.completedWith id record node) waiting :=
  h.congr rfl rfl rfl h.alternatives h.roots fun memo children =>
    (h.once memo children).mono (prospects_record hwait hnot hrecord) fun _ hnode => hnode

end Distinct

end

end GeneralParsing
