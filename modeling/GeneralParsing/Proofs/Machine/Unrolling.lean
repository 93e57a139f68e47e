import GeneralParsing.Proofs.Machine.Twins

/-!
# Runs of a grammar that is unrolled

The machine of a grammar with a repetition of an exact number of times and that of the grammar where
it is unrolled go in step. Before the last iteration a repetition goes on and does not finish, and
after it it finishes and does not go on, whether it was empty or not; that is what a sequence does
with its children. Only a repetition of zero times takes a step more than a sequence
(`Machine.Answer.next`). So twins end as twins (`Machine.keepsStep_isTwin`).
-/

namespace GeneralParsing

namespace Machine

variable {g h : Grammar} {w : List String} {slot : ExprId} {r : Repeat} {P : Pairs}
variable {L L' L₁ : Ledger} {m m' m₁ m₁' : Machine} {a b : MemoId} {c d : NodeId} {memo : Memo}

/-- A machine **is a twin** of another. -/
def IsTwin (r : Repeat) (m m' : Machine) : Prop := ∃ P, Twins r P m m'

theorem IsTwin.position_eq (hm : IsTwin r m m') : m'.position = m.position :=
  hm.elim fun _ hm => hm.position

/-- Finishing memos that go together **succeeds** where one is there. -/
theorem Twins.exists_finish (hm : Twins r P m m') (hab : P.memos a b)
    (hmemo : m.memos[a]? = some memo) {kind kind' : Forest.Kind}
    (hkind : kind.Twin P ⟨memo.start, m.position⟩ kind') :
    ∃ m₁', m'.finish b kind' = .ok m₁' ∧ IsTwin r (m.finishedWith a memo kind) m₁' := by
  obtain ⟨memo₁, memo', hmemo₁, hmemo', htwin⟩ := hm.memo a b hab
  obtain rfl := Option.some.inj (hmemo.symm.trans hmemo₁)
  exact ⟨_, finish_eq hmemo' kind', _, hm.finishedWith hab htwin hkind⟩

/-! ### Expanding -/

/-- A repetition **begins** in both machines, unless it may not. With no iteration allowed neither
of them asks for any. -/
theorem Twins.begun (hm : Twins r P m m') (hab : P.memos a b) (tag : Option String)
    (child : ExprId) (min : Nat) (max : Option Nat) :
    Twins r (P.withMemos m.memos.size m'.memos.size)
      ((m.addMemo (.choice none a)).1.withTasks (if max = some 0 then []
        else [.derive (.repetition tag m.memos.size [] child 1 min max) child]))
      ((m'.addMemo (.choice none b)).1.withTasks (if max = some 0 then []
        else [.derive (.repetition tag m'.memos.size [] child 1 min max) child])) := by
  refine (hm.addMemo (.choice hab)).withTasks ?_
  split
  · exact .nil
  · exact .cons (.derive (.repetition (.inr ⟨rfl, rfl⟩) .nil)) .nil

/-- **Expanding** an expression that both grammars have. These are all but the repetition that has
been unrolled. -/
theorem Twins.expand {e : Expr} (hm : Twins r P m m') (hab : P.memos a b)
    (hexp : Expansion L m a e L' m₁) : ∃ m₁', m'.expand b e = .ok m₁' ∧ IsTwin r m₁ m₁' := by
  cases hexp with
  | empty hrecord => exact hm.exists_finish hab hrecord (.sequence .nil)
  | sequence =>
    exact ⟨_, rfl, _, (hm.addMemo (.choice hab)).withTasks
      (.cons (.derive (.sequence (.inr ⟨rfl, rfl⟩) .nil)) .nil)⟩
  | choice =>
    refine ⟨_, rfl, _, hm.withTasks ?_⟩
    rw [List.forall₂_map_left_iff, List.forall₂_map_right_iff, List.forall₂_same]
    exact fun _ _ => .derive (.choice hab)
  | repetition hgoal hmin =>
    rw [expand_rep]
    exact ⟨_, if_neg hmin, _, hm.begun hab _ _ _ _⟩
  | repetitionEmpty hgoal =>
    rw [expand_rep]
    dsimp only
    rw [if_pos rfl]
    exact (hm.begun hab _ _ _ _).exists_finish (.inr ⟨rfl, rfl⟩) Array.getElem?_push_size
      (.sequence .nil)
  | omitted => exact ⟨_, rfl, _, hm.withTasks (.cons (.derive (.omitted hab)) .nil)⟩
  | lexical => exact ⟨_, rfl, _, hm.withTasks (.cons (.derive (.lexical hab)) .nil)⟩
  | unmatched hterminal hmatch =>
    refine ⟨m', ?_, _, hm⟩
    rw [expand_terminal _ _ hterminal, hm.lookahead]
    cases hlook : m.lookahead with
    | none => rfl
    | some symbol => exact if_neg (by simp [hmatch symbol hlook])
  | @matched _ symbol hlook hmatch =>
    refine ⟨_, ?_, _, hm.matchedWith hab symbol⟩
    rw [expand_terminal _ _ (Expr.isTerminal_of_accepts hmatch), hm.lookahead, hlook]
    exact if_pos hmatch

/-- **Expanding** a repetition of an exact number of times, and what it is unrolled to. One goes on
by counting and the other by its list of parts; so far no part is done. -/
theorem Twins.expand_exact (hm : Twins r P m m') (hab : P.memos a b) (hr : r.times ≠ 0)
    (hexp : Expansion L m a r.exact L' m₁) :
    ∃ m₁', m'.expand b r.unrolled = .ok m₁' ∧ IsTwin r m₁ m₁' := by
  obtain ⟨tag, child, _ | n⟩ := r
  · exact absurd rfl hr
  rw [Repeat.exact] at hexp
  cases hexp with
  | repetition =>
    refine ⟨_, rfl, _, (hm.addMemo (.choice hab)).withTasks (.cons (.derive ?_) .nil)⟩
    exact .unrolled (.inr ⟨rfl, rfl⟩) .nil (Nat.le_add_left 1 n)
  | unmatched hterminal => cases hterminal
  | matched _ hmatch => cases hmatch

/-- How the machine of the unrolled grammar **answers** what the other machine comes to: it comes to
a twin of it, or of what comes of it with the next task. -/
inductive Answer (g : Grammar) (r : Repeat) (m₁ m₁' : Machine) : Prop
  | now (htwin : IsTwin r m₁ m₁')
  | next {task : Task} {tasks : List Task} {m₂ : Machine} (htasks : m₁.tasks = task :: tasks)
      (hstep : Machine.step g { m₁ with tasks } task = .ok m₂) (htwin : IsTwin r m₂ m₁')

/-- The machine with a memo for lists of iterations that hands on to another, and with **the empty
list** for its result. -/
def withEmptyList (m : Machine) (id : MemoId) (tag : Option String) : Machine :=
  { ((m.addMemo (.choice none id)).1.addNode (.sequence tag []) ⟨m.position, m.position⟩).1 with
    memos := (m.memos.push ⟨m.position, [.choice none id], none⟩).setIfInBounds m.memos.size
      ⟨m.position, [.choice none id], some (m.position, m.nodes.size)⟩ }

/-- The memo for lists and the empty list **go together with none**. -/
theorem Twins.withEmptyList (hm : Twins r P m m') (hr : r.times = 0) (id : MemoId)
    (tag : Option String) :
    Twins r (P.withHollow m.nodes.size tag ⟨m.position, m.position⟩) (m.withEmptyList id tag) m' :=
  ((hm.addMemo_alone hr (.choice none id)).addNode_alone hr tag
    ⟨m.position, m.position⟩).replaceMemo_alone hr
      (fun _ hy => Nat.lt_irrefl _ (hm.memos_lt hy).1) _

theorem memos_withEmptyList {id : MemoId} {memo : Memo} (hmemo : m.memos[id]? = some memo)
    (tag : Option String) : (m.withEmptyList id tag).memos[id]? = some memo := by
  have hlt : id < m.memos.size := (Array.getElem?_eq_some_iff.mp hmemo).1
  rw [Machine.withEmptyList, Array.getElem?_setIfInBounds_ne (Nat.ne_of_gt hlt)]
  exact getElem?_push_of_some hmemo

/-- **Expanding** a repetition of zero times, and the sequence without children. The repetition has
the empty list for the result of a memo of its own, and hands on a choice of it in the next step. -/
theorem Twins.expand_never (hm : Twins r P m m') (hab : P.memos a b) (hr : r.times = 0)
    {next : Continuation} (hmemo : m.memos[a]? = some ⟨m.position, [next], none⟩)
    (hexp : Expansion L m a r.exact L' m₁) :
    ∃ m₁', m'.expand b r.unrolled = .ok m₁' ∧ Answer g r m₁ m₁' := by
  obtain ⟨tag, child, times⟩ := r
  obtain rfl : times = 0 := hr
  rw [Repeat.exact] at hexp
  obtain ⟨memo, memo', hmemo₁, hmemo', htwin⟩ := hm.memo a b hab
  obtain rfl := Option.some.inj (hmemo.symm.trans hmemo₁)
  cases hexp with
  | repetition _ hmin => exact absurd rfl hmin
  | unmatched hterminal => cases hterminal
  | matched _ hmatch => cases hmatch
  | repetitionEmpty =>
    have hstep : Machine.step g (m.withEmptyList a tag) (.resume m.nodes.size (.choice none a)) =
        .ok ((m.withEmptyList a tag).finishedWith a ⟨m.position, [next], none⟩
          (.choice none [m.nodes.size])) :=
      Machine.resume_choice (memos_withEmptyList hmemo tag) _ none
    have hempty := hm.withEmptyList rfl a tag
    have hmono := htwin.mono (P.grows_withHollow m.nodes.size tag ⟨m.position, m.position⟩)
    exact ⟨_, finish_eq hmemo' _, .next rfl hstep
      ⟨_, hempty.finishedWith hab hmono (.hollow (.inr ⟨rfl, rfl, rfl⟩))⟩⟩

/-! ### Resuming -/

/-- Choices that go together have **alternatives that do**. Choices come from choices, so the
pairing never crosses from one kind of node to another. -/
theorem Twins.alternatives (hm : Twins r P m m') (hcd : P.nodes c d) {tag tag' : Option String}
    {as bs : List NodeId} {span span' : Span} (hc : m.nodes[c]? = some ⟨.choice tag as, span⟩)
    (hd : m'.nodes[d]? = some ⟨.choice tag' bs, span'⟩) :
    tag' = tag ∧ span' = span ∧ List.Forall₂ P.nodes as bs := by
  obtain ⟨kind, kind', span₁, hnode, hnode', htwin⟩ := hm.node c d hcd
  obtain ⟨rfl, rfl⟩ := Forest.Node.mk.inj (Option.some.inj (hc.symm.trans hnode))
  obtain ⟨rfl, rfl⟩ := Forest.Node.mk.inj (Option.some.inj (hd.symm.trans hnode'))
  cases htwin with
  | choice hs => exact ⟨rfl, rfl, hs⟩

/-- What **an alternative** comes to in both machines, where results of the second are choices. If
both memos have a result here the new alternative joins it, and if not it is the first. -/
theorem Twins.resume_choice (hm : Twins r P m m') {tag : Option String} (hab : P.memos a b)
    (hcd : P.nodes c d) (hchoice : ∀ memo' existing, m'.memos[b]? = some memo' →
      memo'.resultAt m'.position = some existing →
        ∃ alternatives span, m'.nodes[existing]? = some ⟨.choice tag alternatives, span⟩)
    (ho : Outcome g L m (.resume c (.choice tag a)) L' m₁) :
    ∃ m₁', m'.resume d (.choice tag b) = .ok m₁' ∧ IsTwin r m₁ m₁' := by
  obtain ⟨memo, memo', hmemo, hmemo', htwin⟩ := hm.memo a b hab
  have hresults := htwin.resultAt m.position
  rw [Machine.resume_choice hmemo', hm.position]
  cases ho with
  -- neither memo has a result here
  | choiceFirst hrecord hresult =>
    obtain rfl := Option.some.inj (hmemo.symm.trans hrecord)
    rw [hresult] at hresults
    rw [Pairs.eq_none_of_rel hresults]
    exact ⟨_, rfl, _, hm.finishedWith hab htwin (.choice (.cons hcd .nil))⟩
  -- the result is the alternative itself, in both
  | choiceSame hrecord hresult =>
    obtain rfl := Option.some.inj (hmemo.symm.trans hrecord)
    rw [hresult] at hresults
    obtain ⟨d', hd', hcd'⟩ := Pairs.exists_of_rel hresults
    rw [hd']
    exact ⟨m', if_pos (hm.nodes.2 hcd' hcd), _, hm⟩
  -- the alternative is known, in both
  | @choiceKnown _ existing _ _ _ _ as span hrecord hresult hnode hmem =>
    obtain rfl := Option.some.inj (hmemo.symm.trans hrecord)
    rw [hresult] at hresults
    obtain ⟨existing', hresult', hpair⟩ := Pairs.exists_of_rel hresults
    obtain ⟨bs, span', hnode'⟩ := hchoice memo' existing' hmemo' (hm.position ▸ hresult')
    obtain ⟨rfl, rfl, hs⟩ := hm.alternatives hpair hnode hnode'
    have hmem' : d ∈ bs := (List.rel_mem hm.nodes hcd hs).mp hmem
    refine ⟨m', ?_, _, hm⟩
    rw [hresult']
    dsimp only
    rw [join, hnode']
    simp [hmem']
  | @choiceJoined _ existing _ _ _ _ as span hrecord hresult hne hnode hmem =>
    obtain rfl := Option.some.inj (hmemo.symm.trans hrecord)
    rw [hresult] at hresults
    obtain ⟨existing', hresult', hpair⟩ := Pairs.exists_of_rel hresults
    obtain ⟨bs, span', hnode'⟩ := hchoice memo' existing' hmemo' (hm.position ▸ hresult')
    obtain ⟨rfl, rfl, hs⟩ := hm.alternatives hpair hnode hnode'
    have hmem' : d ∉ bs := mt (List.rel_mem hm.nodes hcd hs).mpr hmem
    have hne' : existing' ≠ d := fun heq => hne (hm.nodes.1 (heq ▸ hpair) hcd)
    refine ⟨_, ?_, _, hm.joinedWith hpair hs hcd⟩
    rw [hresult']
    dsimp only
    rw [if_neg hne', join, hnode']
    exact if_neg (by simpa using hmem')

/-- What **an iteration** of a repetition that both grammars have comes to. Whether it goes on
depends on the count and on the stretch, which are the same. -/
theorem Twins.resume_repetition (hm : Twins r P m m') {tag : Option String}
    {done done' : List NodeId} {child : ExprId} {count min : Nat} {max : Option Nat}
    (hab : P.memos a b)
    (hdone : List.Forall₂ P.nodes done done') (hcd : P.nodes c d)
    (ho : Outcome g L m (.resume c (.repetition tag a done child count min max)) L' m₁) :
    ∃ m₁', m'.resume d (.repetition tag b done' child count min max) = .ok m₁' ∧
      IsTwin r m₁ m₁' := by
  have hall : List.Forall₂ P.nodes (c :: done) (d :: done') := .cons hcd hdone
  have hgoes : ∀ {goesOn : Bool}, Twins r P
      (m.withTasks (if goesOn then
        [.derive (.repetition tag a (c :: done) child (count + 1) min max) child] else []))
      (m'.withTasks (if goesOn then
        [.derive (.repetition tag b (d :: done') child (count + 1) min max) child] else [])) := by
    intro goesOn
    refine hm.withTasks ?_
    cases goesOn with
    | false => exact .nil
    | true => exact .cons (.derive (.repetition hab hall)) .nil
  -- both see the same span, so both see an empty iteration or neither
  obtain ⟨kind, kind', span, hnode, hnode', -⟩ := hm.node c d hcd
  cases ho with
  | repetitionEarly _ hmin =>
    exact ⟨_, resume_repetition_early hnode' _ _ _ _ _ hmin, _, hgoes⟩
  | repetitionLate hn hmin hrecord =>
    obtain rfl := Option.some.inj (hnode.symm.trans hn)
    obtain ⟨memo, memo', hmemo, hmemo', htwin⟩ := hm.memo a b hab
    obtain rfl := Option.some.inj (hmemo.symm.trans hrecord)
    rw [Machine.resume_repetition hmemo' hnode']
    dsimp only
    rw [if_pos hmin]
    exact ⟨_, rfl, _, hgoes.finishedWith hab htwin (.sequence (List.rel_reverse hall))⟩

/-- What **an iteration that the other grammar has unrolled** comes to. A repetition of an exact
number does not stop early at an empty part, and a sequence does not either. -/
theorem Twins.resume_unrolled (hm : Twins r P m m') {done done' : List NodeId} {count : Nat}
    (hab : P.memos a b) (hdone : List.Forall₂ P.nodes done done') (hcount : count ≤ r.times)
    (hcd : P.nodes c d) (ho : Outcome g L m
      (.resume c (.repetition r.tag a done r.child count r.times (some r.times))) L' m₁) :
    ∃ m₁', m'.resume d (.sequence r.tag b done' (List.replicate (r.times - count) r.child)) =
      .ok m₁' ∧ IsTwin r m₁ m₁' := by
  have hall : List.Forall₂ P.nodes (c :: done) (d :: done') := .cons hcd hdone
  cases ho with
  | repetitionEarly _ hlt =>
    have hrest : r.times - count = r.times - (count + 1) + 1 := by omega
    rw [hrest, List.replicate_succ, if_pos (by simpa using hlt)]
    exact ⟨_, rfl, _, hm.withTasks (.cons (.derive (.unrolled hab hall hlt)) .nil)⟩
  | repetitionLate _ hle hrecord =>
    obtain rfl : count = r.times := Nat.le_antisymm hcount hle
    rw [Nat.sub_self, List.replicate_zero, if_neg (by simp)]
    exact hm.exists_finish hab hrecord (.sequence (List.rel_reverse hall))

/-- **A result that is handed on** in both machines. The continuations are of the same kind, but
where a repetition has been unrolled. -/
theorem Twins.resume {next next' : Continuation} (hm : Twins r P m m') (hcd : P.nodes c d)
    (hnext : next.Twin r P next') (hs : Sound h w L' m') {goal : Goal} (ha : Awaits h L' next' goal)
    (ho : Outcome g L m (.resume c next) L₁ m₁) :
    ∃ m₁', m'.resume d next' = .ok m₁' ∧ IsTwin r m₁ m₁' := by
  cases hnext with
  | accept =>
    have hroots : c ∈ m.roots ↔ d ∈ m'.roots := List.rel_mem hm.nodes hcd hm.roots
    rw [resume_accept, hm.lookahead]
    cases ho with
    | accepted hlook hroot =>
      rw [if_pos ⟨hlook, mt hroots.mpr hroot⟩]
      exact ⟨_, rfl, _, hm.withRoot hcd⟩
    | acceptedBefore hbefore =>
      rw [if_neg fun hroot => hroot.2 (hroots.mp (hbefore hroot.1))]
      exact ⟨_, rfl, _, hm⟩
  | sequence hab hdone =>
    cases ho with
    | sequenceDone hrecord =>
      exact hm.exists_finish hab hrecord (.sequence (List.rel_reverse (.cons hcd hdone)))
    | sequenceNext =>
      exact ⟨_, rfl, _, hm.withTasks (.cons (.derive (.sequence hab (.cons hcd hdone))) .nil)⟩
  | unrolled hab hdone hcount => exact hm.resume_unrolled hab hdone hcount hcd ho
  | choice hab =>
    refine hm.resume_choice hab hcd (fun memo' existing hmemo' hresult => ?_) ho
    obtain ⟨goal', hsound⟩ := hs.memo _ _ hmemo'
    exact hs.choice_of_awaits ha (hsound.result_of_resultAt hresult)
  | repetition hab hdone => exact hm.resume_repetition hab hdone hcd ho
  | omitted hab =>
    cases ho with
    | omitted hrecord => exact hm.exists_finish hab hrecord .omitted
  | lexical hab =>
    cases ho with
    | lexical hrecord => exact hm.exists_finish hab hrecord (.lexical hcd)

/-! ### Steps -/

/-- **A step is answered** by a step of the unrolled grammar. The answer is one step, except that an
empty repetition has taken one more for its list. -/
theorem Twins.step (hu : g.Unrolls h slot r) (hm : Twins r P m m') {task task' : Task}
    (ht : task.Twin r P task') (hs : Sound h w L' m') (hst : SoundTask h L' m'.position task')
    (ho : Outcome g L m task L₁ m₁) :
    ∃ m₁', Machine.step h m' task' = .ok m₁' ∧ Answer g r m₁ m₁' := by
  cases ht with
  | resume hcd hnext =>
    cases hst with
    | resume _ _ ha =>
      obtain ⟨m₁', hresume, htwin⟩ := hm.resume hcd hnext hs ha ho
      exact ⟨m₁', hresume, .now htwin⟩
  | @derive next next' id hnext =>
    have htable := hm.table id
    rw [Machine.step, derive]
    cases ho with
    -- twins find the same memos: either both goals are registered, or both are opened
    | registered hfound hrecord =>
      rw [hfound] at htable
      obtain ⟨b, hb, hab⟩ := Pairs.exists_of_rel htable
      obtain ⟨memo, memo', hmemo, hmemo', htwin⟩ := hm.memo _ b hab
      obtain rfl := Option.some.inj (hmemo.symm.trans hrecord)
      rw [hb]
      exact ⟨_, register_eq hmemo' next', .now ⟨_, hm.registeredWith hab htwin hnext⟩⟩
    | @opened _ _ e _ _ hnone he hexp =>
      rw [hnone] at htable
      rw [Pairs.eq_none_of_rel htable]
      have hopened := hm.opened hnext id
      have hab : (P.withMemos m.memos.size m'.memos.size).memos m.memos.size m'.memos.size :=
        .inr ⟨rfl, rfl⟩
      -- only the slot itself is expanded otherwise, by as many copies as its bound says
      by_cases hid : id = slot
      · subst hid
        obtain rfl := Option.some.inj (he.symm.trans hu.exact)
        rw [hu.unrolled]
        by_cases hr : r.times = 0
        · exact hopened.expand_never hab hr Array.getElem?_push_size hexp
        · obtain ⟨m₁', hexpand, htwin⟩ := hopened.expand_exact hab hr hexp
          exact ⟨m₁', hexpand, .now htwin⟩
      · rw [hu.other id hid, he]
        obtain ⟨m₁', hexpand, htwin⟩ := hopened.expand hab hexp
        exact ⟨m₁', hexpand, .now htwin⟩

/-- **Recording** what waits, in both machines. Both record the same number of results, in the same
order. -/
theorem Twins.recordAll {waiting waiting' : List (NodeId × MemoId)} (hm : Twins r P m m')
    (hwaiting : List.Forall₂ (fun p q => P.nodes p.1 q.1 ∧ P.memos p.2 q.2) waiting waiting')
    (hall : waiting.foldlM (fun m (node, memo) => Machine.complete m memo node) m =
      (.ok m₁ : Except Fault Machine))
    (hall' : waiting'.foldlM (fun m (node, memo) => Machine.complete m memo node) m' =
      (.ok m₁' : Except Fault Machine)) : Twins r P m₁ m₁' := by
  induction hwaiting generalizing m m' with
  | nil =>
    cases hall
    cases hall'
    exact hm
  | @cons pair pair' waiting waiting' hpair _ ih =>
    obtain ⟨c, a⟩ := pair
    obtain ⟨d, b⟩ := pair'
    obtain ⟨memo₁, hmemo₁, hall⟩ := exists_record_of_foldlM hall
    obtain ⟨memo₁', hmemo₁', hall'⟩ := exists_record_of_foldlM hall'
    obtain ⟨memo, memo', hmemo, hmemo', htwin⟩ := hm.memo a b hpair.2
    obtain rfl := Option.some.inj (hmemo.symm.trans hmemo₁)
    obtain rfl := Option.some.inj (hmemo'.symm.trans hmemo₁')
    exact ih (hm.completedWith hpair.2 htwin hpair.1) hall hall'

/-- **Moving on** in both machines. -/
theorem Twins.advance (hm : Twins r P m m') (hadvance : m.advance = .ok m₁)
    (hadvance' : m'.advance = .ok m₁') : Twins r P m₁ m₁' := by
  have hnext : Twins r P { m with matched := [], table := ∅, position := m.position + 1 }
      { m' with matched := [], table := ∅, position := m'.position + 1 } :=
    { hm with
      matched := .nil
      position := congrArg (· + 1) hm.position
      table := fun _ => by
        rw [Std.HashMap.getElem?_empty]
        exact .none
      same := fun hr => { hm.same hr with } }
  exact hnext.recordAll hm.matched hadvance hadvance'

theorem Twins.withLookahead (hm : Twins r P m m') (symbol : Option String) :
    Twins r P { m with lookahead := symbol } { m' with lookahead := symbol } :=
  { hm with
    lookahead := rfl
    same := fun hr => { hm.same hr with } }

/-! ### Whole inputs -/

/-- **Runs of twins** end as twins. The induction is on the first run, which may have the more steps
of the two. -/
theorem IsTwin.run (hu : g.Unrolls h slot r) (hm : IsTwin r m m') (hr : Reached g w L m)
    (hr' : Reached h w L' m') {fuel fuel' : Nat} (hrun : Machine.run g fuel m = .ok m₁)
    (hrun' : Machine.run h fuel' m' = .ok m₁') : IsTwin r m₁ m₁' := by
  induction fuel using Nat.strongRecOn generalizing L L' m m' fuel' with
  | ind fuel ih =>
    obtain ⟨P, hm⟩ := hm
    have htasks := hm.tasks
    cases hts : m.tasks with
    | nil =>
      have hts' : m'.tasks = [] := List.forall₂_nil_left_iff.mp (hts ▸ htasks)
      rw [run_of_nil g fuel hts] at hrun
      rw [run_of_nil h fuel' hts'] at hrun'
      cases hrun
      cases hrun'
      exact ⟨P, hm⟩
    | cons task tasks =>
      rw [hts] at htasks
      obtain ⟨task', tasks', ht, hrest, hts'⟩ := List.forall₂_cons_left_iff.mp htasks
      obtain ⟨n, hlt, m₂, hstep, hrun⟩ := exists_step_of_run hts hrun
      obtain ⟨n', -, m₂', hstep', hrun'⟩ := exists_step_of_run hts' hrun'
      rw [eq_withTasks hts] at hr
      rw [eq_withTasks hts'] at hr'
      obtain ⟨L₂, ho, hreached, -⟩ := hr.step hstep
      obtain ⟨L₂', -, hreached', -⟩ := hr'.step hstep'
      have hs' := hr'.faithful.sound
      have hrests : Twins r P { m with tasks } { m' with tasks := tasks' } :=
        { hm with
          tasks := hrest
          same := fun hr => { hm.same hr with } }
      obtain ⟨m₃', hstep₃', hanswer⟩ :=
        hrests.step hu ht hs'.of_withTasks (hs'.task _ List.mem_cons_self) ho
      obtain rfl : m₂' = m₃' := Except.ok.inj (hstep'.symm.trans hstep₃')
      cases hanswer with
      | now htwin => exact ih n hlt htwin hreached hreached' hrun hrun'
      | next hts₂ hstep₃ htwin =>
        -- the first machine takes a step more
        obtain ⟨n₂, hlt₂, m₄, hstep₄, hrun⟩ := exists_step_of_run hts₂ hrun
        obtain rfl := Except.ok.inj (hstep₃.symm.trans hstep₄)
        rw [eq_withTasks hts₂] at hreached
        obtain ⟨L₃, -, hreached₃, -⟩ := hreached.step hstep₃
        exact ih n₂ (hlt₂.trans hlt) htwin hreached₃ hreached' hrun hrun'

/-- Twins **keep in step**. They have matched alike, so both go on or both reject the input. -/
theorem keepsStep_isTwin (hu : g.Unrolls h slot r) : KeepsStep g h w (IsTwin r) where
  position hm := hm.position_eq
  withLookahead symbol hm := hm.imp fun _ hm => hm.withLookahead symbol
  run hm hr hr' hrun hrun' := hm.run hu hr hr' hrun hrun'
  advance hm hadvance hadvance' := hm.imp fun _ hm => hm.advance hadvance hadvance'

/-- The machines at the beginning **are twins**. -/
theorem isTwin_initial (hu : g.Unrolls h slot r) :
    IsTwin r (Machine.initial g) (Machine.initial h) := by
  refine ⟨⟨fun _ _ => False, fun _ _ => False, fun _ _ _ => False⟩, nofun, ⟨nofun, nofun⟩, nofun,
    ⟨nofun, nofun⟩, nofun, fun id => ?_, ?_, .nil, .nil, rfl, rfl,
    fun _ => ⟨rfl, nofun, nofun, nofun⟩⟩
  · simp only [Machine.initial, Std.HashMap.getElem?_empty]
    exact .none
  · rw [Machine.initial, Machine.initial, hu.start]
    exact .cons (.derive .accept) .nil

end Machine

open Machine in
/-- The forests of an input, with and without the repetition, are held by **twins**. What is read
off the forests can be compared by the pairing from here on. -/
theorem Forest.exists_twins {g h : Grammar} {w : List String} {slot : ExprId} {r : Repeat}
    {f f' : Forest} (hu : g.Unrolls h slot r) (hf : parse g w = .ok f) (hf' : parse h w = .ok f') :
    ∃ m m' L L' P, Twins r P m m' ∧ Sound g w L m ∧ Sound h w L' m' ∧
      f = ⟨m.nodes, m.roots, m.position⟩ ∧ f' = ⟨m'.nodes, m'.roots, m'.position⟩ := by
  obtain ⟨m, hread, rfl, -⟩ := exists_readAll hf
  obtain ⟨m', hread', rfl, -⟩ := exists_readAll hf'
  obtain ⟨P, hm⟩ := (keepsStep_isTwin hu).readAll (isTwin_initial hu) .start .start List.drop_zero
    hread hread'
  obtain ⟨L, hreached, -⟩ := Reached.readAll .start List.drop_zero hread
  obtain ⟨L', hreached', -⟩ := Reached.readAll .start List.drop_zero hread'
  exact ⟨m, m', L, L', P, hm, hreached.faithful.sound, hreached'.faithful.sound, rfl, rfl⟩

end GeneralParsing
