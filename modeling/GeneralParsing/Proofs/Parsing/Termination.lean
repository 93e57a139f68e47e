import GeneralParsing.Proofs.Extraction.Frames
import GeneralParsing.Proofs.Parsing.PackedSound

/-!
# Parsing and extraction end

The bounds in the definitions are never felt. At each position that an input is read to, the
machine runs until no task is left, for every bound from `Machine.stepBound` on
(`Arrives.exists_run`). The walk over a closed forest goes no deeper than the forest has nodes, so
a greater bound on the depth changes nothing (`Extract.visit_eq_of_le`), and it comes to a tree or
finds the forest ambiguous (`Forest.extract_cases`); done in rounds on a stack of its own, it ends
as well (`Forest.exists_extractWithin_eq`). And the walk that spells a lexical text, which goes
down by first alternatives with no bound at all, ends because these are older than their choice
(`Machine.Sound.spells`).
-/

namespace GeneralParsing

namespace Machine

variable {g : Grammar} {w : List String} {L : Ledger} {m m' : Machine}

/-! ### Tasks -/

/-- A run that ends does so **with every greater bound**. It needs no more steps than it takes. -/
theorem run_of_le {fuel fuel' : Nat} (h : run g fuel m = .ok m') (hle : fuel ≤ fuel') :
    run g fuel' m = .ok m' := by
  induction fuel generalizing m fuel' with
  | zero =>
    cases htasks : m.tasks with
    | nil =>
      rw [run, htasks] at h
      rwa [run, htasks]
    | cons task tasks =>
      rw [run, htasks] at h
      cases h
  | succ fuel ih =>
    cases htasks : m.tasks with
    | nil =>
      rw [run, htasks] at h
      rwa [run, htasks]
    | cons task tasks =>
      obtain ⟨fuel', rfl⟩ := Nat.exists_eq_succ_of_ne_zero (Nat.ne_of_gt (Nat.lt_of_lt_of_le
        (Nat.succ_pos fuel) hle))
      rw [run, htasks] at h
      rw [run, htasks]
      cases hstep : step g { m with tasks } task with
      | error fault =>
        simp only [hstep] at h
        cases h
      | ok m₁ =>
        simp only [hstep] at h ⊢
        exact ih h (Nat.le_of_succ_le_succ hle)

/-- The machine **arrives** at a position: it is at the beginning, or it has done its tasks at the
position before, where a symbol was matched, and has moved on. No bound is put on the tasks. -/
inductive Arrives (g : Grammar) (w : List String) : Machine → Prop
  | start : Arrives g w { Machine.initial g with lookahead := w[0]? }
  | next {m m' m'' : Machine} {fuel : Nat} {symbol : String} (h : Arrives g w m)
      (hrun : run g fuel m = .ok m') (hlook : m'.lookahead = some symbol)
      (hmatched : m'.matched ≠ []) (hadvance : m'.advance = .ok m'') :
      Arrives g w { m'' with lookahead := w[m''.position]? }

/-- A machine that has arrived is faithful and **has few continuations**. These are all that is
needed to show that the bound computed there is large enough. -/
theorem Arrives.faithful (hg : g.Closed) (h : Arrives g w m) :
    ∃ L, Faithful g w L m [] ∧ m.matched = [] ∧
      m.load Continuation.cost 1 false ≤ 2 * (g.maxSteps + 1) * m.registered + 2 := by
  induction h with
  | start =>
    refine ⟨{}, faithful_initial g w, rfl, ?_⟩
    exact Nat.le_of_eq (Nat.zero_add 2).symm
  | @next m m' m'' fuel symbol _ hrun hlook hmatched' hadvance ih =>
    obtain ⟨L, hfaithful, hmatched, hload⟩ := ih
    rw [← hmatched] at hfaithful
    obtain ⟨L₁, m₁, hrun₁, hfaithful₁, htasks₁, -⟩ :=
      hfaithful.run hg (potential_le_stepBound hload)
    have hsame := (run_of_le hrun (Nat.le_max_left _ _)).symm.trans
      (run_of_le hrun₁ (Nat.le_max_right _ _))
    obtain rfl : m' = m₁ := Except.ok.inj hsame
    obtain ⟨m₂, hadvance₂, hfaithful₂, hload₂, hposition₂, hmatched₂⟩ :=
      hfaithful₁.advance htasks₁ hlook hmatched'
    obtain rfl : m'' = m₂ := Except.ok.inj (hadvance.symm.trans hadvance₂)
    rw [← hposition₂] at hfaithful₂
    exact ⟨L₁, hfaithful₂, hmatched₂, Nat.le_add_right_of_le hload₂⟩

/-- **At each position the tasks come to an end**, with the bound of the definition and with every
greater one. -/
theorem Arrives.exists_run (hg : g.Closed) (h : Arrives g w m) :
    ∃ m', m'.tasks = [] ∧
      ∀ fuel, stepBound g.size g.totalWidth g.maxSteps m ≤ fuel → run g fuel m = .ok m' := by
  obtain ⟨L, hfaithful, hmatched, hload⟩ := h.faithful hg
  rw [← hmatched] at hfaithful
  obtain ⟨L', m', hrun, -, htasks, -⟩ := hfaithful.run hg (potential_le_stepBound hload)
  exact ⟨m', htasks, fun fuel hle => run_of_le hrun hle⟩

end Machine

/-! ### The walk over a forest -/

namespace Extract

variable {f : Forest} {o : ParseOptions}

/-- **A greater bound changes nothing**: paths go through distinct nodes. So the depth is never used
up, and the walk ends by itself. -/
theorem visit_eq_of_le {depth depth' : Nat} {path : List NodeId} (hpath : f.IsPath path)
    (hdepth : f.size < depth + path.length) (hle : depth ≤ depth') :
    visit f o depth' path = visit f o depth path := by
  induction depth generalizing depth' path with
  | zero => exact absurd hpath.length_le (by omega)
  | succ depth ih =>
    obtain ⟨depth', rfl⟩ := Nat.exists_eq_succ_of_ne_zero (by omega : depth' ≠ 0)
    funext id
    rw [visit, visit]
    have hbelow : ∀ node, f.node? id = some node → path.contains id = false →
        visit f o depth' (id :: path) = visit f o depth (id :: path) := by
      intro node hnode hnot
      have hid : id < f.size := (Array.getElem?_eq_some_iff.mp hnode).1
      have hcons : f.IsPath (id :: path) := hpath.cons hid (by simpa using hnot)
      exact ih hcons (by rw [List.length_cons]; omega) (Nat.le_of_succ_le_succ hle)
    refine bind_congr fun w => ?_
    cases w.known[id]? with
    | some output => rfl
    | none =>
      cases hnot : path.contains id with
      | true => rfl
      | false =>
        cases hnode : f.node? id with
        | none => rfl
        | some node => simp only [hbelow node hnode hnot]

end Extract

namespace Forest

variable {f : Forest} {o : ParseOptions}

/-- Outputs **missing for no other reason** than ambiguity. -/
def OnlyAmbiguous {α : Type} (result : Except Error α) : Prop :=
  ∀ e, result = .error e → e = .ambiguous

theorem onlyAmbiguous_strung {results : List (Except Error PlainOutput)}
    (h : ∀ result ∈ results, OnlyAmbiguous result) : OnlyAmbiguous (strung results) := by
  induction results with
  | nil =>
    intro e he
    cases he
  | cons result results ih =>
    obtain ⟨hresult, hresults⟩ := List.forall_mem_cons.mp h
    intro e he
    rw [strung] at he
    cases hr : result with
    | error e' =>
      rw [hr] at he
      cases he
      exact hresult e hr
    | ok out =>
      rw [hr] at he
      cases out with
      | none => cases he
      | some ts =>
        simp only [ok_bind] at he
        cases hrest : strung results with
        | error e' =>
          rw [hrest] at he
          cases he
          exact ih hresults e hrest
        | ok out =>
          rw [hrest] at he
          cases out <;> cases he

theorem onlyAmbiguous_gathered {policy : Ambiguity} {viable : Bool}
    {found : List (List PlainTree)} {results : List (Except Error PlainOutput)}
    (h : ∀ result ∈ results, OnlyAmbiguous result) :
    OnlyAmbiguous (gathered policy viable found results) := by
  induction results generalizing viable found with
  | nil =>
    intro e he
    cases he
  | cons result results ih =>
    obtain ⟨hresult, hresults⟩ := List.forall_mem_cons.mp h
    intro e he
    rw [gathered] at he
    cases hr : result with
    | error e' =>
      rw [hr] at he
      cases he
      exact hresult e hr
    | ok out =>
      rw [hr, ok_bind] at he
      rcases out with _ | _ | ⟨t, ts⟩
      · exact ih hresults e he
      · exact ih hresults e he
      · cases policy with
        | first => cases he
        | error =>
          simp only at he
          split at he
          · exact ih hresults e he
          · cases he
            rfl
        | packed => exact ih hresults e he

theorem onlyAmbiguous_chosen {span : Span} {results : List (Except Error PlainOutput)}
    (h : ∀ result ∈ results, OnlyAmbiguous result) : OnlyAmbiguous (chosen o span results) := by
  intro e he
  rw [chosen] at he
  cases hgathered : gathered o.ambiguity false [] results with
  | error e' =>
    rw [hgathered] at he
    cases he
    exact onlyAmbiguous_gathered h e hgathered
  | ok pair =>
    rw [hgathered, ok_bind] at he
    split at he <;> cases he

theorem OnlyAmbiguous.map {α β : Type} {result : Except Error α} (h : OnlyAmbiguous result)
    (k : α → β) : OnlyAmbiguous (result.map k) := by
  intro e he
  cases hr : result with
  | error e' =>
    rw [hr] at he
    cases he
    exact h e hr
  | ok a =>
    rw [hr] at he
    cases he

/-- In a closed forest the output of a node **is there**, unless the forest is ambiguous. References
lead to nodes that are there, so nothing else can go wrong. -/
theorem onlyAmbiguous_freshOutput (hf : f.Closed) {path : List NodeId} {id : NodeId}
    (hpath : f.IsPath path) (hid : id < f.size) : OnlyAmbiguous (f.freshOutput o path id) := by
  refine path_induct hf (motive := fun path id => OnlyAmbiguous (f.freshOutput o path id)) ?_ ?_
    hpath hid
  · intro path id hpath hmem e he
    rw [freshOutput_of_mem hpath.length_le hmem] at he
    cases he
  · intro path id kind span hpath hnot hnode ih
    rw [freshOutput_of_not_mem hpath.length_le hnot hnode]
    cases kind with
    | symbol text | omitted | lexical child =>
      intro e he
      cases he
    | sequence tag children =>
      cases children with
      | nil =>
        intro e he
        cases tag <;> cases he
      | cons child children =>
        rw [freshNode_sequence]
        exact (onlyAmbiguous_strung (List.forall_mem_map.mpr ih)).map _
    | choice tag alternatives =>
      exact (onlyAmbiguous_chosen (List.forall_mem_map.mpr ih)).map _

/-- **Extraction comes to a tree or finds the forest ambiguous**, whatever the options. -/
theorem extract_cases (hf : f.Closed) (o : ParseOptions) :
    (∃ t n, f.extract o = .ok (t, n)) ∨ f.extract o = .error .ambiguous := by
  have hfresh := map_plain_extract f o
  cases hextract : f.extract o with
  | ok result => exact .inl ⟨result.1, result.2, rfl⟩
  | error e =>
    rw [hextract] at hfresh
    have hroots : ∀ result ∈ f.roots.map (f.freshOutput o []), OnlyAmbiguous result :=
      List.forall_mem_map.mpr fun root hroot =>
        onlyAmbiguous_freshOutput hf (isPath_nil f) (hf.root_lt root hroot)
    have hchosen : OnlyAmbiguous (chosen o f.wholeSpan _) := onlyAmbiguous_chosen hroots
    rw [freshTree] at hfresh
    cases hc : chosen o f.wholeSpan (f.roots.map (f.freshOutput o [])) with
    | ok output =>
      rw [hc] at hfresh
      cases hfresh
    | error e' =>
      rw [hc] at hfresh
      cases hfresh
      exact .inr (congrArg _ (hchosen e hc))

/-! ### The walk that spells a text -/

/-- A stack of nodes **spells** a text: the nodes are taken off one after another, and what they are
made of, of a choice the first alternative, is put on the stack in their place. No bound is put on
the number of nodes. -/
inductive Spells (f : Forest) : List NodeId → String → Prop
  | done : Spells f [] ""
  | symbol {id : NodeId} {text rest : String} {span : Span} {pending : List NodeId}
      (hnode : f.node? id = some ⟨.symbol text, span⟩) (h : Spells f pending rest) :
      Spells f (id :: pending) (text ++ rest)
  | sequence {id : NodeId} {tag : Option String} {children : List NodeId} {rest : String}
      {span : Span} {pending : List NodeId}
      (hnode : f.node? id = some ⟨.sequence tag children, span⟩)
      (h : Spells f (children ++ pending) rest) : Spells f (id :: pending) rest
  | choice {id : NodeId} {tag : Option String} {alternatives : List NodeId} {rest : String}
      {span : Span} {pending : List NodeId}
      (hnode : f.node? id = some ⟨.choice tag alternatives, span⟩)
      (h : Spells f (alternatives.head?.toList ++ pending) rest) : Spells f (id :: pending) rest
  | omitted {id : NodeId} {rest : String} {span : Span} {pending : List NodeId}
      (hnode : f.node? id = some ⟨.omitted, span⟩) (h : Spells f pending rest) :
      Spells f (id :: pending) rest
  | lexical {id child : NodeId} {rest : String} {span : Span} {pending : List NodeId}
      (hnode : f.node? id = some ⟨.lexical child, span⟩) (h : Spells f (child :: pending) rest) :
      Spells f (id :: pending) rest

end Forest

namespace Machine

variable {g : Grammar} {w : List String} {L : Ledger} {m : Machine}

/-- A node of a sound machine **has a text**. -/
theorem Sound.hasText (h : Sound g w L m) {id : NodeId} (hid : id < m.forest.size) :
    m.forest.HasText id (m.forest.text id) := by
  obtain ⟨memo, goal, stop, hnode⟩ := h.node id _ (Array.getElem?_eq_getElem hid)
  obtain ⟨d, -, htext⟩ := h.exists_behind ⟨memo, hnode.result, hnode.works⟩
  rwa [htext.text_eq]

/-- The text of a node is that **of an older one** from which it is appended. Omitted nodes and
choices append nothing of their own. -/
theorem Sound.text_of_part (h : Sound g w L m) {id part : NodeId} (hpart : part < id)
    (hid : id < m.forest.size) (hnode : ∀ depth before,
      m.forest.appendText (depth + 1) before id = m.forest.appendText depth before part) :
    m.forest.text id = m.forest.text part := by
  rw [Forest.text, hnode, h.hasText (Nat.lt_trans hpart hid) id hpart, String.empty_append]

/-- A node appends its text **by its kind**. -/
theorem appendText_of_node {id : NodeId} {kind : Forest.Kind} {span : Span}
    (hnode : m.forest.node? id = some ⟨kind, span⟩) (depth : Nat) (before : String) :
    m.forest.appendText (depth + 1) before id =
      match some kind with
      | some (.symbol symbol) => before ++ symbol
      | some (.sequence _ children) => children.foldl (m.forest.appendText depth) before
      | some (.choice _ (first :: _)) => m.forest.appendText depth before first
      | some (.lexical child) => m.forest.appendText depth before child
      | _ => before := by
  rw [Forest.appendText, hnode]
  rfl

/-- The texts of older nodes are appended **in order**. Each is appended to what the others have
left, and appending is associative. -/
theorem Sound.foldl_text (h : Sound g w L m) {id : NodeId} (hid : id < m.forest.size)
    {children : List NodeId} (hold : ∀ c ∈ children, c < id) (before : String) :
    children.foldl (m.forest.appendText id) before =
      before ++ String.join (children.map m.forest.text) := by
  induction children generalizing before with
  | nil => simp
  | cons c children ih =>
    obtain ⟨hc, hchildren⟩ := List.forall_mem_cons.mp hold
    rw [List.foldl_cons, h.hasText (Nat.lt_trans hc hid) id hc, ih hchildren, List.map_cons,
      String.join_cons, String.append_assoc]

/-- The text of a node **by its kind**, from the texts of older nodes. -/
theorem Sound.text_eq (h : Sound g w L m) {id : NodeId} {kind : Forest.Kind} {span : Span}
    (hnode : m.forest.node? id = some ⟨kind, span⟩) :
    m.forest.text id =
      match kind with
      | .symbol symbol => symbol
      | .sequence _ children => String.join (children.map m.forest.text)
      | .choice _ (first :: _) => m.forest.text first
      | .lexical child => m.forest.text child
      | _ => "" := by
  have hid : id < m.forest.size := (Array.getElem?_eq_some_iff.mp hnode).1
  have happend := appendText_of_node hnode
  obtain ⟨memo, goal, stop, hsound⟩ := h.node id _ hnode
  have hsequence : ∀ {children : List NodeId}, (∀ c ∈ children, c < id) →
      children.foldl (m.forest.appendText id) "" = String.join (children.map m.forest.text) :=
    fun hold => (h.foldl_text hid hold "").trans String.empty_append
  cases hsound.explained with
  | symbol =>
    rw [Forest.text, happend]
    exact String.empty_append
  | empty =>
    rw [Forest.text, happend]
    exact hsequence (by simp)
  | sequence _ _ hold | repetition _ _ _ _ hold =>
    rw [Forest.text, happend]
    exact hsequence hold
  | choice _ _ hold | inner _ _ _ hold | lexical _ _ hold => exact h.text_of_part hold hid happend
  | omitted => rw [Forest.text, happend]

/-- Older nodes **in order** are spelled before what is pending if each of them is. -/
theorem spells_append {f : Forest} {children pending : List NodeId} {rest : String}
    (hchild : ∀ c ∈ children, ∀ pending rest, f.Spells pending rest →
      f.Spells (c :: pending) (f.text c ++ rest)) (h : f.Spells pending rest) :
    f.Spells (children ++ pending) (String.join (children.map f.text) ++ rest) := by
  induction children with
  | nil => simpa using h
  | cons c children ih =>
    obtain ⟨hc, hchildren⟩ := List.forall_mem_cons.mp hchild
    have hrest := hc _ _ (ih hchildren)
    rwa [List.map_cons, String.join_cons, String.append_assoc]

/-- **Spelling a text comes to an end**, and to the text of the node. The induction is on the number
of the node; what is pending comes afterwards. -/
theorem Sound.spells (h : Sound g w L m) {id : NodeId} (hid : id < m.forest.size)
    {pending : List NodeId} {rest : String} (hrest : m.forest.Spells pending rest) :
    m.forest.Spells (id :: pending) (m.forest.text id ++ rest) := by
  induction id using Nat.strongRecOn generalizing pending rest with
  | ind id ih =>
  obtain ⟨memo, goal, stop, hsound⟩ := h.node id _ (Array.getElem?_eq_getElem hid)
  obtain ⟨kind, hnode, hex⟩ := h.explained ⟨memo, hsound.result, hsound.works⟩
  have hold : ∀ part < id, ∀ pending rest, m.forest.Spells pending rest →
      m.forest.Spells (part :: pending) (m.forest.text part ++ rest) :=
    fun part hpart pending rest hrest => ih part hpart (Nat.lt_trans hpart hid) hrest
  have hsequence : ∀ {children : List NodeId}, (∀ c ∈ children, c < id) →
      m.forest.Spells (children ++ pending)
        (String.join (children.map m.forest.text) ++ rest) :=
    fun hchildren => spells_append (fun c hc => hold c (hchildren c hc)) hrest
  rw [h.text_eq hnode]
  cases hex with
  | symbol => exact .symbol hnode hrest
  | empty => exact .sequence hnode (hsequence (by simp))
  | sequence _ _ hchildren => exact .sequence hnode (hsequence hchildren)
  | repetition _ _ _ _ hchildren => exact .sequence hnode (hsequence hchildren)
  | choice _ _ hfirst => exact .choice hnode (hold _ hfirst _ _ hrest)
  | inner _ _ _ hfirst => exact .choice hnode (hold _ hfirst _ _ hrest)
  | omitted =>
    rw [String.empty_append]
    exact .omitted hnode hrest
  | lexical _ _ hpart => exact .lexical hnode (hold _ hpart _ _ hrest)

end Machine

/-! ### The whole -/

namespace Forest

open Machine

variable {g : Grammar}

/-- **Parsing and extraction end.** With a closed grammar the tasks come to an end at each position
that is arrived at, and parsing ends with a forest or a rejection. For every forest the walk ends
under all options: on its stack of frames there is nothing left after some number of rounds, and the
depth of the recursion is bounded by the size of the forest. The spelling of every text ends as
well. -/
theorem parse_and_extract_end (hg : g.Closed) (w : List String) :
    (∀ m, Arrives g w m → ∃ m', m'.tasks = [] ∧
      ∀ fuel, stepBound g.size g.totalWidth g.maxSteps m ≤ fuel → run g fuel m = .ok m') ∧
    ((∃ f, parse g w = .ok f) ∨ ∃ position ≤ w.length, parse g w = .error (.rejected position)) ∧
    ∀ f, parse g w = .ok f →
      (∀ o, (∃ t n, f.extract o = .ok (t, n)) ∨ f.extract o = .error .ambiguous) ∧
      (∀ o, ∃ n, ∀ rounds, n ≤ rounds → f.extractWithin o rounds = f.extract o) ∧
      (∀ o depth, f.size < depth → Extract.visit f o depth [] = Extract.visit f o (f.size + 1) []) ∧
      ∀ id < f.size, f.Spells [id] (f.text id) := by
  refine ⟨fun m hm => hm.exists_run hg, ?_, fun f hf => ?_⟩
  · obtain ⟨L, m, -, -, ⟨hparse, -⟩ | ⟨hparse, ⟨hposition, -⟩ | ⟨hlt, -⟩⟩⟩ := exists_faithful hg w
    · exact .inl ⟨_, hparse⟩
    · exact .inr ⟨_, Nat.le_of_eq hposition, hparse⟩
    · exact .inr ⟨_, Nat.le_of_lt hlt, hparse⟩
  · obtain ⟨L, m, hfaithful, -, rfl, -⟩ := exists_machine_of_parse hg hf
    have hclosed := hfaithful.sound.closed_forest
    refine ⟨fun o => extract_cases hclosed o, fun o => exists_extractWithin_eq _ o,
      fun o depth hdepth => ?_, fun id hid => ?_⟩
    · exact Extract.visit_eq_of_le (isPath_nil _) (Nat.lt_succ_self _) hdepth
    · simpa using hfaithful.sound.spells hid .done

open Grammar in
/-- Parsing sums, which are left-recursive, **ends**. -/
theorem parse_and_extract_sums_end : sums.Closed ∧
    (∀ m, Arrives sums ["n", "+", "n"] m → ∃ m', m'.tasks = [] ∧
      ∀ fuel, stepBound sums.size sums.totalWidth sums.maxSteps m ≤ fuel →
        run sums fuel m = .ok m') ∧
    ((∃ f, parse sums ["n", "+", "n"] = .ok f) ∨
      ∃ position ≤ 3, parse sums ["n", "+", "n"] = .error (.rejected position)) ∧
    ∀ f, parse sums ["n", "+", "n"] = .ok f →
      (∀ o, (∃ t n, f.extract o = .ok (t, n)) ∨ f.extract o = .error .ambiguous) ∧
      (∀ o, ∃ n, ∀ rounds, n ≤ rounds → f.extractWithin o rounds = f.extract o) ∧
      (∀ o depth, f.size < depth → Extract.visit f o depth [] = Extract.visit f o (f.size + 1) []) ∧
      ∀ id < f.size, f.Spells [id] (f.text id) :=
  ⟨closed_sums, parse_and_extract_end closed_sums ["n", "+", "n"]⟩

end Forest

end GeneralParsing
