import GeneralParsing.Proofs.Derivation.Inside
import GeneralParsing.Proofs.Machine.Runs

/-!
# Every derivation is found

A node **represents** a derivation when the choices below it can be made so that the derivation
results. With no task left, a faithful machine has found every unstalled derivation of the symbols
it has read: there is a result for it, and a node that represents it if the derivation is acyclic
(`Faithful.found`). A derivation that goes on leaves a terminal that matches here.
-/

namespace GeneralParsing

/-! ### Nodes that represent derivations -/

mutual

/-- A node **represents** a derivation from a position on. What is omitted or taken as one text is
represented whatever it is made of. -/
inductive Represents (g : Grammar) (L : Ledger) (nodes : Array Forest.Node) :
    NodeId → Derivation → Nat → Prop
  | symbol {node : NodeId} {id : ExprId} {text : String} {start : Nat} {span : Span}
      (hresult : L.Result node ⟨id, false, start⟩ (start + 1))
      (hnode : nodes[node]? = some ⟨.symbol text, span⟩) :
      Represents g L nodes node (.symbol id text) start
  | empty {node : NodeId} {id : ExprId} {tag : Option String} {start : Nat} {span : Span}
      (he : g.expr? id = some (.seq tag [])) (hresult : L.Result node ⟨id, false, start⟩ start)
      (hnode : nodes[node]? = some ⟨.sequence tag [], span⟩) :
      Represents g L nodes node (.sequence id []) start
  | sequence {node part : NodeId} {id : ExprId} {e : Expr} {start : Nat}
      {alternatives children : List NodeId} {span span' : Span} {parts : List Derivation}
      (he : g.expr? id = some e) (hinner : e.hasInner = true)
      (hresult : L.Result node ⟨id, false, start⟩ (start + (parts.flatMap Derivation.yield).length))
      (hnode : nodes[node]? = some ⟨.choice none alternatives, span⟩) (hmem : part ∈ alternatives)
      (hresult' : L.Result part ⟨id, true, start⟩ (start + (parts.flatMap Derivation.yield).length))
      (hnode' : nodes[part]? = some ⟨.sequence e.tag? children, span'⟩)
      (hparts : RepresentsAll g L nodes children parts start) :
      Represents g L nodes node (.sequence id parts) start
  | choice {node part : NodeId} {id : ExprId} {tag : Option String} {ids : List ExprId}
      {start : Nat} {alternatives : List NodeId} {span : Span} {d : Derivation}
      (he : g.expr? id = some (.alt tag ids))
      (hresult : L.Result node ⟨id, false, start⟩ (start + d.yield.length))
      (hnode : nodes[node]? = some ⟨.choice tag alternatives, span⟩) (hmem : part ∈ alternatives)
      (hpart : Represents g L nodes part d start) : Represents g L nodes node (.choice id d) start
  | omitted {node : NodeId} {id : ExprId} {start : Nat} {span : Span} {d : Derivation}
      (hresult : L.Result node ⟨id, false, start⟩ (start + d.yield.length))
      (hnode : nodes[node]? = some ⟨.omitted, span⟩) :
      Represents g L nodes node (.omitted id d) start
  | lexical {node part : NodeId} {id : ExprId} {start : Nat} {span : Span} {d : Derivation}
      (hresult : L.Result node ⟨id, false, start⟩ (start + d.yield.length))
      (hnode : nodes[node]? = some ⟨.lexical part, span⟩)
      (hpart : L.Result part ⟨d.root, false, start⟩ (start + d.yield.length)) :
      Represents g L nodes node (.lexical id d) start

/-- Nodes represent derivations **in order**. -/
inductive RepresentsAll (g : Grammar) (L : Ledger) (nodes : Array Forest.Node) :
    List NodeId → List Derivation → Nat → Prop
  | nil (start : Nat) : RepresentsAll g L nodes [] [] start
  | cons {node : NodeId} {d : Derivation} {ids : List NodeId} {ds : List Derivation} {start : Nat}
      (h : Represents g L nodes node d start)
      (hs : RepresentsAll g L nodes ids ds (start + d.yield.length)) :
      RepresentsAll g L nodes (node :: ids) (d :: ds) start

end

/-- What represents a derivation is **a result** of its expression over its symbols. This is what a
path that leads to a node has to avoid, for instance. -/
theorem Represents.result {g : Grammar} {L : Ledger} {nodes : Array Forest.Node} {node : NodeId}
    {d : Derivation} {start : Nat} (h : Represents g L nodes node d start) :
    L.Result node ⟨d.root, false, start⟩ (start + d.yield.length) := by
  cases h with
  | symbol hresult | empty _ hresult | choice _ hresult | omitted hresult | lexical hresult =>
    exact hresult
  | sequence _ _ hresult =>
    rw [Derivation.yield_sequence]
    exact hresult

namespace Machine

open GeneralParsing.Derivation

variable {g : Grammar} {w : List String} {L : Ledger} {m : Machine}

/-! ### What a machine without tasks has done -/

/-- A result that **does not wait**. -/
def Recorded (L : Ledger) (m : Machine) (node : NodeId) (id : MemoId) (stop : Nat) : Prop :=
  L.results[node]? = some (id, stop) ∧ (node, id) ∉ m.matched

theorem made_of_expanded {id : MemoId} {expr : ExprId} {start : Nat} {e : Expr} {symbol : String}
    {due : List Task} (h : Expanded w L m due id expr start e) (hw : w[start]? = some symbol)
    (ha : e.accepts symbol = true) : Made L m id (start + 1) (.symbol symbol) := by
  cases e with
  | token | pattern => exact h symbol hw ha
  | _ => cases ha

theorem registered_of_wanted (htasks : m.tasks = []) {next : Continuation} {expr : ExprId}
    {start : Nat} (h : Wanted L m m.tasks next expr start) :
    Registered L m next ⟨expr, false, start⟩ := by
  rcases h with h | ⟨-, hmem⟩
  · exact h
  · simp [htasks] at hmem

/-- Results that wait are **of terminals**. -/
theorem Sound.recorded (h : Sound g w L m) {node : NodeId} {id : MemoId} {goal : Goal}
    {stop : Nat} (hresult : L.results[node]? = some (id, stop)) (hgoal : L.goals[id]? = some goal)
    (hnot : ∀ e, g.expr? goal.expr = some e → goal.inner = false → e.isTerminal = false) :
    Recorded L m node id stop := by
  refine ⟨hresult, fun hmem => ?_⟩
  obtain ⟨-, expr, start, e, hgoal', he, hterminal⟩ := h.matched node id hmem
  obtain rfl := Option.some.inj (hgoal.symm.trans hgoal')
  rw [hnot e he rfl] at hterminal
  cases hterminal

theorem Sound.recorded_of_expr (h : Sound g w L m) {node : NodeId} {id : MemoId} {goal : Goal}
    {stop : Nat} {e : Expr} (hresult : L.results[node]? = some (id, stop))
    (hgoal : L.goals[id]? = some goal) (he : g.expr? goal.expr = some e)
    (hnot : e.isTerminal = false) : Recorded L m node id stop := by
  refine h.recorded hresult hgoal fun e' he' _ => ?_
  obtain rfl := Option.some.inj (he.symm.trans he')
  exact hnot

theorem Faithful.taken (h : Faithful g w L m m.matched) (htasks : m.tasks = []) {node : NodeId}
    {id : MemoId} {stop : Nat} (hn : Recorded L m node id stop) {next : Continuation}
    (hhands : m.Hands id next) : Taken w L m m.tasks node stop next := by
  rcases h.exhaustive.delivered node id stop next hn.1 hn.2 hhands with htaken | ⟨-, hmem⟩
  · exact htaken
  · simp [htasks] at hmem

/-- A derivation **goes on**: its symbols reach beyond the position, and a terminal matches here. -/
def GoesOn (m : Machine) (stop : Nat) : Prop := m.position < stop ∧ m.matched ≠ []

/-- A derivation **is found** from a position on, by the memo of its root. -/
def Found (g : Grammar) (L : Ledger) (m : Machine) (d : Derivation) (id : MemoId) (start : Nat) :
    Prop :=
  (∃ node, Recorded L m node id (start + d.yield.length) ∧
    (d.Acyclic → Represents g L m.nodes node d start)) ∨ GoesOn m (start + d.yield.length)

/-- Parts **are found** in order: their sequence is a result of the inner memo. -/
def FoundAll (g : Grammar) (L : Ledger) (m : Machine) (tag : Option String) (inner : MemoId)
    (done : List NodeId) (ds : List Derivation) (start : Nat) : Prop :=
  (∃ nodes, Made L m inner (start + (ds.flatMap yield).length)
      (.sequence tag (done.reverse ++ nodes)) ∧
    ((∀ d ∈ ds, d.Acyclic) → RepresentsAll g L m.nodes nodes ds start)) ∨
  GoesOn m (start + (ds.flatMap yield).length)

theorem GoesOn.mono {stop stop' : Nat} (h : GoesOn m stop) (hle : stop ≤ stop') : GoesOn m stop' :=
  ⟨Nat.lt_of_lt_of_le h.1 hle, h.2⟩

/-- With one part found, what is **left to find** are the others. What the inner memo has done so
far grows from part to part in this way. -/
theorem FoundAll.cons {tag : Option String} {inner : MemoId} {done : List NodeId} {d : Derivation}
    {ds : List Derivation} {start : Nat} {node : NodeId}
    (hnode : d.Acyclic → Represents g L m.nodes node d start)
    (h : FoundAll g L m tag inner (node :: done) ds (start + d.yield.length)) :
    FoundAll g L m tag inner done (d :: ds) start := by
  have hstop : start + d.yield.length + (ds.flatMap yield).length =
      start + ((d :: ds).flatMap yield).length := by
    rw [List.flatMap_cons, List.length_append]
    omega
  rw [FoundAll, hstop] at h
  rcases h with ⟨nodes, hmade, hall⟩ | h
  · refine .inl ⟨node :: nodes, by simpa using hmade, fun hacyclic => ?_⟩
    exact .cons (hnode (hacyclic d (by simp))) (hall fun x hx => hacyclic x (by simp [hx]))
  · exact .inr h

theorem foundAll_of_made {tag : Option String} {inner : MemoId} {done : List NodeId} {start : Nat}
    (h : Made L m inner start (.sequence tag done.reverse)) :
    FoundAll g L m tag inner done [] start :=
  .inl ⟨[], by simpa using h, fun _ => .nil start⟩

/-- The symbols of parts in order are **those of the first**, followed by those of the others. -/
theorem prefix_of_cons {d : Derivation} {ds : List Derivation} {start : Nat}
    (h : (d :: ds).flatMap yield <+: w.drop start) :
    d.yield <+: w.drop start ∧ ds.flatMap yield <+: w.drop (start + d.yield.length) := by
  rw [List.flatMap_cons] at h
  obtain ⟨rest, hrest⟩ := h
  rw [List.append_assoc] at hrest
  refine ⟨⟨_, hrest⟩, ⟨rest, ?_⟩⟩
  rw [← List.drop_drop, ← hrest, List.drop_left]

/-! ### Parts in order -/

section

variable (h : Faithful g w L m m.matched) (htasks : m.tasks = [])

include h htasks

theorem Faithful.foundAll_sequence {tag : Option String} {inner : MemoId} {d : Derivation}
    {ds : List Derivation} {done : List NodeId} {start : Nat}
    (hfound : ∀ x ∈ d :: ds, ∀ (id : MemoId) start, L.goals[id]? = some ⟨x.root, false, start⟩ →
      x.yield <+: w.drop start → Found g L m x id start)
    (hreg : Registered L m (.sequence tag inner done (ds.map root)) ⟨d.root, false, start⟩)
    (hw : (d :: ds).flatMap yield <+: w.drop start) :
    FoundAll g L m tag inner done (d :: ds) start := by
  induction ds generalizing d done start with
  | nil =>
    obtain ⟨id, hgoal, hhands⟩ := hreg
    obtain ⟨hfirst, -⟩ := prefix_of_cons hw
    rcases hfound d (by simp) id start hgoal hfirst with ⟨node, hrec, hrep⟩ | hgoes
    · exact .cons hrep (foundAll_of_made (h.taken htasks hrec hhands))
    · exact .inr (hgoes.mono (by simp))
  | cons d' ds ih =>
    obtain ⟨id, hgoal, hhands⟩ := hreg
    obtain ⟨hfirst, hothers⟩ := prefix_of_cons hw
    rcases hfound d (by simp) id start hgoal hfirst with ⟨node, hrec, hrep⟩ | hgoes
    · have hnext := registered_of_wanted htasks (h.taken htasks hrec hhands)
      exact .cons hrep (ih (fun x hx => hfound x (List.mem_cons_of_mem d hx)) hnext hothers)
    · exact .inr (hgoes.mono (by simp))

theorem Faithful.foundAll_repetition {tag : Option String} {inner : MemoId} {d : Derivation}
    {ds : List Derivation} {done : List NodeId} {start : Nat} {child : ExprId} {min : Nat}
    {max : Option Nat}
    (hfound : ∀ x ∈ d :: ds, ∀ (id : MemoId) start, L.goals[id]? = some ⟨x.root, false, start⟩ →
      x.yield <+: w.drop start → Found g L m x id start)
    (hroot : ∀ x ∈ d :: ds, x.root = child)
    (hsteady : ∀ before x y after, d :: ds = before ++ x :: y :: after → x.yield = [] →
      done.length + before.length + 1 < min)
    (hmin : min ≤ done.length + ds.length + 1)
    (hmax : ∀ n, max = some n → done.length + ds.length + 1 ≤ n)
    (hreg : Registered L m (.repetition tag inner done child (done.length + 1) min max)
      ⟨child, false, start⟩)
    (hw : (d :: ds).flatMap yield <+: w.drop start) :
    FoundAll g L m tag inner done (d :: ds) start := by
  induction ds generalizing d done start with
  | nil =>
    obtain ⟨id, hgoal, hhands⟩ := hreg
    obtain ⟨hfirst, -⟩ := prefix_of_cons hw
    rw [← hroot d (by simp)] at hgoal
    rcases hfound d (by simp) id start hgoal hfirst with ⟨node, hrec, hrep⟩ | hgoes
    · exact .cons hrep (foundAll_of_made ((h.taken htasks hrec hhands).1 (by simpa using hmin)))
    · exact .inr (hgoes.mono (by simp))
  | cons d' ds ih =>
    obtain ⟨id, hgoal, hhands⟩ := hreg
    obtain ⟨hfirst, hothers⟩ := prefix_of_cons hw
    rw [← hroot d (by simp)] at hgoal
    rw [List.length_cons] at hmin hmax
    rcases hfound d (by simp) id start hgoal hfirst with ⟨node, hrec, hrep⟩ | hgoes
    · have hbelow : max.all (done.length + 1 < ·) = true := by
        cases max with
        | none => rfl
        | some n =>
          have hn := hmax n rfl
          simpa using (by omega : done.length + 1 < n)
      -- an empty iteration that is followed by another has not reached the least number
      have hsolid : min ≤ done.length + 1 → ∀ n, m.nodes[node]? = some n →
          n.span.isEmpty = false := by
        intro hlate n hn
        have hne : d.yield ≠ [] := fun hempty => by
          have hlt := hsteady [] d d' ds rfl hempty
          rw [List.length_nil] at hlt
          omega
        have hpos := List.length_pos_iff.mpr hne
        obtain ⟨n', goal, hn', hsound⟩ := h.sound.exists_node hrec.1
        obtain rfl := Option.some.inj (hn.symm.trans hn')
        obtain rfl := Option.some.inj (hgoal.symm.trans hsound.works)
        rw [hsound.span]
        exact beq_false_of_ne (Nat.ne_of_lt (Nat.lt_add_of_pos_right hpos))
      have hnext := registered_of_wanted htasks ((h.taken htasks hrec hhands).2 hbelow hsolid)
      refine .cons hrep (ih (fun x hx => hfound x (List.mem_cons_of_mem d hx))
        (fun x hx => hroot x (List.mem_cons_of_mem d hx)) ?_ ?_ ?_ hnext hothers)
      · intro before x y after heq hempty
        have hlt := hsteady (d :: before) x y after (by rw [heq]; rfl) hempty
        simp only [List.length_cons] at hlt ⊢
        omega
      · rw [List.length_cons]
        omega
      · intro n hn
        have hle := hmax n hn
        rw [List.length_cons]
        omega
    · exact .inr (hgoes.mono (by simp))

/-- A sequence that the inner memo has made is **an alternative** of the outer memo's result. The
outer memo takes every sequence of the inner one, and makes a choice of them. -/
theorem Faithful.found_of_foundAll {id inner : MemoId} {expr : ExprId} {e : Expr} {start : Nat}
    {parts : List Derivation} (hgoal : L.goals[id]? = some ⟨expr, false, start⟩)
    (he : g.expr? expr = some e) (hinner : e.hasInner = true)
    (hgoal' : L.goals[inner]? = some ⟨expr, true, start⟩)
    (hhands : m.Hands inner (.choice none id))
    (hall : FoundAll g L m e.tag? inner [] parts start) :
    Found g L m (.sequence expr parts) id start := by
  rw [Found, yield_sequence]
  rcases hall with ⟨children, ⟨part, span, hresult, hnode⟩, hall⟩ | hgoes
  · have hrec : Recorded L m part inner (start + (parts.flatMap yield).length) :=
      h.sound.recorded hresult hgoal' fun _ _ hin => by cases hin
    obtain ⟨choice, hchoice, hpart⟩ := h.taken htasks hrec hhands
    have hne : choice ≠ part := by
      rintro rfl
      obtain ⟨rfl, -⟩ := Prod.mk.inj (Option.some.inj (hresult.symm.trans hchoice))
      cases hgoal.symm.trans hgoal'
    obtain ⟨tag, alternatives, span', hnode', hmem⟩ := hpart.resolve_left hne
    obtain ⟨n, goal, hn, hsound⟩ := h.sound.exists_node hchoice
    obtain rfl := Option.some.inj (hnode'.symm.trans hn)
    obtain rfl := Option.some.inj (hgoal.symm.trans hsound.works)
    obtain ⟨first, more, hkind, -⟩ := hsound.explained.of_hasInner he hinner
    obtain ⟨rfl, -⟩ := Forest.Kind.choice.inj hkind
    have hnot := Expr.isTerminal_of_hasInner hinner
    exact .inl ⟨choice, h.sound.recorded_of_expr hchoice hgoal he hnot, fun hacyclic =>
      .sequence he hinner ⟨id, hchoice, hgoal⟩ hnode' hmem ⟨inner, hresult, hgoal'⟩ hnode
        (hall fun x hx => hacyclic.of_mem_parts hx)⟩
  · exact .inr hgoes

omit htasks in
/-- A symbol is found **at once**, or its terminal matches here. -/
theorem Faithful.found_symbol {id : MemoId} {expr : ExprId} {e : Expr} {text : String}
    {start : Nat} (hgoal : L.goals[id]? = some ⟨expr, false, start⟩) (he : g.expr? expr = some e)
    (ha : e.accepts text = true) (hw : [text] <+: w.drop start) :
    Found g L m (.symbol expr text) id start := by
  have hsymbol : w[start]? = some text := by
    obtain ⟨rest, hrest⟩ := hw
    exact (symbol_of_drop hrest.symm).1
  obtain ⟨node, span, hresult, hnode⟩ :=
    made_of_expanded (h.exhaustive.expanded id expr start e hgoal he) hsymbol ha
  by_cases hmem : (node, id) ∈ m.matched
  · have hnext := (h.sound.matched node id hmem).1
    obtain ⟨-, hstop⟩ := Prod.mk.inj (Option.some.inj (hresult.symm.trans hnext))
    exact .inr ⟨Nat.lt_of_lt_of_eq (Nat.lt_succ_self _) hstop.symm, List.ne_nil_of_mem hmem⟩
  · exact .inl ⟨node, ⟨hresult, hmem⟩, fun _ => .symbol ⟨id, hresult, hgoal⟩ hnode⟩

/-- A choice is found where **the alternative** is found that it chooses. -/
theorem Faithful.found_choice {id : MemoId} {expr : ExprId} {tag : Option String}
    {children : List ExprId} {part : Derivation} {start : Nat}
    (hgoal : L.goals[id]? = some ⟨expr, false, start⟩)
    (he : g.expr? expr = some (.alt tag children)) (hc : part.root ∈ children)
    (hfound : ∀ inner, L.goals[inner]? = some ⟨part.root, false, start⟩ →
      Found g L m part inner start) :
    Found g L m (.choice expr part) id start := by
  have hwanted := h.exhaustive.expanded id expr start _ hgoal he part.root hc
  obtain ⟨inner, hgoal', hhands⟩ := registered_of_wanted htasks hwanted
  rcases hfound inner hgoal' with ⟨node, hrec, hrep⟩ | hgoes
  · obtain ⟨choice, hchoice, hnode⟩ := h.taken htasks hrec hhands
    refine .inl ⟨choice, h.sound.recorded_of_expr hchoice hgoal he rfl, fun hacyclic => ?_⟩
    -- a choice among itself would be a derivation of an expression by itself
    have hne : choice ≠ node := by
      rintro rfl
      obtain ⟨rfl, -⟩ := Prod.mk.inj (Option.some.inj (hrec.1.symm.trans hchoice))
      obtain ⟨hroot, -, -⟩ := Goal.mk.inj (Option.some.inj (hgoal'.symm.trans hgoal))
      exact hacyclic _ part (within_refl _) (.part (by simp [parts])) hroot rfl
    obtain ⟨tag', alternatives, span, hn, hmem⟩ := hnode.resolve_left hne
    obtain ⟨n, goal, hn', hsound⟩ := h.sound.exists_node hchoice
    obtain rfl := Option.some.inj (hn.symm.trans hn')
    obtain rfl := Option.some.inj (hgoal.symm.trans hsound.works)
    obtain ⟨first, more, hkind, -⟩ := hsound.explained.of_alt he
    obtain ⟨rfl, -⟩ := Forest.Kind.choice.inj hkind
    exact .choice he ⟨id, hchoice, hgoal⟩ hn hmem (hrep (hacyclic.of_mem_parts (by simp [parts])))
  · exact .inr hgoes

/-- **Every derivation is found** where its root is looked for. The proof goes by induction over the
derivation. That it is unstalled is needed where a repetition goes on after an empty iteration. -/
theorem Faithful.found {d : Derivation} (hd : d.Valid g) (hu : d.Unstalled g) {id : MemoId}
    {start : Nat} (hgoal : L.goals[id]? = some ⟨d.root, false, start⟩)
    (hw : d.yield <+: w.drop start) : Found g L m d id start := by
  induction d using induct_parts generalizing id start with
  | step d ih =>
  have hparts : ∀ x ∈ d.parts, ∀ (id : MemoId) start, L.goals[id]? = some ⟨x.root, false, start⟩ →
      x.yield <+: w.drop start → Found g L m x id start := fun x hx id start hgoal hw =>
    ih x hx (hd.of_mem_parts hx) (hu.of_mem_parts hx) hgoal hw
  cases hd with
  | symbol he ha => exact h.found_symbol hgoal he ha hw
  | @sequence expr tag parts he hvalid =>
    -- the memo has asked for all that its expression needs
    have hexpanded := h.exhaustive.expanded id expr start _ hgoal he
    cases parts with
    | nil =>
      obtain ⟨node, span, hresult, hnode⟩ := hexpanded
      exact .inl ⟨node, h.sound.recorded_of_expr hresult hgoal he rfl, fun _ =>
        .empty he ⟨id, hresult, hgoal⟩ hnode⟩
    | cons d ds =>
      obtain ⟨inner, hgoal', hhands, hwanted⟩ := hexpanded
      refine h.found_of_foundAll htasks hgoal he rfl hgoal' hhands ?_
      rw [yield_sequence] at hw
      exact h.foundAll_sequence htasks hparts (registered_of_wanted htasks hwanted) hw
  | @repetition expr tag child min max parts he hroot hmin hmax hvalid =>
    obtain ⟨inner, hgoal', hhands, hwanted, hmade⟩ :=
      h.exhaustive.expanded id expr start _ hgoal he
    refine h.found_of_foundAll htasks hgoal he rfl hgoal' hhands ?_
    -- the machine stops at an empty iteration, and so does the derivation
    have hsteady := hu _ (within_refl _) tag child min max he
    rw [yield_sequence] at hw
    cases parts with
    | nil => exact foundAll_of_made (hmade (Nat.le_zero.mp hmin))
    | cons d ds =>
      rw [List.length_cons] at hmin hmax
      have hnonzero : max ≠ some 0 := fun hzero => absurd (hmax 0 hzero) (Nat.not_succ_le_zero _)
      refine h.foundAll_repetition htasks hparts hroot ?_ (by simpa using hmin)
        (by simpa using hmax) (registered_of_wanted htasks (hwanted hnonzero)) hw
      simpa [Steady, parts] using hsteady
  | @choice expr tag children part he hc hpart =>
    exact h.found_choice htasks hgoal he hc fun inner hgoal' =>
      hparts part (by simp [parts]) inner start hgoal' hw
  | @omitted expr part he hpart =>
    have hwanted := h.exhaustive.expanded id expr start _ hgoal he
    obtain ⟨inner, hgoal', hhands⟩ := registered_of_wanted htasks hwanted
    rcases hparts part (by simp [parts]) inner start hgoal' hw with ⟨node, hrec, -⟩ | hgoes
    · obtain ⟨node', span, hresult, hnode⟩ := h.taken htasks hrec hhands
      exact .inl ⟨node', h.sound.recorded_of_expr hresult hgoal he rfl, fun _ =>
        .omitted ⟨id, hresult, hgoal⟩ hnode⟩
    · exact .inr hgoes
  | @lexical expr part he hpart =>
    have hwanted := h.exhaustive.expanded id expr start _ hgoal he
    obtain ⟨inner, hgoal', hhands⟩ := registered_of_wanted htasks hwanted
    rcases hparts part (by simp [parts]) inner start hgoal' hw with ⟨node, hrec, -⟩ | hgoes
    · obtain ⟨node', span, hresult, hnode⟩ := h.taken htasks hrec hhands
      exact .inl ⟨node', h.sound.recorded_of_expr hresult hgoal he rfl, fun _ =>
        .lexical ⟨id, hresult, hgoal⟩ hnode ⟨inner, hrec.1, hgoal'⟩⟩
    · exact .inr hgoes

/-- A derivation of the whole input by the start expression is found **among the roots**.
Completeness of the forest comes from this, and of recognition, too. -/
theorem Faithful.found_root {d : Derivation} (hd : d.Valid g) (hu : d.Unstalled g)
    (hroot : d.root = g.start) (hyield : d.yield = w) (hend : ¬ GoesOn m w.length) :
    ∃ root ∈ m.roots, L.Result root ⟨g.start, false, 0⟩ w.length ∧
      (d.Acyclic → Represents g L m.nodes root d 0) := by
  obtain ⟨id, hgoal, hhands⟩ := registered_of_wanted htasks h.exhaustive.start
  have hfound := h.found htasks hd hu (hroot ▸ hgoal) (hyield ▸ List.prefix_rfl)
  rw [Found, hyield, Nat.zero_add] at hfound
  obtain ⟨node, hrec, hrep⟩ := hfound.resolve_right hend
  exact ⟨node, h.taken htasks hrec hhands rfl, ⟨id, hrec.1, hgoal⟩, hrep⟩

end

end Machine

end GeneralParsing
