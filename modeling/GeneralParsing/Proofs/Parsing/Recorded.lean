import GeneralParsing.Proofs.Machine.Sought
import GeneralParsing.Proofs.Parsing.Recognition
import GeneralParsing.Proofs.Parsing.Unambiguous

/-!
# What a finished machine has recorded

A machine is `Finished` when it has read the whole input and has no task left. Its results are then
known from the grammar and the input alone. What is looked for has a result wherever a derivation of
it ends (`Finished.exists_result`). The result of an alternation is the choice among the results of
its children over the same symbols (`Finished.choice_of_alt`), and the result of a sequence is the
choice among all lists of results in order, each of which is recorded once
(`Finished.choice_of_seq`).
-/

namespace GeneralParsing

/-! ### Results in order -/

namespace Ledger

variable {L : Ledger} {nodes : List NodeId} {id : ExprId} {ids : List ExprId} {start stop : Nat}

theorem covers_nil_iff : L.Covers nodes [] start stop ↔ nodes = [] ∧ stop = start := by
  constructor
  · rintro ⟨⟩
    exact ⟨rfl, rfl⟩
  · rintro ⟨rfl, rfl⟩
    exact .nil _

theorem covers_cons_iff : L.Covers nodes (id :: ids) start stop ↔ ∃ a rest middle,
    nodes = a :: rest ∧ L.Result a ⟨id, false, start⟩ middle ∧ L.Covers rest ids middle stop := by
  constructor
  · rintro (_ | ⟨ha, hrest⟩)
    exact ⟨_, _, _, rfl, ha, hrest⟩
  · rintro ⟨a, rest, middle, rfl, ha, hrest⟩
    exact .cons ha hrest

end Ledger

namespace Machine

open GeneralParsing.Derivation

/-! ### Machines that are finished -/

/-- A faithful machine that **has read the whole input** and has nothing left to do. -/
structure Finished (g : Grammar) (w : List String) (L : Ledger) (m : Machine) : Prop where
  faithful : Faithful g w L m m.matched
  tasks : m.tasks = []
  position : m.position = w.length

variable {g : Grammar} {w : List String} {L : Ledger} {m : Machine}

/-- A forest is the forest **of a finished machine** with a root. Such a machine has recorded all
that the input calls for, which is what this module is about. -/
theorem exists_finished_of_parse {f : Forest} (hg : g.Closed) (hf : Forest.parse g w = .ok f) :
    ∃ L m root, Finished g w L m ∧ f = m.forest ∧ m.roots = [root] ∧
      L.Result root ⟨g.start, false, 0⟩ w.length := by
  obtain ⟨L, m, hfaithful, htasks, rfl, hposition, hroots⟩ :=
    Forest.exists_machine_of_parse hg hf
  obtain ⟨root, hroot, hresult⟩ := hfaithful.exists_root hroots
  exact ⟨L, m, root, ⟨hfaithful, htasks, hposition⟩, rfl, hroot, hposition ▸ hresult⟩

namespace Finished

variable {id child : ExprId} {ids : List ExprId} {tag : Option String} {start stop : Nat}
variable {node part : NodeId} {memo inner : MemoId} {goal : Goal} {nodes done : List NodeId}

section

variable (h : Finished g w L m)

include h

/-- At the end of the input **no terminal waits**. There is no symbol in sight that a terminal could
have matched. -/
theorem matched_eq_nil : m.matched = [] := by
  by_contra hne
  obtain ⟨⟨node, id⟩, hmem⟩ := List.exists_mem_of_ne_nil _ hne
  have hs := h.faithful.sound
  obtain ⟨hresult, expr, start, e, hgoal, -⟩ := hs.matched node id hmem
  obtain ⟨d, hd⟩ := h.faithful.exists_spans ⟨id, hresult, hgoal⟩
  obtain ⟨memo, -, hmemo⟩ := hs.exists_memo hgoal
  have hstart : start ≤ m.position := hmemo.start_le
  have hlen : d.yield.length ≤ (w.drop start).length := hd.reads.length_le
  have hends : start + d.yield.length = m.position + 1 := hd.ends
  rw [List.length_drop, ← h.position] at hlen
  omega

theorem recorded (hresult : L.results[node]? = some (memo, stop)) : Recorded L m node memo stop :=
  ⟨hresult, by simp [h.matched_eq_nil]⟩

/-- A continuation has taken **every result** of what it is registered with. Whether it came before
or after the registration makes no difference. -/
theorem taken {next : Continuation} (hreg : Registered L m next goal)
    (hn : L.Result node goal stop) : Taken w L m m.tasks node stop next := by
  obtain ⟨memo, hgoal, hhands⟩ := hreg
  obtain ⟨memo', hresult, hgoal'⟩ := hn
  obtain rfl := h.faithful.distinct.goal memo memo' goal hgoal hgoal'
  exact h.faithful.taken h.tasks (h.recorded hresult) hhands

/-- What is looked for **has a result** wherever a derivation of it ends. In particular it has one
for every stretch of the input over which it can be derived. -/
theorem exists_result {v : List String} (hs : g.Sought w id start) (hd : g.Derives id v)
    (hv : v <+: w.drop start) (hle : start + v.length ≤ w.length) :
    ∃ node, L.Result node ⟨id, false, start⟩ (start + v.length) := by
  rw [← h.position] at hle
  obtain ⟨memo, hgoal⟩ :=
    h.faithful.exists_goal_of_sought h.tasks hs (Nat.le_trans (Nat.le_add_right _ _) hle)
  obtain ⟨d, hvalid, rfl, rfl⟩ := Grammar.derives_iff.mp hd
  obtain ⟨node, hrec⟩ := h.faithful.exists_recorded h.tasks hvalid hgoal hv hle
  exact ⟨node, memo, hrec.1, hgoal⟩

/-! ### Single nodes -/

/-- The result of a terminal **is the symbol** that it accepts. -/
theorem symbol_of_isTerminal {e : Expr} (he : g.expr? id = some e) (ht : e.isTerminal = true)
    (hn : L.Result node ⟨id, false, start⟩ stop) : ∃ text, stop = start + 1 ∧
      w[start]? = some text ∧ e.accepts text = true ∧
        m.forest.node? node = some ⟨.symbol text, ⟨start, start + 1⟩⟩ := by
  obtain ⟨kind, hnode, hex⟩ := h.faithful.sound.explained hn
  cases hex with
  | symbol he' ha hw =>
    cases he.symm.trans he'
    exact ⟨_, rfl, hw, ha, hnode⟩
  | inner he' hinner =>
    cases he.symm.trans he'
    rw [Expr.isTerminal_of_hasInner hinner] at ht
    cases ht
  | empty he' | choice he' | omitted he' | lexical he' =>
    cases he.symm.trans he'
    cases ht

/-- The result of a sequence without children **is empty**. -/
theorem sequence_of_empty (he : g.expr? id = some (.seq tag []))
    (hn : L.Result node ⟨id, false, start⟩ stop) : stop = start ∧
      m.forest.node? node = some ⟨.sequence tag [], ⟨start, start⟩⟩ := by
  obtain ⟨kind, hnode, hex⟩ := h.faithful.sound.explained hn
  cases hex with
  | empty he' =>
    cases he.symm.trans he'
    exact ⟨rfl, hnode⟩
  | symbol he' ha =>
    cases he.symm.trans he'
    cases ha
  | inner he' hinner =>
    cases he.symm.trans he'
    cases hinner
  | choice he' | omitted he' | lexical he' => cases he.symm.trans he'

/-! ### Alternations -/

/-- A result of a child **is an alternative** of the result of the alternation. The alternation
itself is left out, as a choice is never its own alternative. -/
theorem exists_choice_of_alternative (hgoal : L.goals[memo]? = some ⟨id, false, start⟩)
    (he : g.expr? id = some (.alt tag ids)) (hc : child ∈ ids) (hne : child ≠ id)
    (hn : L.Result part ⟨child, false, start⟩ stop) :
    ∃ node tag alternatives span, L.Result node ⟨id, false, start⟩ stop ∧
      m.nodes[node]? = some ⟨.choice tag alternatives, span⟩ ∧ part ∈ alternatives := by
  have hwanted := h.faithful.exhaustive.expanded memo id start _ hgoal he child hc
  obtain ⟨node, hresult, hnode⟩ := h.taken (registered_of_wanted h.tasks hwanted) hn
  have hresult' : L.Result node ⟨id, false, start⟩ stop := ⟨memo, hresult, hgoal⟩
  rcases hnode with rfl | ⟨tag, alternatives, span, hnode, hmem⟩
  · exact absurd (Goal.mk.inj (hn.unique hresult').1).1 hne
  · exact ⟨node, tag, alternatives, span, hresult', hnode, hmem⟩

/-- The alternatives of an alternation's result are **the results of its children**. Each of them
stands there once. -/
theorem choice_of_alt (he : g.expr? id = some (.alt tag ids)) (hids : id ∉ ids)
    (hn : L.Result node ⟨id, false, start⟩ stop) : ∃ alternatives,
      m.forest.node? node = some ⟨.choice tag alternatives, ⟨start, stop⟩⟩ ∧
        alternatives.Nodup ∧ alternatives ≠ [] ∧
          ∀ a, a ∈ alternatives ↔ ∃ child ∈ ids, L.Result a ⟨child, false, start⟩ stop := by
  obtain ⟨kind, hnode, hex⟩ := h.faithful.sound.explained hn
  obtain ⟨first, more, rfl, -, hresults⟩ := hex.of_alt he
  have hnodup := h.faithful.distinct.alternatives node tag _ _ hnode
  refine ⟨first :: more, hnode, hnodup, by simp, fun a => ⟨hresults a, ?_⟩⟩
  rintro ⟨child, hc, ha⟩
  obtain ⟨memo, hresult, hgoal⟩ := hn
  obtain ⟨node', tag', alternatives, span, hresult', hnode', hmem⟩ :=
    h.exists_choice_of_alternative hgoal he hc (fun heq => hids (heq ▸ hc)) ha
  obtain rfl := h.faithful.result_unique ⟨memo, hresult, hgoal⟩ hresult'
  cases hnode.symm.trans hnode'
  exact hmem

/-- If only one of the children has a result there, that is **the only alternative**. -/
theorem choice_of_only (he : g.expr? id = some (.alt tag ids)) (hids : id ∉ ids)
    (hn : L.Result node ⟨id, false, start⟩ stop)
    (honly : ∀ other ∈ ids, ∀ a, L.Result a ⟨other, false, start⟩ stop → other = child) :
    ∃ a, L.Result a ⟨child, false, start⟩ stop ∧
      m.forest.node? node = some ⟨.choice tag [a], ⟨start, stop⟩⟩ := by
  obtain ⟨alternatives, hnode, hnodup, hne, hmem⟩ := h.choice_of_alt he hids hn
  have hresult : ∀ a ∈ alternatives, L.Result a ⟨child, false, start⟩ stop := by
    intro a ha
    obtain ⟨other, hother, ha⟩ := (hmem a).mp ha
    exact honly other hother a ha ▸ ha
  obtain ⟨a, rest, rfl⟩ := List.exists_cons_of_ne_nil hne
  obtain ⟨ha, hrest⟩ := List.forall_mem_cons.mp hresult
  obtain rfl : rest = [] := List.eq_nil_iff_forall_not_mem.mpr fun b hb =>
    (List.nodup_cons.mp hnodup).1 (h.faithful.result_unique (hrest b hb) ha ▸ hb)
  exact ⟨a, ha, hnode⟩

/-! ### Sequences -/

/-- Results in order **are recorded** as a list. The induction is on the results, each of which the
continuation takes from the one before. -/
theorem made_of_covers (hreg : Registered L m (.sequence tag inner done ids) ⟨id, false, start⟩)
    (hc : L.Covers (node :: nodes) (id :: ids) start stop) :
    Made L m inner stop (.sequence tag (done.reverse ++ node :: nodes)) := by
  -- the continuation goes on from child to child, with what is done so far
  induction ids generalizing id done start node nodes with
  | nil =>
    cases hc with
    | cons hn hs =>
      cases hs
      have hmade := h.taken hreg hn
      rwa [Taken, List.reverse_cons] at hmade
  | cons id' ids ih =>
    cases hc with
    | cons hn hs =>
      cases hs with
      | @cons node' _ nodes' =>
        have hnext := registered_of_wanted h.tasks (h.taken hreg hn)
        have hmade := ih hnext (.cons ‹_› ‹_›)
        rwa [List.reverse_cons, List.append_assoc, List.singleton_append] at hmade

/-- Results in order are recorded **among the alternatives** of the result of the sequence. -/
theorem exists_choice_of_covers (hgoal : L.goals[memo]? = some ⟨id, false, start⟩)
    (he : g.expr? id = some (.seq tag (child :: ids)))
    (hc : L.Covers nodes (child :: ids) start stop) :
    ∃ node alternatives part span span', L.Result node ⟨id, false, start⟩ stop ∧
      m.nodes[node]? = some ⟨.choice none alternatives, span⟩ ∧ part ∈ alternatives ∧
        m.nodes[part]? = some ⟨.sequence tag nodes, span'⟩ := by
  obtain ⟨inner, hgoal', hhands, hwanted⟩ :=
    h.faithful.exhaustive.expanded memo id start _ hgoal he
  cases hc with
  | cons hn hs =>
    obtain ⟨part, span', hpart, hnode'⟩ :=
      h.made_of_covers (registered_of_wanted h.tasks hwanted) (.cons hn hs)
    obtain ⟨node, hresult, hnode⟩ := h.taken ⟨inner, hgoal', hhands⟩ ⟨inner, hpart, hgoal'⟩
    have hresult' : L.Result node ⟨id, false, start⟩ stop := ⟨memo, hresult, hgoal⟩
    have hpart' : L.Result part ⟨id, true, start⟩ stop := ⟨inner, hpart, hgoal'⟩
    rcases hnode with rfl | ⟨tag', alternatives, span, hnode, hmem⟩
    · cases (hpart'.unique hresult').1
    · obtain ⟨first, more, hkind, -⟩ :=
        (h.faithful.sound.explained_of_node hresult' hnode).of_hasInner he rfl
      obtain ⟨rfl, -⟩ := Forest.Kind.choice.inj hkind
      exact ⟨node, alternatives, part, span, span', hresult', hnode, hmem, hnode'⟩

/-- An inner result of a sequence **lists results in order**. -/
theorem sequence_of_inner (he : g.expr? id = some (.seq tag (child :: ids)))
    (hn : L.Result node ⟨id, true, start⟩ stop) : ∃ nodes,
      L.Covers nodes (child :: ids) start stop ∧
        m.forest.node? node = some ⟨.sequence tag nodes, ⟨start, stop⟩⟩ := by
  obtain ⟨kind, hnode, hex⟩ := h.faithful.sound.explained hn
  cases hex with
  | sequence he' hcovers =>
    cases he.symm.trans he'
    exact ⟨_, hcovers, hnode⟩
  | repetition he' => cases he.symm.trans he'

/-- A list is recorded **once**. So alternatives can be told apart by what they list. -/
theorem eq_of_sequence {node' : NodeId} {tag' : Option String} {span span' : Span}
    (hn : L.Result node ⟨id, true, start⟩ stop) (hn' : L.Result node' ⟨id, true, start⟩ stop)
    (hnode : m.forest.node? node = some ⟨.sequence tag nodes, span⟩)
    (hnode' : m.forest.node? node' = some ⟨.sequence tag' nodes, span'⟩) : node = node' := by
  obtain ⟨memo, hresult, hgoal⟩ := hn
  obtain ⟨memo', hresult', hgoal'⟩ := hn'
  obtain rfl := h.faithful.distinct.goal memo memo' _ hgoal hgoal'
  exact (h.faithful.distinct.once memo nodes).one node node' ⟨⟨stop, hresult⟩, tag, span, hnode⟩
    ⟨⟨stop, hresult'⟩, tag', span', hnode'⟩

/-- The alternatives of a sequence's result are **all lists of results in order**, each once. There
is one alternative for each way to divide the stretch among the parts. -/
theorem choice_of_seq (he : g.expr? id = some (.seq tag (child :: ids)))
    (hn : L.Result node ⟨id, false, start⟩ stop) : ∃ alternatives, ∃ parts : NodeId → List NodeId,
      m.forest.node? node = some ⟨.choice none alternatives, ⟨start, stop⟩⟩ ∧ alternatives ≠ [] ∧
        (∀ a ∈ alternatives, L.Result a ⟨id, true, start⟩ stop ∧
          m.forest.node? a = some ⟨.sequence tag (parts a), ⟨start, stop⟩⟩) ∧
        (alternatives.map parts).Nodup ∧
        ∀ nodes, nodes ∈ alternatives.map parts ↔ L.Covers nodes (child :: ids) start stop := by
  obtain ⟨kind, hnode, hex⟩ := h.faithful.sound.explained hn
  obtain ⟨first, more, rfl, -, hresults⟩ := hex.of_hasInner he rfl
  have hne : first :: more ≠ [] := List.cons_ne_nil first more
  generalize first :: more = alternatives at hnode hresults hne
  choose! parts hcovers hparts using fun a ha => h.sequence_of_inner he (hresults a ha)
  have hnodup := h.faithful.distinct.alternatives node none _ _ hnode
  refine ⟨alternatives, parts, hnode, hne, fun a ha => ⟨hresults a ha, hparts a ha⟩, ?_,
    fun nodes => ⟨fun hmem => ?_, fun hc => ?_⟩⟩
  · refine hnodup.map_on fun a ha b hb hab => ?_
    have hlist := hparts a ha
    rw [hab] at hlist
    exact h.eq_of_sequence (hresults a ha) (hresults b hb) hlist (hparts b hb)
  · obtain ⟨a, ha, rfl⟩ := List.mem_map.mp hmem
    exact hcovers a ha
  · obtain ⟨memo, hresult, hgoal⟩ := hn
    obtain ⟨node', alternatives', part, span, span', hresult', hnode', hmem, hpart⟩ :=
      h.exists_choice_of_covers hgoal he hc
    obtain rfl := h.faithful.result_unique ⟨memo, hresult, hgoal⟩ hresult'
    cases hnode.symm.trans hnode'
    have hlist := (hparts part hmem).symm.trans hpart
    obtain ⟨hkind, -⟩ := Forest.Node.mk.inj (Option.some.inj hlist)
    exact List.mem_map.mpr ⟨part, hmem, (Forest.Kind.sequence.inj hkind).2⟩

/-- If there is only one list of results in order, that is **the only alternative**. This is the
case in which the grammar leaves no choice. -/
theorem choice_of_only_list (he : g.expr? id = some (.seq tag (child :: ids)))
    (hn : L.Result node ⟨id, false, start⟩ stop)
    (honly : ∀ nodes nodes', L.Covers nodes (child :: ids) start stop →
      L.Covers nodes' (child :: ids) start stop → nodes = nodes') :
    ∃ a nodes, L.Result a ⟨id, true, start⟩ stop ∧ L.Covers nodes (child :: ids) start stop ∧
      m.forest.node? node = some ⟨.choice none [a], ⟨start, stop⟩⟩ ∧
        m.forest.node? a = some ⟨.sequence tag nodes, ⟨start, stop⟩⟩ := by
  obtain ⟨alternatives, parts, hnode, hne, hparts, hnodup, hcovers⟩ := h.choice_of_seq he hn
  have hlists : ∀ a ∈ alternatives, L.Covers (parts a) (child :: ids) start stop := fun a ha =>
    (hcovers _).mp (List.mem_map_of_mem ha)
  obtain ⟨a, rest, rfl⟩ := List.exists_cons_of_ne_nil hne
  obtain ⟨ha, hrest⟩ := List.forall_mem_cons.mp hlists
  obtain rfl : rest = [] := List.eq_nil_iff_forall_not_mem.mpr fun b hb => by
    refine (List.nodup_cons.mp hnodup).1 ?_
    rw [honly _ _ ha (hrest b hb)]
    exact List.mem_map_of_mem hb
  obtain ⟨hresult, hlist⟩ := hparts a (List.mem_singleton_self a)
  exact ⟨a, parts a, hresult, ha, hnode, hlist⟩

/-! ### The number of nodes -/

/-- Where no goal has two results that end at one position, there are **as many nodes as goals with
positions** where they have a result. -/
theorem size_eq_length {keys : List (Goal × Nat)} (hnodup : keys.Nodup)
    (hkeys : ∀ goal stop, (goal, stop) ∈ keys ↔ ∃ node, L.Result node goal stop)
    (hunique : ∀ a b goal stop, L.Result a goal stop → L.Result b goal stop → a = b) :
    m.forest.size = keys.length := by
  have hkey : ∀ node ∈ List.range m.forest.size, ∃ key : Goal × Nat,
      L.Result node key.1 key.2 := by
    intro node hnode
    obtain ⟨memo, goal, stop, hsound⟩ := h.faithful.sound.node node _
      (Array.getElem?_eq_getElem (List.mem_range.mp hnode))
    exact ⟨(goal, stop), memo, hsound.result, hsound.works⟩
  have : Nonempty (Goal × Nat) := ⟨⟨0, false, 0⟩, 0⟩
  choose! key hkey using hkey
  have hmap : ((List.range m.forest.size).map key).Nodup :=
    List.nodup_range.map_on fun a ha b hb hab =>
      hunique a b _ _ (hkey a ha) (hab ▸ hkey b hb)
  have hperm : ((List.range m.forest.size).map key).Perm keys := by
    refine (List.perm_ext_iff_of_nodup hmap hnodup).mpr fun ⟨goal, stop⟩ => ?_
    rw [hkeys, List.mem_map]
    constructor
    · rintro ⟨node, hnode, heq⟩
      have hn := hkey node hnode
      rw [heq] at hn
      exact ⟨node, hn⟩
    · rintro ⟨node, hn⟩
      have hnode := List.mem_range.mpr (h.faithful.sound.lt_of_result hn)
      obtain ⟨hgoal, hstop⟩ := (hkey node hnode).unique hn
      exact ⟨node, hnode, Prod.ext hgoal hstop⟩
  simpa using hperm.length_eq

end

end Finished

/-! ### Paths through results -/

/-- A path comes **down to a height**: all results on it are higher. -/
structure Descent (L : Ledger) (m : Machine) (height : Goal → Nat → Nat) (path : List NodeId)
    (n : Nat) : Prop where
  isPath : m.forest.IsPath path
  higher : ∀ id ∈ path, ∃ goal stop, L.Result id goal stop ∧ n < height goal stop

namespace Descent

variable {height : Goal → Nat → Nat} {path : List NodeId} {n n' : Nat} {node : NodeId}
variable {goal : Goal} {stop : Nat}

theorem nil (L : Ledger) (m : Machine) (height : Goal → Nat → Nat) (n : Nat) :
    Descent L m height [] n :=
  ⟨Forest.isPath_nil _, by simp⟩

/-- A result that is no higher **is not on the path**. Along a descent heights decrease, so the walk
is not cut there. -/
theorem not_mem (hp : Descent L m height path n) (hn : L.Result node goal stop)
    (hle : height goal stop ≤ n) : node ∉ path := by
  intro hmem
  obtain ⟨goal', stop', hn', hlt⟩ := hp.higher node hmem
  obtain ⟨rfl, rfl⟩ := hn.unique hn'
  omega

/-- Through such a result the path **goes further down**. -/
theorem cons (hp : Descent L m height path n) (h : Finished g w L m)
    (hn : L.Result node goal stop) (hle : height goal stop ≤ n) (hlt : n' < height goal stop) :
    Descent L m height (node :: path) n' where
  isPath := hp.isPath.cons (h.faithful.sound.lt_of_result hn) (hp.not_mem hn hle)
  higher := by
    refine List.forall_mem_cons.mpr ⟨⟨goal, stop, hn, hlt⟩, fun id hid => ?_⟩
    obtain ⟨goal', stop', hn', hlt'⟩ := hp.higher id hid
    exact ⟨goal', stop', hn', by omega⟩

end Descent

end Machine

end GeneralParsing
