import GeneralParsing.Proofs.Dialect.RoundTrip
import GeneralParsing.Proofs.Extraction.Ways
import GeneralParsing.Proofs.Parsing.ErrorPolicy
import GeneralParsing.Proofs.Parsing.Recorded
import GeneralParsing.Rules.Compile

/-!
# Sums with binary operators

In the grammar of `E = E ("+" | "*") E | "1"` an input of operands with operators between them can
be split at any operator into two inputs of that kind. So it has as many trees as there are ways to
put it in parentheses, the Catalan number of its operators.

Positions are counted in operands. `IsSum` are the results of the expression from the operand at `i`
over `k` operators. Each such stretch has one result (`Finished.exists_isSum`), whose alternatives
are its splits, each once (`Finished.covers_iff`), and this is the recursion of the Catalan numbers
(`Finished.ways_sum`). A node for a stretch is met below longer stretches only, so no path comes to
a node twice. All alternatives are kept where there is at most one operator, whatever the policy;
with more of them there are several trees, and the error policy finds the input ambiguous.
-/

namespace GeneralParsing

namespace Forest

/-- A lone root that reads in several ways is **ambiguous**. -/
theorem ambiguous_of_ways {f : Forest} {o : ParseOptions} {root : NodeId} (hf : f.Closed)
    (hroots : f.roots = [root])
    (h : HasTrees (f.freshOutput { o with ambiguity := .packed } [] root))
    (hways : ways (f.freshOutput { o with ambiguity := .packed } [] root) ≠ 1) :
    f.extract { o with ambiguity := .error } = .error .ambiguous := by
  rcases extract_cases hf { o with ambiguity := .error } with ⟨t, n, herror⟩ | hambiguous
  · -- nothing is packed in the tree, and the packed policy has the same one
    have htree := freshTree_of_extract herror
    have hunpacked : t.plain.Unpacked := unpacked_freshTree (by simp) htree
    have hpacked := follows_freshTree f o .packed t.plain htree
    obtain ⟨ts, hout, -⟩ := h
    rw [hout] at hways
    rw [freshTree_of_root hroots hout] at hpacked
    have hnumber := number_plainRoot f { o with ambiguity := .packed } ts
    rw [Except.ok.inj hpacked, ← Tree.length_readingsAt _ false, hunpacked.readingsAt_eq] at hnumber
    exact absurd hnumber.symm hways
  · exact hambiguous

end Forest

namespace BinarySums

open Dialect Machine Forest
open GeneralParsing.Derivation

/-! ### The grammar -/

/-- The source text. -/
def source : List Char := "E = E (\"+\" | \"*\") E | \"1\"".toList

/-- The rule that the text stands for. -/
def sumRule : Rule :=
  ⟨"E", false, .alt [.seq [.symbol "E", .alt [.literal "+", .literal "*"], .symbol "E"],
    .literal "1"]⟩

/-- The expressions of the rule. -/
def grammar : Grammar where
  exprs := #[.alt (some "E") [4, 5], .token "+", .token "*", .alt none [1, 2],
    .seq none [0, 3, 0], .token "1", .alt (some "E") [4, 5]]
  start := 0
  start_lt := by decide

/-- The text **writes the rule**. -/
theorem writesText_source : WritesText [sumRule] source := by
  have hblank : Blanks [' '] := by decide
  have hequals : ['='] ∈ definitionSigns := by decide
  have hname : IsName "E" := by decide
  have hoperator : WritesAtom (.alt [.literal "+", .literal "*"]) _ :=
    .paren blanks_nil (.alt (.item (.atom (.literal "+")))
      (.cons hblank hblank (.item (.atom (.literal "*"))) .nil)) blanks_nil
  have hsum : WritesBranch
      (.seq [.symbol "E", .alt [.literal "+", .literal "*"], .symbol "E"]) _ :=
    .seq (.atom (.symbol hname)) (.cons hblank (List.cons_ne_nil _ _) (.atom hoperator)
      (.cons hblank (List.cons_ne_nil _ _) (.atom (.symbol hname)) .nil))
  have hrule : WritesRule sumRule _ := .rule hname hblank hequals hblank
    (.alt hsum (.cons hblank hblank (.item (.atom (.literal "1"))) .nil))
  exact .plain blanks_nil hrule .nil blanks_nil

/-- The text **compiles** to the grammar, split into characters or not. -/
theorem compile_source [KnownPatterns] (split : Bool) :
    Grammar.compile split source = .ok grammar := by
  rw [Grammar.compile, rules_eq_of_writesText writesText_source]
  cases split <;> rfl

/-! ### Inputs -/

/-- Operators **between operands**. -/
def sum (ops : List String) : List String := "1" :: ops.flatMap fun op => [op, "1"]

/-- The symbols that may stand **between operands**. -/
def IsOperator (op : String) : Prop := op = "+" ∨ op = "*"

variable {ops : List String} {op : String} {i j k n : Nat}

/-- There is **one operand more** than there are operators. -/
theorem length_sum (ops : List String) : (sum ops).length = 2 * ops.length + 1 := by
  simp [sum, List.length_flatMap, Nat.mul_comm]

/-- A sum comes apart **at any of its operators**. The operator that stands there is the root of a
derivation, and both sides are sums. -/
theorem sum_append (as : List String) (op : String) (bs : List String) :
    sum (as ++ op :: bs) = sum as ++ op :: sum bs := by
  simp [sum]

/-- An input **splits at any operator**. -/
theorem sum_split (h : i < ops.length) :
    sum ops = sum (ops.take i) ++ ops[i] :: sum (ops.drop (i + 1)) := by
  rw [← sum_append, ← List.drop_eq_getElem_cons h, List.take_append_drop]

/-- From an operand on, what is left **is a sum**. -/
theorem drop_sum (h : i ≤ ops.length) : (sum ops).drop (2 * i) = sum (ops.drop i) := by
  induction i generalizing ops with
  | zero => rfl
  | succ i ih =>
    obtain ⟨op, ops, rfl⟩ := List.exists_cons_of_length_pos (Nat.lt_of_lt_of_le i.succ_pos h)
    rw [Nat.mul_succ]
    exact ih (Nat.le_of_succ_le_succ h)

/-- From an operator on, what is left is **the operator and a sum**. -/
theorem drop_sum_operator (h : j < ops.length) :
    (sum ops).drop (2 * j + 1) = ops[j] :: sum (ops.drop (j + 1)) := by
  rw [← List.drop_drop, drop_sum (Nat.le_of_lt h), List.drop_eq_getElem_cons h]
  rfl

/-- A sum begins with **the sums of fewer operators**. -/
theorem sum_take_isPrefix (ops : List String) (k : Nat) : sum (ops.take k) <+: sum ops := by
  refine ⟨(ops.drop k).flatMap fun op => [op, "1"], ?_⟩
  rw [sum, sum, List.cons_append, ← List.flatMap_append, List.take_append_drop]

/-! ### Derivations -/

theorem closed_grammar : grammar.Closed := by
  rw [Grammar.Closed, grammar]
  decide

/-- Each operator **is derived** by the choice among them. -/
theorem derives_operator (h : IsOperator op) : grammar.Derives 3 [op] := by
  have hplus : (1 : ExprId) ∈ [1, 2] := by decide
  have htimes : (2 : ExprId) ∈ [1, 2] := by decide
  rcases h with rfl | rfl
  · exact .choice rfl hplus (.terminal rfl rfl)
  · exact .choice rfl htimes (.terminal rfl rfl)

/-- **Sums are derived** from the rule, here with the operators bound to the left. All that matters
here is that there is a derivation, not which. -/
theorem derives_sum (h : ∀ op ∈ ops, IsOperator op) : grammar.Derives 0 (sum ops) := by
  have hsum : (4 : ExprId) ∈ [4, 5] := by decide
  have hone : (5 : ExprId) ∈ [4, 5] := by decide
  have hoperand : grammar.Derives 0 ["1"] := .choice rfl hone (.terminal rfl rfl)
  induction ops with
  | nil => exact hoperand
  | cons op ops ih =>
    obtain ⟨hop, hops⟩ := List.forall_mem_cons.mp h
    have hparts := Grammar.DerivesAll.cons hoperand
      (.cons (derives_operator hop) (.cons (ih hops) .nil))
    rw [List.append_nil] at hparts
    exact .choice rfl hsum (.sequence rfl hparts)

/-- Every derivation is **of odd length**: sequences have three parts. So no operand ends where an
operator does, and places can be told apart by their parity. -/
theorem odd_length {d : Derivation} (hd : d.Valid grammar) : d.yield.length % 2 = 1 := by
  have hseq : ∀ id tag ids, grammar.expr? id = some (.seq tag ids) → ids = [0, 3, 0] := by
    intro id tag ids he
    have hmem := Array.mem_of_getElem? he
    simp [grammar] at hmem
    exact hmem.2
  have hrep : ∀ id tag child min max, grammar.expr? id ≠ some (.rep tag child min max) := by
    intro id tag child min max he
    have hmem := Array.mem_of_getElem? he
    simp [grammar] at hmem
  induction hd with
  | symbol => rfl
  | sequence he hparts ih =>
    have hlen := congrArg List.length (hseq _ _ _ he)
    rw [List.length_map] at hlen
    obtain ⟨a, b, c, rfl⟩ := List.length_eq_three.mp hlen
    have ha := ih a (by simp)
    have hb := ih b (by simp)
    have hc := ih c (by simp)
    simp only [yield_sequence, List.flatMap_cons, List.flatMap_nil, List.length_append,
      List.length_nil]
    omega
  | repetition he => exact absurd he (hrep _ _ _ _ _)
  | choice _ _ _ ih | omitted _ _ ih | lexical _ _ ih => exact ih

/-! ### What is looked for -/

/-- The recursion is looked for **at the beginning**. -/
theorem sought_sum : grammar.Sought (sum ops) 4 0 := by
  have hsum : (4 : ExprId) ∈ [4, 5] := by decide
  exact .alternative .start rfl hsum

/-- Operators are looked for **behind operands**. -/
theorem sought_operator (hops : ∀ op ∈ ops, IsOperator op) (hj : j < ops.length) :
    grammar.Sought (sum ops) 3 (2 * j + 1) := by
  have he : grammar.expr? 4 = some (.seq none ([0] ++ 3 :: [0])) := rfl
  have hv : grammar.DerivesAll [0] (sum (ops.take j)) := by
    have hsum : grammar.Derives 0 (sum (ops.take j)) :=
      derives_sum fun op hop => hops op (List.mem_of_mem_take hop)
    simpa using Grammar.DerivesAll.cons hsum .nil
  have hs := sought_sum.part he hv (sum_take_isPrefix ops j)
  rwa [length_sum, List.length_take, Nat.min_eq_left (Nat.le_of_lt hj), Nat.zero_add] at hs

/-- Sums are looked for **at every operand**. The first is looked for from the start, and another
one behind each operator. -/
theorem sought_operand (hops : ∀ op ∈ ops, IsOperator op) (hi : i ≤ ops.length) :
    grammar.Sought (sum ops) 0 (2 * i) := by
  cases i with
  | zero => exact .start
  | succ i =>
    have he : grammar.expr? 4 = some (.seq none ([0, 3] ++ 0 :: [])) := rfl
    have hv : grammar.DerivesAll [0, 3] (sum (ops.take i) ++ [ops[i]]) := by
      have hsum : grammar.Derives 0 (sum (ops.take i)) :=
        derives_sum fun op hop => hops op (List.mem_of_mem_take hop)
      have hop := derives_operator (hops _ (List.getElem_mem hi))
      simpa using Grammar.DerivesAll.cons hsum (.cons hop .nil)
    have hw : sum (ops.take i) ++ [ops[i]] <+: sum ops := by
      refine ⟨sum (ops.drop (i + 1)), ?_⟩
      rw [List.append_assoc, List.singleton_append, ← sum_split hi]
    have hs := sought_sum.part he hv hw
    rw [List.length_append, length_sum, List.length_take, Nat.min_eq_left (Nat.le_of_succ_le hi),
      List.length_singleton, Nat.zero_add] at hs
    exact hs

/-! ### Results -/

section

variable {L : Ledger} {m : Machine} {node : NodeId} {nodes nodes' : List NodeId}
variable {start stop : Nat}

/-- A result of the expression from the operand at `i` **over `k` operators**. -/
def IsSum (L : Ledger) (node : NodeId) (i k : Nat) : Prop :=
  L.Result node ⟨0, false, 2 * i⟩ (2 * (i + k) + 1)

/-- A result for the operator **behind the operand** at `j`. -/
def Joins (L : Ledger) (node : NodeId) (j : Nat) : Prop :=
  L.Result node ⟨3, false, 2 * j + 1⟩ (2 * (j + 1))

variable (h : Finished grammar (sum ops) L m)
include h

/-- Every stretch from operand to operand **has a result**. Whatever is looked for and is there has
a result, and this is so from any operand on. -/
theorem exists_isSum (hops : ∀ op ∈ ops, IsOperator op) (hle : i + k ≤ ops.length) :
    ∃ node, IsSum L node i k := by
  have hi : i ≤ ops.length := Nat.le_of_add_right_le hle
  have hlen : (sum ((ops.drop i).take k)).length = 2 * k + 1 := by
    rw [length_sum, List.length_take, List.length_drop, Nat.min_eq_left (Nat.le_sub_of_add_le' hle)]
  have hv : grammar.Derives 0 (sum ((ops.drop i).take k)) :=
    derives_sum fun op hop => hops op (List.mem_of_mem_drop (List.mem_of_mem_take hop))
  have hw : sum ((ops.drop i).take k) <+: (sum ops).drop (2 * i) := by
    rw [drop_sum hi]
    exact sum_take_isPrefix _ k
  obtain ⟨node, hn⟩ := h.exists_result (sought_operand hops hi) hv hw (by
    rw [hlen, length_sum]
    omega)
  rw [hlen, ← Nat.add_assoc, ← Nat.mul_add] at hn
  exact ⟨node, hn⟩

/-- Every operator **has a result** behind its operand. -/
theorem exists_joins (hops : ∀ op ∈ ops, IsOperator op) (hj : j < ops.length) :
    ∃ node, Joins L node j := by
  have hv : [ops[j]] <+: (sum ops).drop (2 * j + 1) := by
    rw [drop_sum_operator hj]
    exact List.prefix_append [ops[j]] _
  have hle : 2 * j + 1 + [ops[j]].length ≤ (sum ops).length := by
    rw [length_sum, List.length_singleton]
    omega
  exact h.exists_result (sought_operator hops hj) (derives_operator (hops _ (List.getElem_mem hj)))
    hv hle

/-- The expression ends **behind an operand**. What it covers is of odd length. -/
theorem exists_stop_eq (hn : L.Result node ⟨0, false, 2 * i⟩ stop) :
    ∃ k, stop = 2 * (i + k) + 1 := by
  obtain ⟨d, hd⟩ := h.faithful.exists_spans hn
  have hodd := odd_length hd.valid
  have hends : 2 * i + d.yield.length = stop := hd.ends
  exact ⟨d.yield.length / 2, by omega⟩

/-- A result does not reach **beyond the last operand**. -/
theorem le_of_isSum (hn : IsSum L node i k) : i + k ≤ ops.length := by
  obtain ⟨d, hd⟩ := h.faithful.exists_spans hn
  have hodd := odd_length hd.valid
  have hends : 2 * i + d.yield.length = 2 * (i + k) + 1 := hd.ends
  have hlen : d.yield.length ≤ ((sum ops).drop (2 * i)).length := hd.reads.length_le
  rw [List.length_drop, length_sum] at hlen
  omega

/-- An operator **is one symbol**, and so is its result. -/
theorem operator_result (hn : L.Result node ⟨3, false, start⟩ stop) :
    stop = start + 1 ∧ ∃ child ∈ [1, 2], ∃ text a, L.Result a ⟨child, false, start⟩ stop ∧
      m.forest.node? a = some ⟨.symbol text, ⟨start, stop⟩⟩ ∧
      m.forest.node? node = some ⟨.choice none [a], ⟨start, stop⟩⟩ := by
  have hsymbol : ∀ child ∈ [1, 2], ∀ a, L.Result a ⟨child, false, start⟩ stop →
      ∃ text, stop = start + 1 ∧ (sum ops)[start]? = some text ∧
        grammar.expr? child = some (.token text) ∧
          m.forest.node? a = some ⟨.symbol text, ⟨start, start + 1⟩⟩ := by
    intro child hc a ha
    obtain ⟨text', he⟩ : ∃ text, grammar.expr? child = some (.token text) := by
      rcases List.mem_pair.mp hc with rfl | rfl <;> exact ⟨_, rfl⟩
    obtain ⟨text, hstop, hw, haccepts, hnode⟩ := h.symbol_of_isTerminal he rfl ha
    obtain rfl : text' = text := eq_of_beq haccepts
    exact ⟨text', hstop, hw, he, hnode⟩
  have hapart : ∀ child ∈ [1, 2], ∀ other ∈ [1, 2],
      grammar.expr? child = grammar.expr? other → child = other := by
    simp [grammar, Grammar.expr?]
  have hnot : (3 : ExprId) ∉ [1, 2] := by decide
  obtain ⟨alternatives, -, -, hne, hmem⟩ := h.choice_of_alt rfl hnot hn
  obtain ⟨a, ha⟩ := List.exists_mem_of_ne_nil _ hne
  obtain ⟨child, hc, ha⟩ := (hmem a).mp ha
  obtain ⟨text, rfl, hw, he, -⟩ := hsymbol child hc a ha
  -- the symbol tells which of the two tokens it is
  have honly : ∀ other ∈ [1, 2], ∀ b, L.Result b ⟨other, false, start⟩ (start + 1) →
      other = child := by
    intro other hother b hb
    obtain ⟨text', -, hw', he', -⟩ := hsymbol other hother b hb
    obtain rfl := Option.some.inj (hw.symm.trans hw')
    exact hapart other hother child hc (he'.trans he.symm)
  obtain ⟨b, hb, hnode⟩ := h.choice_of_only rfl hnot hn honly
  obtain ⟨text', -, -, -, hb'⟩ := hsymbol child hc b hb
  exact ⟨rfl, child, hc, text', b, hb, hb', hnode⟩

/-- Results of a sum **split** into `j` operators before one of them and `k` behind it. -/
def Splits (L : Ledger) (nodes : List NodeId) (i j k : Nat) : Prop :=
  ∃ a p b, nodes = [a, p, b] ∧ IsSum L a i j ∧ Joins L p (i + j) ∧ IsSum L b (i + j + 1) k

/-- Parts of a sum are what it splits into **at one of its operators**. The middle part is one
symbol long, so a split is given by how many operators are on the left. -/
theorem covers_iff : L.Covers nodes [0, 3, 0] (2 * i) (2 * (i + n) + 1) ↔
    ∃ j k, j + k + 1 = n ∧ Splits L nodes i j k := by
  constructor
  · intro hc
    obtain ⟨a, _, _, rfl, ha, hc⟩ := Ledger.covers_cons_iff.mp hc
    obtain ⟨p, _, _, rfl, hp, hc⟩ := Ledger.covers_cons_iff.mp hc
    obtain ⟨b, _, _, rfl, hb, hc⟩ := Ledger.covers_cons_iff.mp hc
    obtain ⟨rfl, hstop⟩ := Ledger.covers_nil_iff.mp hc
    obtain ⟨j, rfl⟩ := exists_stop_eq h ha
    obtain ⟨rfl, -⟩ := operator_result h hp
    obtain ⟨k, rfl⟩ := exists_stop_eq (i := i + j + 1) h hb
    exact ⟨j, k, by omega, a, p, b, rfl, ha, hp, hb⟩
  · rintro ⟨j, k, rfl, a, p, b, rfl, ha, hp, hb⟩
    have hstop : i + (j + k + 1) = i + j + 1 + k := by omega
    rw [hstop]
    exact .cons ha (.cons hp (.cons hb (.nil _)))

/-- Where a sum is split, **the results are determined**: a goal has one result over a stretch. -/
theorem Splits.unique (hs : Splits L nodes i j k) (hs' : Splits L nodes' i j k) :
    nodes = nodes' := by
  obtain ⟨a, p, b, rfl, ha, hp, hb⟩ := hs
  obtain ⟨a', p', b', rfl, ha', hp', hb'⟩ := hs'
  rw [h.faithful.result_unique ha ha', h.faithful.result_unique hp hp',
    h.faithful.result_unique hb hb']

omit h in
/-- Results determine **where the sum is split**. -/
theorem Splits.inj {j' k' : Nat} (hs : Splits L nodes i j k) (hs' : Splits L nodes i j' k') :
    j = j' ∧ k = k' := by
  obtain ⟨a, p, b, rfl, ha, -, hb⟩ := hs
  obtain ⟨a', p', b', heq, ha', -, hb'⟩ := hs'
  obtain ⟨rfl, hrest⟩ := List.cons.inj heq
  obtain ⟨rfl, -⟩ := List.cons.inj (List.cons.inj hrest).2
  obtain ⟨-, hstop⟩ := ha.unique ha'
  obtain ⟨-, hstop'⟩ := hb.unique hb'
  omega

/-- A sum can be split **at every operator** in it. -/
theorem exists_splits (hops : ∀ op ∈ ops, IsOperator op) (hle : i + (j + k + 1) ≤ ops.length) :
    ∃ nodes, Splits L nodes i j k := by
  obtain ⟨a, ha⟩ := exists_isSum (i := i) (k := j) h hops (by omega)
  obtain ⟨p, hp⟩ := exists_joins (j := i + j) h hops (by omega)
  obtain ⟨b, hb⟩ := exists_isSum (i := i + j + 1) (k := k) h hops (by omega)
  exact ⟨[a, p, b], a, p, b, rfl, ha, hp, hb⟩

/-- The result of a sum is the choice of **all splits, each once**. There are no other alternatives,
and none is listed twice, by uniqueness of splits. -/
theorem exists_alternatives (hops : ∀ op ∈ ops, IsOperator op) (hle : i + (n + 1) ≤ ops.length)
    (hn : L.Result node ⟨4, false, 2 * i⟩ (2 * (i + (n + 1)) + 1)) :
    ∃ alternatives, ∃ split : NodeId → Nat × Nat,
      m.forest.node? node = some ⟨.choice none alternatives, ⟨2 * i, 2 * (i + (n + 1)) + 1⟩⟩ ∧
      (∀ x ∈ alternatives, L.Result x ⟨4, true, 2 * i⟩ (2 * (i + (n + 1)) + 1) ∧
        ∃ nodes, m.forest.node? x =
            some ⟨.sequence none nodes, ⟨2 * i, 2 * (i + (n + 1)) + 1⟩⟩ ∧
          Splits L nodes i (split x).1 (split x).2) ∧
      (alternatives.map split).Nodup ∧
        (alternatives.map split).toFinset = Finset.HasAntidiagonal.antidiagonal n := by
  obtain ⟨alternatives, parts, hnode, -, hparts, hnodup, hcovers⟩ := h.choice_of_seq rfl hn
  have hsplit : ∀ x ∈ alternatives, ∃ jk : Nat × Nat, jk.1 + jk.2 = n ∧
      Splits L (parts x) i jk.1 jk.2 := by
    intro x hx
    obtain ⟨j, k, hjk, hs⟩ := (covers_iff h).mp ((hcovers _).mp (List.mem_map_of_mem hx))
    exact ⟨(j, k), Nat.succ.inj hjk, hs⟩
  choose! split hsum hs using hsplit
  refine ⟨alternatives, split, hnode, fun x hx => ?_, ?_, ?_⟩
  · exact ⟨(hparts x hx).1, parts x, (hparts x hx).2, hs x hx⟩
  · refine hnodup.of_map.map_on fun x hx y hy hxy => ?_
    refine List.inj_on_of_nodup_map hnodup hx hy (Splits.unique h (hs x hx) ?_)
    rw [hxy]
    exact hs y hy
  · ext ⟨j, k⟩
    rw [List.mem_toFinset, List.mem_map, Finset.HasAntidiagonal.mem_antidiagonal]
    constructor
    · rintro ⟨x, hx, heq⟩
      rw [← hsum x hx, heq]
    · intro hjk
      obtain ⟨nodes, hnodes⟩ := exists_splits (i := i) (j := j) (k := k) h hops (by omega)
      have hmem := (hcovers nodes).mpr ((covers_iff h).mpr ⟨j, k, by omega, hnodes⟩)
      obtain ⟨x, hx, rfl⟩ := List.mem_map.mp hmem
      obtain ⟨hj, hk⟩ := (hs x hx).inj hnodes
      exact ⟨x, hx, Prod.ext hj hk⟩

/-! ### Numbers of readings -/

variable {o : ParseOptions} {path : List NodeId}

/-- The **height** of a result, by its length and then by what is made of what. -/
def height (goal : Goal) (stop : Nat) : Nat :=
  3 * (stop - goal.start) +
    match goal.inner, goal.expr with
    | false, 0 => 2
    | false, 3 => 1
    | false, 4 => 1
    | _, _ => 0

/-- An operator has trees, and it reads **in one way**. -/
theorem ways_joins (hn : Joins L node j) (hp : Descent L m height path 4) :
    HasTrees (m.forest.freshOutput o path node) ∧ ways (m.forest.freshOutput o path node) = 1 := by
  obtain ⟨-, child, hc, text, a, ha, hsymbol, hnode⟩ := operator_result h hn
  have hheight : height ⟨3, false, 2 * j + 1⟩ (2 * (j + 1)) = 4 := by
    simp [height]
    omega
  have hheight' : height ⟨child, false, 2 * j + 1⟩ (2 * (j + 1)) ≤ 3 := by
    rcases List.mem_pair.mp hc with rfl | rfl <;> simp [height] <;> omega
  have hp' : Descent L m height (node :: path) 3 := hp.cons h hn hheight.le (by omega)
  obtain ⟨htrees, hways⟩ := ways_symbol (o := o) hp'.isPath (hp'.not_mem ha hheight') hsymbol
  rw [← hways]
  exact ways_only hp.isPath (hp.not_mem hn hheight.le) hnode htrees

/-- **One operand** has one reading. -/
theorem ways_operand (hn : IsSum L node i 0) (hp : Descent L m height path 5) :
    HasTrees (m.forest.freshOutput o path node) ∧ ways (m.forest.freshOutput o path node) = 1 := by
  have hnot : (0 : ExprId) ∉ [4, 5] := by decide
  have honly : ∀ other ∈ [4, 5], ∀ a, L.Result a ⟨other, false, 2 * i⟩ (2 * (i + 0) + 1) →
      other = 5 := by
    intro other hother a ha
    rcases List.mem_pair.mp hother with rfl | rfl
    · -- there is no operator to split at
      obtain ⟨alternatives, parts, -, hne, -, -, hcovers⟩ := h.choice_of_seq rfl ha
      obtain ⟨x, hx⟩ := List.exists_mem_of_ne_nil _ hne
      obtain ⟨j, k, hjk, -⟩ := (covers_iff h).mp ((hcovers _).mp (List.mem_map_of_mem hx))
      exact absurd hjk (Nat.succ_ne_zero _)
    · rfl
  obtain ⟨a, ha, hnode⟩ := h.choice_of_only rfl hnot hn honly
  obtain ⟨text, -, -, -, hsymbol⟩ := h.symbol_of_isTerminal rfl rfl ha
  have hheight : height ⟨0, false, 2 * i⟩ (2 * (i + 0) + 1) = 5 := by simp [height]
  have hheight' : height ⟨5, false, 2 * i⟩ (2 * (i + 0) + 1) = 3 := by simp [height]
  have hp' : Descent L m height (node :: path) 3 := hp.cons h hn hheight.le (by omega)
  obtain ⟨htrees, hways⟩ := ways_symbol (o := o) hp'.isPath (hp'.not_mem ha hheight'.le) hsymbol
  rw [← hways]
  exact ways_only hp.isPath (hp.not_mem hn hheight.le) hnode htrees

/-- Stretches **over up to `n` operators** read in Catalan many ways. -/
def Counted (L : Ledger) (m : Machine) (o : ParseOptions) (n : Nat) : Prop :=
  ∀ i k node path, k ≤ n → IsSum L node i k → Descent L m height path (3 * (2 * k + 1) + 2) →
    HasTrees (m.forest.freshOutput o path node) ∧
      ways (m.forest.freshOutput o path node) = catalan k

/-- A split reads as **both of its sides**. Readings multiply, as those of the sides are chosen
independently. -/
theorem ways_splits {span : Span} (hcounted : Counted L m o n) (hjk : j + k = n)
    (hs : Splits L nodes i j k) (hnode : m.forest.node? node = some ⟨.sequence none nodes, span⟩)
    (hpath : m.forest.IsPath path) (hnot : node ∉ path)
    (hp : ∀ n' < 3 * (2 * (n + 1) + 1), Descent L m height (node :: path) n') :
    HasTrees (m.forest.freshOutput o path node) ∧
      ways (m.forest.freshOutput o path node) = catalan j * catalan k := by
  obtain ⟨a, p, b, rfl, ha, hjoins, hb⟩ := hs
  obtain ⟨hatrees, haways⟩ := hcounted i j a _ (by omega) ha (hp _ (by omega))
  obtain ⟨hptrees, hpways⟩ := ways_joins (o := o) h hjoins (hp _ (by omega))
  obtain ⟨hbtrees, hbways⟩ := hcounted (i + j + 1) k b _ (by omega) hb (hp _ (by omega))
  have htrees : ∀ part ∈ [a, p, b], HasTrees (m.forest.freshOutput o (node :: path) part) := by
    simp [hatrees, hptrees, hbtrees]
  obtain ⟨hsequence, hways⟩ := ways_sequence hpath hnot hnode (List.cons_ne_nil _ _) htrees
  refine ⟨hsequence, hways.trans ?_⟩
  simp [haways, hpways, hbways]

/-- **The recursion of the Catalan numbers**: a sum reads as any of its splits. Its alternatives are
the splits, each once, and readings add up. -/
theorem ways_sum (hops : ∀ op ∈ ops, IsOperator op) (hkeeps : o.ambiguity = .packed ∨ n = 0)
    (hcounted : Counted L m o n) (hle : i + (n + 1) ≤ ops.length)
    (hn : L.Result node ⟨4, false, 2 * i⟩ (2 * (i + (n + 1)) + 1))
    (hp : Descent L m height path (3 * (2 * (n + 1) + 1) + 1)) :
    HasTrees (m.forest.freshOutput o path node) ∧
      ways (m.forest.freshOutput o path node) = catalan (n + 1) := by
  have hheight : height ⟨4, false, 2 * i⟩ (2 * (i + (n + 1)) + 1) = 3 * (2 * (n + 1) + 1) + 1 := by
    simp [height]
    omega
  have hheight' : height ⟨4, true, 2 * i⟩ (2 * (i + (n + 1)) + 1) = 3 * (2 * (n + 1) + 1) := by
    simp [height]
    omega
  have hp' : Descent L m height (node :: path) (3 * (2 * (n + 1) + 1)) :=
    hp.cons h hn hheight.le (by omega)
  obtain ⟨alternatives, split, hnode, hsplits, hnodup, hall⟩ := exists_alternatives h hops hle hn
  -- an alternative is a split, and both sides of it have fewer operators
  have hways : ∀ x ∈ alternatives, HasTrees (m.forest.freshOutput o (node :: path) x) ∧
      ways (m.forest.freshOutput o (node :: path) x) =
        catalan (split x).1 * catalan (split x).2 := by
    intro x hx
    obtain ⟨hresult, nodes, hlist, hs⟩ := hsplits x hx
    have hmem : split x ∈ Finset.HasAntidiagonal.antidiagonal n := by
      rw [← hall, List.mem_toFinset]
      exact List.mem_map_of_mem hx
    exact ways_splits h hcounted (Finset.HasAntidiagonal.mem_antidiagonal.mp hmem) hs hlist
      hp'.isPath (hp'.not_mem hresult hheight'.le)
      fun n' hlt => hp'.cons h hresult hheight'.le (by omega)
  -- there are as many alternatives as pairs of numbers with this sum
  have hlen : alternatives.length = n + 1 := by
    rw [← List.length_map (f := split), ← List.toFinset_card_of_nodup hnodup, hall,
      Finset.Nat.card_antidiagonal]
  have hne : alternatives ≠ [] := List.ne_nil_of_length_eq_add_one hlen
  obtain ⟨htrees, hsum⟩ := ways_choice hp.isPath (hp.not_mem hn hheight.le) hnode
    (hkeeps.imp_right fun hzero => by rw [hlen, hzero]) hne fun x hx => (hways x hx).1
  refine ⟨htrees, hsum.trans ?_⟩
  calc (alternatives.map fun x => ways (m.forest.freshOutput o (node :: path) x)).sum
      = ((alternatives.map split).map fun jk => catalan jk.1 * catalan jk.2).sum := by
        rw [List.map_map]
        exact congrArg List.sum (List.map_congr_left fun x hx => (hways x hx).2)
    _ = ∑ jk ∈ Finset.HasAntidiagonal.antidiagonal n, catalan jk.1 * catalan jk.2 := by
        rw [← hall, List.sum_toFinset _ hnodup]
    _ = catalan (n + 1) := (catalan_succ' n).symm

/-- **Every stretch reads in Catalan many ways**, if all alternatives are kept. This goes by strong
induction on the number of operators. With one operator at most there is no choice, so it does not
matter what is kept. -/
theorem counted (hops : ∀ op ∈ ops, IsOperator op) (hkeeps : o.ambiguity = .packed ∨ n ≤ 1) :
    Counted L m o n := by
  have hnot : (0 : ExprId) ∉ [4, 5] := by decide
  induction n with
  | zero =>
    intro i k node path hk hn hp
    obtain rfl := Nat.le_zero.mp hk
    rw [catalan_zero]
    exact ways_operand h hn hp
  | succ n ih =>
    have hcounted := ih (hkeeps.imp_right Nat.le_of_succ_le)
    intro i k node path hk hn hp
    rcases Nat.lt_or_eq_of_le hk with hk | rfl
    · exact hcounted i k node path (Nat.le_of_lt_succ hk) hn hp
    · -- a part of the full length is a sum, whose readings are a convolution of the shorter ones
      have honly : ∀ other ∈ [4, 5], ∀ a,
          L.Result a ⟨other, false, 2 * i⟩ (2 * (i + (n + 1)) + 1) → other = 4 := by
        intro other hother a ha
        rcases List.mem_pair.mp hother with rfl | rfl
        · rfl
        · -- an operand is too short
          obtain ⟨text, hstop, -⟩ := h.symbol_of_isTerminal rfl rfl ha
          omega
      obtain ⟨a, ha, hnode⟩ := h.choice_of_only rfl hnot hn honly
      have hheight : height ⟨0, false, 2 * i⟩ (2 * (i + (n + 1)) + 1) =
          3 * (2 * (n + 1) + 1) + 2 := by
        simp [height]
        omega
      have hzero : n + 1 ≤ 1 → n = 0 := fun hle => Nat.le_zero.mp (Nat.le_of_succ_le_succ hle)
      obtain ⟨htrees, hways⟩ := ways_sum h hops (hkeeps.imp_right hzero) hcounted
        (le_of_isSum h hn) ha (hp.cons h hn hheight.le (by omega))
      rw [← hways]
      exact ways_only hp.isPath (hp.not_mem hn hheight.le) hnode htrees

end

end BinarySums

/-- Catalan numbers **do not decrease**: among the splits there is the one at the first operator.
From two operators on there are two trees or more, therefore. -/
theorem catalan_monotone : Monotone catalan := by
  refine monotone_nat_of_le_succ fun n => ?_
  have hmem : (0, n) ∈ Finset.HasAntidiagonal.antidiagonal n :=
    Finset.HasAntidiagonal.mem_antidiagonal.mpr (Nat.zero_add n)
  rw [catalan_succ']
  calc catalan n = catalan 0 * catalan n := by rw [catalan_zero, Nat.one_mul]
    _ ≤ _ := Finset.single_le_sum (f := fun jk : Nat × Nat => catalan jk.1 * catalan jk.2)
        (fun _ _ => Nat.zero_le _) hmem

namespace Forest

open BinarySums Machine

/-- Sums with binary operators have **Catalan many trees**. The text compiles, and with any
operators between operands an input is accepted. The packed policy extracts a tree that stands for
as many trees as the Catalan number of the operators says, up to the limit, and the error policy
fails if and only if there are three operands or more. -/
theorem binarySums_exact [KnownPatterns] (split : Bool) :
    ∃ g, Grammar.compile split source = .ok g ∧
    ∀ ops : List String, (∀ op ∈ ops, IsOperator op) → ∃ f, parse g (sum ops) = .ok f ∧
      (∀ o : ParseOptions, o.ambiguity = .packed → ∃ t n, f.extract o = .ok (t, n) ∧
        t.count = min (2 ^ 128 - 1) (catalan ops.length)) ∧
      ∀ o : ParseOptions, o.ambiguity = .error →
        ((∃ t n, f.extract o = .ok (t, n)) ↔ ops.length + 1 < 3) ∧
        (f.extract o = .error .ambiguous ↔ 3 ≤ ops.length + 1) := by
  refine ⟨grammar, compile_source split, fun ops hops => ?_⟩
  obtain ⟨f, hf⟩ := exists_parse_of_derives closed_grammar (derives_sum hops)
  obtain ⟨L, m, root, h, rfl, hroots, hresult⟩ := exists_finished_of_parse closed_grammar hf
  have hroot : IsSum L root 0 ops.length := by
    rw [length_sum, ← Nat.zero_add ops.length] at hresult
    exact hresult
  -- under `error` the numbers of ways are known up to one operator only: beyond, it fails
  have hways : ∀ o : ParseOptions, o.ambiguity = .packed ∨ ops.length ≤ 1 →
      HasTrees (m.forest.freshOutput o [] root) ∧
        ways (m.forest.freshOutput o [] root) = catalan ops.length :=
    fun o hkeeps => counted h hops hkeeps 0 ops.length root [] le_rfl hroot (.nil _ _ _ _)
  refine ⟨m.forest, hf, fun o ho => ?_, fun o ho => ?_⟩
  · obtain ⟨htrees, hcatalan⟩ := hways o (.inl ho)
    rw [← hcatalan]
    exact exists_extract_of_hasTrees hroots htrees
  · by_cases hle : ops.length ≤ 1
    · obtain ⟨t, n, ht, -⟩ := exists_extract_of_hasTrees hroots (hways o (.inr hle)).1
      rw [ht]
      exact ⟨iff_of_true ⟨t, n, rfl⟩ (by omega), iff_of_false nofun (by omega)⟩
    · -- two ways at least, so what stands for them under `packed` is ambiguous under `error`
      have hcatalan : 2 ≤ catalan ops.length := by
        rw [← catalan_two]
        exact catalan_monotone (by omega)
      obtain ⟨ambiguity, collapse, spans⟩ := o
      obtain rfl : ambiguity = .error := ho
      obtain ⟨htrees, hnumber⟩ := hways ⟨.packed, collapse, spans⟩ (.inl rfl)
      have hambiguous : m.forest.extract ⟨.error, collapse, spans⟩ = .error .ambiguous := by
        refine ambiguous_of_ways (o := ⟨.error, collapse, spans⟩)
          (closed_of_parse closed_grammar hf) hroots htrees ?_
        rw [hnumber]
        omega
      rw [hambiguous]
      exact ⟨iff_of_false (by simp) (by omega), iff_of_true rfl (by omega)⟩

open scoped Common in
/-- Three operands have **two trees**, too many for the error policy. -/
theorem binarySums_exact_three : ∃ g f, Grammar.compile false source = .ok g ∧
    parse g ["1", "+", "1", "*", "1"] = .ok f ∧
    (∃ t n, f.extract { ambiguity := .packed } = .ok (t, n) ∧ t.count = 2) ∧
      f.extract { ambiguity := .error } = .error .ambiguous := by
  obtain ⟨g, hg, hall⟩ := binarySums_exact false
  have hops : ∀ op ∈ ["+", "*"], IsOperator op := by simp [IsOperator]
  obtain ⟨f, hf, hpacked, herror⟩ := hall ["+", "*"] hops
  have hsum : sum ["+", "*"] = ["1", "+", "1", "*", "1"] := rfl
  rw [hsum] at hf
  obtain ⟨t, n, ht, hcount⟩ := hpacked { ambiguity := .packed } rfl
  have htwo : min (2 ^ 128 - 1) (catalan ["+", "*"].length) = 2 := by
    rw [List.length_cons, List.length_singleton, catalan_two]
    norm_num
  exact ⟨g, f, hg, hf, ⟨t, n, ht, hcount.trans htwo⟩,
    (herror { ambiguity := .error } rfl).2.mpr (by decide)⟩

end Forest

end GeneralParsing
