import GeneralParsing.Proofs.Dialect.RoundTrip
import GeneralParsing.Proofs.Extraction.Ways
import GeneralParsing.Proofs.Parsing.Recorded
import GeneralParsing.Proofs.Parsing.Unambiguous
import GeneralParsing.Rules.Compile

/-!
# Left recursion

In the grammar of `S = S "a" | ""` everything but the symbols is looked for at the beginning only.
There are results for the beginning up to every position, of the rule, of the recursive sequence,
and of what is inside it, besides one result for each symbol and one for the empty text. So the
forest of `n` symbols has `4 * n + 2` nodes (`Finished.size_eq`).

No choice among them has two alternatives. From position to position the output is the tree of the
symbols before, and the symbol (`Finished.output_eq`), whatever the policy.
-/

namespace GeneralParsing

namespace LeftRecursion

open Dialect Machine Forest
open GeneralParsing.Derivation

/-! ### The grammar -/

/-- The source text. -/
def source : List Char := "S = S \"a\" | \"\"".toList

/-- The rule that the text stands for. -/
def rule : Rule := ⟨"S", false, .alt [.seq [.symbol "S", .literal "a"], .literal ""]⟩

/-- The expressions of the rule. -/
def grammar : Grammar where
  exprs := #[.alt (some "S") [2, 3], .token "a", .seq none [0, 1], .seq none [],
    .alt (some "S") [2, 3]]
  start := 0
  start_lt := by decide

/-- The text **writes the rule**. -/
theorem writesText_source : WritesText [rule] source := by
  have hblank : Blanks [' '] := by decide
  have hequals : ['='] ∈ definitionSigns := by decide
  have hname : IsName "S" := by decide
  have hmore : WritesBranch (.seq [.symbol "S", .literal "a"]) _ :=
    .seq (.atom (.symbol hname)) (.cons hblank (List.cons_ne_nil _ _) (.atom (.literal "a")) .nil)
  have hrule : WritesRule rule _ := .rule hname hblank hequals hblank
    (.alt hmore (.cons hblank hblank (.item (.atom (.literal ""))) .nil))
  exact .plain blanks_nil hrule .nil blanks_nil

/-- The text **compiles** to the grammar, split into characters or not. -/
theorem compile_source [KnownPatterns] (split : Bool) :
    Grammar.compile split source = .ok grammar := by
  rw [Grammar.compile, rules_eq_of_writesText writesText_source]
  cases split <;> rfl

theorem closed_grammar : grammar.Closed := by
  rw [Grammar.Closed, grammar]
  decide

/-! ### Derivations -/

variable {n i k : Nat} {id : ExprId} {tag : Option String} {ids : List ExprId}

theorem derives_empty : grammar.Derives 3 [] := .sequence rfl .nil

theorem derives_symbol : grammar.Derives 1 ["a"] := .terminal rfl rfl

/-- Behind the symbols that the rule derives there may be **one more**. -/
theorem derives_more (h : grammar.Derives 0 (List.replicate n "a")) :
    grammar.Derives 2 (List.replicate (n + 1) "a") := by
  rw [List.replicate_succ']
  exact .sequence rfl (.cons h (.cons derives_symbol .nil))

/-- The rule derives **any number of symbols**. -/
theorem derives_rule (n : Nat) : grammar.Derives 0 (List.replicate n "a") := by
  have hempty : (3 : ExprId) ∈ [2, 3] := by decide
  have hmore : (2 : ExprId) ∈ [2, 3] := by decide
  induction n with
  | zero => exact .choice rfl hempty derives_empty
  | succ n ih => exact .choice rfl hmore (derives_more ih)

/-! ### What is looked for -/

/-- The grammar has **five expressions**: the rule twice, a token, the sequence and the empty
sequence. -/
theorem expr?_cases {e : Expr} (he : grammar.expr? id = some e) :
    (id = 0 ∨ id = 4) ∧ e = .alt (some "S") [2, 3] ∨ id = 1 ∧ e = .token "a" ∨
      id = 2 ∧ e = .seq none [0, 1] ∨ id = 3 ∧ e = .seq none [] := by
  match id, he with
  | 0, he | 1, he | 2, he | 3, he | 4, he =>
    obtain rfl := Option.some.inj he
    simp [grammar]
  | id + 5, he => simp [Grammar.expr?, grammar] at he

/-- A sequence in it is **the recursion or empty**. -/
theorem expr?_seq (he : grammar.expr? id = some (.seq tag ids)) :
    id = 2 ∧ ids = [0, 1] ∨ id = 3 ∧ ids = [] := by
  rcases expr?_cases he with ⟨-, heq⟩ | ⟨-, heq⟩ | ⟨hid, heq⟩ | ⟨hid, heq⟩
  · cases heq
  · cases heq
  · exact .inl ⟨hid, (Expr.seq.inj heq).2⟩
  · exact .inr ⟨hid, (Expr.seq.inj heq).2⟩

/-- A choice in it is **the rule**. -/
theorem expr?_alt (he : grammar.expr? id = some (.alt tag ids)) :
    (id = 0 ∨ id = 4) ∧ ids = [2, 3] := by
  rcases expr?_cases he with ⟨hid, heq⟩ | ⟨-, heq⟩ | ⟨-, heq⟩ | ⟨-, heq⟩
  · exact ⟨hid, (Expr.alt.inj heq).2⟩
  all_goals cases heq

/-- The token is **the only terminal**. -/
theorem eq_of_isTerminal {e : Expr} (he : grammar.expr? id = some e) (ht : e.isTerminal = true) :
    id = 1 := by
  rcases expr?_cases he with ⟨-, rfl⟩ | ⟨hid, -⟩ | ⟨-, rfl⟩ | ⟨-, rfl⟩
  · cases ht
  · exact hid
  all_goals cases ht

/-- Only the recursion has an **inner goal**. -/
theorem eq_of_hasInner {e : Expr} (he : grammar.expr? id = some e) (hinner : e.hasInner = true) :
    id = 2 := by
  rcases expr?_cases he with ⟨-, rfl⟩ | ⟨-, rfl⟩ | ⟨hid, -⟩ | ⟨-, rfl⟩
  · cases hinner
  · cases hinner
  · exact hid
  · cases hinner

/-- The empty sequence is looked for **at the beginning**, as an alternative of the start. -/
theorem sought_empty : grammar.Sought (List.replicate n "a") 3 0 := by
  have hempty : (3 : ExprId) ∈ [2, 3] := by decide
  exact .alternative .start rfl hempty

/-- The recursion is looked for **at the beginning**, where it looks for the rule again. -/
theorem sought_more : grammar.Sought (List.replicate n "a") 2 0 := by
  have hmore : (2 : ExprId) ∈ [2, 3] := by decide
  exact .alternative .start rfl hmore

/-- A symbol is looked for **behind any number of them**. What stands before it is derived by the
rule, so that the recursion goes on there. -/
theorem sought_symbol (hk : k ≤ n) : grammar.Sought (List.replicate n "a") 1 k := by
  have he : grammar.expr? 2 = some (.seq none ([0] ++ 1 :: [])) := rfl
  have hv : grammar.DerivesAll [0] (List.replicate k "a") := by
    simpa using Grammar.DerivesAll.cons (derives_rule k) .nil
  have hw : List.replicate k "a" <+: List.replicate n "a" :=
    List.prefix_replicate_iff.mpr (by simpa using hk)
  have hs := sought_more.part he hv hw
  rwa [List.length_replicate, Nat.zero_add] at hs

/-- Besides the symbols, **only the beginning** is where anything is looked for. Whatever looks for
something looks for it where it stands itself, unless something comes before, and that is the rule.
-/
theorem sought_cases (hs : grammar.Sought (List.replicate n "a") id i) :
    id = 1 ∧ i ≤ n ∨ id ∈ [0, 2, 3] ∧ i = 0 := by
  induction hs with
  | start => exact .inr (by decide)
  | @part id child tag ids rest v start _ he hv hw ih =>
    rcases expr?_seq he with ⟨rfl, hids⟩ | ⟨-, hids⟩
    · obtain rfl : start = 0 := by simpa using ih
      cases hv with
      | nil =>
        obtain ⟨rfl, -⟩ := List.cons.inj hids
        exact .inr (by simp)
      | @cons _ ids' _ _ _ hvs =>
        obtain ⟨-, hids⟩ := List.cons.inj hids
        have hlen := hw.length_le
        rw [List.drop_zero, List.length_replicate] at hlen
        cases hvs with
        | nil =>
          obtain ⟨rfl, -⟩ := List.cons.inj hids
          exact .inl ⟨rfl, by omega⟩
        | cons => simp at hids
    · simp at hids
  | alternative _ he hc ih =>
    obtain ⟨rfl | rfl, rfl⟩ := expr?_alt he
    · obtain rfl : _ = 0 := by simpa using ih
      rcases List.mem_pair.mp hc with rfl | rfl <;> simp
    · simp at ih
  | iteration _ he | omitted _ he | lexical _ he =>
    rcases expr?_cases he with ⟨-, he⟩ | ⟨-, he⟩ | ⟨-, he⟩ | ⟨-, he⟩ <;> cases he

/-! ### Results -/

/-- What has **a result at a position**. -/
def goalsAt : Nat → List Goal
  | 0 => [⟨3, false, 0⟩, ⟨0, false, 0⟩]
  | k + 1 => [⟨1, false, k⟩, ⟨2, true, 0⟩, ⟨2, false, 0⟩, ⟨0, false, 0⟩]

/-- What has a result at each of the positions **of `n` symbols**. -/
def outline (n : Nat) : List (Goal × Nat) :=
  (List.range (n + 1)).flatMap fun k => (goalsAt k).map (·, k)

/-- What has a result up to a position is given **position by position**. The list is made for
counting, and this says what is in it. -/
theorem mem_outline {goal : Goal} {stop : Nat} :
    (goal, stop) ∈ outline n ↔ stop ≤ n ∧ goal ∈ goalsAt stop := by
  simp [outline]

/-- There are **four results** at each position but the first, which has two. The position at the
beginning has neither a symbol nor a recursion that ends there. -/
theorem length_outline (n : Nat) : (outline n).length = 4 * n + 2 := by
  induction n with
  | zero => rfl
  | succ n ih =>
    rw [outline, List.range_succ, List.flatMap_append, List.length_append, ← outline, ih]
    simp [goalsAt]
    omega

/-- No result **is counted twice**. -/
theorem nodup_outline (n : Nat) : (outline n).Nodup := by
  refine List.nodup_flatMap.mpr ⟨fun k _ => ?_, ?_⟩
  · have hnodup : (goalsAt k).Nodup := by cases k <;> simp [goalsAt]
    exact hnodup.map (Prod.mk_left_injective k)
  · refine List.nodup_range.imp fun {j k} hjk => ?_
    simp only [Function.onFun, List.disjoint_left, List.mem_map]
    rintro _ ⟨goal, -, rfl⟩ ⟨goal', -, heq⟩
    exact hjk (Prod.mk.inj heq).2.symm

section

variable {L : Ledger} {m : Machine} {node : NodeId} {nodes nodes' : List NodeId} {goal : Goal}
variable {start stop : Nat}

variable (h : Finished grammar (List.replicate n "a") L m)
include h

/-- A result of the token covers **one symbol**, and its node says so. -/
theorem symbol_result (hn : L.Result node ⟨1, false, start⟩ stop) : stop = start + 1 ∧ start < n ∧
    m.forest.node? node = some ⟨.symbol "a", ⟨start, start + 1⟩⟩ := by
  obtain ⟨text, hstop, hw, haccepts, hnode⟩ := h.symbol_of_isTerminal rfl rfl hn
  obtain rfl : "a" = text := eq_of_beq haccepts
  obtain ⟨hlt, -⟩ := List.getElem?_eq_some_iff.mp hw
  rw [List.length_replicate] at hlt
  exact ⟨hstop, hlt, hnode⟩

/-- The sequence is **of what comes before the last symbol**, and of that. The recursion comes first
in it, so the rest is one symbol. -/
theorem covers_cases (hc : L.Covers nodes [0, 1] 0 stop) : ∃ k a b, stop = k + 1 ∧ k < n ∧
    nodes = [a, b] ∧ L.Result a ⟨0, false, 0⟩ k ∧ L.Result b ⟨1, false, k⟩ (k + 1) := by
  obtain ⟨a, _, k, rfl, ha, hc⟩ := Ledger.covers_cons_iff.mp hc
  obtain ⟨b, _, _, rfl, hb, hc⟩ := Ledger.covers_cons_iff.mp hc
  obtain ⟨rfl, rfl⟩ := Ledger.covers_nil_iff.mp hc
  obtain ⟨rfl, hlt, -⟩ := symbol_result h hb
  exact ⟨k, a, b, rfl, hlt, rfl, ha, hb⟩

/-- A stretch is covered by the parts of the recursion **in one way** only. So no choice has two
alternatives, whatever the length is. -/
theorem covers_unique (hc : L.Covers nodes [0, 1] 0 stop) (hc' : L.Covers nodes' [0, 1] 0 stop) :
    nodes = nodes' := by
  obtain ⟨k, a, b, rfl, -, rfl, ha, hb⟩ := covers_cases h hc
  obtain ⟨k', a', b', hk, -, rfl, ha', hb'⟩ := covers_cases h hc'
  obtain rfl := Nat.succ.inj hk
  rw [h.faithful.result_unique ha ha', h.faithful.result_unique hb hb']

/-- There is a result **only of what is in the outline**. A result has a goal that is looked for,
and a stretch that can be derived. -/
theorem mem_outline_of_result (hn : L.Result node goal stop) : (goal, stop) ∈ outline n := by
  -- where a goal may start is known from how it comes to be looked for
  have hsought : goal.expr = 1 ∧ goal.start ≤ n ∨ goal.expr ∈ [0, 2, 3] ∧ goal.start = 0 := by
    obtain ⟨memo, -, hgoal⟩ := hn
    exact sought_cases (h.faithful.sound.sought h.faithful.rooted hgoal).1
  obtain ⟨d, hd⟩ := h.faithful.exists_spans hn
  have hlen := hd.reads.length_le
  have hends := hd.ends
  rw [List.length_drop, List.length_replicate] at hlen
  obtain ⟨kind, -, hex⟩ := h.faithful.sound.explained hn
  rw [mem_outline]
  -- where it may stop is known from what explains it
  cases hex with
  | symbol he ha hw =>
    obtain rfl := eq_of_isTerminal he (Expr.isTerminal_of_accepts ha)
    obtain ⟨-, hlt, -⟩ := symbol_result h hn
    exact ⟨hlt, by simp [goalsAt]⟩
  | empty he =>
    rcases expr?_seq he with ⟨-, hids⟩ | ⟨rfl, -⟩
    · cases hids
    · obtain rfl : _ = 0 := by simpa using hsought
      exact ⟨Nat.zero_le n, by simp [goalsAt]⟩
  | sequence he hcovers =>
    rcases expr?_seq he with ⟨rfl, hids⟩ | ⟨-, hids⟩
    · obtain rfl : _ = 0 := by simpa using hsought
      rw [hids] at hcovers
      obtain ⟨k, a, b, rfl, hlt, -⟩ := covers_cases h hcovers
      exact ⟨hlt, by simp [goalsAt]⟩
    · cases hids
  | choice he =>
    obtain ⟨rfl | rfl, -⟩ := expr?_alt he
    · obtain rfl : _ = 0 := by simpa using hsought
      refine ⟨by dsimp only at hends; omega, ?_⟩
      cases stop <;> simp [goalsAt]
    · simp at hsought
  | inner he hinner hresult =>
    obtain rfl := eq_of_hasInner he hinner
    obtain rfl : _ = 0 := by simpa using hsought
    obtain ⟨nodes, hcovers, -⟩ := h.sequence_of_inner rfl (hresult _ List.mem_cons_self)
    obtain ⟨k, a, b, rfl, hlt, -⟩ := covers_cases h hcovers
    exact ⟨hlt, by simp [goalsAt]⟩
  | repetition he | omitted he | lexical he =>
    rcases expr?_cases he with ⟨-, heq⟩ | ⟨-, heq⟩ | ⟨-, heq⟩ | ⟨-, heq⟩ <;> cases heq

/-- **Everything in the outline** has a result. What is looked for and derived has a result, and
this settles each line of the outline. -/
theorem exists_result_of_mem (hmem : (goal, stop) ∈ outline n) :
    ∃ node, L.Result node goal stop := by
  obtain ⟨hle, hmem⟩ := mem_outline.mp hmem
  -- what is sought at the beginning and derives the tokens so far has a result there
  have hbeginning : ∀ {id : ExprId} {k : Nat}, k ≤ n → grammar.Sought (List.replicate n "a") id 0 →
      grammar.Derives id (List.replicate k "a") → ∃ node, L.Result node ⟨id, false, 0⟩ k := by
    intro id k hk hs hd
    have hw : List.replicate k "a" <+: List.replicate n "a" :=
      List.prefix_replicate_iff.mpr (by simpa using hk)
    obtain ⟨node, hn⟩ := h.exists_result hs hd hw (by simpa using hk)
    rw [List.length_replicate, Nat.zero_add] at hn
    exact ⟨node, hn⟩
  cases stop with
  | zero =>
    rcases List.mem_pair.mp hmem with rfl | rfl
    · exact hbeginning hle sought_empty derives_empty
    · exact hbeginning hle .start (derives_rule 0)
  | succ k =>
    have hmore := hbeginning hle sought_more (derives_more (derives_rule k))
    simp only [goalsAt, List.mem_cons, List.not_mem_nil, or_false] at hmem
    rcases hmem with rfl | rfl | rfl | rfl
    · have hw : ["a"] <+: (List.replicate n "a").drop k := by
        rw [List.drop_replicate]
        exact List.prefix_replicate_iff.mpr (by simp; omega)
      exact h.exists_result (sought_symbol (Nat.le_of_succ_le hle)) derives_symbol hw (by simpa)
    · -- the list of parts so far is recorded by the result that it led to
      obtain ⟨node, hn⟩ := hmore
      obtain ⟨a, nodes, ha, -⟩ := h.choice_of_only_list rfl hn fun _ _ => covers_unique h
      exact ⟨a, ha⟩
    · exact hmore
    · exact hbeginning hle .start (derives_rule (k + 1))

/-- No goal has **two results** that end at one position. -/
theorem result_unique' {node' : NodeId} (hn : L.Result node goal stop)
    (hn' : L.Result node' goal stop) : node = node' := by
  obtain ⟨id, inner, start⟩ := goal
  cases inner with
  | false => exact h.faithful.result_unique hn hn'
  | true =>
    have hmem := (mem_outline.mp (mem_outline_of_result h hn)).2
    obtain ⟨rfl, rfl⟩ : id = 2 ∧ start = 0 := by
      cases stop with
      | zero => simp [goalsAt] at hmem
      | succ k => simpa [goalsAt] using hmem
    obtain ⟨nodes, hcovers, hnode⟩ := h.sequence_of_inner rfl hn
    obtain ⟨nodes', hcovers', hnode'⟩ := h.sequence_of_inner rfl hn'
    obtain rfl := covers_unique h hcovers hcovers'
    exact h.eq_of_sequence hn hn' hnode hnode'

/-- The forest has **four nodes for each symbol**, and two more. Nodes are results, and no two are
results of one goal at one place, so counting the outline is enough. -/
theorem size_eq : m.forest.size = 4 * n + 2 := by
  rw [← length_outline]
  exact h.size_eq_length (nodup_outline n)
    (fun goal stop => ⟨exists_result_of_mem h, fun ⟨_, hn⟩ => mem_outline_of_result h hn⟩)
    fun a b goal stop => result_unique' h

/-! ### Trees -/

/-- The **left nest** of `n` symbols: each node holds the one before, and one more symbol. -/
def nest (o : ParseOptions) : Nat → PlainTree
  | 0 => o.plainSpanned ⟨0, 0⟩ (PlainTree.node "S" [])
  | n + 1 => o.plainSpanned ⟨0, n + 1⟩
      (PlainTree.node "S" [nest o n, o.plainSpanned ⟨n, n + 1⟩ (PlainTree.value "a")])

omit h in
/-- In a left nest **nothing is packed**. -/
theorem unpacked_nest (o : ParseOptions) (n : Nat) : (nest o n).Unpacked := by
  induction n with
  | zero => exact ParseOptions.unpacked_plainSpanned (.branch rfl (by simp))
  | succ n ih =>
    have hvalue : (o.plainSpanned ⟨n, n + 1⟩ (PlainTree.value "a")).Unpacked :=
      ParseOptions.unpacked_plainSpanned (.leaf rfl)
    exact ParseOptions.unpacked_plainSpanned (.branch rfl (by simp [ih, hvalue]))

/-- The **height** of a result, by its length and then by what is made of what. -/
def height (goal : Goal) (stop : Nat) : Nat :=
  4 * (stop - goal.start) +
    match goal.inner, goal.expr with
    | false, 0 => 3
    | false, 2 => 2
    | true, 2 => 1
    | _, _ => 0

variable {o : ParseOptions} {path : List NodeId}

/-- Over no symbols the rule gives **the empty nest**. One alternative is empty, and the other leads
back to the node. -/
theorem output_zero (hn : L.Result node ⟨0, false, 0⟩ 0) (hp : Descent L m height path 3) :
    m.forest.freshOutput o path node = .ok (some [nest o 0]) := by
  have hnot : (0 : ExprId) ∉ [2, 3] := by decide
  have honly : ∀ other ∈ [2, 3], ∀ a, L.Result a ⟨other, false, 0⟩ 0 → other = 3 := by
    intro other hother a ha
    have hmem := (mem_outline.mp (mem_outline_of_result h ha)).2
    rcases List.mem_pair.mp hother with rfl | rfl
    · simp [goalsAt] at hmem
    · rfl
  obtain ⟨a, ha, hnode⟩ := h.choice_of_only rfl hnot hn honly
  obtain ⟨-, hempty⟩ := h.sequence_of_empty rfl ha
  have hp' : Descent L m height (node :: path) 0 :=
    hp.cons h hn (by simp [height]) (by simp [height])
  have hout : m.forest.freshOutput o (node :: path) a = .ok (some []) :=
    freshOutput_of_not_mem hp'.isPath.length_le (hp'.not_mem ha (by simp [height])) hempty
  exact freshOutput_only hp.isPath (hp.not_mem hn (by simp [height])) hnode hout

/-- From the beginning up to any position **the output is the nest** of the symbols there. This is
an induction on the position; the node for fewer symbols stands inside. -/
theorem output_eq (hn : L.Result node ⟨0, false, 0⟩ k) (hp : Descent L m height path (4 * k + 3)) :
    m.forest.freshOutput o path node = .ok (some [nest o k]) := by
  have hnot : (0 : ExprId) ∉ [2, 3] := by decide
  induction k generalizing node path with
  | zero => exact output_zero h hn hp
  | succ k ih =>
    have honly : ∀ other ∈ [2, 3], ∀ a, L.Result a ⟨other, false, 0⟩ (k + 1) → other = 2 := by
      intro other hother a ha
      have hmem := (mem_outline.mp (mem_outline_of_result h ha)).2
      rcases List.mem_pair.mp hother with rfl | rfl
      · rfl
      · simp [goalsAt] at hmem
    obtain ⟨a, ha, hnode⟩ := h.choice_of_only rfl hnot hn honly
    obtain ⟨x, nodes, hx, hcovers, hchoice, hlist⟩ :=
      h.choice_of_only_list rfl ha fun _ _ => covers_unique h
    obtain ⟨j, p, q, hj, -, rfl, hrule, hq⟩ := covers_cases h hcovers
    obtain rfl := Nat.succ.inj hj
    obtain ⟨-, -, hsymbol⟩ := symbol_result h hq
    -- down from the rule to the sequence, to what is inside it, and to the parts
    have hpa : Descent L m height (node :: path) (4 * (k + 1) + 2) :=
      hp.cons h hn (by simp [height]) (by simp [height])
    have hpx : Descent L m height (a :: node :: path) (4 * (k + 1) + 1) :=
      hpa.cons h ha (by simp [height]) (by simp [height])
    have hbelow : ∀ n' < 4 * (k + 1) + 1, Descent L m height (x :: a :: node :: path) n' :=
      fun n' hlt => hpx.cons h hx (by simp [height]) (by simpa [height] using hlt)
    have hfirst := ih hrule (hbelow _ (by omega))
    have hpq := hbelow 4 (by omega)
    have hlast : m.forest.freshOutput o (x :: a :: node :: path) q =
        .ok (some [o.plainSpanned ⟨k, k + 1⟩ (PlainTree.value "a")]) :=
      freshOutput_of_not_mem hpq.isPath.length_le (hpq.not_mem hq (by simp [height])) hsymbol
    have hparts : [p, q].map (m.forest.freshOutput o (x :: a :: node :: path)) =
        [[nest o k], [o.plainSpanned ⟨k, k + 1⟩ (PlainTree.value "a")]].map
          fun ts => .ok (some ts) := by
      simp [hfirst, hlast]
    have hsequence : m.forest.freshOutput o (a :: node :: path) x =
        .ok (some [nest o k, o.plainSpanned ⟨k, k + 1⟩ (PlainTree.value "a")]) := by
      rw [freshOutput_of_not_mem hpx.isPath.length_le (hpx.not_mem hx (by simp [height])) hlist,
        freshNode_sequence, strung_of_map hparts]
      rfl
    have hmore := freshOutput_only hpa.isPath (hpa.not_mem ha (by simp [height])) hchoice hsequence
    exact freshOutput_only hp.isPath (hp.not_mem hn (by simp [height])) hnode hmore

end

end LeftRecursion

namespace Forest

open LeftRecursion Machine

/-- **Left recursion stays linear.** The text compiles, and any number of symbols is accepted, with
four nodes for each, two more, and one root. Every policy extracts the left nest of the symbols,
which is one tree. -/
theorem leftRecursion_exact [KnownPatterns] (split : Bool) :
    ∃ g, Grammar.compile split source = .ok g ∧
    ∀ n, ∃ f, parse g (List.replicate n "a") = .ok f ∧ f.size = 4 * n + 2 ∧ f.roots.length = 1 ∧
      ∀ o : ParseOptions, ∃ t k, f.extract o = .ok (t, k) ∧ t.plain = nest o n ∧ t.count = 1 := by
  refine ⟨grammar, compile_source split, fun n => ?_⟩
  obtain ⟨f, hf⟩ := exists_parse_of_derives closed_grammar (derives_rule n)
  obtain ⟨L, m, root, h, rfl, hroots, hresult⟩ := exists_finished_of_parse closed_grammar hf
  rw [List.length_replicate] at hresult
  refine ⟨m.forest, hf, size_eq h, by simp [hroots, Machine.forest], fun o => ?_⟩
  obtain ⟨t, k, ht, hplain, hcount⟩ :=
    exists_extract_of_root hroots (output_eq (o := o) h hresult (.nil _ _ _ _))
  have hone : (Tree.readingsAll [nest o n]).length = 1 := by
    rw [Tree.readingsAll_singleton, (unpacked_nest o n).readingsAt_eq]
    rfl
  rw [hone] at hcount
  exact ⟨t, k, ht, hplain, hcount⟩

end Forest

end GeneralParsing
