import GeneralParsing.Proofs.Grammar.Definitions
import GeneralParsing.Proofs.Grammar.Isomorphism
import GeneralParsing.Proofs.Parsing.Termination
import GeneralParsing.Proofs.Rules.Language
import GeneralParsing.Proofs.Rules.Session
import GeneralParsing.Proofs.Tree.Picking

/-!
# No faults

A fault is a lookup of something that is not there, or a result that is no choice where alternatives
are joined. Grammars that come out of sessions with the builder, compiled ones among them, have no
faults, wherever one gets with them (`Grammar.no_faults`): not in parsing, not in extracting a tree
under any options, not in counting its trees or in picking the first one, and not in comparing two
of them. It all comes of the grammars being closed.
-/

namespace GeneralParsing

namespace Forest

variable {g : Grammar} {w : List String}

/-- With a closed grammar parsing comes to a forest or **a rejection**, never to a fault. The bound
on the steps is never met, and whatever is looked up is there. -/
theorem parse_cases (hg : g.Closed) (w : List String) :
    (∃ f, parse g w = .ok f) ∨ ∃ position, parse g w = .error (.rejected position) := by
  obtain ⟨L, m, -, -, ⟨hparse, -⟩ | ⟨hparse, -⟩⟩ := exists_faithful hg w
  · exact .inl ⟨_, hparse⟩
  · exact .inr ⟨_, hparse⟩

end Forest

namespace Grammar

open Builder

/-- **No faults.** Every grammar that is compiled is built in a session. A grammar that is built in
a session is closed; parsing with it ends with a forest or a rejection; in the forest every
reference is to a node that is there; a tree is extracted or found ambiguous; in going through a
tree or a part of it nothing unknown is looked up; and two such grammars are compared. -/
theorem no_faults [PatternReader] :
    (∀ split source c, compile split source = .ok c → c.Built) ∧
    ∀ g : Grammar, g.Built → g.Closed ∧
      (∀ w, (∃ f, Forest.parse g w = .ok f) ∨
        ∃ position, Forest.parse g w = .error (.rejected position)) ∧
      (∀ w f, Forest.parse g w = .ok f → f.Closed ∧
        ∀ o, ((∃ t n, f.extract o = .ok (t, n)) ∨ f.extract o = .error .ambiguous) ∧
          ∀ t n, f.extract o = .ok (t, n) → ∀ u : NumberedTree, u.PartOf t → u.FoldsThrough) ∧
      ∀ h : Grammar, h.Built → ∃ answer, g.isomorphic h = .ok answer := by
  refine ⟨fun split source c hc => built_of_compile hc, fun g hg => ?_⟩
  have hclosed := hg.closed
  refine ⟨hclosed, Forest.parse_cases hclosed, fun w f hf => ?_,
    fun h hh => exists_isomorphic hclosed hh.closed⟩
  have hforest := Forest.closed_of_parse hclosed hf
  exact ⟨hforest, fun o => ⟨Forest.extract_cases hforest o,
    fun _ _ _ u _ => u.foldsThrough⟩⟩

/-- Sums of `n` once more, with **a slot** for the sum. -/
def slottedSums : Grammar where
  exprs := #[.token "n", .token "+", .alt (some "sum") [3, 0], .seq none [2, 1, 2],
    .alt (some "sum") [3, 0]]
  start := 2
  start_lt := by decide

namespace SlottedSums

/-- The **symbols** of sums. -/
def symbols : Array (Option Expr) := #[some (.token "n"), some (.token "+")]

/-- A sum, a sign and **another sum**. -/
def longer : Expr := .seq none [2, 1, 2]

/-- The body of the slot: **a longer sum** or a symbol. -/
def sum : Expr := .alt (some "sum") [3, 0]

/-- The call that builds **the body of the slot**, with the slot in scope. -/
def bodies (slots : List ExprId) : Build (List ExprId) := do
  let longer ← Builder.seq (slots ++ [1] ++ slots) none
  return [← Builder.alt [longer, 0] (some "sum")]

end SlottedSums

section

open scoped Common
open SlottedSums

/-- Sums are built in a session that **defines a slot**, and in which a call fails: a repetition at
least three times and at most twice. -/
theorem builtWith_slottedSums : slottedSums.BuiltWith 2 4 := by
  have hsymbols : Session [] {} [0, 1] ⟨symbols, []⟩ :=
    ((Session.nil [] {}).call (.token "n") (by decide)).call (.token "+") (by decide)
  have hfailed : Session [] {} [0, 1] ⟨symbols, []⟩ :=
    hsymbols.call (.rep 0 none 3 (some 2)) (by decide)
  have hlonger : Session [0, 1, 2] ⟨symbols.push none, []⟩ [0, 1, 2, 3]
      ⟨(symbols.push none).push (some longer), []⟩ :=
    (Session.nil [0, 1, 2] _).call (.seq [2, 1, 2] none) (by decide)
  have hinner : Session [0, 1, 2] ⟨symbols.push none, []⟩ [0, 1, 2, 3, 4]
      ⟨((symbols.push none).push (some longer)).push (some sum), []⟩ :=
    hlonger.call (.alt [3, 0] (some "sum")) (by decide)
  have hslots : (declareMany 1).run.run ⟨symbols, []⟩ = (.ok [2], ⟨symbols.push none, []⟩) := rfl
  have hbodies : (bodies [2]).run.run ⟨symbols.push none, []⟩ =
      (.ok [4], ⟨((symbols.push none).push (some longer)).push (some sum), []⟩) := rfl
  have hlink : ((2, 4) : ExprId × ExprId) ∈ [2].zip [4] := List.mem_singleton_self _
  obtain ⟨b, hbefore, hslot, hbody, hok, hafter⟩ :=
    hfailed.exists_define_of_recs hslots hinner hbodies (by decide) rfl hlink
  exact ⟨_, b, _, _, hbefore, hslot, hbody, hok, hafter, by decide, rfl⟩

theorem built_slottedSums : slottedSums.Built := builtWith_slottedSums.built

/-- Sums with a slot **have no faults**: what is a sum is parsed, what is none is rejected. -/
theorem no_faults_slottedSums : slottedSums.Built ∧ slottedSums.Closed ∧
    (∃ f, Forest.parse slottedSums ["n", "+", "n"] = .ok f ∧ f.Closed ∧
      ∃ t n, f.extract {} = .ok (t, n) ∧ t.FoldsThrough) ∧
    (∃ position, Forest.parse slottedSums ["n", "+"] = .error (.rejected position)) ∧
    (∃ answer, slottedSums.isomorphic slottedSums = .ok answer) ∧
    ∃ c, compile true Dialect.sumText = .ok c ∧ c.Built := by
  obtain ⟨hclosed, hparse, hforest, hanswer⟩ := no_faults.2 slottedSums built_slottedSums
  obtain ⟨c, -, hc⟩ := exists_compile_sumText
  have hsum : (Forest.parse slottedSums ["n", "+", "n"]).isOk = true := by cbv
  have htree : (Forest.parse slottedSums ["n", "+", "n"]).toOption.all
      (fun f => (f.extract {}).isOk) = true := by cbv
  have hnone : (Forest.parse slottedSums ["n", "+"]).isOk = false := by cbv
  refine ⟨built_slottedSums, hclosed, ?_, ?_, hanswer slottedSums built_slottedSums, c, hc,
    no_faults.1 true Dialect.sumText c hc⟩
  · obtain ⟨f, hf⟩ | ⟨_, h⟩ := hparse ["n", "+", "n"]
    · obtain ⟨hfclosed, hextract⟩ := hforest _ f hf
      obtain ⟨⟨t, n, ht⟩ | hambiguous, hthrough⟩ := hextract {}
      · exact ⟨f, hf, hfclosed, t, n, ht, hthrough t n ht t (.refl t)⟩
      · rw [hf, Except.toOption, Option.all_some, hambiguous] at htree
        cases htree
    · rw [h] at hsum
      cases hsum
  · obtain ⟨_, h⟩ | hrejected := hparse ["n", "+"]
    · rw [h] at hnone
      cases hnone
    · exact hrejected

end

end Grammar

end GeneralParsing
