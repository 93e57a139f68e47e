import GeneralParsing.Proofs.Machine.Behind
import GeneralParsing.Proofs.Machine.Found

/-!
# Recognition is exact

With a closed grammar, parsing yields a forest for exactly the inputs that the start expression
derives (`Forest.exists_parse_iff_derives`). In one direction there is a derivation behind every
root. In the other the input has an unstalled derivation, which the machine finds, so it neither
stops early nor comes to the end without a root.

Nothing is asked of the grammar beyond that it is closed: it may be ambiguous and left-recursive, it
may have cycles among its choices, repetitions of what derives nothing, and choices without
children.
-/

namespace GeneralParsing

open Machine

namespace Forest

variable {g : Grammar} {w : List String} {f : Forest}

/-- A forest is the forest **of a faithful machine** that has read the whole input. -/
theorem exists_machine_of_parse (hg : g.Closed) (hf : parse g w = .ok f) :
    ∃ L m, Faithful g w L m m.matched ∧ m.tasks = [] ∧ f = m.forest ∧ m.position = w.length ∧
      m.roots ≠ [] := by
  obtain ⟨L, m, hfaithful, htasks, ⟨hparse, hposition, hroots⟩ | ⟨hparse, -⟩⟩ :=
    exists_faithful hg w
  · exact ⟨L, m, hfaithful, htasks, Except.ok.inj (hf.symm.trans hparse), hposition, hroots⟩
  · cases hf.symm.trans hparse

/-- An input that has a forest **is derived**. A root is a result over the whole input, and results
are explained by derivations. -/
theorem derives_of_parse (hg : g.Closed) (hf : parse g w = .ok f) : g.Derives g.start w := by
  obtain ⟨L, m, hfaithful, -, -, hposition, hroots⟩ := exists_machine_of_parse hg hf
  obtain ⟨root, hroot⟩ := List.exists_mem_of_ne_nil _ hroots
  obtain ⟨d, hspans, -⟩ := hfaithful.sound.exists_behind (hfaithful.sound.root root hroot).1
  refine Grammar.derives_iff.mpr ⟨d, hspans.valid, hspans.root, ?_⟩
  have hlen : d.yield.length = w.length := by
    have hends := hspans.ends
    rwa [Nat.zero_add, hposition] at hends
  exact hspans.reads.eq_of_length hlen

/-- An input that is derived **has a forest**. The machine does not stop before it has done all it
can, and so it finds a root. -/
theorem exists_parse_of_derives (hg : g.Closed) (h : g.Derives g.start w) :
    ∃ f, parse g w = .ok f := by
  obtain ⟨d, hd, hroot, hyield⟩ := Grammar.derives_iff.mp h
  obtain ⟨d', hd', hunstalled, hroot', hyield'⟩ := hd.exists_unstalled
  rw [hroot] at hroot'
  rw [hyield] at hyield'
  obtain ⟨L, m, hfaithful, htasks, ⟨hparse, -⟩ | ⟨-, hstop⟩⟩ := exists_faithful hg w
  · exact ⟨_, hparse⟩
  · have hend : ¬ GoesOn m w.length := by
      rintro ⟨hlt, hmatched⟩
      rcases hstop with ⟨hposition, -⟩ | ⟨-, hnone, -⟩
      · omega
      · exact hmatched hnone
    obtain ⟨root, hmem, hresult, -⟩ :=
      hfaithful.found_root htasks hd' hunstalled hroot' hyield' hend
    rcases hstop with ⟨-, hnone⟩ | ⟨hlt, hnone, -⟩
    · simp [hnone] at hmem
    · -- nothing waits, so no result ends beyond the position
      obtain ⟨id, hresult, -⟩ := hresult
      have hpast := hfaithful.unique.past root id w.length hresult (by simp [hnone])
      omega

/-- **Recognition is exact**: an input has a forest if and only if the start expression derives
it. -/
theorem exists_parse_iff_derives (hg : g.Closed) (w : List String) :
    (∃ f, parse g w = .ok f) ↔ g.Derives g.start w :=
  ⟨fun ⟨_, hf⟩ => derives_of_parse hg hf, exists_parse_of_derives hg⟩

end Forest

/-! ### Sums -/

namespace Grammar

/-- **Sums** of `n`, which are left-recursive and ambiguous: a sum is a sum, a plus sign and a sum,
or one `n`. -/
def sums : Grammar where
  exprs := #[.token "n", .token "+", .seq none [3, 1, 3], .alt (some "sum") [2, 0]]
  start := 3
  start_lt := by decide

theorem closed_sums : sums.Closed := by
  rw [Closed, sums]
  decide

/-- An `n` **is a sum**. -/
theorem derives_summand : sums.Derives sums.start ["n"] := by
  have hc : (0 : ExprId) ∈ [2, 0] := by decide
  exact .choice rfl hc (.terminal rfl rfl)

/-- Two sums and a plus sign between them **are a sum**. -/
theorem derives_sum {v w : List String} (hv : sums.Derives sums.start v)
    (hw : sums.Derives sums.start w) : sums.Derives sums.start (v ++ (["+"] ++ (w ++ []))) := by
  have hc : (2 : ExprId) ∈ [2, 0] := by decide
  have hplus : sums.Derives 1 ["+"] := .terminal rfl rfl
  exact .choice rfl hc (.sequence rfl (.cons hv (.cons hplus (.cons hw .nil))))

end Grammar

open Grammar in
/-- Sums of three **are recognised**. -/
theorem Forest.exists_parse_sums : sums.Closed ∧
    ∃ f, Forest.parse sums ["n", "+", "n", "+", "n"] = .ok f :=
  ⟨closed_sums, (Forest.exists_parse_iff_derives closed_sums _).mpr
    (derives_sum derives_summand (derives_sum derives_summand derives_summand))⟩

end GeneralParsing
