import GeneralParsing.Proofs.Parsing.Consistency
import GeneralParsing.Proofs.Parsing.Coverage
import GeneralParsing.Proofs.Parsing.Termination

/-!
# The roots have an output

A choice can lead back to itself, and the walk over a forest cuts a derivation that does. It never
cuts all of them. The first alternative of a choice is older than the choice, so going down by first
alternatives one meets older and older nodes, and none that is on the path; hence every result has
an output on every path of later nodes (`Machine.Sound.freshOutput_ne_none`), and so have the roots,
which no path leads to.

An accepted input therefore has a tree that comes of a derivation: the choice among the roots hands
on an output, which may be empty, unless the forest is ambiguous and the policy does not put up with
that (`Forest.exists_root_output`).
-/

namespace GeneralParsing

namespace Forest

open Extract Machine

variable {g : Grammar} {w : List String} {f : Forest} {o : ParseOptions}

/-- The walk **from the roots**: the output of the choice among them, and what is remembered. -/
def rootWalk (f : Forest) (o : ParseOptions) : Except Error (Output × Walk) :=
  (choose o (visit f o (f.size + 1) []) f.wholeSpan f.roots).run {}

/-- Extraction is **the walk from the roots**, and what is made of its output. A missing output
would pass for an empty one. -/
theorem extract_eq (f : Forest) (o : ParseOptions) :
    f.extract o = f.rootWalk o >>= fun result =>
      ((f.rootTree o (result.1.getD [])).run result.2).map
        fun final => (final.1, final.2.next) := by
  rw [extract, extractTree, StateT.run_bind, rootWalk]
  cases (choose o (visit f o (f.size + 1) []) f.wholeSpan f.roots).run {} <;> rfl

/-- The walk from the roots comes to **what the choice among their outputs** comes to. What is known
from earlier nodes does not change what later ones give. -/
theorem map_plain_rootWalk (f : Forest) (o : ParseOptions) :
    (f.rootWalk o).map (fun result => result.1.map (List.map Tree.plain)) =
      chosen o f.wholeSpan (f.roots.map (f.freshOutput o [])) := by
  cases serves_roots f o {} [] List.prefix_rfl (remembers_empty f o) (fresh_nil f {}) with
  | error hrun h => rw [rootWalk, hrun, h]; rfl
  | ok hrun _ hreads hcome => rw [rootWalk, hrun, hcome.here, ← hreads.1]; rfl

/-- **The roots have an output.** For every accepted input and under all options, the walk from the
roots hands on an output, of which the tree is made, or it finds the forest ambiguous. -/
theorem exists_root_output (hf : parse g w = .ok f) (o : ParseOptions) :
    (∃ ts walk, f.rootWalk o = .ok (some ts, walk) ∧
      f.extract o = ((f.rootTree o ts).run walk).map fun (t, w) => (t, w.next)) ∨
    f.rootWalk o = .error .ambiguous ∧ f.extract o = .error .ambiguous := by
  obtain ⟨L, m, hreached, rfl, hroots, -⟩ := exists_reached_forest hf
  have hs := hreached.faithful.sound
  have hclosed := hs.closed_forest
  have hwalk := map_plain_rootWalk m.forest o
  rw [extract_eq]
  cases hrun : m.forest.rootWalk o with
  | error e =>
    rw [hrun] at hwalk
    have hambiguous : e = .ambiguous := by
      refine onlyAmbiguous_chosen (List.forall_mem_map.mpr fun root hroot => ?_) e hwalk.symm
      exact onlyAmbiguous_freshOutput hclosed (isPath_nil _) (hclosed.root_lt root hroot)
    rw [hambiguous]
    exact .inr ⟨rfl, rfl⟩
  | ok result =>
    obtain ⟨out, walk⟩ := result
    rw [hrun] at hwalk
    cases out with
    | none => exact absurd hwalk.symm (hs.chosen_roots_ne_none hroots o _)
    | some ts => exact .inl ⟨ts, walk, rfl, rfl⟩

open Grammar in
/-- Of the derivations of `a` all but one **lead back to themselves**; the roots have an output. -/
theorem exists_root_output_mutualCycle :
    ∃ f, parse mutualCycle ["a"] = .ok f ∧ ∀ o,
      (∃ ts walk, f.rootWalk o = .ok (some ts, walk) ∧
        f.extract o = ((f.rootTree o ts).run walk).map fun (t, w) => (t, w.next)) ∨
      f.rootWalk o = .error .ambiguous ∧ f.extract o = .error .ambiguous := by
  obtain ⟨f, hf⟩ := exists_parse_of_derives closed_mutualCycle derives_mutualCycle
  exact ⟨f, hf, exists_root_output hf⟩

end Forest

end GeneralParsing
