import GeneralParsing.Proofs.Derivation.Bisimulation
import GeneralParsing.Proofs.Parsing.Erasure
import GeneralParsing.Proofs.Parsing.PackedSound
import GeneralParsing.Proofs.Parsing.Unambiguous

/-!
# The tree of a word

By default options a word that a grammar derives has one tree (`Forest.HasTree`), and that comes of
one of the outputs that derivations of the word have. Where all of them have one output, however
many derivations there are, the tree is known from any of them (`Forest.hasTree_iff`). Where all
derivations are alike, it is the tree by all other options as well (`Forest.extracts_of_yields`).
-/

namespace GeneralParsing

namespace Forest

open GeneralParsing.Derivation

variable {g : Grammar} {w : List String} {f : Forest} {tree : PlainTree}

/-- A word is accepted **with an output**. Outputs are easier to compute than derivations, since
they are given by equations. -/
theorem exists_parse_iff_yields (hg : g.Closed) (collapse : Bool) :
    (∃ f, parse g w = .ok f) ↔ ∃ out, Yields g collapse g.start w out := by
  rw [← Grammar.derives_iff_yields]
  exact ⟨fun ⟨_, hf⟩ => derives_of_parse hg hf, exists_parse_of_derives hg⟩

/-- By default options a word **has this tree**. -/
def HasTree (g : Grammar) (w : List String) (tree : PlainTree) : Prop :=
  ∃ f t n, parse g w = .ok f ∧ f.extract {} = .ok (t, n) ∧ t.plain = tree

/-- A word that has a forest **has a tree**, and it comes of an output. -/
theorem exists_hasTree_of_parse (hg : g.Closed) (hf : parse g w = .ok f) :
    ∃ t n out, f.extract {} = .ok (t, n) ∧ Yields g true g.start w out ∧
      t.plain = PlainTree.single out := by
  obtain ⟨t, n, ht, d, hd, hroot, hyield, hplain⟩ := exists_derivation_first hg hf true
  exact ⟨t, n, d.output g true, ht, ⟨d, hd, hroot, hyield, rfl⟩, hplain⟩

/-- Where all outputs are the same **the tree is theirs**. There may be many derivations, as long as
they give the same. -/
theorem hasTree_iff (hg : g.Closed)
    (hunique : ∀ {out out'}, Yields g true g.start w out → Yields g true g.start w out' →
      out = out') :
    HasTree g w tree ↔ ∃ out, Yields g true g.start w out ∧ tree = PlainTree.single out := by
  constructor
  · rintro ⟨f, t, n, hf, ht, rfl⟩
    obtain ⟨t', n', out, ht', hout, hplain⟩ := exists_hasTree_of_parse hg hf
    obtain ⟨rfl, -⟩ := Prod.mk.inj (Except.ok.inj (ht.symm.trans ht'))
    exact ⟨out, hout, hplain⟩
  · rintro ⟨out, hout, rfl⟩
    obtain ⟨f, hf⟩ := (exists_parse_iff_yields hg true).mpr ⟨out, hout⟩
    -- the tree in the forest comes of some output, and there is only the one
    obtain ⟨t, n, out', ht, hout', hplain⟩ := exists_hasTree_of_parse hg hf
    exact ⟨f, t, n, hf, ht, by rw [hplain, hunique hout hout']⟩

/-- Without children a tree is **known from its label**, marks or no marks. -/
theorem HasTree.leaf {label : Label} (h : HasTree g w (.leaf label)) :
    ∃ f n, parse g w = .ok f ∧ f.extract {} = .ok (.leaf label, n) := by
  obtain ⟨f, t, n, hf, ht, hplain⟩ := h
  cases t with
  | leaf label' =>
    cases hplain
    exact ⟨f, n, hf, ht⟩
  | branch => cases hplain

/-- Extraction comes to **this tree**, with spans on it if they are asked for. -/
def Extracts (f : Forest) (o : ParseOptions) (tree : PlainTree) : Prop :=
  ∃ t n, f.extract o = .ok (t, n) ∧ t.plain.bare = tree.bare ∧ (o.spans = false → t.plain = tree)

/-- **A clear input has the tree of any output**, whatever the options. So it is enough to find one,
and to show that there is no other derivation. -/
theorem extracts_of_yields (hg : g.Closed) (hf : parse g w = .ok f)
    (hclear : g.Clear g.start w) (o : ParseOptions) {out : List PlainTree}
    (hout : Yields g o.collapse g.start w out) : f.Extracts o (PlainTree.single out) := by
  obtain ⟨d, hd, hroot, hyield, rfl⟩ := hout
  -- without spans all policies come to what the first derivation does
  obtain ⟨s, k, hfirst, hshape⟩ := extract_eq_shape_of_clear hg hf hclear hd hroot hyield o.collapse
  obtain ⟨tree, -, hall⟩ := exists_extract_of_clear hg hf hclear o.withoutSpans
  obtain ⟨s', k', hfirst', rfl⟩ := hall .first
  obtain ⟨rfl, rfl⟩ := Prod.mk.inj (Except.ok.inj (hfirst.symm.trans hfirst'))
  obtain ⟨u, m, hu, hplain⟩ := hall o.ambiguity
  obtain ⟨tree', -, hall'⟩ := exists_extract_of_clear hg hf hclear o
  obtain ⟨t, n, ht, -⟩ := hall' o.ambiguity
  have huplain : u.plain = PlainTree.single (d.output g o.collapse) := hplain.trans hshape
  refine ⟨t, n, ht, (bare_eq_of_extract ht hu).trans (congrArg Tree.bare huplain), fun hspans => ?_⟩
  have ho : o.withoutSpans = o := by rw [ParseOptions.withoutSpans, ← hspans]
  rw [ho] at hu
  obtain ⟨rfl, rfl⟩ := Prod.mk.inj (Except.ok.inj (ht.symm.trans hu))
  exact huplain

end Forest

end GeneralParsing
