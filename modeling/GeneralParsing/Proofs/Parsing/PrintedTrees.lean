import GeneralParsing.Proofs.Dialect.Names
import GeneralParsing.Proofs.Parsing.LeftRecursion
import GeneralParsing.Proofs.Rules.NodeTags
import GeneralParsing.Proofs.Tree.Comparing
import GeneralParsing.Proofs.Tree.Printing

/-!
# Printing extracted trees loses nothing

Trees that are extracted with a grammar that was compiled from text can be read back from print
(`Extracted.readable`). Their tags are names of rules, and names have no characters with a meaning
in print. Values are quoted, and it is the leaves that have them. Shapes keep this, whatever the
options.

So two such trees print the same just when they are equal, whichever grammars, inputs and options
they come from (`Extracted.print_eq_iff`).
-/

namespace GeneralParsing

open GeneralParsing.Tree

/-- A name **shows as what it is**. -/
theorem showable_of_isName {name : String} (h : Dialect.IsName name) : Showable name := by
  have hmarks : ∀ c ∈ [' ', '"', '<', '|', '\x60', '\n'], isNameCharacter c = false := by
    simp only [List.forall_mem_cons, List.not_mem_nil, false_imp_iff, implies_true, and_true]
    exact ⟨rfl, rfl, rfl, rfl, rfl, rfl⟩
  obtain ⟨hne, hclass⟩ := h
  refine ⟨hne, fun c hc hmark => ?_⟩
  have hname := hclass c hc
  rw [hmarks c hmark] at hname
  cases hname

namespace Tree

variable {ts : List PlainTree} {tag : String} {o : ParseOptions} {span : Span}

/-! ### Shapes are readable -/

theorem shown_of_untagged {label : Label} (htag : label.tag = none)
    (hpacked : label.packed = true → label.value = none) : label.Shown where
  packed hp := ⟨htag, hpacked hp⟩
  tag tag h := by simp [htag] at h

theorem shown_of_tag (htag : Showable tag) (value : Option String) :
    ({ tag := some tag, value } : Label).Shown where
  packed := nofun
  tag _ h := Option.some.inj h ▸ htag

theorem readable_plainSpanned {t : PlainTree} (h : t.Readable) :
    (o.plainSpanned span t).Readable := by
  unfold ParseOptions.plainSpanned
  split
  · obtain ⟨⟨hshown, hleaf⟩, hchildren⟩ := readable_iff.mp h
    have hlabel : (t.withSpan span).label = { t.label with span := some span } := by
      cases t <;> rfl
    refine readable_iff.mpr ⟨⟨?_, ?_⟩, ?_⟩
    · rw [hlabel]
      exact ⟨hshown.packed, hshown.tag⟩
    · rw [hlabel]
      cases t <;> exact hleaf
    · cases t <;> exact hchildren
  · exact h

theorem readable_value (text : String) : (PlainTree.value text).Readable :=
  readable_iff.mpr ⟨⟨shown_of_untagged rfl nofun, rfl⟩, by simp⟩

theorem readable_taggedValue (htag : Showable tag) (text : String) :
    (PlainTree.taggedValue tag text).Readable :=
  readable_iff.mpr ⟨⟨shown_of_tag htag _, rfl⟩, by simp⟩

theorem readable_node (htag : Showable tag) (h : ∀ t ∈ ts, t.Readable) :
    (PlainTree.node tag ts).Readable :=
  readable_iff.mpr ⟨⟨shown_of_tag htag _, rfl⟩, h⟩

theorem readable_group (h : ∀ t ∈ ts, t.Readable) : (PlainTree.group ts).Readable :=
  readable_iff.mpr ⟨⟨shown_of_untagged rfl nofun, rfl⟩, h⟩

theorem readable_packed (h : ∀ t ∈ ts, t.Readable) : (PlainTree.packed ts).Readable :=
  readable_iff.mpr ⟨⟨shown_of_untagged rfl fun _ => rfl, rfl⟩, h⟩

theorem readable_plainPack {found : List (List PlainTree)}
    (h : ∀ ts ∈ found, ∀ t ∈ ts, t.Readable) : (o.plainPack span found).Readable := by
  refine readable_plainSpanned (readable_packed fun t ht => ?_)
  obtain ⟨ts, hts, ht⟩ := List.mem_flatMap.mp ht
  unfold ParseOptions.plainAlternatives at ht
  split at ht
  · next only =>
    have honly := h _ hts only List.mem_cons_self
    split at ht
    · exact (readable_iff.mp honly).2 t ht
    · rwa [List.mem_singleton.mp ht]
  · rw [List.mem_singleton.mp ht]
    exact readable_plainSpanned (readable_group (h ts hts))

theorem readable_plainWrap (htag : Showable tag) (h : ∀ t ∈ ts, t.Readable) :
    (o.plainWrap span tag ts).Readable := by
  refine readable_plainSpanned ?_
  unfold PlainTree.tagged
  split
  · split
    · exact readable_taggedValue htag _
    · exact readable_node htag h
  · exact readable_node htag h

theorem readable_plainTagged (htag : Showable tag) (h : ∀ t ∈ ts, t.Readable) :
    (o.plainTagged span tag ts).Readable := by
  unfold ParseOptions.plainTagged
  split
  · next only =>
    have honly := h only List.mem_cons_self
    split
    · -- the tag has moved into the alternatives
      refine readable_plainSpanned (readable_packed fun t ht => ?_)
      obtain ⟨part, hpart, rfl⟩ := List.mem_map.mp ht
      have hpart := (readable_iff.mp honly).2 part hpart
      refine readable_plainWrap htag ?_
      split
      · exact (readable_iff.mp hpart).2
      · simpa using hpart
    · exact readable_plainWrap htag h
  · exact readable_plainWrap htag h

theorem Readable.of_plain {ι : Type} {t : Tree ι} (h : t.plain.Readable) : t.Readable := by
  intro u hu
  simpa using h u.plain hu.plain

end Tree

/-! ### Extracted trees -/

/-- A tree that is **extracted** from a parse with a grammar that was compiled from text. -/
def Extracted [PatternReader] (t : NumberedTree) : Prop :=
  ∃ split source g w f o n, Grammar.compile split source = .ok g ∧ Forest.parse g w = .ok f ∧
    f.extract o = .ok (t, n)

namespace Extracted

variable {t u : NumberedTree}

/-- Extracted trees can be **read back from print**. Values are quoted, tags are names, and depth is
shown by the marks in front. -/
theorem readable [KnownPatterns] (h : Extracted t) : t.Readable := by
  obtain ⟨split, source, g, w, f, o, n, hg, hf, ht⟩ := h
  have hshowable : ∀ tag, f.HasTag tag → Showable tag := by
    intro tag htag
    obtain ⟨rs, hrules, r, hr, -, rfl⟩ := Grammar.exists_rule_of_hasTag hg hf htag
    exact showable_of_isName (Dialect.isName_of_rules hrules r hr)
  obtain ⟨ts, hroot, hts⟩ := Forest.exists_plainRoot_of_freshTree (motive := Readable)
    (fun _ _ _ _ => readable_plainPack)
    (fun hout => Forest.forall_mem_freshOutput_of_hasTag
      (fun _ text => readable_plainSpanned (readable_value text))
      (fun _ tag text htag =>
        readable_plainSpanned (readable_taggedValue (hshowable tag htag) text))
      (fun _ _ _ _ _ => readable_plainPack)
      (fun _ tag _ htag => readable_plainTagged (hshowable tag htag)) hout)
    (Forest.freshTree_of_extract ht)
  refine .of_plain (hroot ▸ ?_)
  unfold Forest.plainRoot
  split
  · exact hts _ List.mem_cons_self
  · exact readable_plainSpanned (readable_group hts)

/-- **Printing loses nothing.** Extracted trees print the same just when they are equal apart from
sharing, whatever they were extracted from. Comparing them finds out the same, if no number stands
for two families. -/
theorem print_eq_iff [KnownPatterns] (ht : Extracted t) (hu : Extracted u) :
    (t.print = u.print ↔ t.plain = u.plain) ∧
      ∀ members, Filed members t → Filed members u → (t.print = u.print ↔ t.same u = true) := by
  have hplain := print_eq_print_iff ht.readable hu.readable
  exact ⟨hplain, fun members hft hfu => hplain.trans (same_iff hft hfu).symm⟩

/-- What is extracted from **no symbols and from one** in left recursion. -/
def shallow : NumberedTree := branch { tag := some "S" } 0 []

@[inherit_doc shallow]
def deep : NumberedTree := branch { tag := some "S" } 1 [shallow, leaf { value := some "a" }]

/-- The forests of left recursion over **no symbols and over one**, from which `shallow` and `deep`
are extracted. -/
def shallowForest : Forest where
  nodes := #[⟨.sequence none [], ⟨0, 0⟩⟩, ⟨.choice (some "S") [0], ⟨0, 0⟩⟩]
  roots := [1]
  tokens := 0

@[inherit_doc shallowForest]
def deepForest : Forest where
  nodes := #[⟨.sequence none [], ⟨0, 0⟩⟩, ⟨.choice (some "S") [0], ⟨0, 0⟩⟩,
    ⟨.symbol "a", ⟨0, 1⟩⟩, ⟨.sequence none [1, 2], ⟨0, 1⟩⟩, ⟨.choice none [3], ⟨0, 1⟩⟩,
    ⟨.choice (some "S") [4], ⟨0, 1⟩⟩]
  roots := [5]
  tokens := 1

/-- The children that the **two numbers** in `shallow` and `deep` stand for. -/
def deepMembers (number : Nat) : List NumberedTree := if number = 0 then [] else deep.children

open scoped Common in
theorem print_eq_iff_deep : Extracted shallow ∧ Extracted deep ∧
    (shallow.print = deep.print ↔ shallow.plain = deep.plain) ∧
    ∃ members, Filed members shallow ∧ Filed members deep ∧
      (shallow.print = deep.print ↔ shallow.same deep = true) := by
  have hcompile := LeftRecursion.compile_source true
  have hshallow : Extracted shallow :=
    ⟨_, _, _, [], shallowForest, {}, 1, hcompile, by cbv, by cbv⟩
  have hdeep : Extracted deep := ⟨_, _, _, ["a"], deepForest, {}, 2, hcompile, by cbv, by cbv⟩
  have hfiled : Filed deepMembers shallow := .branch _ 0 (by simp [deepMembers])
  have hfiled' : Filed deepMembers deep := by
    refine .branch _ 1 (List.forall_mem_cons.mpr ⟨hfiled, ?_⟩)
    exact List.forall_mem_singleton.mpr (.leaf _)
  obtain ⟨hplain, hsame⟩ := print_eq_iff hshallow hdeep
  exact ⟨hshallow, hdeep, hplain, deepMembers, hfiled, hfiled', hsame deepMembers hfiled hfiled'⟩

end Extracted

end GeneralParsing
