import GeneralParsing.Proofs.Dialect.Bounds
import GeneralParsing.Proofs.Tree.Tiling

/-!
# The names of rules

Whatever grammar text rules are read off, their names are letters, digits, underscores and hyphens,
at least one of them (`isName_of_rules`). A tag in the tree of a text is the tag of an expression
that was derived there, and the only expressions of the dialect that are tagged as symbols are made
of a name.
-/

namespace GeneralParsing

namespace Derivation

variable {g : Grammar} {d : Derivation} {t u : PlainTree} {ts : List PlainTree} {tag : String}
variable {collapse : Bool}

theorem label_tagged : (PlainTree.tagged collapse tag ts).label.tag = some tag := by
  unfold PlainTree.tagged
  split
  · split <;> rfl
  · rfl

/-- A part of a tagged tree is the tree, or **a part of what was tagged**. -/
theorem eq_or_exists_part_of_tagged (hu : u.PartOf (PlainTree.tagged collapse tag ts)) :
    u = PlainTree.tagged collapse tag ts ∨ ∃ t ∈ ts, u.PartOf t := by
  cases hu with
  | refl => exact .inl rfl
  | child ht hu =>
    refine .inr ⟨_, ?_, hu⟩
    unfold PlainTree.tagged at ht
    split at ht
    · split at ht
      · simp at ht
      · exact ht
    · exact ht

/-- A part with a tag that is not in what was labelled **has the tag of the label**. -/
theorem exists_within_of_labelled (hout : d.output g collapse =
      PlainTree.labelled collapse (g.tag? d.root) ts)
    (hts : ∀ t ∈ ts, u.PartOf t → ∃ x, Within x d ∧ g.tag? x.root = some tag ∧
      u ∈ x.output g collapse)
    (ht : t ∈ d.output g collapse) (hu : u.PartOf t) (htag : u.label.tag = some tag) :
    ∃ x, Within x d ∧ g.tag? x.root = some tag ∧ u ∈ x.output g collapse := by
  rw [hout] at ht
  cases hroot : g.tag? d.root with
  | none =>
    rw [hroot] at ht
    exact hts t ht hu
  | some tag' =>
    rw [hroot] at ht hout
    obtain rfl := List.mem_singleton.mp ht
    rcases eq_or_exists_part_of_tagged hu with rfl | ⟨t, ht, hu⟩
    · rw [label_tagged] at htag
      exact ⟨d, within_refl d, hroot.trans htag, hout ▸ List.mem_singleton_self _⟩
    · exact hts t ht hu

/-- A part with a tag **comes of an expression** with the tag: it is an output of something within
the derivation. -/
theorem exists_within_of_tag (ht : t ∈ d.output g collapse) (hu : u.PartOf t)
    (htag : u.label.tag = some tag) :
    ∃ x, Within x d ∧ g.tag? x.root = some tag ∧ u ∈ x.output g collapse := by
  induction d using Derivation.induct generalizing t with
  | symbol id text | lexical id part =>
    obtain rfl := List.mem_singleton.mp ht
    cases hu with
    | refl => cases htag
    | child hv => simp at hv
  | omitted id part => cases ht
  | choice id part ih =>
    refine exists_within_of_labelled rfl (fun t ht hu => ?_) ht hu htag
    obtain ⟨x, hx, hroot, hmem⟩ := ih ht hu
    exact ⟨x, hx.of_mem_parts List.mem_cons_self, hroot, hmem⟩
  | sequence id parts ih =>
    cases parts with
    | nil =>
      -- without parts the tag makes a value of its own
      obtain ⟨tag', hroot, rfl⟩ : ∃ tag', g.tag? id = some tag' ∧
          PlainTree.taggedValue tag' "" = t := by simpa [output] using ht
      cases hu with
      | refl => exact ⟨_, within_refl _, hroot.trans htag, ht⟩
      | child hv => simp at hv
    | cons d ds =>
      refine exists_within_of_labelled
        (output_sequence_of_ne_nil collapse id (List.cons_ne_nil d ds))
        (fun t ht hu => ?_) ht hu htag
      obtain ⟨part, hpart, ht⟩ := List.mem_flatMap.mp ht
      obtain ⟨x, hx, hroot, hmem⟩ := ih part hpart ht hu
      exact ⟨x, hx.of_mem_parts hpart, hroot, hmem⟩

end Derivation

namespace Dialect

open GeneralParsing.Derivation Forest

variable {d : Derivation} {t u : PlainTree} {source : List Char} {rs : List Rule}

/-- A name comes out as a value **that is a name**. The pattern for the characters of names allows
no others, and there is one at least. -/
theorem exists_isName (hd : d.Valid written) (hroot : d.root = Part.name) :
    ∃ name, IsName name ∧ d.output written true = [PlainTree.value name] := by
  obtain ⟨part, rfl, hpart, hvalid⟩ := hd.of_lexical hroot rfl
  obtain ⟨parts, rfl, hroots, hmin, -, hparts⟩ := hvalid.of_rep hpart rfl
  obtain ⟨cs, hcs, rfl⟩ := exists_characters rfl accepts_namePattern hparts hroots
  rw [List.length_map] at hmin
  refine ⟨String.ofList cs, ⟨?_, by simpa using hcs⟩, ?_⟩
  · rw [String.toList_ofList]
    exact List.ne_nil_of_length_pos hmin
  · have htext : ∀ cs : List Char, textAll (cs.map fun c =>
        Derivation.symbol Part.nameCharacter (String.singleton c)) = String.ofList cs := by
      intro cs
      induction cs with
      | nil => rfl
      | cons c cs ih =>
        rw [List.map_cons, textAll, ih, Derivation.text, String.singleton_eq_ofList,
          ← String.ofList_append]
        rfl
    exact congrArg (fun name => [PlainTree.value name]) (htext cs)

/-- What is tagged as a symbol **has a name for its value**. -/
theorem exists_taggedName (hd : d.Valid written)
    (hroot : d.root ∈ [Part.symbol, Part.hiddenSymbol]) :
    ∃ tag name, IsName name ∧ d.output written true = [PlainTree.taggedValue tag name] := by
  have htagged : ∀ {id ids tag}, d.root = id → written.expr? id = some (.seq (some tag) ids) →
      ids.filter (fun id => !quiet id) = [Part.name] →
      ∃ name, IsName name ∧ d.output written true = [PlainTree.taggedValue tag name] := by
    intro id ids tag hroot he hids
    obtain ⟨x, -, hx, hname, hout, -⟩ := exists_loud_part _ hd hroot he hids
    obtain ⟨name, hname, hvalue⟩ := exists_isName hx hname
    exact ⟨name, hname, by rw [hout, hvalue]; rfl⟩
  rcases List.mem_pair.mp hroot with hroot | hroot
  · exact ⟨"symbol", htagged hroot rfl rfl⟩
  · exact ⟨"hiddenSymbol", htagged hroot rfl rfl⟩

/-- The expressions that are **tagged as symbols** are these two. -/
theorem mem_of_tag?_symbol {id : ExprId} {tag : String} (htag : written.tag? id = some tag)
    (hsymbol : tag = "symbol" ∨ tag = "hiddenSymbol") : id ∈ [Part.symbol, Part.hiddenSymbol] := by
  have htagged : ∀ id < written.size,
      written.tag? id = some "symbol" ∨ written.tag? id = some "hiddenSymbol" →
      id ∈ [Part.symbol, Part.hiddenSymbol] := by
    decide +kernel
  obtain ⟨e, he, -⟩ := Option.bind_eq_some_iff.mp htag
  refine htagged id (Array.getElem?_eq_some_iff.mp he).1 ?_
  rw [htag]
  exact hsymbol.imp (congrArg some) (congrArg some)

/-- In the tree of a text what is tagged as a symbol **has a name for its value**. The tree may be
any that the dialect's grammar gives. -/
theorem exists_name_of_tag {tag : String} (hd : d.Valid written) (ht : t ∈ d.output written true)
    (hu : u.PartOf t) (htag : u.label.tag = some tag)
    (hsymbol : tag = "symbol" ∨ tag = "hiddenSymbol") :
    ∃ name, u.label.value = some name ∧ IsName name := by
  obtain ⟨x, hx, hroot, hmem⟩ := exists_within_of_tag ht hu htag
  obtain ⟨tag', name, hname, hout⟩ :=
    exists_taggedName (hd.of_within hx) (mem_of_tag?_symbol hroot hsymbol)
  rw [hout, List.mem_singleton] at hmem
  exact ⟨name, by rw [hmem]; rfl, hname⟩

/-- A reading that succeeds **succeeds step by step**. -/
theorem exists_of_bind_eq_ok {α β : Type} {x : Except Error α} {k : α → Except Error β} {b : β}
    (h : x >>= k = .ok b) : ∃ a, x = .ok a ∧ k a = .ok b := by
  cases x with
  | error e => cases h
  | ok a => exact ⟨a, rfl, h⟩

theorem value_of_valueOrFault {label : Label} {name : String} (h : label.valueOrFault = .ok name) :
    label.value = some name := by
  rw [Label.valueOrFault] at h
  split at h
  · next hvalue => rw [hvalue, Except.ok.inj h]
  · cases h

/-- The name of a rule is **the value of a part** that is tagged as a symbol. It is the first child
of the rule. -/
theorem exists_part_of_ofTree {r : Rule} (h : Rule.ofTree t = .ok r) :
    ∃ u : PlainTree, ∃ tag, u.PartOf t ∧ u.label.tag = some tag ∧
      (tag = "symbol" ∨ tag = "hiddenSymbol") ∧ u.label.value = some r.name := by
  unfold Rule.ofTree at h
  split at h
  · next name body htag hchildren =>
    have hpart : name.PartOf t := .child (by simp [hchildren]) (.refl name)
    have hvalue : ∀ {hidden}, (do
        let text ← name.label.valueOrFault
        return ⟨text, hidden, ← Phrase.ofTree body⟩ : Except Error Rule) = .ok r →
        name.label.value = some r.name := by
      intro hidden h
      obtain ⟨text, htext, h⟩ := exists_of_bind_eq_ok h
      obtain ⟨phrase, -, h⟩ := exists_of_bind_eq_ok h
      obtain rfl := Except.ok.inj h
      exact value_of_valueOrFault htext
    split at h
    · next hname => exact ⟨name, _, hpart, hname, .inl rfl, hvalue h⟩
    · next hname => exact ⟨name, _, hpart, hname, .inr rfl, hvalue h⟩
    · cases h
  · cases h

/-- Each rule of a list is read off **one of the trees**. -/
theorem exists_mem_of_mapM {ts : List PlainTree} (h : ts.mapM Rule.ofTree = .ok rs) :
    ∀ r ∈ rs, ∃ t ∈ ts, Rule.ofTree t = .ok r := by
  induction ts generalizing rs with
  | nil =>
    obtain rfl := Except.ok.inj h
    simp
  | cons t ts ih =>
    rw [List.mapM_cons] at h
    obtain ⟨r, hr, h⟩ := exists_of_bind_eq_ok h
    obtain ⟨rest, hrest, h⟩ := exists_of_bind_eq_ok h
    obtain rfl := Except.ok.inj h
    refine List.forall_mem_cons.mpr ⟨⟨t, List.mem_cons_self, hr⟩, fun r' hr' => ?_⟩
    obtain ⟨t', ht', hread⟩ := ih hrest r' hr'
    exact ⟨t', List.mem_cons_of_mem _ ht', hread⟩

/-- **The rules of a text have names**: letters, digits, underscores and hyphens. Tags of nodes are
names of rules, so this is why they can be printed without quotes. -/
theorem isName_of_rules [KnownPatterns] (h : rules source = .ok rs) : ∀ r ∈ rs, IsName r.name := by
  obtain ⟨⟨tree, n⟩, hparse, h⟩ := exists_of_bind_eq_ok h
  change Rule.listOfTree tree = .ok rs at h
  obtain ⟨f, t, n, hf, ht, hplain⟩ := parse_iff_hasTree.mp ⟨tree, n, hparse, rfl⟩
  obtain ⟨t', n', out, ht', ⟨d, hd, hroot, -, hout⟩, hsingle⟩ :=
    exists_hasTree_of_parse closed_written hf
  obtain ⟨rfl, -⟩ := Prod.mk.inj (Except.ok.inj (ht.symm.trans ht'))
  obtain ⟨u, hu, -⟩ := holds_text hd hroot
  rw [← Rule.listOfTree_plain, ← hplain, hsingle, ← hout, hu, PlainTree.single,
    Rule.listOfTree] at h
  split at h
  · intro r hr
    obtain ⟨t, ht, hread⟩ := exists_mem_of_mapM h r hr
    obtain ⟨v, tag, hv, htag, hsymbol, hvalue⟩ := exists_part_of_ofTree hread
    obtain ⟨name, hname, hok⟩ := exists_name_of_tag hd (hu ▸ List.mem_singleton_self u)
      (.child ht hv) htag hsymbol
    obtain rfl := Option.some.inj (hvalue.symm.trans hname)
    exact hok
  · cases h

end Dialect

end GeneralParsing
