import GeneralParsing.Proofs.Dialect.SelfHosting

/-!
# Bounds that are too large

The tree of a grammar text always has the shape of rules. One thing only can go wrong in reading
the rules off it: a bound of a repetition may be a number that does not fit in 64 bits.

`Judged` says this of a reading: it is refused, with one and the same error, exactly if a condition
holds. The condition is that a number that is too large stands within the derivation (`Overflows`),
and it is carried from the parts of a derivation to the whole, level by level, as the dialect is put
together. `holds_phrase` does so for phrases and `holds_text` for whole texts.
-/

namespace GeneralParsing

namespace Dialect

open GeneralParsing.Derivation Forest

variable {α β : Type} {p q : Prop} {x : Except Error α} {d : Derivation} {id : ExprId}
variable {t : PlainTree} {ts : List PlainTree} {w : List String}

/-! ### Readings that are refused -/

/-- The error that **a bound is no number** that fits. -/
def badBound : Error := .malformedSyntax .badInteger (some "integer")

example : badBound.message = "malformed grammar syntax tree: bad integer in integer" := by decide

/-- A reading that is **refused just if** a condition holds. -/
inductive Judged (p : Prop) : Except Error α → Prop
  | read (h : ¬ p) (a : α) : Judged p (.ok a)
  | refused (h : p) : Judged p (.error badBound)

/-- A judgement may be **put in other words**. -/
theorem Judged.congr (h : Judged p x) (hpq : p ↔ q) : Judged q x := propext hpq ▸ h

/-- The condition holds just if **there is the error**. -/
theorem Judged.eq_error_iff (h : Judged p x) : x = .error badBound ↔ p := by
  cases h with
  | read h a => exact iff_of_false nofun h
  | refused h => exact iff_of_true rfl h

/-- A value may be **made into another** without any bearing on refusals. -/
theorem Judged.map (h : Judged p x) (f : α → β) : Judged p (f <$> x) := by
  cases h with
  | read h a => exact .read h (f a)
  | refused h => exact .refused h

/-- One reading after another is refused **if either is**. What has been read before does not matter
to that, only whether it could be. -/
theorem Judged.bind {k : α → Except Error β} (h : Judged p x) (hk : ∀ a, Judged q (k a)) :
    Judged (p ∨ q) (x >>= k) := by
  cases h with
  | refused h => exact .refused (.inl h)
  | read h a =>
    change Judged (p ∨ q) (k a)
    exact (hk a).congr ⟨.inr, fun hpq => hpq.resolve_left h⟩

/-- What comes to a value **is not refused**. -/
theorem judged_pure (a : α) : Judged False (pure a : Except Error α) := .read id a

/-- Readings of a list are refused **if one of them is**. The first refusal ends it, and all
refusals are of one kind. -/
theorem judged_mapM_flatMap {γ : Type} {f : β → Except Error α} {big : γ → Prop} {out : γ → List β}
    {cs : List γ} (h : ∀ c ∈ cs, Judged (big c) ((out c).mapM f)) :
    Judged (∃ c ∈ cs, big c) ((cs.flatMap out).mapM f) := by
  induction cs with
  | nil => exact (judged_pure []).congr (by simp)
  | cons c cs ih =>
    obtain ⟨hc, hcs⟩ := List.forall_mem_cons.mp h
    rw [List.flatMap_cons, List.mapM_append]
    refine (hc.bind fun _ => (ih hcs).bind fun _ => judged_pure _).congr ?_
    simp

theorem judged_mapM_singleton {f : β → Except Error α} {b : β} (h : Judged p (f b)) :
    Judged p ([b].mapM f) := by
  rw [List.mapM_cons, List.mapM_nil]
  exact (h.bind fun _ => judged_pure _).congr (by simp)

/-! ### Numbers -/

/-- The number that digits **stand for**. -/
def valueOf (w : List String) : Nat := Nat.ofDigitChars 10 (String.join w).toList 0

/-- A number that **does not fit** in 64 bits is within a derivation. -/
def Overflows (d : Derivation) : Prop :=
  ∃ x, Within x d ∧ x.root = Part.integer ∧ 2 ^ 64 ≤ valueOf x.yield

/-- A number is too great in a derivation if it is **the derivation itself or in a part** of it. -/
theorem overflows_iff : Overflows d ↔
    (d.root = Part.integer ∧ 2 ^ 64 ≤ valueOf d.yield) ∨ ∃ x ∈ d.parts, Overflows x := by
  constructor
  · rintro ⟨x, rfl | hx, hroot, hbig⟩
    · exact .inl ⟨hroot, hbig⟩
    · obtain ⟨y, hy, hxy⟩ := inside_iff.mp hx
      exact .inr ⟨y, hy, x, hxy, hroot, hbig⟩
  · rintro (⟨hroot, hbig⟩ | ⟨y, hy, x, hx, hroot, hbig⟩)
    · exact ⟨d, within_refl d, hroot, hbig⟩
    · exact ⟨x, hx.of_mem_parts hy, hroot, hbig⟩

/-- Elsewhere than in an integer it is **in a part**. -/
theorem overflows_iff_parts (hroot : d.root ≠ Part.integer) :
    Overflows d ↔ ∃ x ∈ d.parts, Overflows x :=
  overflows_iff.trans ⟨fun h => h.resolve_left fun h => hroot h.1, .inr⟩

open GeneralParsing.Dialect.Part in
/-- The expressions in which **numbers** may be, the copy of `phrase` included. -/
def numbered : List ExprId := [
  integer, phrase, alternation + 1, paren, omittedPhrase, lexicalPhrase, atom, repStar, repPlus,
  repQuestion, repExact, repMin, repMinMax, quantified, item, nextItem, nextItems, sequence, branch,
  nextBranch, nextBranches, alternation, rule, nextRule, nextRules, Part.rules, Part.text]

/-- Elsewhere **nothing overflows**. -/
theorem not_overflows (hd : d.Valid written) (hroot : d.root ∉ numbered) : ¬ Overflows d := by
  have hclosed : ∀ id < written.size, id ∉ numbered → ∀ e, written.expr? id = some e →
      ∀ child ∈ e.children, child ∉ numbered := by
    decide +kernel
  induction d using induct_parts with
  | step d ih =>
    rw [overflows_iff]
    rintro (⟨hinteger, -⟩ | ⟨x, hx, hbig⟩)
    · exact hroot (hinteger ▸ by decide)
    · obtain ⟨e, he, hc⟩ := hd.root_mem_children hx
      have hlt : d.root < written.size := (Array.getElem?_eq_some_iff.mp he).1
      exact ih x hx (hd.of_mem_parts hx) (hclosed _ hlt hroot e he _ hc) hbig

/-! ### What leaves no trace -/

/-- Expressions that **leave no trace**, and no number either. -/
def quiet (id : ExprId) : Bool :=
  (numbered.all (· != id)) && match written.expr? id with
    | some (.omitted _) => true
    | _ => false

/-- What leaves no trace gives **no trees and has no numbers**. These are the blanks, the marks and
the like, which the grammar omits. -/
theorem output_of_quiet (hd : d.Valid written) (h : quiet d.root = true) :
    d.output written true = [] ∧ ¬ Overflows d := by
  simp only [quiet, Bool.and_eq_true, List.all_eq_true, bne_iff_ne] at h
  obtain ⟨hnumbered, hkind⟩ := h
  have hnone := not_overflows hd fun hmem => hnumbered _ hmem rfl
  generalize hroot : d.root = id at hkind
  split at hkind
  next child he =>
    obtain ⟨part, rfl, -⟩ := hd.of_omitted hroot he
    exact ⟨rfl, hnone⟩
  next => cases hkind

theorem flatMap_filter_of_eq_nil {γ : Type} {f : γ → List β} {keep : γ → Bool} {cs : List γ}
    (h : ∀ c ∈ cs, keep c = false → f c = []) : (cs.filter keep).flatMap f = cs.flatMap f := by
  induction cs with
  | nil => rfl
  | cons c cs ih =>
    obtain ⟨hc, hcs⟩ := List.forall_mem_cons.mp h
    rw [List.flatMap_cons, List.filter_cons, ← ih hcs]
    cases hkeep : keep c with
    | true => rfl
    | false => simp [hc hkeep]

/-- In a sequence only **the other parts** matter. -/
theorem exists_loud_parts {tag : Option String} {ids : List ExprId} (hd : d.Valid written)
    (hroot : d.root = id) (he : written.expr? id = some (.seq tag ids)) (hne : ids ≠ []) :
    ∃ xs : List Derivation, xs.map root = ids.filter (fun id => !quiet id) ∧
      (∀ x ∈ xs, Inside x d ∧ x.Valid written) ∧
      d.output written true = PlainTree.labelled true tag (xs.flatMap (output written true)) ∧
      (Overflows d ↔ ∃ x ∈ xs, Overflows x) := by
  obtain ⟨parts, rfl, rfl, hparts⟩ := hd.of_seq hroot he
  have hquiet : ∀ x ∈ parts, quiet x.root = true →
      x.output written true = [] ∧ ¬ Overflows x :=
    fun x hx => output_of_quiet (hparts x hx)
  have hmem : ∀ x, x ∈ parts.filter (fun x => !quiet x.root) ↔
      x ∈ parts ∧ quiet x.root = false := by
    simp [List.mem_filter]
  refine ⟨parts.filter fun x => !quiet x.root, by rw [List.filter_map]; rfl, fun x hx => ?_, ?_, ?_⟩
  · obtain ⟨hx, -⟩ := (hmem x).mp hx
    exact ⟨.part hx, hparts x hx⟩
  · have hout : (parts.filter fun x => !quiet x.root).flatMap (output written true) =
        parts.flatMap (output written true) :=
      flatMap_filter_of_eq_nil fun x hx hkeep => (hquiet x hx (by simpa using hkeep)).1
    rw [output_sequence_of_ne_nil true id (by simpa using hne), Grammar.tag?_eq he, Expr.tag?,
      hout]
  · have hinteger : id ≠ Part.integer := by
      rintro rfl
      cases he
    rw [overflows_iff_parts (d := .sequence id parts) hinteger]
    constructor
    · rintro ⟨x, hx, hbig⟩
      refine ⟨x, (hmem x).mpr ⟨hx, ?_⟩, hbig⟩
      by_contra hloud
      exact (hquiet x hx (by simpa using hloud)).2 hbig
    · rintro ⟨x, hx, hbig⟩
      exact ⟨x, ((hmem x).mp hx).1, hbig⟩

/-- Two parts can be **named by what they derive**. -/
theorem exists_pair {xs : List Derivation} {a b : ExprId} (h : xs.map root = [a, b]) :
    ∃ x y, xs = [x, y] ∧ x.root = a ∧ y.root = b := by
  obtain ⟨x, xs, rfl, hx, h⟩ := List.map_eq_cons_iff.mp h
  obtain ⟨y, rfl, hy⟩ := List.map_eq_singleton_iff.mp h
  exact ⟨x, y, rfl, hx, hy⟩

/-- Where there is **only one other part** it is all that matters. Many expressions of the dialect
are of this form. -/
theorem exists_loud_part (child : ExprId) {tag : Option String} {ids : List ExprId}
    (hd : d.Valid written) (hroot : d.root = id) (he : written.expr? id = some (.seq tag ids))
    (hids : ids.filter (fun id => !quiet id) = [child]) :
    ∃ x, Inside x d ∧ x.Valid written ∧ x.root = child ∧
      d.output written true = PlainTree.labelled true tag (x.output written true) ∧
      (Overflows d ↔ Overflows x) := by
  have hne : ids ≠ [] := by
    rintro rfl
    cases hids
  obtain ⟨xs, hroots, hxs, hout, hbig⟩ := exists_loud_parts hd hroot he hne
  obtain ⟨x, rfl, hx⟩ : ∃ x, xs = [x] ∧ x.root = child :=
    List.map_eq_singleton_iff.mp (hroots.trans hids)
  obtain ⟨hinside, hvalid⟩ := hxs x List.mem_cons_self
  rw [List.flatMap_singleton] at hout
  exact ⟨x, hinside, hvalid, hx, hout, hbig.trans (by simp)⟩

/-! ### Values and numbers -/

/-- The texts of names and strings come out as **values**. -/
theorem exists_value (hd : d.Valid written)
    (hroot : d.root ∈ [Part.name, Part.string, Part.quoted]) :
    ∃ text, d.output written true = [PlainTree.value text] := by
  have hlexical : ∀ {d : Derivation} {id child : ExprId}, d.Valid written → d.root = id →
      written.expr? id = some (.lexical child) →
      ∃ text, d.output written true = [PlainTree.value text] := by
    intro d id child hd hroot he
    obtain ⟨part, rfl, -⟩ := hd.of_lexical hroot he
    exact ⟨part.text, rfl⟩
  simp only [List.mem_cons, List.not_mem_nil, or_false] at hroot
  rcases hroot with hroot | hroot | hroot
  · exact hlexical hd hroot rfl
  · exact hlexical hd hroot rfl
  · obtain ⟨x, -, hx, hstring, hout, -⟩ := exists_loud_part Part.string hd hroot rfl rfl
    rw [hout]
    exact hlexical hx hstring rfl

/-- Under a tag a value is **tagged**. -/
theorem exists_taggedValue (child : ExprId) {tag : String} {ids : List ExprId}
    (hd : d.Valid written) (hroot : d.root = id)
    (he : written.expr? id = some (.seq (some tag) ids))
    (hids : ids.filter (fun id => !quiet id) = [child])
    (hchild : child ∈ [Part.name, Part.string, Part.quoted]) :
    ∃ text, d.output written true = [PlainTree.taggedValue tag text] := by
  obtain ⟨x, -, hx, rfl, hout, -⟩ := exists_loud_part _ hd hroot he hids
  obtain ⟨text, htext⟩ := exists_value hx hchild
  exact ⟨text, by rw [hout, htext]; rfl⟩

/-- What is derived by repeating a class of characters is **characters of the class**. -/
theorem exists_characters {p : Pattern} {ofClass : Char → Bool} {parts : List Derivation}
    (he : written.expr? id = some (.pattern p)) (hp : p.accepts = single ofClass)
    (hparts : ∀ x ∈ parts, x.Valid written) (hroots : ∀ x ∈ parts, x.root = id) :
    ∃ t : List Char, (∀ c ∈ t, ofClass c = true) ∧
      parts = t.map fun c => .symbol id (String.singleton c) := by
  induction parts with
  | nil => exact ⟨[], by simp, rfl⟩
  | cons x parts ih =>
    obtain ⟨hx, hparts⟩ := List.forall_mem_cons.mp hparts
    obtain ⟨hroot, hroots⟩ := List.forall_mem_cons.mp hroots
    obtain ⟨t, ht, rfl⟩ := ih hparts hroots
    obtain ⟨text, rfl, ha⟩ := hx.of_pattern hroot he
    rw [hp] at ha
    obtain ⟨c, rfl, hc⟩ := single_eq_true_iff.mp ha
    exact ⟨c :: t, List.forall_mem_cons.mpr ⟨hc, ht⟩, rfl⟩

/-- The derivation of **a digit**. -/
def digitOf (c : Char) : Derivation := .symbol Part.digit (String.singleton c)

/-- What is derived for a number is **its digits**. -/
theorem exists_digits {parts : List Derivation} (hparts : ∀ x ∈ parts, x.Valid written)
    (hroots : ∀ x ∈ parts, x.root = Part.digit) :
    ∃ t : List Char, (∀ c ∈ t, c.isDigit = true) ∧ parts = t.map digitOf :=
  exists_characters rfl accepts_digitPattern hparts hroots

/-- A bound is refused **just if it does not fit**. It is the only place where anything that has
been parsed can be refused. -/
theorem exists_bound (hd : d.Valid written) (hroot : d.root = Part.integer) :
    ∃ t, d.output written true = [t] ∧ Judged (Overflows d) (Quantifier.boundOfTree t) := by
  obtain ⟨parts, rfl, hroots, hlength, -, hparts⟩ := hd.of_rep hroot rfl
  obtain ⟨t, ht, rfl⟩ := exists_digits hparts hroots
  have hne : t ≠ [] := by
    rintro rfl
    simp at hlength
  have hyield : (t.map digitOf).flatMap yield = characters t := by
    rw [List.flatMap_map]
    exact List.flatMap_pure_eq_map String.singleton t
  have hout : (t.map digitOf).flatMap (output written true) =
      (characters t).map PlainTree.value := by
    rw [List.flatMap_map, characters, List.map_map]
    exact List.flatMap_pure_eq_map (PlainTree.value ∘ String.singleton) t
  have hbig : Overflows (.sequence Part.integer (t.map digitOf)) ↔
      2 ^ 64 ≤ Nat.ofDigitChars 10 t 0 := by
    rw [overflows_iff, yield_sequence, hyield, valueOf, join_characters, String.toList_ofList]
    refine ⟨?_, fun h => .inl ⟨rfl, h⟩⟩
    rintro (⟨-, h⟩ | ⟨x, hx, h⟩)
    · exact h
    · refine absurd h (not_overflows (hparts x hx) ?_)
      rw [hroots x hx]
      decide
  obtain ⟨tree, htree, hbound⟩ := exists_boundOfTree hne
  refine ⟨tree, ?_, ?_⟩
  · rw [output_sequence_of_ne_nil true _ (by simpa using hne), hout]
    exact htree
  · rw [hbound, number?_of_digits hne ht]
    split
    next n hn =>
      refine .read (fun h => ?_) n
      rw [if_neg (Nat.not_lt_of_le (hbig.mp h))] at hn
      cases hn
    next hn =>
      refine .refused (hbig.mpr (Nat.le_of_not_lt fun hlt => ?_))
      rw [if_pos hlt] at hn
      cases hn

/-! ### One level after another -/

section

variable {f : PlainTree → Except Error α} {tag : Option String} {ids : List ExprId}
variable {child part more next : ExprId} {min : Nat}

/-- A derivation comes out as **one tree**, whose reading is refused just if something within
overflows. -/
def Holds (f : PlainTree → Except Error α) (d : Derivation) : Prop :=
  ∃ t, d.output written true = [t] ∧ t.isValueLeaf = false ∧ Judged (Overflows d) (f t)

/-- **One of several** holds what it is. -/
theorem Holds.alt (hd : d.Valid written) (hroot : d.root = id)
    (he : written.expr? id = some (.alt none ids))
    (h : ∀ x, Inside x d → x.Valid written → x.root ∈ ids → Holds f x) : Holds f d := by
  obtain ⟨x, rfl, hc, hx⟩ := hd.of_alt hroot he
  obtain ⟨t, hout, hleaf, hjudged⟩ := h x (.part List.mem_cons_self) hx hc
  refine ⟨t, ?_, hleaf, hjudged.congr ?_⟩
  · rw [output, Grammar.tag?_eq he, Expr.tag?, hout]
    rfl
  · have hinteger : id ≠ Part.integer := by
      rintro rfl
      cases he
    rw [overflows_iff_parts (d := .choice id x) hinteger]
    simp [Derivation.parts]

/-- Beside what leaves no trace, and without a tag, **one part** holds what it is. What is omitted
around it has no numbers either. -/
theorem Holds.seq (hd : d.Valid written) (hroot : d.root = id)
    (he : written.expr? id = some (.seq none ids))
    (hids : ids.filter (fun id => !quiet id) = [child])
    (h : ∀ x, Inside x d → x.Valid written → x.root = child → Holds f x) : Holds f d := by
  obtain ⟨x, hinside, hx, hchild, hout, hbig⟩ := exists_loud_part _ hd hroot he hids
  obtain ⟨t, hout', hleaf, hjudged⟩ := h x hinside hx hchild
  exact ⟨t, hout.trans hout', hleaf, hjudged.congr hbig.symm⟩

/-- Under a tag, one part makes **a node of one child**. -/
theorem Holds.node {g : PlainTree → Except Error β} {tag : String} (hd : d.Valid written)
    (hroot : d.root = id) (he : written.expr? id = some (.seq (some tag) ids))
    (hids : ids.filter (fun id => !quiet id) = [child])
    (h : ∀ x, Inside x d → x.Valid written → x.root = child → Holds f x)
    (hg : ∀ t {p}, Judged p (f t) → Judged p (g (PlainTree.node tag [t]))) : Holds g d := by
  obtain ⟨x, hinside, hx, hchild, hout, hbig⟩ := exists_loud_part _ hd hroot he hids
  obtain ⟨t, hout', hleaf, hjudged⟩ := h x hinside hx hchild
  refine ⟨PlainTree.node tag [t], ?_, rfl, (hg t hjudged).congr hbig.symm⟩
  rw [hout, hout', labelled_of_isValueLeaf hleaf]

/-- Further parts, after separators that leave no trace, come out **one after another**. -/
theorem flatMap_output_of_rep (hd : d.Valid written) (hroot : d.root = id)
    (he : written.expr? id = some (.rep none child min none)) :
    (∀ x ∈ d.parts, x.Valid written ∧ x.root = child) ∧
      d.output written true = d.parts.flatMap (output written true) ∧
      (Overflows d ↔ ∃ x ∈ d.parts, Overflows x) := by
  obtain ⟨xs, rfl, hroots, -, -, hxs⟩ := hd.of_rep hroot he
  refine ⟨fun x hx => ⟨hxs x hx, hroots x hx⟩, ?_, overflows_iff_parts ?_⟩
  · cases xs with
    | nil =>
      rw [output, Grammar.tag?_eq he]
      rfl
    | cons x xs =>
      rw [output_sequence_of_ne_nil true id (List.cons_ne_nil x xs), Grammar.tag?_eq he]
      rfl
  · rintro rfl
    cases he

/-- A part and further parts make **a node of them all**. The list is a first part and then the
others, each after a separator. -/
theorem exists_node_of_list (part more next : ExprId) {tag : String} (hd : d.Valid written)
    (hroot : d.root = id)
    (he : written.expr? id = some (.seq (some tag) [part, more]))
    (hids : [part, more].filter (fun id => !quiet id) = [part, more])
    (hmore : written.expr? more = some (.rep none next min none))
    (h : ∀ x, Inside x d → x.Valid written → x.root ∈ [part, next] → Holds f x) :
    ∃ t ts, d.output written true = [PlainTree.node tag (t :: ts)] ∧
      Judged (Overflows d) ((t :: ts).mapM f) := by
  obtain ⟨xs, hroots, hxs, hout, hbig⟩ := exists_loud_parts hd hroot he (List.cons_ne_nil _ _)
  obtain ⟨x, y, rfl, hx, hy⟩ := exists_pair (hroots.trans hids)
  obtain ⟨hxin, hxvalid⟩ := hxs x (by simp)
  obtain ⟨hyin, hyvalid⟩ := hxs y (by simp)
  obtain ⟨hparts, hyout, hybig⟩ := flatMap_output_of_rep hyvalid hy hmore
  have hholds : ∀ z ∈ x :: y.parts, Holds f z := by
    refine List.forall_mem_cons.mpr ⟨h x hxin hxvalid (by simp [hx]), fun z hz => ?_⟩
    obtain ⟨hzvalid, hzroot⟩ := hparts z hz
    exact h z (hyin.trans (.part hz)) hzvalid (by simp [hzroot])
  obtain ⟨t, htout, hleaf, -⟩ := hholds x List.mem_cons_self
  have hflat : (x :: y.parts).flatMap (output written true) =
      t :: y.parts.flatMap (output written true) := by
    rw [List.flatMap_cons, htout, List.singleton_append]
  refine ⟨t, y.parts.flatMap (output written true), ?_, ?_⟩
  · rw [hout, List.flatMap_cons, List.flatMap_singleton, htout, hyout, List.singleton_append,
      labelled_of_isValueLeaf hleaf]
  · rw [← hflat]
    have hall : Judged (∃ z ∈ x :: y.parts, Overflows z)
        (((x :: y.parts).flatMap (output written true)).mapM f) := by
      refine judged_mapM_flatMap fun z hz => ?_
      obtain ⟨t', htout', -, hjudged⟩ := hholds z hz
      rw [htout']
      exact judged_mapM_singleton hjudged
    exact hall.congr (by rw [hbig]; simp [hybig])

end

/-! ### Phrases -/

open GeneralParsing.Dialect.Part in
/-- The expressions that come out as **phrases**. -/
def phrasal : List ExprId := [
  symbol, literal, pattern, paren, omittedPhrase, lexicalPhrase, atom, repStar, repPlus,
  repQuestion, repExact, repMin, repMinMax, quantified, item, nextItem, sequence, branch,
  nextBranch, alternation, phrase]

/-- **A value under a tag** is read as what it is. -/
theorem holds_taggedValue {tag : String} {ids : List ExprId} {child : ExprId}
    (hd : d.Valid written) (hroot : d.root = id)
    (he : written.expr? id = some (.seq (some tag) ids))
    (hids : ids.filter (fun id => !quiet id) = [child])
    (hchild : child ∈ [Part.name, Part.string, Part.quoted]) (hid : id ∉ numbered)
    (hread : ∀ text, ∃ a, Phrase.ofTree (PlainTree.taggedValue tag text) = .ok a) :
    Holds Phrase.ofTree d := by
  obtain ⟨text, htext⟩ := exists_taggedValue _ hd hroot he hids hchild
  obtain ⟨a, ha⟩ := hread text
  refine ⟨_, htext, rfl, ?_⟩
  rw [ha]
  exact .read (not_overflows hd (hroot ▸ hid)) a

/-- The phrase of **one bracketed part**, or of one with a quantifier without bounds. -/
theorem holds_wrapped {tag : String} {ids : List ExprId} {child : ExprId}
    (hd : d.Valid written) (hroot : d.root = id)
    (he : written.expr? id = some (.seq (some tag) ids))
    (hids : ids.filter (fun id => !quiet id) = [child])
    (h : ∀ x, Inside x d → x.Valid written → x.root = child → Holds Phrase.ofTree x)
    (wrap : Phrase → Phrase)
    (hwrap : ∀ (t : PlainTree) (x : Except Error Phrase),
      Phrase.assemble { tag := some tag } [t] [x] = wrap <$> x) : Holds Phrase.ofTree d := by
  refine Holds.node hd hroot he hids h fun t p ht => ?_
  rw [PlainTree.node, Phrase.ofTree, Phrase.ofTrees_eq_map, List.map_singleton, hwrap]
  exact ht.map wrap

/-- The phrase of **a part with bounds**: the bounds are read first. With one number it stands for
both bounds, or for the lower one. -/
theorem holds_bounded (numbers : List ExprId) {tag : String} {ids : List ExprId}
    (hd : d.Valid written) (hroot : d.root = id)
    (he : written.expr? id = some (.seq (some tag) ids)) (hne : ids ≠ [])
    (hids : ids.filter (fun id => !quiet id) = Part.atom :: numbers)
    (hnumbers : ∀ n ∈ numbers, n = Part.integer)
    (h : ∀ x, Inside x d → x.Valid written → x.root = Part.atom → Holds Phrase.ofTree x)
    (wrap : Phrase → List Nat → Phrase)
    (hwrap : ∀ (t : PlainTree) (ts : List PlainTree) (x : Except Error Phrase),
      ts.length = numbers.length →
      Phrase.assemble { tag := some tag } (t :: ts) (x :: Phrase.ofTrees ts) =
        (do
          let bounds ← ts.mapM Quantifier.boundOfTree
          (wrap · bounds) <$> x)) : Holds Phrase.ofTree d := by
  obtain ⟨xs, hroots, hxs, hout, hbig⟩ := exists_loud_parts hd hroot he hne
  obtain ⟨x, ys, rfl, hx, hys⟩ : ∃ x ys, xs = x :: ys ∧ x.root = Part.atom ∧
      ys.map root = numbers := List.map_eq_cons_iff.mp (hroots.trans hids)
  obtain ⟨hinside, hvalid⟩ := hxs x List.mem_cons_self
  obtain ⟨t, htout, hleaf, hjudged⟩ := h x hinside hvalid hx
  -- each number gives one tree, from which the bound is read
  have hbounds : ∀ y ∈ ys, ∃ t, y.output written true = [t] ∧
      Judged (Overflows y) (Quantifier.boundOfTree t) := fun y hy =>
    exists_bound (hxs y (List.mem_cons_of_mem x hy)).2
      (hnumbers _ (hys ▸ List.mem_map_of_mem hy))
  have hlength : (ys.flatMap (output written true)).length = numbers.length := by
    have hone : ys.map (fun y => (y.output written true).length) = ys.map fun _ => 1 :=
      List.map_congr_left fun y hy => by
        obtain ⟨t, ht, -⟩ := hbounds y hy
        rw [ht, List.length_singleton]
    rw [List.length_flatMap, hone, ← hys]
    simp
  -- the bounds are read in order, before the part
  have hnumber : Judged (∃ y ∈ ys, Overflows y)
      ((ys.flatMap (output written true)).mapM Quantifier.boundOfTree) := by
    refine judged_mapM_flatMap fun y hy => ?_
    obtain ⟨t, ht, hjudged⟩ := hbounds y hy
    rw [ht]
    exact judged_mapM_singleton hjudged
  refine ⟨PlainTree.node tag (t :: ys.flatMap (output written true)), ?_, rfl, ?_⟩
  · rw [hout, List.flatMap_cons, htout, List.singleton_append, labelled_of_isValueLeaf hleaf]
  · rw [PlainTree.node, Phrase.ofTree, Phrase.ofTrees, hwrap _ _ _ hlength]
    refine (hnumber.bind fun bounds => hjudged.map (wrap · bounds)).congr ?_
    rw [hbig]
    simp [or_comm]

/-- The phrase of **a list**. -/
theorem holds_list (part more next : ExprId) {tag : String} {min : Nat} (hd : d.Valid written)
    (hroot : d.root = id) (he : written.expr? id = some (.seq (some tag) [part, more]))
    (hids : [part, more].filter (fun id => !quiet id) = [part, more])
    (hmore : written.expr? more = some (.rep none next min none))
    (h : ∀ x, Inside x d → x.Valid written → x.root ∈ [part, next] → Holds Phrase.ofTree x)
    (wrap : List Phrase → Phrase)
    (hwrap : ∀ (ts : List PlainTree) (xs : List (Except Error Phrase)),
      Phrase.assemble { tag := some tag } ts xs = wrap <$> xs.mapM fun x => x) :
    Holds Phrase.ofTree d := by
  obtain ⟨t, ts, hout, hjudged⟩ := exists_node_of_list _ _ _ hd hroot he hids hmore h
  refine ⟨_, hout, rfl, ?_⟩
  rw [PlainTree.node, Phrase.ofTree, Phrase.ofTrees_eq_map, hwrap, List.mapM_map]
  exact hjudged.map wrap

/-- **Every phrase** holds what it is: it is refused just if a bound in it does not fit. The
induction is on all that is inside, as phrases stand within phrases. -/
theorem holds_phrase (hd : d.Valid written) (hroot : d.root ∈ phrasal) :
    Holds Phrase.ofTree d := by
  induction d using induct_inside with
  | step d ih =>
    have hinside : ∀ {ids : List ExprId}, (∀ id ∈ ids, id ∈ phrasal) →
        ∀ x, Inside x d → x.Valid written → x.root ∈ ids → Holds Phrase.ofTree x :=
      fun hids x hx hvalid hroot => ih x hx hvalid (hids _ hroot)
    have hchild : ∀ child ∈ phrasal,
        ∀ x, Inside x d → x.Valid written → x.root = child → Holds Phrase.ofTree x :=
      fun _ hc x hx hvalid hroot => ih x hx hvalid (hroot ▸ hc)
    have hphrase := hchild Part.phrase (by decide)
    have hatom := hchild Part.atom (by decide)
    simp only [phrasal, List.mem_cons, List.not_mem_nil, or_false] at hroot
    rcases hroot with hroot | hroot | hroot | hroot | hroot | hroot | hroot | hroot | hroot |
      hroot | hroot | hroot | hroot | hroot | hroot | hroot | hroot | hroot | hroot | hroot | hroot
    -- a symbol, a literal and a pattern
    iterate 3
      exact holds_taggedValue hd hroot rfl rfl (by decide) (by decide) fun _ => ⟨_, rfl⟩
    · -- brackets of three kinds, and the choice of an atom
      exact .seq hd hroot rfl rfl hphrase
    · exact holds_wrapped hd hroot rfl rfl hphrase .omitted fun _ _ => rfl
    · exact holds_wrapped hd hroot rfl rfl hphrase .lexical fun _ _ => rfl
    · exact .alt hd hroot rfl (hinside (by decide))
    · -- quantifiers without bounds
      exact holds_wrapped hd hroot rfl rfl hatom (.repeated · .star) fun _ x => by
        cases x <;> rfl
    · exact holds_wrapped hd hroot rfl rfl hatom (.repeated · .plus) fun _ x => by
        cases x <;> rfl
    · exact holds_wrapped hd hroot rfl rfl hatom (.repeated · .question) fun _ x => by
        cases x <;> rfl
    · -- quantifiers with bounds
      refine holds_bounded [Part.integer] hd hroot rfl (List.cons_ne_nil _ _) rfl
        (by simp) hatom (fun p bounds => .repeated p (.exact (bounds.headD 0))) ?_
      intro t ts x hts
      obtain ⟨n, rfl⟩ := List.length_eq_one_iff.mp hts
      rw [List.mapM_cons, List.mapM_nil]
      change (do
        let n ← Quantifier.boundOfTree n
        return Phrase.repeated (← x) (.exact n)) = _
      cases Quantifier.boundOfTree n <;> cases x <;> rfl
    · refine holds_bounded [Part.integer] hd hroot rfl (List.cons_ne_nil _ _) rfl
        (by simp) hatom (fun p bounds => .repeated p (.min (bounds.headD 0))) ?_
      intro t ts x hts
      obtain ⟨n, rfl⟩ := List.length_eq_one_iff.mp hts
      rw [List.mapM_cons, List.mapM_nil]
      change (do
        let n ← Quantifier.boundOfTree n
        return Phrase.repeated (← x) (.min n)) = _
      cases Quantifier.boundOfTree n <;> cases x <;> rfl
    · refine holds_bounded [Part.integer, Part.integer] hd hroot rfl
        (List.cons_ne_nil _ _) rfl (by simp) hatom
        (fun p bounds => .repeated p (.minMax (bounds.headD 0) (bounds.getD 1 0))) ?_
      intro t ts x hts
      obtain ⟨n, m, rfl⟩ := List.length_eq_two.mp hts
      rw [List.mapM_cons, List.mapM_cons, List.mapM_nil]
      change (do
        let n ← Quantifier.boundOfTree n
        let m ← Quantifier.boundOfTree m
        return Phrase.repeated (← x) (.minMax n m)) = _
      cases Quantifier.boundOfTree n <;> cases Quantifier.boundOfTree m <;> cases x <;> rfl
    · exact .alt hd hroot rfl (hinside (by decide))
    · -- sequences and alternations
      exact .alt hd hroot rfl (hinside (by decide))
    · exact .seq hd hroot rfl rfl (hchild Part.item (by decide))
    · exact holds_list Part.item Part.nextItems Part.nextItem hd hroot
        rfl rfl rfl (hinside (by decide)) .seq fun _ _ => rfl
    · exact .alt hd hroot rfl (hinside (by decide))
    · exact .seq hd hroot rfl rfl (hchild Part.branch (by decide))
    · exact holds_list Part.branch Part.nextBranches Part.nextBranch hd hroot
        rfl rfl rfl (hinside (by decide)) .alt fun _ _ => rfl
    · exact .alt hd hroot rfl (hinside (by decide))

/-! ### Rules and whole texts -/

/-- The name of a rule is read, and says **whether the rule is hidden**. The brackets around a
hidden name leave no trace but the tag. -/
theorem exists_ruleName (hd : d.Valid written) (hroot : d.root = Part.ruleName) :
    ∃ tag text, (tag = "symbol" ∨ tag = "hiddenSymbol") ∧
      d.output written true = [PlainTree.taggedValue tag text] := by
  obtain ⟨x, rfl, hc, hx⟩ := hd.of_alt hroot rfl
  rcases List.mem_pair.mp hc with hsymbol | hhidden
  · obtain ⟨text, htext⟩ := exists_taggedValue Part.name hx hsymbol rfl rfl (by decide)
    exact ⟨"symbol", text, .inl rfl, htext⟩
  · obtain ⟨text, htext⟩ := exists_taggedValue Part.name hx hhidden rfl rfl (by decide)
    exact ⟨"hiddenSymbol", text, .inr rfl, htext⟩

/-- **A rule** is refused just if a bound in it does not fit. -/
theorem holds_rule (hd : d.Valid written) (hroot : d.root = Part.rule) :
    Holds Rule.ofTree d := by
  obtain ⟨xs, hroots, hxs, hout, hbig⟩ := exists_loud_parts hd hroot rfl (List.cons_ne_nil _ _)
  obtain ⟨x, y, rfl, hx, hy⟩ := exists_pair (a := Part.ruleName) (b := Part.phrase) hroots
  obtain ⟨-, hxvalid⟩ := hxs x (by simp)
  obtain ⟨-, hyvalid⟩ := hxs y (by simp)
  obtain ⟨tag, text, htag, htext⟩ := exists_ruleName hxvalid hx
  obtain ⟨t, ht, -, hjudged⟩ := holds_phrase hyvalid (hy ▸ by decide)
  have hname : ¬ Overflows x := not_overflows hxvalid (hx ▸ by decide)
  refine ⟨PlainTree.node "rule" [PlainTree.taggedValue tag text, t], ?_, rfl, ?_⟩
  · rw [hout, List.flatMap_cons, List.flatMap_singleton, htext, ht, List.singleton_append,
      labelled_of_isValueLeaf (PlainTree.isValueLeaf_taggedValue tag text)]
  · have hrule : Rule.ofTree (PlainTree.node "rule" [PlainTree.taggedValue tag text, t]) =
        (do return ⟨text, tag == "hiddenSymbol", ← Phrase.ofTree t⟩) := by
      rcases htag with rfl | rfl <;> rfl
    rw [hrule]
    exact (hjudged.bind fun _ => judged_pure _).congr (by simp [hbig, hname])

/-- **Rules** are refused just if a bound in one of them does not fit. -/
theorem holds_rules (hd : d.Valid written) (hroot : d.root = Part.rules) :
    Holds Rule.listOfTree d ∧ ∀ t, d.output written true = [t] → Rule.listOfTree t ≠ .ok [] := by
  have hrule : ∀ x, Inside x d → x.Valid written → x.root ∈ [Part.rule, Part.nextRule] →
      Holds Rule.ofTree x := by
    intro x _ hx hroot
    rcases List.mem_pair.mp hroot with hroot | hroot
    · exact holds_rule hx hroot
    · have hnext : ∀ y, Inside y x → y.Valid written → y.root = Part.rule → Holds Rule.ofTree y :=
        fun y _ hy hroot => holds_rule hy hroot
      exact .seq hx hroot rfl rfl hnext
  obtain ⟨t, ts, hout, hjudged⟩ := exists_node_of_list Part.rule Part.nextRules Part.nextRule hd
    hroot rfl rfl rfl hrule
  refine ⟨⟨_, hout, rfl, hjudged⟩, fun t' ht' hnil => ?_⟩
  obtain rfl := List.singleton_inj.mp (hout.symm.trans ht')
  change (t :: ts).mapM Rule.ofTree = .ok [] at hnil
  rw [List.mapM_cons] at hnil
  cases ht : Rule.ofTree t with
  | error e =>
    rw [ht] at hnil
    cases hnil
  | ok r =>
    rw [ht] at hnil
    cases hts : ts.mapM Rule.ofTree <;> rw [hts] at hnil <;> cases hnil

/-- **A whole text** is refused just if a bound in it does not fit, and has rules otherwise. Blanks
before and behind the rules are omitted, and so is the last separator. -/
theorem holds_text (hd : d.Valid written) (hroot : d.root = Part.text) :
    ∃ t, d.output written true = [t] ∧ Judged (Overflows d) (Rule.listOfTree t) ∧
      Rule.listOfTree t ≠ .ok [] := by
  obtain ⟨x, -, hx, hrules, hout, hbig⟩ := exists_loud_part Part.rules hd hroot rfl rfl
  obtain ⟨⟨t, hout', -, hjudged⟩, hne⟩ := holds_rules hx hrules
  exact ⟨t, hout.trans hout', hjudged.congr hbig.symm, hne t hout'⟩

/-! ### Bounds in a text -/

/-- A number that stands **as a bound in a text**: in a derivation of the text it is a part of a
repetition. -/
def HasBound (source : List Char) (n : Nat) : Prop :=
  ∃ d y x : Derivation, d.Valid written ∧ d.root = Part.text ∧
    d.yield = characters (Text.trim source) ∧ Within y d ∧
    y.root ∈ [Part.repExact, Part.repMin, Part.repMinMax] ∧ x ∈ y.parts ∧
    x.root = Part.integer ∧ valueOf x.yield = n

/-- Every number in a text **is a bound**. Nowhere else in the dialect is there an integer. -/
theorem exists_repetition {x : Derivation} (hd : d.Valid written) (hroot : d.root = Part.text)
    (hx : Within x d) (hinteger : x.root = Part.integer) :
    ∃ y, Within y d ∧ y.root ∈ [Part.repExact, Part.repMin, Part.repMinMax] ∧ x ∈ y.parts := by
  have hparents : ∀ id < written.size, ∀ e, written.expr? id = some e →
      Part.integer ∈ e.children → id ∈ [Part.repExact, Part.repMin, Part.repMinMax] := by
    decide +kernel
  rcases hx with rfl | hx
  · rw [hroot] at hinteger
    cases hinteger
  · obtain ⟨y, hy, hmem⟩ := hx.exists_parent
    obtain ⟨e, he, hchild⟩ := (hd.of_within hy).root_mem_children hmem
    exact ⟨y, hy, hparents _ (Array.getElem?_eq_some_iff.mp he).1 e he (hinteger ▸ hchild), hmem⟩

/-- The reading of **a text that is parsed** is refused just if a bound in it does not fit. Whether
a number is refused does not depend on the derivation that the tree comes from. -/
theorem judged_rules [KnownPatterns] {source : List Char} {result : NumberedTree × Nat}
    (h : parse source = .ok result) :
    Judged (∃ n, HasBound source n ∧ 2 ^ 64 ≤ n) (Dialect.rules source) ∧
      Dialect.rules source ≠ .ok [] := by
  obtain ⟨tree, m⟩ := result
  have hrules : Dialect.rules source = Rule.listOfTree tree := by
    rw [Dialect.rules, h]
    rfl
  obtain ⟨f, t, n, hf, ht, hplain⟩ := parse_iff_hasTree.mp ⟨tree, m, h, rfl⟩
  obtain ⟨t', n', out, ht', ⟨d, hd, hroot, hyield, hout⟩, hsingle⟩ :=
    exists_hasTree_of_parse closed_written hf
  obtain ⟨rfl, -⟩ := Prod.mk.inj (Except.ok.inj (ht.symm.trans ht'))
  obtain ⟨u, hu, hjudged, hne⟩ := holds_text hd hroot
  have hread : Dialect.rules source = Rule.listOfTree u := by
    rw [hrules, ← Rule.listOfTree_plain, ← hplain, hsingle, ← hout, hu]
    rfl
  rw [hread]
  refine ⟨hjudged.congr ⟨?_, ?_⟩, hne⟩
  · rintro ⟨x, hx, hinteger, hbig⟩
    obtain ⟨y, hy, hrep, hmem⟩ := exists_repetition hd hroot hx hinteger
    exact ⟨_, ⟨d, y, x, hd, hroot, hyield, hy, hrep, hmem, hinteger, rfl⟩, hbig⟩
  · rintro ⟨_, ⟨d', y, x, hd', hroot', hyield', hy, -, hmem, hinteger, rfl⟩, hbig⟩
    -- every derivation of the text has the same output
    obtain ⟨u', hu', hjudged', -⟩ := holds_text hd' hroot'
    have hsame := output_unique ⟨d, hd, hroot, hyield, hu⟩ ⟨d', hd', hroot', hyield', hu'⟩
    obtain rfl : u = u' := List.singleton_inj.mp hsame
    exact hjudged.eq_error_iff.mp (hjudged'.eq_error_iff.mpr ⟨x, hy.part hmem, hinteger, hbig⟩)

end Dialect

end GeneralParsing
