import GeneralParsing.Proofs.Machine.Unrolling
import GeneralParsing.Proofs.Parsing.Alike
import GeneralParsing.Proofs.Parsing.LexicalText
import GeneralParsing.Proofs.Parsing.Unambiguous

/-!
# A repetition may be unrolled

A repetition of an exact number of times may be replaced by a sequence of that many children. The
two grammars accept the same inputs and reject the others at the same positions
(`Grammar.Unrolls.parsedAlike`), since they have the same derivations. Which trees come of their
forests is also a matter of the order of alternatives. Their machines are twins, so results that go
together have the same text and, on paths that go together, the same output
(`Machine.Twins.freshOutput_eq`). Where the number of times is not zero their forests are the same
(`Machine.Twins.forest_eq`).
-/

namespace GeneralParsing

open Machine

/-- Lists that are related have **the same image** under maps that agree on what is related. -/
theorem map_eq_of_forall₂ {α β γ : Type} {R : α → β → Prop} {as : List α} {bs : List β}
    {k : α → γ} {k' : β → γ} (hs : List.Forall₂ R as bs)
    (h : ∀ a ∈ as, ∀ b, R a b → k' b = k a) : bs.map k' = as.map k := by
  have himages : List.Forall₂ (· = ·) (as.map k) (bs.map k') :=
    List.forall₂_map_left_iff.mpr (List.forall₂_map_right_iff.mpr
      (forall₂_of_mem hs fun a ha b hab => (h a ha b hab).symm))
  exact (List.forall₂_eq_eq_eq ▸ himages).symm

variable {g h : Grammar} {w : List String} {slot : ExprId} {r : Repeat}

/-! ### What is looked for -/

namespace Grammar.Unrolls

variable (hu : g.Unrolls h slot r) {id : ExprId} {position : Nat}

include hu

/-- What is looked for **with the repetition** is looked for with the sequence. An iteration that is
looked for becomes the part at its place in the sequence. -/
theorem sought_unrolled (hs : g.Sought w id position) : h.Sought w id position := by
  induction hs with
  | start => exact hu.start ▸ Sought.start
  | part _ he hv hw ih =>
    exact ih.part (hu.expr?_of_ne_exact he (by simp [Repeat.exact]))
      ((hu.derivesAll_iff _ _).mp hv) hw
  | alternative _ he hc ih =>
    exact ih.alternative (hu.expr?_of_ne_exact he (by simp [Repeat.exact])) hc
  | @iteration id child tag min count max v start _ he hmax hv hw ih =>
    have hv' := (hu.derivesAll_iff _ _).mp hv
    by_cases hid : id = slot
    · -- the iterations so far are the first children of the sequence
      subst hid
      obtain ⟨-, rfl, rfl, rfl⟩ := Expr.rep.inj (Option.some.inj (he.symm.trans hu.exact))
      have hlt : count < r.times := hmax _ rfl
      have hsplit : List.replicate count r.child ++
          r.child :: List.replicate (r.times - count - 1) r.child =
            List.replicate r.times r.child := by
        rw [← List.replicate_succ, List.replicate_append_replicate]
        congr 1
        omega
      have hseq : h.expr? id = some (.seq r.tag (List.replicate count r.child ++
          r.child :: List.replicate (r.times - count - 1) r.child)) := hsplit ▸ hu.unrolled
      exact ih.part hseq hv' hw
    · exact ih.iteration ((hu.other id hid).trans he) hmax hv' hw
  | omitted _ he ih => exact ih.omitted (hu.expr?_of_ne_exact he (by simp [Repeat.exact]))
  | lexical _ he ih => exact ih.lexical (hu.expr?_of_ne_exact he (by simp [Repeat.exact]))

/-- What is looked for **with the sequence** is looked for with the repetition. How many parts are
done is how often the repetition has gone round. -/
theorem sought_exact (hs : h.Sought w id position) : g.Sought w id position := by
  induction hs with
  | start => exact hu.start ▸ Sought.start
  | @part id child tag ids rest v start _ he hv hw ih =>
    have hv' := (hu.derivesAll_iff _ _).mpr hv
    by_cases hid : id = slot
    · subst hid
      obtain ⟨-, hparts⟩ := Expr.seq.inj (Option.some.inj (he.symm.trans hu.unrolled))
      obtain ⟨hlength, hids, hrest⟩ := List.append_eq_replicate_iff.mp hparts
      obtain rfl : child = r.child := List.eq_of_mem_replicate (hrest ▸ List.mem_cons_self)
      rw [List.length_cons] at hlength
      rw [hids] at hv'
      refine ih.iteration hu.exact ?_ hv' hw
      rintro _ ⟨⟩
      omega
    · exact ih.part ((hu.other id hid).symm.trans he) hv' hw
  | alternative _ he hc ih =>
    exact ih.alternative (hu.expr?_of_ne_unrolled he (by simp [Repeat.unrolled])) hc
  | iteration _ he hmax hv hw ih =>
    exact ih.iteration (hu.expr?_of_ne_unrolled he (by simp [Repeat.unrolled])) hmax
      ((hu.derivesAll_iff _ _).mpr hv) hw
  | omitted _ he ih => exact ih.omitted (hu.expr?_of_ne_unrolled he (by simp [Repeat.unrolled]))
  | lexical _ he ih => exact ih.lexical (hu.expr?_of_ne_unrolled he (by simp [Repeat.unrolled]))

theorem waits_iff (w : List String) (position : Nat) :
    g.Waits w position ↔ h.Waits w position := by
  constructor
  · rintro ⟨id, e, symbol, hs, he, hsymbol, ha⟩
    have he' := hu.expr?_of_ne_exact he (by rintro rfl; cases ha)
    exact ⟨id, e, symbol, hu.sought_unrolled hs, he', hsymbol, ha⟩
  · rintro ⟨id, e, symbol, hs, he, hsymbol, ha⟩
    have he' := hu.expr?_of_ne_unrolled he (by rintro rfl; cases ha)
    exact ⟨id, e, symbol, hu.sought_exact hs, he', hsymbol, ha⟩

/-- Inputs are accepted **by both grammars**, or rejected by both at the same position. So unrolling
shows in no answer. -/
theorem parsedAlike (hg : g.Closed) (hh : h.Closed) (w : List String) :
    Forest.ParsedAlike g h w := by
  refine Forest.parsedAlike hg hh ?_ (hu.waits_iff w)
  rw [hu.start]
  exact hu.derives_iff g.start w

end Grammar.Unrolls

/-! ### Texts and outputs -/

/-- A sequence without children has an output **whatever it is made from**. -/
theorem Forest.exists_freshNode_nil (o : ParseOptions) (span : Span) (tag : Option String) :
    ∃ ts, ∀ (f : Forest) (visit : NodeId → Except Error PlainOutput),
      f.freshNode o visit span (.sequence tag []) = .ok (some ts) := by
  cases tag with
  | none => exact ⟨_, fun _ _ => rfl⟩
  | some tag => exact ⟨_, fun _ _ => rfl⟩

namespace Machine

variable {P : Pairs} {L L' : Ledger} {m m' : Machine} {c d : NodeId}

/-- What a result is made of by first alternatives is **older** than it. -/
theorem Sound.lt_of_mem_firstParts (hs : Sound g w L m) {id part : NodeId} {kind : Forest.Kind}
    {span : Span} (hnode : m.forest.node? id = some ⟨kind, span⟩)
    (hpart : part ∈ kind.firstParts) : part < id := by
  obtain ⟨memo, goal, stop, hsound⟩ := hs.node id _ hnode
  cases hsound.explained with
  | symbol | empty | omitted => cases hpart
  | sequence _ _ hold => exact hold part hpart
  | repetition _ _ _ _ hold => exact hold part hpart
  | choice _ _ hfirst | inner _ _ _ hfirst | lexical _ _ hfirst =>
    exact List.mem_singleton.mp hpart ▸ hfirst

namespace Twins

variable (hm : Twins r P m m') (hs : Sound g w L m) (hs' : Sound h w L' m')

include hm hs hs'

/-- Results that go together have **the same text**. -/
theorem text_eq (hcd : P.nodes c d) : m'.forest.text d = m.forest.text c := by
  induction c using Nat.strongRecOn generalizing d with
  | ind c ih =>
    obtain ⟨kind, kind', span, hc, hd, htwin⟩ := hm.node c d hcd
    have hold : ∀ part ∈ kind.firstParts, part < c := fun _ => hs.lt_of_mem_firstParts hc
    rw [hs.text_eq hc, hs'.text_eq hd]
    cases htwin with
    | symbol | omitted => rfl
    | sequence h =>
      exact congrArg String.join (map_eq_of_forall₂ h fun a ha b hab => ih a (hold a ha) hab)
    | choice h =>
      cases h with
      | nil => rfl
      | cons hab _ => exact ih _ (hold _ (List.mem_singleton.mpr rfl)) hab
    | lexical hab => exact ih _ (hold _ (List.mem_singleton.mpr rfl)) hab
    | hollow h => exact (hs.text_eq (hm.hollow _ _ _ h).1).symm

variable (o : ParseOptions)

/-- Results that go together have **the same output** on paths that go together. The induction is on
the path, as a pair of paths never goes through a pair of nodes twice. -/
theorem freshOutput_eq {path path' : List NodeId} (hpath : m.forest.IsPath path)
    (hpath' : m'.forest.IsPath path') (hpaths : List.Forall₂ P.nodes path path')
    (hcd : P.nodes c d) :
    m'.forest.freshOutput o path' d = m.forest.freshOutput o path c := by
  refine Forest.path_induct hs.closed_forest (motive := fun path c => ∀ path' d,
    m'.forest.IsPath path' → List.Forall₂ P.nodes path path' → P.nodes c d →
      m'.forest.freshOutput o path' d = m.forest.freshOutput o path c) ?_ ?_ hpath
    (hm.nodes_lt hcd).1 path' d hpath' hpaths hcd
  · intro path c hpath hmem path' d hpath' hpaths hcd
    have hmem' : d ∈ path' := (List.rel_mem hm.nodes hcd hpaths).mp hmem
    rw [Forest.freshOutput_of_mem hpath.length_le hmem,
      Forest.freshOutput_of_mem hpath'.length_le hmem']
  · intro path c kind span hpath hnot hc ih path' d hpath' hpaths hcd
    have hnot' : d ∉ path' := mt (List.rel_mem hm.nodes hcd hpaths).mpr hnot
    obtain ⟨hclt, hdlt⟩ := hm.nodes_lt hcd
    obtain ⟨_, kind', _, hc', hd, htwin⟩ := hm.node c d hcd
    obtain ⟨rfl, rfl⟩ := Forest.Node.mk.inj (Option.some.inj (hc.symm.trans hc'))
    have hparts : ∀ {bs : List NodeId}, List.Forall₂ P.nodes kind.parts bs →
        bs.map (m'.forest.freshOutput o (d :: path')) =
          kind.parts.map (m.forest.freshOutput o (c :: path)) :=
      fun h => map_eq_of_forall₂ h fun a ha b hab =>
        ih a ha (d :: path') b (hpath'.cons hdlt hnot') (.cons hcd hpaths) hab
    rw [Forest.freshOutput_of_not_mem hpath.length_le hnot hc,
      Forest.freshOutput_of_not_mem hpath'.length_le hnot' hd]
    cases htwin with
    | symbol | omitted => rfl
    | @sequence tag as bs h =>
      cases h with
      | nil => cases tag <;> rfl
      | cons hab h =>
        rw [Forest.freshNode_sequence, Forest.freshNode_sequence, hparts (.cons hab h)]
        rfl
    | choice h =>
      rw [Forest.freshNode, Forest.freshNode, hparts h]
      rfl
    | lexical hab => rw [Forest.freshNode, Forest.freshNode, hm.text_eq hs hs' hab]
    | @hollow e tag h =>
      -- the only alternative is not on the path, where all results go together with others
      obtain ⟨he, hfree⟩ := hm.hollow e tag span h
      have hnote : e ∉ c :: path := fun hmem => by
        obtain ⟨b, -, heb⟩ := Derivation.exists_related (List.Forall₂.cons hcd hpaths) hmem
        exact hfree b heb
      obtain ⟨ts, hts⟩ := Forest.exists_freshNode_nil o span tag
      have hout : m.forest.freshOutput o (c :: path) e = .ok (some ts) :=
        (Forest.freshOutput_of_not_mem (hpath.cons hclt hnot).length_le hnote he).trans (hts _ _)
      rw [hts, Forest.freshNode, List.map_singleton, hout, Forest.chosen_singleton]
      rfl

/-- **The trees are the same.** Roots go together, in the same order. -/
theorem freshTree_eq : m'.forest.freshTree o = m.forest.freshTree o := by
  have hroots := map_eq_of_forall₂ hm.roots fun a _ b hab =>
    hm.freshOutput_eq hs hs' o (Forest.isPath_nil _) (Forest.isPath_nil _) .nil hab
  have hspan : m'.forest.wholeSpan = m.forest.wholeSpan := congrArg (Span.mk 0) hm.position
  have hroot : m'.forest.plainRoot o = m.forest.plainRoot o := by
    funext ts
    match ts with
    | [] | [_] | _ :: _ :: _ => simp only [Forest.plainRoot, hspan]
  rw [Forest.freshTree, Forest.freshTree, hspan, hroot]
  exact congrArg (fun outs => Forest.chosen o m.forest.wholeSpan outs >>= fun output =>
    pure (m.forest.plainRoot o (output.getD []))) hroots

end Twins

/-- Lists of results that go together are the same **where the results are**. -/
theorem Same.list_eq (hsame : Same P m m') {as bs : List NodeId}
    (h : List.Forall₂ P.nodes as bs) : bs = as := by
  have heq : List.Forall₂ (· = ·) as bs := h.imp hsame.eq
  exact (List.forall₂_eq_eq_eq ▸ heq).symm

theorem Same.kind_eq (hsame : Same P m m') {span : Span} {kind kind' : Forest.Kind}
    (htwin : kind.Twin P span kind') : kind' = kind := by
  cases htwin with
  | symbol | omitted => rfl
  | sequence h | choice h => rw [hsame.list_eq h]
  | lexical h => rw [hsame.eq _ _ h]
  | hollow h => exact absurd h (hsame.hollow _ _ _)

/-- Where the number of times is not zero, **the forests are the same**. With the same nodes in the
same places, it is not just the trees that agree. -/
theorem Twins.forest_eq (hm : Twins r P m m') (hr : r.times ≠ 0) : m'.forest = m.forest := by
  have hsame := hm.same hr
  have hnodes : m'.nodes = m.nodes := by
    refine Array.ext hsame.size fun a ha' ha => ?_
    obtain ⟨kind, kind', span, hnode, hnode', htwin⟩ := hm.node a a (hsame.all a ha)
    rw [(Array.getElem?_eq_some_iff.mp hnode).2, (Array.getElem?_eq_some_iff.mp hnode').2,
      hsame.kind_eq htwin]
  rw [forest, forest, hnodes, hsame.list_eq hm.roots, hm.position]

end Machine

/-! ### The whole -/

namespace Forest

/-- From two forests **the same trees are extracted**: under all options the same tree, or both are
found ambiguous. -/
def ExtractedAlike (f f' : Forest) : Prop :=
  ∀ o, (∃ t n t' n', f.extract o = .ok (t, n) ∧ f'.extract o = .ok (t', n') ∧ t'.plain = t.plain) ∨
    f.extract o = .error .ambiguous ∧ f'.extract o = .error .ambiguous

theorem extractedAlike_of_freshTree {f f' : Forest} (hf : f.Closed) (hf' : f'.Closed)
    (h : ∀ o, f'.freshTree o = f.freshTree o) : ExtractedAlike f f' := by
  intro o
  rcases extract_cases hf o with ⟨t, n, ht⟩ | hambiguous
  · obtain ⟨t', n', ht', hplain⟩ := exists_extract ((h o).trans (freshTree_of_extract ht))
    exact .inl ⟨t, n, t', n', ht, ht', hplain⟩
  · rcases extract_cases hf' o with ⟨t', n', ht'⟩ | hambiguous'
    · obtain ⟨t, n, ht, -⟩ := exists_extract ((h o).symm.trans (freshTree_of_extract ht'))
      cases hambiguous.symm.trans ht
    · exact .inr ⟨hambiguous, hambiguous'⟩

/-- **A repetition of an exact number of times may be unrolled.** Inputs are accepted or rejected as
before, and rejected at the same position; from the forests the same trees are extracted; and where
the number of times is not zero the forests themselves are the same. -/
theorem parse_unroll (hg : g.Closed) (hexact : g.expr? slot = some r.exact) (w : List String) :
    ParsedAlike g (g.unroll slot r) w ∧
      (∀ f f', parse g w = .ok f → parse (g.unroll slot r) w = .ok f' → ExtractedAlike f f') ∧
      (r.times ≠ 0 → parse (g.unroll slot r) w = parse g w) := by
  have hu := Grammar.unrolls_unroll hexact
  have halike := hu.parsedAlike hg (hg.unroll hexact) w
  refine ⟨halike, fun f f' hf hf' => ?_, fun hr => ?_⟩
  · obtain ⟨m, m', L, L', P, hm, hs, hs', rfl, rfl⟩ := exists_twins hu hf hf'
    exact extractedAlike_of_freshTree hs.closed_forest hs'.closed_forest
      (hm.freshTree_eq hs hs')
  · rcases halike with ⟨f, f', hf, hf'⟩ | ⟨position, -, hp, hp'⟩
    · obtain ⟨m, m', L, L', P, hm, -, -, rfl, rfl⟩ := exists_twins hu hf hf'
      rw [hf, hf']
      exact congrArg Except.ok (hm.forest_eq hr)
    · rw [hp, hp']

end Forest

namespace Grammar

/-- **Two letters**, either of which may be left out. -/
def twoLetters : Repeat := ⟨some "pair", 1, 2⟩

/-- Two letters, either of which may be left out, **as a repetition**. -/
def optionalPair : Grammar where
  exprs := #[twoLetters.exact, .rep none 2 0 (some 1), .token "a"]
  start := 0
  start_lt := by decide

theorem closed_optionalPair : optionalPair.Closed := by
  rw [Closed, optionalPair]
  decide

/-- Zero times **itself**. -/
def never : Grammar where
  exprs := #[Repeat.exact ⟨none, 0, 0⟩]
  start := 0
  start_lt := by decide

end Grammar

namespace Forest

open Grammar

/-- One letter may be **the first or the second**, whether they are repeated or in sequence. -/
theorem parse_unroll_optionalPair : optionalPair.Closed ∧
    optionalPair.expr? 0 = some twoLetters.exact ∧
    ParsedAlike optionalPair (optionalPair.unroll 0 twoLetters) ["a"] ∧
    (∀ f f', parse optionalPair ["a"] = .ok f →
      parse (optionalPair.unroll 0 twoLetters) ["a"] = .ok f' → ExtractedAlike f f') ∧
    (twoLetters.times ≠ 0 →
      parse (optionalPair.unroll 0 twoLetters) ["a"] = parse optionalPair ["a"]) :=
  ⟨closed_optionalPair, rfl, parse_unroll closed_optionalPair rfl ["a"]⟩

-- zero iterations are a choice of one empty list, no children are the list itself
example : (parse never []).map size = .ok 2 ∧
    (parse (never.unroll 0 ⟨none, 0, 0⟩) []).map size = .ok 1 :=
  ⟨by cbv, by cbv⟩

end Forest

end GeneralParsing
