import GeneralParsing.Extraction.Walk
import GeneralParsing.Proofs.Extraction.Plain
import GeneralParsing.Proofs.Tree.Ledger
import Mathlib

/-!
# The walk's memory is invisible

The walk remembers outputs, and remembers them for all paths, although an output depends on the
path by which a node is reached. It may do so because it remembers an output only when nothing was
cut on the way, and then everything the output depends on has been remembered as well. A path that
avoids all remembered nodes therefore cuts nothing either, and the paths by which the walk comes
back to a node are such paths: their nodes are still being worked on.

`Remembers` is this invariant. `Serves` is what a part of the walk does to it, and for each part
there is a rule. The main result is that the walk's outputs are the outputs computed afresh
(`serves_visit`), on any path and under any policy, errors included.
-/

namespace GeneralParsing

namespace Forest

/-- Whether a node has an output that **is remembered**. -/
def Kind.isInner : Kind → Bool
  | sequence _ (_ :: _) => true
  | choice _ _ => true
  | _ => false

/-- A sequence with children, or a choice. -/
def Inner (f : Forest) (id : NodeId) : Prop :=
  ∃ node, f.node? id = some node ∧ node.kind.isInner = true

theorem Inner.lt {f : Forest} {id : NodeId} (h : f.Inner id) : id < f.size := by
  obtain ⟨node, hnode, -⟩ := h
  exact (Array.getElem?_eq_some_iff.mp hnode).1

/-- Distinct inner nodes are **no more than the forest has**. -/
theorem length_le_of_inner {f : Forest} {path : List NodeId} (hnodup : path.Nodup)
    (h : ∀ id ∈ path, f.Inner id) : path.length ≤ f.size := by
  have hsub : path ⊆ List.range f.size := fun id hid => List.mem_range.mpr (h id hid).lt
  simpa using (List.Nodup.subperm hnodup hsub).length_le

end Forest

namespace Extract

open Forest

variable {f : Forest} {o : ParseOptions} {α β γ δ : Type}

/-! ### The invariant -/

/-- A path of distinct inner nodes, **none of them remembered**. -/
structure Fresh (f : Forest) (w : Walk) (path : List NodeId) : Prop where
  nodup : path.Nodup
  inner : ∀ id ∈ path, f.Inner id
  unknown : ∀ id ∈ path, w.known[id]? = none

/-- What is remembered is **right on every fresh path**, and its families stand in the ledger. -/
structure Remembers (f : Forest) (o : ParseOptions) (ledger : List (List NumberedTree))
    (w : Walk) : Prop where
  output : ∀ (id : NodeId) (out : Output), w.known[id]? = some out → ∀ path, Fresh f w path →
    f.freshOutput o path id = .ok (out.map (List.map Tree.plain))
  entered : ∀ (id : NodeId) (ts : List NumberedTree), w.known[id]? = some (some ts) →
    ∀ t ∈ ts, t.Entered ledger
  length : ledger.length = w.next

/-- A walk that **has gone on** with a path: it may remember more, but not what is on the path. -/
structure GoneOn (path : List NodeId) (w w' : Walk) : Prop where
  known : ∀ id : NodeId, w'.known[id]? = none → w.known[id]? = none
  path : ∀ id ∈ path, w.known[id]? = none → w'.known[id]? = none
  cuts : w.cuts ≤ w'.cuts

theorem Fresh.length_le {w : Walk} {path : List NodeId} (h : Fresh f w path) :
    path.length ≤ f.size :=
  length_le_of_inner h.nodup h.inner

/-- A path that is fresh now **was fresh before**, as nothing is ever forgotten. Fresh means that
nothing on the path is remembered. -/
theorem Fresh.earlier {w w' : Walk} {path path' : List NodeId} (hgo : GoneOn path' w w')
    (h : Fresh f w' path) : Fresh f w path :=
  ⟨h.nodup, h.inner, fun id hid => hgo.known id (h.unknown id hid)⟩

/-- A path on which the walk has gone on **is still fresh**: its nodes are not remembered until they
are left. -/
theorem Fresh.later {w w' : Walk} {path : List NodeId} (hgo : GoneOn path w w')
    (h : Fresh f w path) : Fresh f w' path :=
  ⟨h.nodup, h.inner, fun id hid => hgo.path id hid (h.unknown id hid)⟩

theorem GoneOn.refl (path : List NodeId) (w : Walk) : GoneOn path w w :=
  ⟨fun _ h => h, fun _ _ h => h, Nat.le_refl _⟩

/-- Going on **goes on**. -/
theorem GoneOn.trans {path : List NodeId} {w w' w'' : Walk} (h : GoneOn path w w')
    (h' : GoneOn path w' w'') : GoneOn path w w'' :=
  ⟨fun id hid => h.known id (h'.known id hid),
    fun id hid hw => h'.path id hid (h.path id hid hw), Nat.le_trans h.cuts h'.cuts⟩

/-- A walk that has come **to a result**: the result is what is specified for its path, and for
every fresh path if nothing was cut. -/
structure Comes (f : Forest) (o : ParseOptions) (path : List NodeId)
    (spec : List NodeId → Except Error β) (w w' : Walk) (ledger : List (List NumberedTree))
    (b : β) : Prop where
  remembers : Remembers f o ledger w'
  goneOn : GoneOn path w w'
  here : spec path = .ok b
  anywhere : w'.cuts = w.cuts → ∀ path', Fresh f w' path' → spec path' = .ok b

/-- From one state a part of the walk **yields** what is specified for the path, be it an error. -/
inductive Yields (f : Forest) (o : ParseOptions) (ledger : List (List NumberedTree))
    (path : List NodeId) (w : Walk) (x : Extract α) (spec : List NodeId → Except Error β)
    (r : List (List NumberedTree) → α → β → Prop) : Prop
  | error {e : Error} (hrun : x.run w = .error e) (h : spec path = .error e)
  | ok {a : α} {v : Walk} {ledger' : List (List NumberedTree)} {b : β}
      (hrun : x.run w = .ok (a, v)) (hle : ledger <+: ledger') (hreads : r ledger' a b)
      (hcome : Comes f o path spec w v ledger' b)

/-- A part of the walk **serves** a specification: it yields what is specified, whatever is
remembered and not on the path. -/
def Serves (f : Forest) (o : ParseOptions) (ledger : List (List NumberedTree))
    (path : List NodeId) (x : Extract α) (spec : List NodeId → Except Error β)
    (r : List (List NumberedTree) → α → β → Prop) : Prop :=
  ∀ w ledger', ledger <+: ledger' → Remembers f o ledger' w → Fresh f w path →
    Yields f o ledger' path w x spec r

/-! ### Rules -/

section Rules

variable {ledger : List (List NumberedTree)} {path : List NodeId}
variable {r : List (List NumberedTree) → α → β → Prop}
variable {q : List (List NumberedTree) → γ → δ → Prop}

/-- A value **serves itself**, on any path. -/
theorem serves_pure {a : α} {b : β} (h : ∀ ledger', ledger <+: ledger' → r ledger' a b) :
    Serves f o ledger path (pure a) (fun _ => .ok b) r :=
  fun w ledger' hle hrem _ => .ok rfl List.prefix_rfl (h ledger' hle)
    ⟨hrem, .refl path w, rfl, fun _ _ _ => rfl⟩

/-- An error **serves itself**, on any path. -/
theorem serves_throw (e : Error) :
    Serves f o ledger path (throw e : Extract α) (fun _ => .error e) r :=
  fun _ _ _ _ _ => .error rfl rfl

theorem run_bind_error {x : Extract α} {k : α → Extract γ} {w : Walk} {e : Error}
    (h : x.run w = .error e) : (x >>= k).run w = .error e := by
  rw [StateT.run_bind, h]
  rfl

theorem run_bind_ok {x : Extract α} {k : α → Extract γ} {w w' : Walk} {a : α}
    (h : x.run w = .ok (a, w')) : (x >>= k).run w = (k a).run w' := by
  rw [StateT.run_bind, h]
  rfl

/-- Parts of the walk **that follow one another** serve what their specifications do, one after
another. -/
theorem Serves.bind {x : Extract α} {k : α → Extract γ} {spec : List NodeId → Except Error β}
    {s : β → List NodeId → Except Error δ} (hx : Serves f o ledger path x spec r)
    (hk : ∀ ledger' a b, ledger <+: ledger' → r ledger' a b →
      Serves f o ledger' path (k a) (s b) q) :
    Serves f o ledger path (x >>= k) (fun path => spec path >>= fun b => s b path) q := by
  intro w ledger₁ hle hrem hfresh
  cases hx w ledger₁ hle hrem hfresh with
  | error hrun h =>
    refine .error (run_bind_error hrun) ?_
    simp only [h]
    rfl
  | @ok a w₂ ledger₂ b hrun hle₂ hreads hcome =>
    cases hk ledger₂ a b (hle.trans hle₂) hreads w₂ ledger₂ List.prefix_rfl hcome.remembers
      (hfresh.later hcome.goneOn) with
    | error hrun' h =>
      refine .error ((run_bind_ok hrun).trans hrun') ?_
      simp only [hcome.here]
      exact h
    | ok hrun' hle₃ hreads' hcome' =>
      refine .ok ((run_bind_ok hrun).trans hrun') (hle₂.trans hle₃) hreads'
        ⟨hcome'.remembers, hcome.goneOn.trans hcome'.goneOn, ?_, fun hcuts path' hpath' => ?_⟩
      · simp only [hcome.here]
        exact hcome'.here
      · have hcuts₂ := hcome.goneOn.cuts
        have hcuts₃ := hcome'.goneOn.cuts
        simp only [hcome.anywhere (by omega) path' (hpath'.earlier hcome'.goneOn)]
        exact hcome'.anywhere (by omega) path' hpath'

/-- Only **what a part does from the state** matters to what it yields. -/
theorem Yields.of_run {x y : Extract α} {spec : List NodeId → Except Error β} {w : Walk}
    (h : Yields f o ledger path w y spec r) (hrun : x.run w = y.run w) :
    Yields f o ledger path w x spec r := by
  cases h with
  | error h hspec => exact .error (hrun.trans h) hspec
  | ok h hle hreads hcome => exact .ok (hrun.trans h) hle hreads hcome

/-- A specification may be replaced **by an equal one**. -/
theorem Serves.congr {x : Extract α} {spec spec' : List NodeId → Except Error β}
    (h : Serves f o ledger path x spec r) (heq : ∀ path, spec path = spec' path) :
    Serves f o ledger path x spec' r := by
  rwa [← funext heq]

/-- Shaping trees serves **the plain shape**, on any path, for it looks at no node. The numbers that
it gives to families are put down in the ledger. -/
theorem serves_shape {x : Numbering α} {b : β}
    (h : ∀ ledger', ledger <+: ledger' → Numbering.Keeps ledger' x fun ledger'' a =>
      r ledger'' a b) :
    Serves f o ledger path (shape x) (fun _ => .ok b) r := by
  intro w ledger₁ hle hrem hfresh
  obtain ⟨ledger₂, hle₂, hlen, hreads⟩ := h ledger₁ hle
  rw [hrem.length] at hlen hreads
  refine .ok rfl hle₂ hreads ⟨⟨?_, ?_, hlen⟩, ⟨fun _ h => h, fun _ _ h => h, Nat.le_refl _⟩,
    rfl, fun _ _ _ => rfl⟩
  · exact fun id out hid path' hpath' =>
      hrem.output id out hid path' ⟨hpath'.nodup, hpath'.inner, hpath'.unknown⟩
  · exact fun id ts hid t ht => (hrem.entered id ts hid t ht).mono hle₂

/-! ### Sequences and choices -/

/-- How the trees of the walk and plain trees **correspond**. -/
def ReadsTrees (ledger : List (List NumberedTree)) (ts : List NumberedTree)
    (us : List PlainTree) : Prop :=
  ts.map Tree.plain = us ∧ ∀ t ∈ ts, t.Entered ledger

/-- How the outputs of the walk and plain outputs **correspond**. -/
def ReadsOutput (ledger : List (List NumberedTree)) (out : Output) (b : PlainOutput) : Prop :=
  out.map (List.map Tree.plain) = b ∧ ∀ ts, out = some ts → ∀ t ∈ ts, t.Entered ledger

theorem readsOutput_none : ReadsOutput ledger none none := ⟨rfl, by simp⟩

/-- Trees that correspond **correspond as outputs**. -/
theorem ReadsTrees.output {ts : List NumberedTree} {us : List PlainTree}
    (h : ReadsTrees ledger ts us) : ReadsOutput ledger (some ts) (some us) :=
  ⟨by rw [Option.map_some, h.1], by rintro _ ⟨⟩; exact h.2⟩

/-- Trees still correspond **when the ledger has grown**. What a number stands for is never changed.
-/
theorem ReadsTrees.mono {ledger' : List (List NumberedTree)} (hle : ledger <+: ledger')
    {ts : List NumberedTree} {us : List PlainTree} (h : ReadsTrees ledger ts us) :
    ReadsTrees ledger' ts us :=
  ⟨h.1, fun t ht => (h.2 t ht).mono hle⟩

section

variable {visit : NodeId → Extract Output} {spec : NodeId → List NodeId → Except Error PlainOutput}

/-- A sequence of nodes **serves the string** of their outputs. It stops at the first that has none,
in both. -/
theorem serves_inOrder {ids : List NodeId}
    (hvisit : ∀ id ∈ ids, ∀ ledger', ledger <+: ledger' →
      Serves f o ledger' path (visit id) (spec id) ReadsOutput)
    {trees : Array NumberedTree} {us : List PlainTree}
    (htrees : ReadsTrees ledger trees.toList us) :
    Serves f o ledger path (inOrder visit trees ids)
      (fun path => (strung (ids.map (spec · path))).map (Option.map (us ++ ·))) ReadsOutput := by
  induction ids generalizing ledger trees us with
  | nil =>
    refine (serves_pure (b := some us) fun _ hle => (htrees.mono hle).output).congr fun path => ?_
    simp [strung, Except.map]
  | cons id ids ih =>
    rw [inOrder]
    -- the specification of the rest, given what the first one has come to
    refine ((hvisit id (by simp) ledger List.prefix_rfl).bind (s := fun out path =>
      out.elim (.ok none) fun more =>
        (strung (ids.map (spec · path))).map (Option.map ((us ++ more) ++ ·)))
      fun ledger' out b hle hreads => ?_).congr fun path => ?_
    · obtain ⟨rfl, hentered⟩ := hreads
      cases out with
      | none => exact serves_pure fun _ _ => readsOutput_none
      | some more =>
        refine ih (fun id hid ledger'' hle' =>
          hvisit id (by simp [hid]) ledger'' (hle.trans hle')) ?_
        refine ⟨by simp [htrees.1], ?_⟩
        rw [show (trees ++ more).toList = trees.toList ++ more by simp]
        intro t ht
        rcases List.mem_append.mp ht with ht | ht
        · exact (htrees.2 t ht).mono hle
        · exact hentered more rfl t ht
    · simp only [List.map_cons, strung]
      cases spec id path with
      | error e => rfl
      | ok out =>
        cases out with
        | none => rfl
        | some more =>
          change (strung _).map _ = Except.map _ (strung _ >>= _)
          cases strung (ids.map (spec · path)) with
          | error e => rfl
          | ok rest => cases rest <;> simp [Except.map, bind, Except.bind]

/-- Gathers **the first of the outputs**, and then what the other alternatives give. -/
def gatheredFrom (policy : Ambiguity) (viable : Bool) (found : List (List PlainTree))
    (rest : List (Except Error PlainOutput)) :
    PlainOutput → Except Error (Bool × List (List PlainTree))
  | none => gathered policy viable found rest
  | some [] => gathered policy true found rest
  | some (t :: ts) =>
    match policy with
    | .first => .ok (true, (t :: ts) :: found)
    | .error =>
      if found.isEmpty then gathered policy true [t :: ts] rest else .error .ambiguous
    | .packed => gathered policy true ((t :: ts) :: found) rest

/-- How what has been gathered **corresponds**. -/
def ReadsFound (ledger : List (List NumberedTree)) (a : Bool × List (List NumberedTree))
    (b : Bool × List (List PlainTree)) : Prop :=
  a.1 = b.1 ∧ a.2.map (List.map Tree.plain) = b.2 ∧ ∀ ts ∈ a.2, ∀ t ∈ ts, t.Entered ledger

/-- **Gathering alternatives** serves gathering their specified outputs, if each visit serves its
own. -/
theorem serves_alternatives {ids : List NodeId}
    (hvisit : ∀ id ∈ ids, ∀ ledger', ledger <+: ledger' →
      Serves f o ledger' path (visit id) (spec id) ReadsOutput)
    {viable : Bool} {found : List (List NumberedTree)}
    (hfound : ∀ ts ∈ found, ∀ t ∈ ts, t.Entered ledger) :
    Serves f o ledger path (alternatives o.ambiguity visit viable found ids)
      (fun path => gathered o.ambiguity viable (found.map (List.map Tree.plain))
        (ids.map (spec · path))) ReadsFound := by
  induction ids generalizing ledger viable found with
  | nil =>
    exact serves_pure fun _ hle => ⟨rfl, rfl, fun ts hts t ht => (hfound ts hts t ht).mono hle⟩
  | cons id ids ih =>
    have ih : ∀ ledger', ledger <+: ledger' → ∀ {viable : Bool} {found : List (List NumberedTree)},
        (∀ ts ∈ found, ∀ t ∈ ts, t.Entered ledger') →
          Serves f o ledger' path (alternatives o.ambiguity visit viable found ids)
            (fun path => gathered o.ambiguity viable (found.map (List.map Tree.plain))
              (ids.map (spec · path))) ReadsFound := fun ledger' hle => ih
      fun id hid ledger'' hle' => hvisit id (by simp [hid]) ledger'' (hle.trans hle')
    rw [alternatives]
    refine (hvisit id (by simp) ledger List.prefix_rfl).bind (s := fun out path =>
      gatheredFrom o.ambiguity viable (found.map (List.map Tree.plain)) (ids.map (spec · path)) out)
      fun ledger' out b hle hreads => ?_
    obtain ⟨rfl, hentered⟩ := hreads
    have hfound' : ∀ ts ∈ found, ∀ t ∈ ts, t.Entered ledger' :=
      fun ts hts t ht => (hfound ts hts t ht).mono hle
    rcases out with _ | _ | ⟨t, ts⟩
    · exact ih ledger' hle hfound'
    · exact ih ledger' hle hfound'
    · have hcons : ∀ us ∈ (t :: ts) :: found, ∀ u ∈ us, u.Entered ledger' :=
        List.forall_mem_cons.mpr ⟨hentered _ rfl, hfound'⟩
      cases hpolicy : o.ambiguity with rw [hpolicy] at ih
      | first =>
        exact serves_pure fun _ hle' => ⟨rfl, rfl, fun us hus u hu => (hcons us hus u hu).mono hle'⟩
      | error =>
        cases found with
        | nil => exact ih ledger' hle hcons
        | cons us found => exact serves_throw .ambiguous
      | packed => exact ih ledger' hle hcons

/-- A choice among nodes **serves the choice** among their outputs. What is gathered corresponds
output by output, so the policy decides alike. -/
theorem serves_choose {ids : List NodeId} (span : Span)
    (hvisit : ∀ id ∈ ids, ∀ ledger', ledger <+: ledger' →
      Serves f o ledger' path (visit id) (spec id) ReadsOutput) :
    Serves f o ledger path (choose o visit span ids)
      (fun path => chosen o span (ids.map (spec · path))) ReadsOutput := by
  have hgathered : Serves f o ledger path (alternatives o.ambiguity visit false [] ids)
      (fun path => gathered o.ambiguity false [] (ids.map (spec · path))) ReadsFound :=
    serves_alternatives hvisit (by simp)
  refine hgathered.bind fun ledger' a b hle hreads => ?_
  obtain ⟨viable, found⟩ := a
  obtain ⟨viable', found'⟩ := b
  obtain ⟨hviable, hfound, hentered⟩ := hreads
  simp only at hviable hfound hentered
  subst hviable hfound
  match viable, found with
  | false, _ => exact serves_pure fun _ _ => readsOutput_none
  | true, [] => exact serves_pure fun _ _ => ReadsTrees.output ⟨rfl, by simp⟩
  | true, [only] =>
    exact serves_pure fun _ hle' =>
      ReadsTrees.output ⟨rfl, fun t ht => (hentered only (by simp) t ht).mono hle'⟩
  | true, us :: vs :: found =>
    refine (serves_shape (r := fun ledger (t : NumberedTree) u => t.plain = u ∧ t.Entered ledger)
      (b := o.plainPack span ((us :: vs :: found).reverse.map (List.map Tree.plain)))
      fun ledger'' hle' => ?_).bind (k := fun t => pure (some [t]))
        (s := fun b _ => .ok (some [b])) (q := ReadsOutput) (fun _ t b _ ht => ?_)
          |>.congr fun _ => by rw [List.map_reverse]; rfl
    · have hkeeps : Numbering.Keeps ledger'' (o.pack span (us :: vs :: found).reverse)
          Tree.Entered := o.keeps_pack span
        fun ts hts t ht => (hentered ts (List.mem_reverse.mp hts) t ht).mono hle'
      obtain ⟨ledger₃, hle₃, hlen₃, ht⟩ := hkeeps
      exact ⟨ledger₃, hle₃, hlen₃, o.plain_result_pack span _ _, ht⟩
    · obtain ⟨rfl, ht⟩ := ht
      exact serves_pure fun _ hle' => ReadsTrees.output ⟨rfl, by simpa using ht.mono hle'⟩

end

/-! ### Nodes -/

/-- Trees as they are **under a tag**. -/
theorem serves_labelled {x : Extract Output} {spec : List NodeId → Except Error PlainOutput}
    (span : Span) (tag : Option String) (hx : Serves f o ledger path x spec ReadsOutput) :
    Serves f o ledger path
      (do match ← x with
          | none => return none
          | some ts => return some (← shape (o.labelled span tag ts)))
      (fun path => (spec path).map (Option.map (o.plainLabelled span tag))) ReadsOutput := by
  refine (hx.bind (s := fun out _ => .ok (out.map (o.plainLabelled span tag)))
    fun ledger' out b hle hreads => ?_).congr fun path => ?_
  · obtain ⟨rfl, hentered⟩ := hreads
    cases out with
    | none => exact serves_pure fun _ _ => readsOutput_none
    | some ts =>
      refine (serves_shape (r := ReadsTrees)
        (b := o.plainLabelled span tag (ts.map Tree.plain)) fun ledger'' hle' => ?_).bind
          (k := fun ts => pure (some ts)) (s := fun b _ => .ok (some b)) fun _ ts b _ hts =>
            serves_pure fun _ hle' => (hts.mono hle').output
      have hentered' : ∀ t ∈ ts, t.Entered ledger'' := fun t ht => (hentered ts rfl t ht).mono hle'
      obtain ⟨ledger₃, hle₃, hlen₃, hts⟩ := o.keeps_labelled span tag hentered'
      exact ⟨ledger₃, hle₃, hlen₃, o.plain_result_labelled span tag ts _, hts⟩
  · cases spec path <;> rfl

/-- Settling takes **three steps**: the trees are gone through, tagged, and remembered if nothing
was cut. -/
theorem settle_eq (id : NodeId) (span : Span) (tag : Option String) (trees : Extract Output) :
    settle o id span tag trees = (do
      let w ← get
      let out ← (do
        match ← trees with
        | none => return none
        | some ts => return some (← shape (o.labelled span tag ts)))
      remember id w.cuts out) := by
  rw [settle]
  simp only [bind_assoc]
  refine congrArg _ (funext fun w => congrArg _ (funext fun out => ?_))
  cases out <;> simp

theorem run_remember (id : NodeId) (cuts : Nat) (out : Output) (w : Walk) :
    (remember id cuts out).run w =
      .ok (out, if w.cuts = cuts then { w with known := w.known.insert id out } else w) := rfl

/-- An inner node **may be remembered** when nothing was cut below it. Without a cut the output did
not depend on the path, and so it may be used on any other. -/
theorem yields_remember {id : NodeId} (hid : f.Inner id) (hpath : id ∉ path) {w : Walk}
    {x : Extract Output} {spec : List NodeId → Except Error PlainOutput}
    (hspec : ∀ path', path'.length ≤ f.size → id ∉ path' →
      f.freshOutput o path' id = spec (id :: path'))
    (hx : Serves f o ledger (id :: path) x spec ReadsOutput) (hrem : Remembers f o ledger w)
    (hfresh : Fresh f w path) (hunknown : w.known[id]? = none) :
    Yields f o ledger path w (do let w ← get; let out ← x; remember id w.cuts out)
      (fun path => f.freshOutput o path id) ReadsOutput := by
  have hfresh' : Fresh f w (id :: path) :=
    ⟨List.nodup_cons.mpr ⟨hpath, hfresh.nodup⟩, List.forall_mem_cons.mpr ⟨hid, hfresh.inner⟩,
      List.forall_mem_cons.mpr ⟨hunknown, hfresh.unknown⟩⟩
  have hhere := hspec path hfresh.length_le hpath
  cases hx w ledger List.prefix_rfl hrem hfresh' with
  | error hrun h =>
    exact .error ((run_bind_ok (x := get) rfl).trans (run_bind_error hrun)) (hhere.trans h)
  | @ok out w₁ ledger₁ b hrun hle hreads hcome =>
    obtain ⟨rfl, hentered⟩ := hreads
    have hrun := (run_bind_ok (k := fun out => remember id w.cuts out) hrun).trans
      (run_remember id w.cuts out w₁)
    have hunknown₁ := hcome.goneOn.path id (by simp) hunknown
    have hgo : GoneOn path w w₁ :=
      ⟨hcome.goneOn.known, fun id' hid' => hcome.goneOn.path id' (by simp [hid']),
        hcome.goneOn.cuts⟩
    by_cases hcuts : w₁.cuts = w.cuts
    · rw [if_pos hcuts] at hrun
      have hgo₁ : GoneOn path w₁ { w₁ with known := w₁.known.insert id out } := by
        refine ⟨fun id' h => ?_, fun id' hid' h => ?_, Nat.le_refl _⟩
        · rw [Std.HashMap.getElem?_insert] at h
          split at h
          · cases h
          · exact h
        · have hne : id ≠ id' := fun h => hpath (h ▸ hid')
          rw [Std.HashMap.getElem?_insert, if_neg (by simpa using hne), h]
      -- a fresh path may be led on to the node itself
      have hright : ∀ path', Fresh f { w₁ with known := w₁.known.insert id out } path' →
          f.freshOutput o path' id = .ok (out.map (List.map Tree.plain)) := by
        intro path' hpath'
        have hnot : id ∉ path' := fun h => by
          have hun := hpath'.unknown id h
          simp at hun
        have hpath₁ := hpath'.earlier hgo₁
        rw [hspec path' hpath'.length_le hnot]
        exact hcome.anywhere hcuts (id :: path') ⟨List.nodup_cons.mpr ⟨hnot, hpath₁.nodup⟩,
          List.forall_mem_cons.mpr ⟨hid, hpath₁.inner⟩,
          List.forall_mem_cons.mpr ⟨hunknown₁, hpath₁.unknown⟩⟩
      refine .ok hrun hle ⟨rfl, hentered⟩ ⟨⟨?_, ?_, hcome.remembers.length⟩, hgo.trans hgo₁,
        hhere.trans hcome.here, fun _ => hright⟩
      · intro id' out' h path' hpath'
        rw [Std.HashMap.getElem?_insert] at h
        split at h
        · next heq =>
          obtain rfl : id = id' := by simpa using heq
          obtain rfl : out = out' := by simpa using h
          exact hright path' hpath'
        · exact hcome.remembers.output id' out' h path' (hpath'.earlier hgo₁)
      · intro id' ts h
        rw [Std.HashMap.getElem?_insert] at h
        split at h
        · exact hentered ts (by simpa using h)
        · exact hcome.remembers.entered id' ts h
    · rw [if_neg hcuts] at hrun
      exact .ok hrun hle ⟨rfl, hentered⟩ ⟨hcome.remembers, hgo, hhere.trans hcome.here,
        fun h => (hcuts h).elim⟩

/-- A result that **holds on every path** and is not remembered. -/
theorem yields_leaf {id : NodeId} {w : Walk} {ts : List NumberedTree} {us : List PlainTree}
    (hinner : ¬ f.Inner id) (hspec : ∀ path', path'.length ≤ f.size → id ∉ path' →
      f.freshOutput o path' id = .ok (some us)) (hts : ReadsTrees ledger ts us)
    (hrem : Remembers f o ledger w) (hfresh : Fresh f w path) :
    Yields f o ledger path w (pure (some ts))
      (fun path => f.freshOutput o path id) ReadsOutput := by
  have hright : ∀ path', Fresh f w path' → f.freshOutput o path' id = .ok (some us) :=
    fun path' hpath' => hspec path' hpath'.length_le fun h => hinner (hpath'.inner id h)
  exact .ok rfl List.prefix_rfl hts.output
    ⟨hrem, .refl path w, hright path hfresh, fun _ => hright⟩

/-- A derivation that leads back to a node on the path **is cut**. It is counted, so that nothing
above it up to that node is remembered. -/
theorem yields_cut {id : NodeId} {w : Walk} (hpath : id ∈ path) (hrem : Remembers f o ledger w)
    (hfresh : Fresh f w path) :
    Yields f o ledger path w (do modify fun w => { w with cuts := w.cuts + 1 }; return none)
      (fun path => f.freshOutput o path id) ReadsOutput :=
  .ok (v := { w with cuts := w.cuts + 1 }) rfl List.prefix_rfl readsOutput_none
    ⟨⟨fun id' out h path' hpath' => hrem.output id' out h path'
        ⟨hpath'.nodup, hpath'.inner, hpath'.unknown⟩, hrem.entered, hrem.length⟩,
      ⟨fun _ h => h, fun _ _ h => h, Nat.le_succ _⟩,
      freshOutput_of_mem hfresh.length_le hpath, fun h => (Nat.succ_ne_self _ h).elim⟩

/-- What the walk does **at a node**, by its kind. -/
def visitNode (f : Forest) (o : ParseOptions) (visit : NodeId → Extract Output) (id : NodeId)
    (span : Span) : Kind → Extract Output
  | .symbol text => return some [o.spanned span (NumberedTree.value text)]
  | .omitted => return some []
  | .lexical child => return some [o.spanned span (NumberedTree.value (f.text child))]
  | .sequence none [] => return some []
  | .sequence (some tag) [] => return some [o.spanned span (NumberedTree.taggedValue tag "")]
  | .sequence tag children => settle o id span tag (inOrder visit #[] children)
  | .choice tag alternatives => settle o id span tag (choose o visit span alternatives)

/-- A leaf corresponds to **the same plain leaf**, since it has no family. -/
theorem readsTrees_spanned_leaf (span : Span) (label : Label) :
    ReadsTrees ledger [o.spanned span (.leaf label)] [o.plainSpanned span (.leaf label)] :=
  ⟨by simp, by simpa using o.entered_spanned span (.leaf label)⟩

/-- Each kind of node **yields its output**. Its children are walked on a path that goes through it.
-/
theorem yields_node {id : NodeId} {kind : Kind} {span : Span} {w : Walk}
    {visit : NodeId → Extract Output} (hpath : id ∉ path) (hnode : f.node? id = some ⟨kind, span⟩)
    (hvisit : ∀ id' ledger', ledger <+: ledger' → Serves f o ledger' (id :: path) (visit id')
      (fun path => f.freshOutput o path id') ReadsOutput)
    (hrem : Remembers f o ledger w) (hfresh : Fresh f w path) (hknown : w.known[id]? = none) :
    Yields f o ledger path w (visitNode f o visit id span kind)
      (fun path => f.freshOutput o path id) ReadsOutput := by
  have hleaf : kind.isInner = false → ¬ f.Inner id := by
    rintro hkind ⟨node, hnode', hinner⟩
    obtain rfl : ⟨kind, span⟩ = node := by simpa [hnode] using hnode'
    simp [hkind] at hinner
  have hinner : kind.isInner = true → f.Inner id := fun h => ⟨_, hnode, h⟩
  have hspec : ∀ path' : List NodeId, path'.length ≤ f.size → id ∉ path' →
      f.freshOutput o path' id = f.freshNode o (f.freshOutput o (id :: path')) span kind :=
    fun _ hlen hnot => freshOutput_of_not_mem hlen hnot hnode
  match kind, hleaf, hinner, hspec with
  | .symbol text, hleaf, _, hspec =>
    exact yields_leaf (hleaf rfl) hspec (readsTrees_spanned_leaf span _) hrem hfresh
  | .omitted, hleaf, _, hspec => exact yields_leaf (hleaf rfl) hspec ⟨rfl, by simp⟩ hrem hfresh
  | .lexical child, hleaf, _, hspec =>
    exact yields_leaf (hleaf rfl) hspec (readsTrees_spanned_leaf span _) hrem hfresh
  | .sequence none [], hleaf, _, hspec =>
    exact yields_leaf (hleaf rfl) hspec ⟨rfl, by simp⟩ hrem hfresh
  | .sequence (some tag) [], hleaf, _, hspec =>
    exact yields_leaf (hleaf rfl) hspec (readsTrees_spanned_leaf span _) hrem hfresh
  | .sequence tag (child :: children), _, hinner, hspec =>
    have hbody : visitNode f o visit id span (.sequence tag (child :: children)) =
        settle o id span tag (inOrder visit #[] (child :: children)) := by
      cases tag <;> rfl
    rw [hbody, settle_eq]
    refine yields_remember (hinner rfl) hpath (fun path' hlen hnot => ?_)
      (serves_labelled span tag (serves_inOrder (fun id' _ => hvisit id') ⟨rfl, by simp⟩))
      hrem hfresh hknown
    rw [hspec path' hlen hnot, freshNode_sequence]
    simp
  | .choice tag alternatives, _, hinner, hspec =>
    rw [visitNode, settle_eq]
    exact yields_remember (hinner rfl) hpath hspec
      (serves_labelled span tag (serves_choose span fun id' _ => hvisit id')) hrem hfresh hknown

/-- **The walk yields the outputs computed afresh.** The invariant is that whatever is remembered is
the output on every path that may come to ask for it. -/
theorem serves_visit {depth : Nat} {id : NodeId} (hdepth : depth + path.length = f.size + 1) :
    Serves f o ledger path (visit f o depth path id) (fun path => f.freshOutput o path id)
      ReadsOutput := by
  induction depth generalizing ledger path id with
  | zero =>
    intro w ledger₁ _ _ _
    refine .error rfl ?_
    rw [freshOutput, show f.size + 1 - path.length = 0 by omega]
    rfl
  | succ depth ih =>
    intro w ledger₁ hle hrem hfresh
    have hvisit : ∀ id' ledger', ledger₁ <+: ledger' →
        Serves f o ledger' (id :: path) (visit f o depth (id :: path) id')
          (fun path => f.freshOutput o path id') ReadsOutput :=
      fun id' ledger' _ => ih (by simp; omega)
    rw [visit]
    -- an output that is remembered holds on this path, too
    cases hknown : w.known[id]? with
    | some out =>
      refine .ok (a := out) (v := w) ?_ List.prefix_rfl ⟨rfl, fun ts hts => ?_⟩
        ⟨hrem, .refl path w, hrem.output id out hknown path hfresh,
          fun _ => hrem.output id out hknown⟩
      · rw [run_bind_ok (x := get) rfl]
        simp only [hknown]
        rfl
      · subst hts
        exact hrem.entered id ts hknown
    | none =>
      by_cases hpath : id ∈ path
      · -- a node on the path is cut
        refine (yields_cut hpath hrem hfresh).of_run ?_
        rw [run_bind_ok (x := get) rfl]
        simp only [hknown, List.contains_iff_mem, hpath, if_true]
      · rcases hnode : f.node? id with _ | ⟨kind, span⟩
        · refine .error ?_ (freshOutput_of_no_node hfresh.length_le hpath hnode)
          rw [run_bind_ok (x := get) rfl]
          simp only [hknown, List.contains_iff_mem, hpath, if_false]
          rfl
        · -- otherwise the node is walked, with itself on the path
          refine (yields_node hpath hnode hvisit hrem hfresh hknown).of_run ?_
          rw [run_bind_ok (x := get) rfl]
          simp only [hknown, List.contains_iff_mem, hpath, if_false]
          rfl

end Rules

end Extract

namespace Forest

open Extract

theorem remembers_empty (f : Forest) (o : ParseOptions) : Remembers f o [] {} :=
  ⟨by simp, by simp, rfl⟩

theorem fresh_nil (f : Forest) (w : Walk) : Fresh f w [] := ⟨.nil, by simp, by simp⟩

/-- The walk from the roots **serves the choice** among their outputs. -/
theorem serves_roots (f : Forest) (o : ParseOptions) :
    Serves f o [] [] (choose o (visit f o (f.size + 1) []) f.wholeSpan f.roots)
      (fun path => chosen o f.wholeSpan (f.roots.map (f.freshOutput o path))) ReadsOutput :=
  serves_choose f.wholeSpan fun _ _ _ _ => serves_visit rfl

/-- The whole walk **serves the choice among the roots**, made into one tree. -/
theorem serves_extractTree (f : Forest) (o : ParseOptions) :
    Serves f o [] [] (f.extractTree o)
      (fun path => do
        let output ← chosen o f.wholeSpan (f.roots.map (f.freshOutput o path))
        return f.plainRoot o (output.getD []))
      fun ledger (t : NumberedTree) u => t.plain = u ∧ t.Entered ledger := by
  refine (serves_roots f o).bind (s := fun output _ => .ok (f.plainRoot o (output.getD [])))
    fun ledger' out b hle hreads => ?_
  obtain ⟨rfl, hentered⟩ := hreads
  have hread : ReadsTrees ledger' (out.getD []) ((out.map (List.map Tree.plain)).getD []) := by
    cases out with
    | none => exact ⟨rfl, by simp⟩
    | some ts => exact ⟨rfl, hentered ts rfl⟩
  obtain ⟨hplain, hentered⟩ := hread
  rw [← hplain]
  match out.getD [], hentered with
  | [only], hentered =>
    exact serves_pure fun _ hle' => ⟨rfl, (hentered only (by simp)).mono hle'⟩
  | [], hentered | t :: u :: ts, hentered =>
    refine (serves_shape (r := fun ledger (t : NumberedTree) u => t.plain = u ∧ t.Entered ledger)
      fun ledger'' hle' => ?_).bind (k := fun t => pure (o.spanned f.wholeSpan t))
        (s := fun b _ => .ok (o.plainSpanned f.wholeSpan b)) fun _ t b _ ht =>
          serves_pure fun _ hle'' =>
            ⟨by rw [ParseOptions.plain_spanned, ht.1], o.entered_spanned _ (ht.2.mono hle'')⟩
    have hkeeps : Numbering.Keeps ledger'' (NumberedTree.inner {} _) Tree.Entered :=
      Numbering.keeps_inner {} fun t ht => (hentered t ht).mono hle'
    obtain ⟨ledger₃, hle₃, hlen₃, ht⟩ := hkeeps
    exact ⟨ledger₃, hle₃, hlen₃, by simp [NumberedTree.group, PlainTree.group], ht⟩

/-- **Extraction is extraction afresh**, once the numbers of families are forgotten. From here on
one can reason about outputs as values, without state. -/
theorem map_plain_extract (f : Forest) (o : ParseOptions) :
    (f.extract o).map (fun result => result.1.plain) = f.freshTree o := by
  rw [extract, freshTree]
  cases serves_extractTree f o {} [] List.prefix_rfl (remembers_empty f o) (fresh_nil f {}) with
  | error hrun h => rw [hrun, h]; rfl
  | ok hrun _ hreads hcome => rw [hrun, hcome.here, ← hreads.1]; rfl

/-- The tree extracted is **the one there is afresh**. -/
theorem freshTree_of_extract {f : Forest} {o : ParseOptions} {t : NumberedTree} {n : Nat}
    (h : f.extract o = .ok (t, n)) : f.freshTree o = .ok t.plain := by
  rw [← map_plain_extract, h]
  rfl

/-- The tree that there is afresh is **the one extracted**. -/
theorem exists_extract {f : Forest} {o : ParseOptions} {t : PlainTree}
    (h : f.freshTree o = .ok t) : ∃ u n, f.extract o = .ok (u, n) ∧ u.plain = t := by
  rw [← map_plain_extract] at h
  cases hext : f.extract o with
  | error e =>
    rw [hext] at h
    cases h
  | ok result =>
    rw [hext] at h
    exact ⟨result.1, result.2, rfl, Except.ok.inj h⟩

/-- The families of an extracted tree are **filed** under their numbers. The ledger at the end of
the walk is such a file. -/
theorem exists_filed_of_extract {f : Forest} {o : ParseOptions} {t : NumberedTree} {n : Nat}
    (h : f.extract o = .ok (t, n)) : ∃ members, Tree.Filed members t := by
  rw [extract] at h
  cases serves_extractTree f o {} [] List.prefix_rfl (remembers_empty f o) (fresh_nil f {}) with
  | error hrun _ =>
    rw [hrun] at h
    cases h
  | ok hrun _ hreads hcome =>
    rw [hrun] at h
    cases h
    exact ⟨_, hreads.2.filed⟩

end Forest

end GeneralParsing
