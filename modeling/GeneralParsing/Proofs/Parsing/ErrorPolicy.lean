import GeneralParsing.Proofs.Extraction.Memory
import GeneralParsing.Proofs.Parsing.Unambiguous

/-!
# What passes as unambiguous

Under the error policy a choice fails as soon as it has two alternatives with trees. Where it does
not fail it has looked at all its alternatives and found trees in one of them at most, so there is
nothing that another policy could pack or prefer. `Follows` says of two results that the second is
the first wherever the first is there; it passes from the parts of a sequence or a choice to the
whole (`follows_strung`, `follows_chosen`), and from there to all outputs (`follows_freshOutput`).

So a tree that extraction gives under the error policy is the tree of every policy, and no part of
it is packed (`extract_eq_of_error`).
-/

namespace GeneralParsing

namespace Forest

/-! ### Results that follow others -/

/-- A result **follows** another: what the other comes to, it comes to as well. -/
def Follows {α : Type} (result' result : Except Error α) : Prop :=
  ∀ out, result = .ok out → result' = .ok out

variable {o : ParseOptions} {policy : Ambiguity} {f : Forest} {span : Span}
variable {results results' : List (Except Error PlainOutput)}

theorem follows_refl {α : Type} (result : Except Error α) : Follows result result := fun _ h => h

theorem Follows.bind {α β : Type} {result result' : Except Error α} {k k' : α → Except Error β}
    (h : Follows result' result) (hk : ∀ a, Follows (k' a) (k a)) :
    Follows (result' >>= k') (result >>= k) := by
  intro out hout
  cases result with
  | error e => cases hout
  | ok a =>
    rw [h a rfl]
    exact hk a out hout

theorem Follows.map {α β : Type} {result result' : Except Error α} (h : Follows result' result)
    (g : α → β) : Follows (result'.map g) (result.map g) := by
  intro out hout
  cases result with
  | error e => cases hout
  | ok a =>
    rw [h a rfl]
    exact hout

/-- Outputs **strung together** follow. -/
theorem follows_strung (h : List.Forall₂ Follows results' results) :
    Follows (strung results') (strung results) := by
  induction h with
  | nil => exact follows_refl _
  | cons hfirst _ ih =>
    rw [strung, strung]
    refine hfirst.bind fun out => ?_
    cases out with
    | none => exact follows_refl _
    | some ts => exact ih.bind fun _ => follows_refl _

/-- Once trees were found, **nothing more** is gathered under the error policy. A second one would
have failed. -/
theorem gathered_error_found {viable : Bool} {ts : List PlainTree}
    {found : List (List PlainTree)} {all : Bool × List (List PlainTree)}
    (h : gathered .error viable (ts :: found) results = .ok all) : all.2 = ts :: found := by
  induction results generalizing viable with
  | nil => rw [← Except.ok.inj h]
  | cons result results ih =>
    rcases gathered_cons_cases h with
      ⟨-, h⟩ | ⟨-, h⟩ | ⟨t, ts, -, ⟨hp, -⟩ | ⟨-, hfound, -⟩ | ⟨hp, -⟩⟩
    · exact ih h
    · exact ih h
    · cases hp
    · cases hfound
    · cases hp

/-- What the **error policy gathers** is gathered under every policy. Where nothing fails one
alternative at most has trees, and so every policy takes that one. -/
theorem follows_gathered (h : List.Forall₂ Follows results' results) (policy : Ambiguity)
    (viable : Bool) {found : List (List PlainTree)} (hfirst : policy = .first → found = []) :
    Follows (gathered policy viable found results') (gathered .error viable found results) := by
  induction h generalizing viable found with
  | nil => exact follows_refl _
  | cons hresult _ ih =>
    rw [gathered, gathered]
    refine hresult.bind fun out => ?_
    rcases out with _ | _ | ⟨t, ts⟩
    · exact ih viable hfirst
    · exact ih true hfirst
    · intro all hall
      cases found with
      | cons us found => cases hall
      | nil =>
        cases policy with
        | first => exact congrArg Except.ok (Prod.ext (gathered_viable hall).symm
            (gathered_error_found hall).symm)
        | error | packed => exact ih true (fun hpolicy => by cases hpolicy) all hall

/-- **Choices** follow. -/
theorem follows_chosen (h : List.Forall₂ Follows results' results) (o : ParseOptions)
    (policy : Ambiguity) (span : Span) :
    Follows (chosen { o with ambiguity := policy } span results')
      (chosen { o with ambiguity := .error } span results) := by
  rw [chosen, chosen]
  refine (follows_gathered h policy false fun _ => rfl).bind fun all => ?_
  split <;> exact follows_refl _

/-! ### The outputs of nodes -/

/-- What a node gives under the error policy it gives **under every policy**. Under the error policy
either nothing is said of a node or there is no choice to be made in it. -/
theorem follows_freshOutput (f : Forest) (o : ParseOptions) (policy : Ambiguity)
    (path : List NodeId) (id : NodeId) :
    Follows (f.freshOutput { o with ambiguity := policy } path id)
      (f.freshOutput { o with ambiguity := .error } path id) := by
  unfold freshOutput
  generalize f.size + 1 - path.length = depth
  induction depth generalizing path id with
  | zero => exact follows_refl _
  | succ depth ih =>
    have hparts : ∀ parts : List NodeId, List.Forall₂ Follows
        (parts.map (f.freshVisit { o with ambiguity := policy } depth (id :: path)))
        (parts.map (f.freshVisit { o with ambiguity := .error } depth (id :: path))) := by
      intro parts
      rw [List.forall₂_map_left_iff, List.forall₂_map_right_iff, List.forall₂_same]
      exact fun part _ => ih (id :: path) part
    rw [freshVisit, freshVisit]
    split
    · exact follows_refl _
    · cases f.node? id with
      | none => exact follows_refl _
      | some node =>
        obtain ⟨kind, span⟩ := node
        dsimp only
        cases kind with
        | symbol | omitted | lexical => exact follows_refl _
        | sequence tag children =>
          cases children with
          | nil => cases tag <;> exact follows_refl _
          | cons child children =>
            rw [freshNode_sequence, freshNode_sequence]
            exact (follows_strung (hparts _)).map _
        | choice tag alternatives => exact (follows_chosen (hparts _) o policy span).map _

theorem forall₂_follows_freshOutput (f : Forest) (o : ParseOptions) (policy : Ambiguity)
    (path ids : List NodeId) : List.Forall₂ Follows
      (ids.map (f.freshOutput { o with ambiguity := policy } path))
      (ids.map (f.freshOutput { o with ambiguity := .error } path)) := by
  rw [List.forall₂_map_left_iff, List.forall₂_map_right_iff, List.forall₂_same]
  exact fun id _ => follows_freshOutput f o policy path id

/-- Outputs are packed **under the packed policy** only. No other policy makes packed trees, however
the forest is shaped. -/
theorem unpacked_freshOutput (ho : o.ambiguity ≠ .packed) {path : List NodeId} {id : NodeId}
    {ts : List PlainTree} (h : f.freshOutput o path id = .ok (some ts)) : ∀ t ∈ ts, t.Unpacked := by
  refine forall_mem_freshOutput (fun _ _ => ParseOptions.unpacked_plainSpanned (.leaf rfl))
    (fun _ _ _ => ParseOptions.unpacked_plainSpanned (.leaf rfl))
    (fun hpacked => absurd hpacked ho) (fun span tag ts hts => ?_) h
  have hlabelled : ∀ t ∈ o.plainLabelled span (some tag) ts, t.Unpacked :=
    ParseOptions.unpacked_plainLabelled hts
  exact hlabelled _ (List.mem_singleton_self _)

/-! ### The tree of a forest -/

theorem follows_freshTree (f : Forest) (o : ParseOptions) (policy : Ambiguity) :
    Follows (f.freshTree { o with ambiguity := policy })
      (f.freshTree { o with ambiguity := .error }) :=
  (follows_chosen (forall₂_follows_freshOutput f o policy [] f.roots) o policy f.wholeSpan).bind
    fun _ => follows_refl _

theorem unpacked_freshTree (ho : o.ambiguity ≠ .packed) {t : PlainTree}
    (h : f.freshTree o = .ok t) : t.Unpacked := by
  obtain ⟨ts, rfl, hunpacked⟩ := exists_plainRoot_of_freshTree
    (fun hpacked => absurd hpacked ho) (unpacked_freshOutput ho) h
  unfold plainRoot
  split
  · exact hunpacked _ (by simp)
  · exact ParseOptions.unpacked_plainSpanned (.branch rfl hunpacked)

/-- **The error policy never hides ambiguity**: the tree that it gives is the tree of every policy,
and no part of it is packed. -/
theorem extract_eq_of_error {t : NumberedTree} {n : Nat}
    (h : f.extract { o with ambiguity := .error } = .ok (t, n)) :
    t.Unpacked ∧ ∀ policy, ∃ u m, f.extract { o with ambiguity := policy } = .ok (u, m) ∧
      u.plain = t.plain := by
  have hfresh : f.freshTree { o with ambiguity := .error } = .ok t.plain := by
    rw [← map_plain_extract, h, map_ok]
  refine ⟨Tree.unpacked_of_plain (unpacked_freshTree (by simp) hfresh), fun policy => ?_⟩
  exact exists_extract (follows_freshTree f o policy _ hfresh)

/-- The forest of a **sum of two**. -/
def sumForest : Forest where
  nodes := #[⟨.symbol "n", ⟨0, 1⟩⟩, ⟨.choice (some "sum") [0], ⟨0, 1⟩⟩, ⟨.symbol "+", ⟨1, 2⟩⟩,
    ⟨.symbol "n", ⟨2, 3⟩⟩, ⟨.choice (some "sum") [3], ⟨2, 3⟩⟩, ⟨.sequence none [1, 2, 4], ⟨0, 3⟩⟩,
    ⟨.choice none [5], ⟨0, 3⟩⟩, ⟨.choice (some "sum") [6], ⟨0, 3⟩⟩]
  roots := [7]
  tokens := 3

open Grammar in
/-- A sum of two has the **same tree under every policy**. -/
theorem extract_eq_of_error_sum : ∃ f t n, parse sums ["n", "+", "n"] = .ok f ∧
    f.extract { ambiguity := .error, collapse := true, spans := false } = .ok (t, n) ∧
      t.Unpacked ∧ ∀ policy, ∃ u m,
        f.extract { ambiguity := policy, collapse := true, spans := false } = .ok (u, m) ∧
          u.plain = t.plain := by
  refine ⟨sumForest,
    .branch { tag := some "sum" } 0 [NumberedTree.taggedValue "sum" "n",
      NumberedTree.value "+", NumberedTree.taggedValue "sum" "n"], 1, by cbv, by cbv, ?_⟩
  exact extract_eq_of_error
    (o := { ambiguity := .error, collapse := true, spans := false }) (by cbv)

end Forest

end GeneralParsing
