import GeneralParsing.Proofs.Derivation.Basic
import Mathlib

/-!
# Derivations inside derivations

A derivation is **acyclic** when no expression is derived properly inside a derivation of itself
over the same symbols. It is **unstalled** when no repetition in it goes on after an empty
iteration that came after the least number.

Not every derivation is unstalled, but behind every derivation there is an unstalled one of the
same symbols (`Valid.exists_unstalled`): empty iterations that are not needed for the least number
can be left out.
-/

namespace GeneralParsing

namespace Derivation

/-- One derivation **properly inside** another. -/
inductive Inside : Derivation → Derivation → Prop
  | part {x d : Derivation} (h : x ∈ d.parts) : Inside x d
  | deeper {x y d : Derivation} (hy : y ∈ d.parts) (h : Inside x y) : Inside x d

/-- One derivation **within** another: inside it, or the same. -/
def Within (x d : Derivation) : Prop := x = d ∨ Inside x d

/-- No expression is derived inside itself **over the same symbols**. What is inside a derivation
derives a piece of its symbols, so it derives the same symbols only if it derives all of them. -/
def Acyclic (d : Derivation) : Prop :=
  ∀ x y, Within x d → Inside y x → y.root = x.root → y.yield ≠ x.yield

/-- Iterations of which no empty one **with this number or a later** is followed by another. -/
def Steady (min : Nat) (parts : List Derivation) : Prop :=
  ∀ before x y after, parts = before ++ x :: y :: after → x.yield = [] → before.length + 1 < min

/-- No repetition **goes on** after an empty iteration that came after the least number. -/
def Unstalled (g : Grammar) (d : Derivation) : Prop :=
  ∀ x, Within x d → ∀ tag child min max, g.expr? x.root = some (.rep tag child min max) →
    Steady min x.parts

variable {g : Grammar} {d x y : Derivation}

theorem within_refl (d : Derivation) : Within d d := .inl rfl

/-- What is within a part **is within the whole**. -/
theorem Within.of_mem_parts (h : Within x y) (hy : y ∈ d.parts) : Within x d := by
  rcases h with rfl | h
  · exact .inr (.part hy)
  · exact .inr (.deeper hy h)

/-- What is inside a derivation is **within one of its parts**. Proofs about what is inside go down
one level at a time by this. -/
theorem inside_iff : Inside x d ↔ ∃ y ∈ d.parts, Within x y := by
  constructor
  · intro h
    cases h with
    | part h => exact ⟨x, h, within_refl x⟩
    | deeper hy h => exact ⟨_, hy, .inr h⟩
  · rintro ⟨y, hy, rfl | h⟩
    · exact .part hy
    · exact .deeper hy h

/-- What is inside of what is inside **is inside**. -/
theorem Inside.trans (h : Inside y d) (hx : Inside x y) : Inside x d := by
  induction h with
  | part hy => exact .deeper hy hx
  | deeper hy _ ih => exact .deeper hy ih

/-- A part of what is within a derivation **is within it**. -/
theorem Within.part (h : Within y d) (hx : x ∈ y.parts) : Within x d := by
  rcases h with rfl | h
  · exact .inr (.part hx)
  · exact .inr (h.trans (.part hx))

/-- Whatever is within a derivation of the grammar **is one itself**. -/
theorem Valid.of_within (hd : d.Valid g) (h : Within x d) : x.Valid g := by
  rcases h with rfl | h
  · exact hd
  · induction h with
    | part hx => exact hd.of_mem_parts hx
    | deeper hy _ ih => exact ih (hd.of_mem_parts hy)

/-- What is inside a derivation is **a part of something** within it. So one may go up from it to
the whole as well. -/
theorem Inside.exists_parent (h : Inside x d) : ∃ y, Within y d ∧ x ∈ y.parts := by
  induction h with
  | part hx => exact ⟨_, within_refl _, hx⟩
  | deeper hy _ ih =>
    obtain ⟨z, hz, hx⟩ := ih
    exact ⟨z, hz.of_mem_parts hy, hx⟩

/-- Induction over a derivation with a hypothesis for **everything inside**. A property of a
derivation may then depend on all that is below. -/
theorem induct_inside {motive : Derivation → Prop}
    (step : ∀ d, (∀ x, Inside x d → motive x) → motive d) (d : Derivation) : motive d := by
  have hwithin : ∀ d x, Within x d → motive x := by
    intro d
    induction d using induct_parts with
    | step d ih =>
      have hinside : ∀ x, Inside x d → motive x := by
        intro x hx
        obtain ⟨y, hy, hxy⟩ := inside_iff.mp hx
        exact ih y hy x hxy
      rintro x (rfl | hx)
      · exact step x hinside
      · exact hinside x hx
  exact hwithin d d (within_refl d)

section

variable {part : Derivation} {parts : List Derivation} {id : ExprId} {text : String}

theorem not_inside_symbol : ¬ Inside x (symbol id text) := by simp [inside_iff, Derivation.parts]

/-- Inside a sequence is what is **within one of its parts**. -/
theorem inside_sequence : Inside x (sequence id parts) ↔ ∃ y ∈ parts, Within x y := by
  simp [inside_iff, Derivation.parts]

/-- Inside a choice is what is **within its alternative**. -/
theorem inside_choice : Inside x (choice id part) ↔ Within x part := by
  simp [inside_iff, Derivation.parts]

/-- Inside an omission is what is **within what is omitted**. -/
theorem inside_omitted : Inside x (omitted id part) ↔ Within x part := by
  simp [inside_iff, Derivation.parts]

end

/-- A derivation is acyclic if **its parts** are and it does not come to its own expression again
over all its symbols. -/
theorem acyclic_of_parts (hparts : ∀ x ∈ d.parts, Acyclic x)
    (hself : ∀ x, Inside x d → x.root = d.root → x.yield ≠ d.yield) : Acyclic d := by
  rintro x y (rfl | hx) hy
  · exact hself y hy
  · obtain ⟨z, hz, hx⟩ := inside_iff.mp hx
    exact hparts z hz x y hx hy

theorem acyclic_symbol (id : ExprId) (text : String) : Acyclic (symbol id text) :=
  acyclic_of_parts (by simp [parts]) fun _ h => absurd h not_inside_symbol

/-- Parts of an acyclic derivation **are acyclic**. -/
theorem Acyclic.of_mem_parts (h : Acyclic d) (hx : x ∈ d.parts) : Acyclic x :=
  fun y z hy => h y z (hy.of_mem_parts hx)

/-- Parts of an unstalled derivation **are unstalled**. -/
theorem Unstalled.of_mem_parts (h : Unstalled g d) (hx : x ∈ d.parts) : Unstalled g x :=
  fun y hy => h y (hy.of_mem_parts hx)

/-- A derivation is unstalled if **its parts** are and it does not go on itself. To go on itself
would be to go on after an empty iteration. -/
theorem unstalled_of_parts (hparts : ∀ x ∈ d.parts, Unstalled g x)
    (hself : ∀ tag child min max, g.expr? d.root = some (.rep tag child min max) →
      Steady min d.parts) : Unstalled g d := by
  rintro x (rfl | h)
  · exact hself
  · obtain ⟨y, hy, h⟩ := inside_iff.mp h
    exact hparts y hy x h

/-! ### Leaving out empty iterations -/

/-- Of iterations those that **are not empty**, or one if they all are. -/
def needed (rest : List Derivation) : List Derivation :=
  let solid := rest.filter fun d => !d.yield.isEmpty
  if solid.isEmpty then rest.take 1 else solid

/-- The iterations before the least number, and of the others those that are **needed**. -/
def thinned (min : Nat) (parts : List Derivation) : List Derivation :=
  parts.take (min - 1) ++ needed (parts.drop (min - 1))

section

variable {rest parts : List Derivation} {min : Nat}

/-- Leaving out iterations **keeps their order**. -/
theorem needed_sublist (rest : List Derivation) : (needed rest).Sublist rest := by
  unfold needed
  dsimp only
  split
  · exact List.take_sublist 1 rest
  · exact List.filter_sublist

/-- Of some iterations **one at least is needed**. If all of them are empty, that is the last. -/
theorem length_needed_pos (h : rest ≠ []) : 0 < (needed rest).length := by
  unfold needed
  dsimp only
  split
  · have hpos := List.length_pos_iff.mpr h
    rw [List.length_take]
    omega
  · next hsolid => exact List.length_pos_iff.mpr (by simpa using hsolid)

theorem flatMap_yield_filter (rest : List Derivation) :
    (rest.filter fun d => !d.yield.isEmpty).flatMap yield = rest.flatMap yield := by
  induction rest with
  | nil => rfl
  | cons d rest ih =>
    cases hd : d.yield with
    | nil => simp [hd, ih]
    | cons a w => simp [hd, ih]

/-- Leaving out empty iterations **loses no symbol**. -/
theorem yield_needed (rest : List Derivation) :
    (needed rest).flatMap yield = rest.flatMap yield := by
  unfold needed
  dsimp only
  split
  · next hsolid =>
    have hempty : ∀ d ∈ rest, d.yield = [] := by simpa using hsolid
    rw [List.flatMap_eq_nil_iff.mpr hempty,
      List.flatMap_eq_nil_iff.mpr fun d hd => hempty d (List.mem_of_mem_take hd)]
  · exact flatMap_yield_filter rest

/-- No empty iteration among those needed **has a neighbour**. An empty one is kept only where it is
all there is. -/
theorem not_needed_of_empty {before after : List Derivation}
    (h : needed rest = before ++ x :: y :: after) : x.yield ≠ [] := by
  unfold needed at h
  dsimp only at h
  split at h
  · have hone := congrArg List.length h
    simp only [List.length_take, List.length_append, List.length_cons] at hone
    omega
  · have hmem : x ∈ rest.filter fun d => !d.yield.isEmpty := by simp [h]
    intro hx
    simp [hx] at hmem

/-- Thinning out iterations **keeps their order**. -/
theorem thinned_sublist (min : Nat) (parts : List Derivation) :
    (thinned min parts).Sublist parts := by
  have hsub := (List.Sublist.refl (parts.take (min - 1))).append
    (needed_sublist (parts.drop (min - 1)))
  rwa [List.take_append_drop] at hsub

/-- Thinning out **leaves as many iterations** as there must be. The first ones are kept whatever
they are, up to the least number. -/
theorem le_length_thinned (h : min ≤ parts.length) : min ≤ (thinned min parts).length := by
  rcases Nat.eq_zero_or_pos min with rfl | hpos
  · exact Nat.zero_le _
  have hne : parts.drop (min - 1) ≠ [] := by
    rw [← List.length_pos_iff, List.length_drop]
    omega
  have hpos' := length_needed_pos hne
  rw [thinned, List.length_append, List.length_take]
  omega

/-- Thinning out iterations **loses no symbol**. -/
theorem yield_thinned (min : Nat) (parts : List Derivation) :
    (thinned min parts).flatMap yield = parts.flatMap yield := by
  rw [thinned, List.flatMap_append, yield_needed, ← List.flatMap_append, List.take_append_drop]

/-- What is left **goes on after no empty iteration** but those before the least number. This is how
a machine iterates: it does not go on after an empty iteration if it has enough. -/
theorem steady_thinned (h : min ≤ parts.length) : Steady min (thinned min parts) := by
  intro before x y after heq hx
  by_contra hmin
  have hlen : (parts.take (min - 1)).length = min - 1 := by
    rw [List.length_take]
    omega
  -- so the empty iteration is one of those needed
  obtain ⟨more, rfl, hmore⟩ : ∃ more, before = parts.take (min - 1) ++ more ∧
      needed (parts.drop (min - 1)) = more ++ x :: y :: after := by
    rcases List.append_eq_append_iff.mp heq with ⟨more, hbefore, hneeded⟩ | ⟨more, htake, hneeded⟩
    · exact ⟨more, hbefore, hneeded⟩
    · have hnil : more = [] := by
        have hlens := congrArg List.length htake
        rw [List.length_append] at hlens
        exact List.eq_nil_of_length_eq_zero (by omega)
      subst hnil
      exact ⟨[], by simpa using htake.symm, by simpa using hneeded.symm⟩
  exact not_needed_of_empty hmore hx

end

/-- Behind every derivation there is **an unstalled one** of the same symbols. Only empty iterations
are left out, at every level. -/
theorem Valid.exists_unstalled (hd : d.Valid g) :
    ∃ d' : Derivation, d'.Valid g ∧ d'.Unstalled g ∧ d'.root = d.root ∧ d'.yield = d.yield := by
  induction hd with
  | @symbol id e text he ha =>
    refine ⟨.symbol id text, .symbol he ha, unstalled_of_parts (by simp [parts]) ?_, rfl, rfl⟩
    intro tag child min max he'
    cases (Option.some.inj (he.symm.trans he') : e = _)
    cases ha
  | @sequence id tag ds he _ ih =>
    -- every part is replaced, and the roots and yields stay
    choose! pruned hvalid hunstalled hroot hyield using ih
    have hroots : (ds.map pruned).map root = ds.map root := by
      rw [List.map_map]
      exact List.map_congr_left hroot
    refine ⟨.sequence id (ds.map pruned), .sequence (hroots ▸ he) ?_,
      unstalled_of_parts ?_ ?_, rfl, ?_⟩
    · exact List.forall_mem_map.mpr hvalid
    · exact List.forall_mem_map.mpr hunstalled
    · intro tag' child min max he'
      cases he.symm.trans he'
    · rw [yield_sequence, yield_sequence, List.flatMap_map]
      exact List.flatMap_congr hyield
  | @repetition id tag child min max ds he hchild hmin hmax _ ih =>
    choose! pruned hvalid hunstalled hroot hyield using ih
    -- here iterations are left out as well, after the parts have been replaced
    have hsub := (thinned_sublist min (ds.map pruned)).subset
    refine ⟨.sequence id (thinned min (ds.map pruned)), .repetition he ?_ ?_ ?_ ?_,
      unstalled_of_parts ?_ ?_, rfl, ?_⟩
    · intro d' hd'
      obtain ⟨d, hd, rfl⟩ := List.mem_map.mp (hsub hd')
      rw [hroot d hd, hchild d hd]
    · exact le_length_thinned (by simpa using hmin)
    · intro m hm
      have hle := (thinned_sublist min (ds.map pruned)).length_le
      rw [List.length_map] at hle
      exact Nat.le_trans hle (hmax m hm)
    · exact fun d hd => List.forall_mem_map.mpr hvalid d (hsub hd)
    · exact fun d hd => List.forall_mem_map.mpr hunstalled d (hsub hd)
    · intro tag' child' min' max' he'
      cases he.symm.trans he'
      exact steady_thinned (by simpa using hmin)
    · rw [yield_sequence, yield_sequence, yield_thinned, List.flatMap_map]
      exact List.flatMap_congr hyield
  | @choice id tag children part he hc _ ih =>
    obtain ⟨d', hvalid, hunstalled, hroot, hyield⟩ := ih
    refine ⟨.choice id d', .choice he (hroot ▸ hc) hvalid, unstalled_of_parts ?_ ?_, rfl, hyield⟩
    · simpa [parts] using hunstalled
    · intro tag' child min max he'
      cases he.symm.trans he'
  | @omitted id part he _ ih =>
    obtain ⟨d', hvalid, hunstalled, hroot, hyield⟩ := ih
    refine ⟨.omitted id d', .omitted (hroot ▸ he) hvalid, unstalled_of_parts ?_ ?_, rfl, hyield⟩
    · simpa [parts] using hunstalled
    · intro tag' child min max he'
      cases he.symm.trans he'
  | @lexical id part he _ ih =>
    obtain ⟨d', hvalid, hunstalled, hroot, hyield⟩ := ih
    refine ⟨.lexical id d', .lexical (hroot ▸ he) hvalid, unstalled_of_parts ?_ ?_, rfl, hyield⟩
    · simpa [parts] using hunstalled
    · intro tag' child min max he'
      cases he.symm.trans he'

/-- The parts of a derivation derive **what its expression refers to**. -/
theorem Valid.root_mem_children (hd : d.Valid g) (hx : x ∈ d.parts) :
    ∃ e, g.expr? d.root = some e ∧ x.root ∈ e.children := by
  cases hd with
  | symbol => simp [parts] at hx
  | sequence he _ => exact ⟨_, he, List.mem_map_of_mem hx⟩
  | repetition he hchild => exact ⟨_, he, by simp [Expr.children, hchild x hx]⟩
  | choice he hc =>
    obtain rfl : x = _ := by simpa [parts] using hx
    exact ⟨_, he, hc⟩
  | omitted he | lexical he =>
    obtain rfl : x = _ := by simpa [parts] using hx
    exact ⟨_, he, by simp [Expr.children]⟩

end Derivation

open GeneralParsing.Derivation

/-- **No expression derives itself** over the same symbols. -/
def Grammar.Acyclic (g : Grammar) : Prop := ∀ d : Derivation, d.Valid g → d.Acyclic

/-- Where expressions refer only to **earlier ones** none derives itself. A derivation of itself
would refer to ever earlier ones. -/
theorem Grammar.acyclic_of_lt {g : Grammar}
    (h : ∀ id (hid : id < g.exprs.size), ∀ child ∈ g.exprs[id].children, child < id) :
    g.Acyclic := by
  have hchild : ∀ {id e child}, g.expr? id = some e → child ∈ e.children → child < id := by
    intro id e child he hc
    obtain ⟨hid, rfl⟩ := Array.getElem?_eq_some_iff.mp he
    exact h id hid child hc
  have hlt : ∀ {d x : Derivation}, d.Valid g → Inside x d → x.root < d.root := by
    intro d x hd hx
    induction hx with
    | part hx =>
      obtain ⟨e, he, hc⟩ := hd.root_mem_children hx
      exact hchild he hc
    | deeper hy _ ih =>
      obtain ⟨e, he, hc⟩ := hd.root_mem_children hy
      exact Nat.lt_trans (ih (hd.of_mem_parts hy)) (hchild he hc)
  have hvalid : ∀ {d x : Derivation}, d.Valid g → Inside x d → x.Valid g := by
    intro d x hd hx
    induction hx with
    | part hx => exact hd.of_mem_parts hx
    | deeper hy _ ih => exact ih (hd.of_mem_parts hy)
  rintro d hd x y (rfl | hx) hy hroot
  · exact absurd hroot (Nat.ne_of_lt (hlt hd hy))
  · exact absurd hroot (Nat.ne_of_lt (hlt (hvalid hd hx) hy))

end GeneralParsing
