import GeneralParsing.Proofs.Derivation.Basic

/-!
# What the root tells

The expression at its root says **what a valid derivation looks like**: there is one lemma for each
kind of expression.
-/

namespace GeneralParsing

namespace Derivation

variable {g : Grammar} {d : Derivation} {id child : ExprId} {tag : Option String}
variable {children : List ExprId}

theorem Valid.exists_expr (hd : d.Valid g) : ∃ e, g.expr? d.root = some e := by
  cases hd with
  | symbol he | sequence he | repetition he | choice he | omitted he | lexical he => exact ⟨_, he⟩

theorem Valid.of_token (hd : d.Valid g) (hroot : d.root = id) {text : String}
    (he : g.expr? id = some (.token text)) : d = .symbol id text := by
  subst hroot
  cases hd with
  | symbol he' ha =>
    cases he.symm.trans he'
    have htext := eq_of_beq ha
    rw [root, htext]
  | sequence he' | repetition he' | choice he' | omitted he' | lexical he' =>
      cases he.symm.trans he'

theorem Valid.of_pattern (hd : d.Valid g) (hroot : d.root = id) {p : Pattern}
    (he : g.expr? id = some (.pattern p)) :
    ∃ text, d = .symbol id text ∧ p.accepts text = true := by
  subst hroot
  cases hd with
  | symbol he' ha =>
    cases he.symm.trans he'
    exact ⟨_, rfl, ha⟩
  | sequence he' | repetition he' | choice he' | omitted he' | lexical he' =>
      cases he.symm.trans he'

theorem Valid.of_seq (hd : d.Valid g) (hroot : d.root = id)
    (he : g.expr? id = some (.seq tag children)) :
    ∃ parts, d = .sequence id parts ∧ parts.map root = children ∧ ∀ x ∈ parts, x.Valid g := by
  subst hroot
  cases hd with
  | symbol he' ha =>
    cases he.symm.trans he'
    cases ha
  | sequence he' hparts =>
    cases he.symm.trans he'
    exact ⟨_, rfl, rfl, hparts⟩
  | repetition he' | choice he' | omitted he' | lexical he' => cases he.symm.trans he'

theorem Valid.of_alt (hd : d.Valid g) (hroot : d.root = id)
    (he : g.expr? id = some (.alt tag children)) :
    ∃ part, d = .choice id part ∧ part.root ∈ children ∧ part.Valid g := by
  subst hroot
  cases hd with
  | symbol he' ha =>
    cases he.symm.trans he'
    cases ha
  | choice he' hc hpart =>
    cases he.symm.trans he'
    exact ⟨_, rfl, hc, hpart⟩
  | sequence he' | repetition he' | omitted he' | lexical he' => cases he.symm.trans he'

theorem Valid.of_rep (hd : d.Valid g) (hroot : d.root = id) {min : Nat} {max : Option Nat}
    (he : g.expr? id = some (.rep tag child min max)) :
    ∃ parts, d = .sequence id parts ∧ (∀ x ∈ parts, x.root = child) ∧ min ≤ parts.length ∧
      (∀ m, max = some m → parts.length ≤ m) ∧ ∀ x ∈ parts, x.Valid g := by
  subst hroot
  cases hd with
  | symbol he' ha =>
    cases he.symm.trans he'
    cases ha
  | repetition he' hroot hmin hmax hparts =>
    cases he.symm.trans he'
    exact ⟨_, rfl, hroot, hmin, hmax, hparts⟩
  | sequence he' | choice he' | omitted he' | lexical he' => cases he.symm.trans he'

theorem Valid.of_omitted (hd : d.Valid g) (hroot : d.root = id)
    (he : g.expr? id = some (.omitted child)) :
    ∃ part, d = .omitted id part ∧ part.root = child ∧ part.Valid g := by
  subst hroot
  cases hd with
  | symbol he' ha =>
    cases he.symm.trans he'
    cases ha
  | omitted he' hpart =>
    cases he.symm.trans he'
    exact ⟨_, rfl, rfl, hpart⟩
  | sequence he' | repetition he' | choice he' | lexical he' => cases he.symm.trans he'

theorem Valid.of_lexical (hd : d.Valid g) (hroot : d.root = id)
    (he : g.expr? id = some (.lexical child)) :
    ∃ part, d = .lexical id part ∧ part.root = child ∧ part.Valid g := by
  subst hroot
  cases hd with
  | symbol he' ha =>
    cases he.symm.trans he'
    cases ha
  | lexical he' hpart =>
    cases he.symm.trans he'
    exact ⟨_, rfl, rfl, hpart⟩
  | sequence he' | repetition he' | choice he' | omitted he' => cases he.symm.trans he'

end Derivation

end GeneralParsing
