import Mathlib

/-!
# Arrays that grow

Builders and the machine keep what they have in arrays, to which they push. An array that has grown
holds what it held, in the same places (`getElem?_push_of_some`), and besides that only what was
pushed (`getElem?_push_eq_some`). Where a place is written, the array holds what was written there,
and elsewhere what it held (`getElem?_setIfInBounds_eq_some`).
-/

namespace GeneralParsing

variable {α : Type} {xs : Array α} {i j : Nat} {a b : α}

theorem getElem?_push_of_some (h : xs[i]? = some a) : (xs.push b)[i]? = some a := by
  have hlt := (Array.getElem?_eq_some_iff.mp h).1
  rw [Array.getElem?_push, if_neg (Nat.ne_of_lt hlt), h]

theorem getElem?_push_eq_some (h : (xs.push b)[i]? = some a) :
    (i = xs.size ∧ b = a) ∨ xs[i]? = some a := by
  rw [Array.getElem?_push] at h
  split at h
  · exact .inl ⟨‹_›, Option.some.inj h⟩
  · exact .inr h

theorem getElem?_setIfInBounds_eq_some (h : (xs.setIfInBounds i b)[j]? = some a) :
    (i = j ∧ b = a) ∨ xs[j]? = some a := by
  rw [Array.getElem?_setIfInBounds] at h
  split at h
  · split at h
    · exact .inl ⟨‹_›, Option.some.inj h⟩
    · cases h
  · exact .inr h

end GeneralParsing
