import GeneralParsing.Tree.Build
import Mathlib

/-!
# Computations that number families

A `Numbering` computation is read through two functions of the next free number: its `result`, and
the number that is free `after` it. Each of the monad's operations has its equation for both, so
that no later proof opens the state.
-/

namespace GeneralParsing

namespace Numbering

variable {α β γ : Type}

/-- What a computation **yields** when `n` is the next free number. -/
def result (x : Numbering α) (n : Nat) : α := (x.run n).1

/-- The number that is **free afterwards**. -/
def after (x : Numbering α) (n : Nat) : Nat := (x.run n).2

@[simp] theorem result_pure (a : α) (n : Nat) : result (pure a) n = a := rfl

@[simp] theorem after_pure (a : α) (n : Nat) : after (pure a : Numbering α) n = n := rfl

@[simp] theorem result_bind (x : Numbering α) (f : α → Numbering β) (n : Nat) :
    result (x >>= f) n = result (f (x.result n)) (x.after n) := rfl

@[simp] theorem after_bind (x : Numbering α) (f : α → Numbering β) (n : Nat) :
    after (x >>= f) n = after (f (x.result n)) (x.after n) := rfl

@[simp] theorem result_map (f : α → β) (x : Numbering α) (n : Nat) :
    result (f <$> x) n = f (x.result n) := rfl

@[simp] theorem after_map (f : α → β) (x : Numbering α) (n : Nat) :
    after (f <$> x) n = x.after n := rfl

@[simp] theorem result_newFamily (n : Nat) : result newFamily n = n := rfl

@[simp] theorem after_newFamily (n : Nat) : after newFamily n = n + 1 := rfl

@[simp] theorem result_inner (label : Label) (ts : List NumberedTree) (n : Nat) :
    result (NumberedTree.inner label ts) n = .branch label n ts := rfl

@[simp] theorem after_inner (label : Label) (ts : List NumberedTree) (n : Nat) :
    after (NumberedTree.inner label ts) n = n + 1 := rfl

/-- What is computed along a list with numbers is computed **element by element** once the numbers
are forgotten. -/
theorem map_result_mapM {f : α → Numbering β} {forget : β → γ} {g : α → γ} {as : List α}
    (h : ∀ a ∈ as, ∀ n, forget ((f a).result n) = g a) (n : Nat) :
    ((as.mapM f).result n).map forget = as.map g := by
  induction as generalizing n with
  | nil => rfl
  | cons a as ih =>
    simp only [List.mapM_cons, result_bind, result_pure, List.map_cons]
    rw [h a (by simp), ih fun b hb => h b (by simp [hb])]

end Numbering

end GeneralParsing
