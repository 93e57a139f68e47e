import GeneralParsing.Proofs.Derivation.Shape
import Mathlib

/-!
# Derivations that are alike

Two derivations are **alike** when they differ only where nothing can be seen of it: in what is
omitted and in what is inside a text, and there neither in the symbols nor in the text. Derivations
that are alike have the same output (`Alike.output_eq`), so where all derivations of some symbols
are alike there is only one tree.
-/

namespace GeneralParsing

namespace Derivation

mutual

/-- Derivations that are **alike**. -/
inductive Alike : Derivation → Derivation → Prop
  /-- The same symbol. -/
  | symbol (id : ExprId) (text : String) : Alike (.symbol id text) (.symbol id text)
  /-- Parts that are alike. -/
  | sequence {id : ExprId} {ds ds' : List Derivation} (h : AlikeAll ds ds') :
      Alike (.sequence id ds) (.sequence id ds')
  /-- Alternatives that are alike. -/
  | choice {id : ExprId} {d d' : Derivation} (h : Alike d d') : Alike (.choice id d) (.choice id d')
  /-- Whatever leaves no trace, over the same symbols. -/
  | omitted {id : ExprId} {d d' : Derivation} (h : d.yield = d'.yield) :
      Alike (.omitted id d) (.omitted id d')
  /-- The same text, over the same symbols. -/
  | lexical {id : ExprId} {d d' : Derivation} (h : d.yield = d'.yield) (htext : d.text = d'.text) :
      Alike (.lexical id d) (.lexical id d')

/-- Derivations that are alike **in order**. -/
inductive AlikeAll : List Derivation → List Derivation → Prop
  | nil : AlikeAll [] []
  | cons {d d' : Derivation} {ds ds' : List Derivation} (h : Alike d d') (hs : AlikeAll ds ds') :
      AlikeAll (d :: ds) (d' :: ds')

end

variable {g : Grammar} {collapse : Bool} {d d' : Derivation} {ds ds' : List Derivation}

theorem Alike.root_eq (h : Alike d d') : d.root = d'.root := by
  cases h <;> rfl

theorem AlikeAll.map_root_eq : ∀ {ds ds' : List Derivation}, AlikeAll ds ds' →
    ds.map root = ds'.map root
  | _, _, .nil => rfl
  | _, _, .cons h hs => by rw [List.map_cons, List.map_cons, h.root_eq, hs.map_root_eq]

mutual

theorem Alike.yield_eq : ∀ {d d' : Derivation}, Alike d d' → d.yield = d'.yield
  | _, _, .symbol _ _ => rfl
  | _, _, .sequence h => h.yieldAll_eq
  | _, _, .choice h => h.yield_eq
  | _, _, .omitted h => h
  | _, _, .lexical h _ => h

theorem AlikeAll.yieldAll_eq : ∀ {ds ds' : List Derivation}, AlikeAll ds ds' →
    yieldAll ds = yieldAll ds'
  | _, _, .nil => rfl
  | _, _, .cons h hs => by rw [yieldAll, yieldAll, h.yield_eq, hs.yieldAll_eq]

end

mutual

/-- What is alike has **the same text**. What is omitted may differ, and that is in no text. -/
theorem Alike.text_eq : ∀ {d d' : Derivation}, Alike d d' → d.text = d'.text
  | _, _, .symbol _ _ => rfl
  | _, _, .sequence h => h.textAll_eq
  | _, _, .choice h => h.text_eq
  | _, _, .omitted _ => rfl
  | _, _, .lexical _ htext => htext

theorem AlikeAll.textAll_eq : ∀ {ds ds' : List Derivation}, AlikeAll ds ds' →
    textAll ds = textAll ds'
  | _, _, .nil => rfl
  | _, _, .cons h hs => by rw [textAll, textAll, h.text_eq, hs.textAll_eq]

end

mutual

/-- **What is alike has the same output.** So whoever looks at outputs need not tell derivations
apart any further. -/
theorem Alike.output_eq : ∀ {d d' : Derivation}, Alike d d' →
    d.output g collapse = d'.output g collapse
  | _, _, .symbol _ _ => rfl
  | _, _, .sequence .nil => rfl
  | _, _, .sequence (.cons h hs) => by
    rw [output, output, outputAll, outputAll, h.output_eq, hs.outputAll_eq]
  | _, _, .choice h => by rw [output, output, h.output_eq]
  | _, _, .omitted _ => rfl
  | _, _, .lexical _ htext => by rw [output, output, htext]

theorem AlikeAll.outputAll_eq : ∀ {ds ds' : List Derivation}, AlikeAll ds ds' →
    outputAll g collapse ds = outputAll g collapse ds'
  | _, _, .nil => rfl
  | _, _, .cons h hs => by rw [outputAll, outputAll, h.output_eq, hs.outputAll_eq]

end

theorem Alike.shape_eq (h : Alike d d') : d.shape g collapse = d'.shape g collapse := by
  rw [shape, shape, h.output_eq]

end Derivation

end GeneralParsing
