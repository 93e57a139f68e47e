/-!
# How to shape a forest into a tree

A forest may hold many derivations. The **policy** says what becomes of alternatives, and two
switches concern the form of the tree.
-/

namespace GeneralParsing

/-- What becomes of **several derivations** of one span. -/
inductive Ambiguity where
  /-- The first that has output is taken. -/
  | first
  /-- It is an error that there are several with output. -/
  | error
  /-- All of them are kept under a packed tree. -/
  | packed
  deriving Repr, DecidableEq

/-- How to **shape a tree**. -/
structure ParseOptions where
  /-- What becomes of several derivations of one span. -/
  ambiguity : Ambiguity := .first
  /-- Whether a tagged node whose only child is an untagged value becomes a tagged value. -/
  collapse : Bool := true
  /-- Whether trees carry the span they cover. -/
  spans : Bool := false
  deriving Repr, DecidableEq

end GeneralParsing
