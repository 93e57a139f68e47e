/-!
# Spans

A **span** is a stretch of the input, from the symbol at `start` up to the symbol at `stop`, which
is not part of it.
-/

namespace GeneralParsing

/-- A half-open **range of input symbols**. -/
structure Span where
  /-- The first symbol. -/
  start : Nat
  /-- The symbol after the last. -/
  stop : Nat
  deriving Repr, DecidableEq

/-- Whether no symbol lies in the span. -/
def Span.isEmpty (s : Span) : Bool := s.start == s.stop

end GeneralParsing
