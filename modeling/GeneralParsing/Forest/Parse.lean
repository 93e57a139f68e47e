import GeneralParsing.Forest.Machine

/-!
# Parsing an input

`Forest.parse g tokens` runs the machine over a list of symbols and yields the forest of all
derivations of the whole list by the start expression. An input is rejected at the first symbol
that no terminal waits for, or at its end when it ends too early.
-/

namespace GeneralParsing

/-- Why there is **no forest**. -/
inductive Stop where
  /-- The input does not match: no derivation goes on at this symbol, or the input ends here. -/
  | rejected (position : Nat)
  /-- The grammar has a fault. -/
  | broken (fault : Fault)
  deriving Repr, DecidableEq

/-- The **wording** of a stop. -/
def Stop.message : Stop → String
  | rejected position => s!"no parse: input rejected at token {position}"
  | broken fault => fault.message

namespace Machine

/-- The machine **at the beginning** of an input. -/
def initial (g : Grammar) : Machine := { tasks := [.derive .accept g.start] }

/-- Runs the machine at the current position **with a symbol** in sight. -/
def look (g : Grammar) (totalWidth maxSteps : Nat) (m : Machine) (symbol : Option String) :
    Except Stop Machine :=
  let m := { m with lookahead := symbol }
  (run g (stepBound g.size totalWidth maxSteps m) m).mapError .broken

/-- **Reads** the symbols one after another, and the end of the input. -/
def readAll (g : Grammar) (totalWidth maxSteps : Nat) : Machine → List String →
    Except Stop Machine
  | m, [] => m.look g totalWidth maxSteps none
  | m, symbol :: rest => do
    let m ← m.look g totalWidth maxSteps (some symbol)
    if m.matched.isEmpty then throw (.rejected m.position)
    readAll g totalWidth maxSteps (← m.advance.mapError .broken) rest

end Machine

namespace Forest

/-- **Parses** a list of symbols. -/
def parse (g : Grammar) (tokens : List String) : Except Stop Forest := do
  let m ← Machine.readAll g g.totalWidth g.maxSteps (Machine.initial g) tokens
  if m.roots.isEmpty then throw (.rejected m.position)
  return ⟨m.nodes, m.roots, m.position⟩

/-- The characters of a text, **each as a symbol**. -/
def characters (text : List Char) : List String := text.map String.singleton

end Forest

end GeneralParsing
