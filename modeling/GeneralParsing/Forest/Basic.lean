import GeneralParsing.Span

/-!
# Parse forests

A **forest** holds every derivation of an input at once. Its nodes are results: a matched symbol, a
sequence of results, a choice among results for one span, something omitted, or something taken
as one text. Nodes refer to each other by number, and several nodes may refer to one. Choices can
lead back to themselves when an expression derives itself over the same span.
-/

namespace GeneralParsing

/-- The **number** of a node in its forest. -/
abbrev NodeId := Nat

namespace Forest

/-- What a node **stands for**. -/
inductive Kind where
  /-- A symbol of the input. -/
  | symbol (text : String)
  /-- Results in order. -/
  | sequence (tag : Option String) (children : List NodeId)
  /-- Several results for one span, in the order in which they were found. -/
  | choice (tag : Option String) (alternatives : List NodeId)
  /-- A result that leaves no trace. -/
  | omitted
  /-- A result that is taken as one text. -/
  | lexical (child : NodeId)
  deriving Repr, DecidableEq

/-- A **node**: what it stands for, and the stretch of input it covers. -/
structure Node where
  /-- What the node stands for. -/
  kind : Kind
  /-- The stretch of input that it covers. -/
  span : Span
  deriving Repr, DecidableEq

end Forest

/-- A **forest** of derivations. -/
structure Forest where
  /-- The nodes, each known by its number. -/
  nodes : Array Forest.Node
  /-- The results for the whole input. -/
  roots : List NodeId
  /-- The number of symbols of the input. -/
  tokens : Nat
  deriving Repr

namespace Forest

/-- The number of nodes. -/
def size (f : Forest) : Nat := f.nodes.size

/-- The node with a number, if there is one. -/
def node? (f : Forest) (id : NodeId) : Option Node := f.nodes[id]?

/-- The span of the **whole input**. -/
def wholeSpan (f : Forest) : Span := ⟨0, f.tokens⟩

/-! ### The text of a node -/

/-- Appends the **text under a node** to a text, going at most `depth` nodes deep. Of a choice the
first alternative is taken, and what is omitted adds nothing. -/
def appendText (f : Forest) : Nat → String → NodeId → String
  | 0, text, _ => text
  | depth + 1, text, id =>
    match (f.node? id).map Node.kind with
    | some (.symbol symbol) => text ++ symbol
    | some (.sequence _ children) => children.foldl (appendText f depth) text
    | some (.choice _ (first :: _)) => appendText f depth text first
    | some (.lexical child) => appendText f depth text child
    | _ => text

/-- The **text under a node**. Children and first alternatives are older than the node that holds
them, so no path is longer than the node's number. -/
def text (f : Forest) (id : NodeId) : String := f.appendText (id + 1) "" id

end Forest

end GeneralParsing
