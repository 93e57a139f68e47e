import GeneralParsing.Extraction.Walk

/-!
# Extraction in rounds

`Forest.extract` walks a forest by recursion. The same walk can do with a stack of its own: there is
a **frame** on it for each node that has been entered and not been left, the latest on top, and one
for the roots at the bottom. A frame keeps what the children it has received have given, and which
children are still to be walked.

In a round (`Frames.step`) the frame on top receives what the latest child has given, if something
has been returned. Then it enters its next child, or it is finished if there is none left, and what
it gives is returned to the frame below. The walk ends when the stack is empty, and nothing but that
ends it: the number of rounds in `Frames.run` is as large as one likes.
-/

namespace GeneralParsing

open Extract (Output shape remember)

/-- What a frame has **gathered** from the children it has received. -/
inductive Gathered where
  /-- The trees of a sequence so far, or nothing once a part of it had no output. -/
  | sequence (trees : Option (Array NumberedTree))
  /-- Whether some alternative of a choice had an output, and the outputs with trees, the latest
  first. -/
  | choice (viable : Bool) (found : List (List NumberedTree))

/-- A node that has been **entered and not left**. -/
structure Frame where
  /-- The node, or nothing for the roots. -/
  node : Option NodeId
  /-- The tag for what is gathered. -/
  tag : Option String
  /-- The stretch of the input that the node covers. -/
  span : Span
  /-- How often a derivation had been cut when the node was entered. -/
  cuts : Nat
  /-- The children that are still to be walked. -/
  pending : List NodeId
  /-- What the children before them have given. -/
  gathered : Gathered

/-- The **stack of frames**, the latest on top, and what has just been returned to it. -/
structure Frames where
  stack : List Frame
  returned : Option Output

namespace Frame

/-- Takes the output of **the child that was walked last**. Nothing more is walked after a part of a
sequence that has no output, nor after the first alternative with trees where the first is taken. -/
def receive (policy : Ambiguity) (frame : Frame) : Output → Except Error Frame
  | none =>
    match frame.gathered with
    | .sequence _ => return { frame with pending := [], gathered := .sequence none }
    | .choice .. => return frame
  | some trees =>
    match frame.gathered with
    | .sequence before => return { frame with gathered := .sequence (before.map (· ++ trees)) }
    | .choice _ found =>
      if trees.isEmpty then return { frame with gathered := .choice true found }
      else
        match policy with
        | .first => return { frame with pending := [], gathered := .choice true (trees :: found) }
        | .error =>
          if found.isEmpty then return { frame with gathered := .choice true [trees] }
          else throw .ambiguous
        | .packed => return { frame with gathered := .choice true (trees :: found) }

/-- What has been gathered **as one output**: several derivations are packed. -/
def together (o : ParseOptions) (frame : Frame) : Extract Output :=
  match frame.gathered with
  | .sequence trees => return trees.map Array.toList
  | .choice false _ => return none
  | .choice true [] => return some []
  | .choice true [only] => return some only
  | .choice true found => return some [← shape (o.pack frame.span found.reverse)]

/-- Puts **the tag of the frame** on an output. -/
def label (o : ParseOptions) (frame : Frame) : Output → Extract Output
  | none => return none
  | some trees => some <$> shape (o.labelled frame.span frame.tag trees)

/-- Remembers the output **for the node of the frame**, unless there were cuts since it was
entered. -/
def keep (frame : Frame) (output : Output) : Extract Output :=
  match frame.node with
  | none => return output
  | some id => remember id frame.cuts output

/-- **Finishes** a frame: what it has gathered is tagged and kept. -/
def finish (o : ParseOptions) (frame : Frame) : Extract Output := do
  frame.keep (← frame.label o (← frame.together o))

end Frame

namespace Frames

/-- The nodes that **the frames are for**, the latest first. -/
def path (stack : List Frame) : List NodeId := stack.filterMap Frame.node

/-- **Enters a node** from the frames on the stack. Its output is there right away if it is known,
if it is cut because there is a frame for the node, or if it has no children. Otherwise it gets a
frame. -/
def enter (f : Forest) (o : ParseOptions) (stack : List Frame) (id : NodeId) :
    Extract Frames := do
  let w ← get
  match w.known[id]? with
  | some output => return ⟨stack, some output⟩
  | none =>
    if (path stack).contains id then
      set { w with cuts := w.cuts + 1 }
      return ⟨stack, some none⟩
    else
      match f.node? id with
      | none => throw (.broken (.noNode id))
      | some ⟨kind, span⟩ =>
        match kind with
        | .symbol text => return ⟨stack, some (some [o.spanned span (NumberedTree.value text)])⟩
        | .omitted => return ⟨stack, some (some [])⟩
        | .lexical child =>
          return ⟨stack, some (some [o.spanned span (NumberedTree.value (f.text child))])⟩
        | .sequence none [] => return ⟨stack, some (some [])⟩
        | .sequence (some tag) [] =>
          return ⟨stack, some (some [o.spanned span (NumberedTree.taggedValue tag "")])⟩
        | .sequence tag children =>
          return ⟨⟨some id, tag, span, w.cuts, children, .sequence (some #[])⟩ :: stack, none⟩
        | .choice tag alternatives =>
          return ⟨⟨some id, tag, span, w.cuts, alternatives, .choice false []⟩ :: stack, none⟩

/-- **Goes on** with the frame on top: with its next child, or to its end. -/
def goOn (f : Forest) (o : ParseOptions) (frame : Frame) (below : List Frame) :
    Extract Frames :=
  match frame.pending with
  | [] => return ⟨below, some (← frame.finish o)⟩
  | child :: pending => enter f o ({ frame with pending } :: below) child

/-- **One round**: the frame on top receives what has been returned, and goes on. -/
def step (f : Forest) (o : ParseOptions) : Frames → Extract Frames
  | ⟨[], returned⟩ => return ⟨[], returned⟩
  | ⟨frame :: below, none⟩ => goOn f o frame below
  | ⟨frame :: below, some output⟩ => do
    goOn f o (← frame.receive o.ambiguity output) below

/-- **Runs** until the stack is empty, in so many rounds at most. -/
def run (f : Forest) (o : ParseOptions) : Nat → Frames → Extract Output
  | _, ⟨[], returned⟩ => return returned.join
  | 0, ⟨_ :: _, _⟩ => throw (.broken .outOfSteps)
  | rounds + 1, frames => do run f o rounds (← step f o frames)

/-- The frame **for the roots**, which are alternatives and no node. -/
def roots (f : Forest) : Frame where
  node := none
  tag := none
  span := f.wholeSpan
  cuts := 0
  pending := f.roots
  gathered := .choice false []

/-- Where the walk **begins**: with the roots, and nothing returned. -/
def start (f : Forest) : Frames where
  stack := [roots f]
  returned := none

end Frames

namespace Forest

/-- The walk over a whole forest, **in so many rounds** at most. -/
def extractTreeWithin (f : Forest) (o : ParseOptions) (rounds : Nat) : Extract NumberedTree := do
  let output ← Frames.run f o rounds (Frames.start f)
  f.rootTree o (output.getD [])

/-- **Extracts** a tree in so many rounds at most, and the number of the next new family. -/
def extractWithin (f : Forest) (o : ParseOptions) (rounds : Nat) :
    Except Error (NumberedTree × Nat) :=
  ((f.extractTreeWithin o rounds).run {}).map fun (t, w) => (t, w.next)

end Forest

end GeneralParsing
