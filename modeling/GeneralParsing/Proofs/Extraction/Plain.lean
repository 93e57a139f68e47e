import GeneralParsing.Error
import GeneralParsing.Forest.Basic
import GeneralParsing.Proofs.Extraction.PlainShape

/-!
# Outputs computed afresh

`Forest.freshOutput` is the output of a node with nothing remembered: the node is visited again
wherever it is met, a node on the path to itself is cut, and sequences and choices are shaped by
the same rules as in the walk. It is a plain recursion over paths, so it can be reasoned about with
neither a memory nor numbers.

`chosen` is what a choice makes of the outputs of its alternatives. Under the packed policy its
readings are those of the alternatives that have trees (`readingsAll_chosen_packed`), and under the
first policy it is the first output with trees.
-/

namespace GeneralParsing

namespace Forest

/-- The **output** of a node as plain trees, or nothing when there is no derivation but through
itself. -/
abbrev PlainOutput := Option (List PlainTree)

/-! ### Sequences and choices -/

/-- Strings outputs together, **stopping at the first** that is missing. -/
def strung : List (Except Error PlainOutput) → Except Error PlainOutput
  | [] => .ok (some [])
  | result :: rest => do
    match ← result with
    | none => .ok none
    | some ts =>
      match ← strung rest with
      | none => .ok none
      | some us => .ok (some (ts ++ us))

/-- Gathers what **alternatives** give, the latest first, together with whether any of them has an
output. -/
def gathered (policy : Ambiguity) (viable : Bool) (found : List (List PlainTree)) :
    List (Except Error PlainOutput) → Except Error (Bool × List (List PlainTree))
  | [] => .ok (viable, found)
  | result :: rest => do
    match ← result with
    | none => gathered policy viable found rest
    | some [] => gathered policy true found rest
    | some (t :: ts) =>
      match policy with
      | .first => .ok (true, (t :: ts) :: found)
      | .error =>
        if found.isEmpty then gathered policy true [t :: ts] rest else .error .ambiguous
      | .packed => gathered policy true ((t :: ts) :: found) rest

/-- What a **choice** makes of the outputs of its alternatives. -/
def chosen (o : ParseOptions) (span : Span) (results : List (Except Error PlainOutput)) :
    Except Error PlainOutput := do
  match ← gathered o.ambiguity false [] results with
  | (false, _) => .ok none
  | (true, []) => .ok (some [])
  | (true, [only]) => .ok (some only)
  | (true, found) => .ok (some [o.plainPack span found.reverse])

/-! ### Nodes -/

/-- The output of a node, by its kind, **from the outputs of other nodes**. -/
def freshNode (f : Forest) (o : ParseOptions) (visit : NodeId → Except Error PlainOutput)
    (span : Span) : Kind → Except Error PlainOutput
  | .symbol text => .ok (some [o.plainSpanned span (PlainTree.value text)])
  | .omitted => .ok (some [])
  | .lexical child => .ok (some [o.plainSpanned span (PlainTree.value (f.text child))])
  | .sequence none [] => .ok (some [])
  | .sequence (some tag) [] => .ok (some [o.plainSpanned span (PlainTree.taggedValue tag "")])
  | .sequence tag children =>
    (strung (children.map visit)).map (Option.map (o.plainLabelled span tag))
  | .choice tag alternatives =>
    (chosen o span (alternatives.map visit)).map (Option.map (o.plainLabelled span tag))

/-- The output of a node that is **reached by a path**, computed afresh. -/
def freshVisit (f : Forest) (o : ParseOptions) : Nat → List NodeId → NodeId →
    Except Error PlainOutput
  | 0, _, _ => .error (.broken .outOfSteps)
  | depth + 1, path, id =>
    if path.contains id then .ok none
    else
      match f.node? id with
      | none => .error (.broken (.noNode id))
      | some ⟨kind, span⟩ => f.freshNode o (freshVisit f o depth (id :: path)) span kind

/-- The output of a node on a path, with **as much depth** as distinct nodes can ask for. -/
def freshOutput (f : Forest) (o : ParseOptions) (path : List NodeId) (id : NodeId) :
    Except Error PlainOutput :=
  f.freshVisit o (f.size + 1 - path.length) path id

/-- The trees of a forest **as one tree**, in a group unless there is just one. -/
def plainRoot (f : Forest) (o : ParseOptions) : List PlainTree → PlainTree
  | [only] => only
  | ts => o.plainSpanned f.wholeSpan (PlainTree.group ts)

/-- The **tree of a forest**, computed afresh. -/
def freshTree (f : Forest) (o : ParseOptions) : Except Error PlainTree := do
  let output ← chosen o f.wholeSpan (f.roots.map (f.freshOutput o []))
  return f.plainRoot o (output.getD [])

variable {f : Forest} {o : ParseOptions} {path : List NodeId} {id : NodeId}

theorem plainRoot_of_not_spans (ho : o.spans = false) (ts : List PlainTree) :
    f.plainRoot o ts = PlainTree.single ts := by
  match ts with
  | [t] => rfl
  | [] | t :: u :: ts => exact ParseOptions.plainSpanned_of_not_spans ho _

theorem plainRoot_of_length_ne {ts : List PlainTree} (h : ts.length ≠ 1) :
    f.plainRoot o ts = o.plainSpanned f.wholeSpan (PlainTree.group ts) := by
  match ts with
  | [] => rfl
  | [t] => simp at h
  | t :: u :: ts => rfl

theorem freshNode_sequence (visit : NodeId → Except Error PlainOutput) (span : Span)
    (tag : Option String) (child : NodeId) (children : List NodeId) :
    f.freshNode o visit span (.sequence tag (child :: children)) =
      (strung ((child :: children).map visit)).map (Option.map (o.plainLabelled span tag)) := by
  cases tag <;> rfl

/-- The output of a node on a path that **does not lead through it**. -/
theorem freshOutput_of_not_mem {kind : Kind} {span : Span} (hlen : path.length ≤ f.size)
    (hpath : id ∉ path) (hnode : f.node? id = some ⟨kind, span⟩) :
    f.freshOutput o path id = f.freshNode o (f.freshOutput o (id :: path)) span kind := by
  have hdepth : f.size + 1 - path.length = f.size - path.length + 1 := by omega
  have hnext : f.freshOutput o (id :: path) =
    f.freshVisit o (f.size - path.length) (id :: path) := by
    funext child
    rw [freshOutput, List.length_cons, Nat.add_sub_add_right]
  rw [hnext, freshOutput, hdepth, freshVisit, if_neg (by simpa using hpath), hnode]

/-- On a path through itself a node has **no output**. -/
theorem freshOutput_of_mem (hlen : path.length ≤ f.size) (hpath : id ∈ path) :
    f.freshOutput o path id = .ok none := by
  have hdepth : f.size + 1 - path.length = f.size - path.length + 1 := by omega
  rw [freshOutput, hdepth, freshVisit, if_pos (by simpa using hpath)]

theorem freshOutput_of_no_node (hlen : path.length ≤ f.size) (hpath : id ∉ path)
    (hnode : f.node? id = none) : f.freshOutput o path id = .error (.broken (.noNode id)) := by
  have hdepth : f.size + 1 - path.length = f.size - path.length + 1 := by omega
  rw [freshOutput, hdepth, freshVisit, if_neg (by simpa using hpath), hnode]

end Forest

end GeneralParsing
