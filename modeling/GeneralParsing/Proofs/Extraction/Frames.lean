import GeneralParsing.Extraction.Frames
import GeneralParsing.Proofs.Extraction.Choices

/-!
# Extraction in rounds is extraction

The walk that keeps a stack of frames does what the recursive walk does, in some number of rounds.
Wherever a node is entered, the rounds that follow lead back to the stack on which it was entered,
with the output that the recursion gives there, or they end in the same error (`enter_simulates`).
What is below on the stack plays no other part in this than that its nodes are the path to the
node, so the proof goes by the depth of the recursion, uniformly in the stack.

Therefore the walk comes to an end whatever the forest, and it makes no difference to the tree that
is extracted (`Forest.exists_extractWithin_eq`).
-/

namespace GeneralParsing

namespace Frames

open Extract Forest

variable {f : Forest} {o : ParseOptions} {stack below : List Frame} {w : Walk}

/-! ### Rounds that do what a computation does -/

/-- From a state of the walk, what a computation leads to is **what another one gives**, returned to
a stack: some number of rounds makes up for the difference, whatever happens afterwards. -/
def Simulates (f : Forest) (o : ParseOptions) (below : List Frame) (w : Walk)
    (x : Extract Frames) (y : Extract Output) : Prop :=
  ∃ n, ∀ k, (x >>= run f o (n + k)).run w =
    (y >>= fun output => run f o k ⟨below, some output⟩).run w

variable {x : Extract Frames} {y : Extract Output}

theorem simulates_pure (output : Output) :
    Simulates f o below w (pure ⟨below, some output⟩) (pure output) :=
  ⟨0, fun k => by rw [Nat.zero_add, pure_bind, pure_bind]⟩

theorem run_succ (rounds : Nat) (frame : Frame) (stack : List Frame) (returned : Option Output) :
    run f o (rounds + 1) ⟨frame :: stack, returned⟩ =
      step f o ⟨frame :: stack, returned⟩ >>= run f o rounds := by
  rw [run]
  nofun

/-- Both may begin by **looking at the state**. -/
theorem simulates_get {x : Walk → Extract Frames} {y : Walk → Extract Output}
    (h : Simulates f o below w (x w) (y w)) :
    Simulates f o below w (get >>= x) (get >>= y) := h

/-- It matters only what the computation gives **from the state**. Two programs may be written
differently and do the same there. -/
theorem Simulates.congr {y' : Extract Output} (h : Simulates f o below w x y)
    (hy : y'.run w = y.run w) : Simulates f o below w x y' := by
  obtain ⟨n, hn⟩ := h
  exact ⟨n, fun k => by rw [hn, StateT.run_bind, StateT.run_bind, hy]⟩

/-- A frame that has been pushed **goes on in the next round**. Nothing is returned when a frame is
pushed. -/
theorem simulates_pushed {frame : Frame} (h : Simulates f o below w (goOn f o frame below) y) :
    Simulates f o below w (pure ⟨frame :: below, none⟩) y := by
  obtain ⟨n, hn⟩ := h
  refine ⟨n + 1, fun k => ?_⟩
  rw [pure_bind, Nat.add_right_comm, run_succ, step]
  exact hn k

/-- After the output of a child the frame on top **receives it and goes on**. This is how the stack
stands for the calls that have not returned. -/
theorem Simulates.bind {frame : Frame} {child : Extract Output} {rest : Output → Extract Output}
    (h : Simulates f o (frame :: below) w x child)
    (hrest : ∀ output w', Simulates f o below w'
      (liftM (frame.receive o.ambiguity output) >>= fun frame => goOn f o frame below)
      (rest output)) :
    Simulates f o below w x (child >>= rest) := by
  obtain ⟨n, hn⟩ := h
  cases hchild : child.run w with
  | error e =>
    refine ⟨n, fun k => ?_⟩
    rw [hn, bind_assoc, StateT.run_bind, StateT.run_bind, hchild]
    rfl
  | ok result =>
    obtain ⟨output, w'⟩ := result
    obtain ⟨n', hn'⟩ := hrest output w'
    refine ⟨n + (n' + 1), fun k => ?_⟩
    rw [Nat.add_assoc, hn, bind_assoc, StateT.run_bind, StateT.run_bind, hchild, ok_bind, ok_bind,
      Nat.add_right_comm, run_succ]
    exact hn' k

/-! ### Frames that are finished -/

/-- A frame without children left **is finished**, and its output is returned. -/
theorem simulates_finish {frame : Frame} (hpending : frame.pending = []) :
    Simulates f o below w (goOn f o frame below) (frame.finish o) := by
  refine ⟨0, fun k => ?_⟩
  rw [goOn, hpending]
  simp only [Nat.zero_add, bind_assoc, pure_bind]

/-- The output of a choice is what a frame makes **of the alternatives it has gathered**. With this
a choice is one gathering and one finish, as it is for a frame. -/
theorem choose_eq (visit : NodeId → Extract Output) (frame : Frame) (ids : List NodeId) :
    choose o visit frame.span ids = alternatives o.ambiguity visit false [] ids >>= fun result =>
      ({ frame with gathered := .choice result.1 result.2 } : Frame).together o := by
  rw [choose]
  refine bind_congr fun result => ?_
  obtain ⟨viable, found⟩ := result
  cases viable with
  | false => rfl
  | true => rcases found with _ | ⟨only, _ | ⟨other, found⟩⟩ <;> rfl

/-- A node settles its output as **the frame for it** tags and keeps what it has gathered. Both
compare the cuts with those at the time of entering. -/
theorem run_settle (id : NodeId) (span : Span) (tag : Option String) (trees : Extract Output)
    {frame : Frame} (hnode : frame.node = some id) (hspan : frame.span = span)
    (htag : frame.tag = tag) (hcuts : frame.cuts = w.cuts) :
    (settle o id span tag trees).run w =
      (trees >>= fun output => frame.label o output >>= frame.keep).run w := by
  have hkeep : frame.keep = remember id w.cuts := by
    funext output
    rw [Frame.keep, hnode, ← hcuts]
  rw [hkeep, settle]
  simp only [StateT.run_bind, StateT.run_get, pure_bind]
  refine bind_congr fun result => ?_
  obtain ⟨output, w'⟩ := result
  cases output with
  | none => rfl
  | some trees =>
    rw [Frame.label, hspan, htag]
    rfl

/-! ### Frames that go on -/

/-- Entering a node from a path does **what a visit does**, on every stack with that path. -/
def EntersAs (f : Forest) (o : ParseOptions) (path : List NodeId)
    (gives : NodeId → Extract Output) : Prop :=
  ∀ id stack w, Frames.path stack = path → Simulates f o stack w (enter f o stack id) (gives id)

variable {gives : NodeId → Extract Output} {frame : Frame}

/-- A frame with a child left enters it, **receives its output** and goes on. It is what sequences
and choices have in common. -/
theorem simulates_child {child : NodeId} {pending : List NodeId}
    {rest : Output → Extract Output} (hgives : EntersAs f o (path (frame :: below)) gives)
    (hpending : frame.pending = child :: pending)
    (hrest : ∀ output w', Simulates f o below w'
      (liftM (({ frame with pending } : Frame).receive o.ambiguity output) >>= fun frame =>
        goOn f o frame below)
      (rest output)) :
    Simulates f o below w (goOn f o frame below) (gives child >>= rest) := by
  rw [goOn, hpending]
  exact (hgives child ({ frame with pending } :: below) w rfl).bind hrest

/-- **A sequence goes on** as its children are strung together. -/
theorem simulates_sequence {trees : Array NumberedTree}
    (hgives : EntersAs f o (path (frame :: below)) gives)
    (hgathered : frame.gathered = .sequence (some trees)) :
    Simulates f o below w (goOn f o frame below)
      (inOrder gives trees frame.pending >>= fun output =>
        frame.label o output >>= frame.keep) := by
  obtain ⟨node, tag, span, cuts, pending, gathered⟩ := frame
  obtain rfl : gathered = _ := hgathered
  induction pending generalizing trees w with
  | nil => exact simulates_finish rfl
  | cons child pending ih =>
    rw [inOrder, bind_assoc]
    refine simulates_child hgives rfl fun output w' => ?_
    cases output with
    | none =>
      change Simulates f o below w' (goOn f o ⟨node, tag, span, cuts, [], .sequence none⟩ below) _
      exact simulates_finish rfl
    | some more => exact ih hgives

/-- A choice goes on **as its alternatives are gathered**. The induction is on the alternatives that
are left. -/
theorem simulates_alternatives {viable : Bool} {found : List (List NumberedTree)}
    (hgives : EntersAs f o (path (frame :: below)) gives)
    (hgathered : frame.gathered = .choice viable found) :
    Simulates f o below w (goOn f o frame below)
      (alternatives o.ambiguity gives viable found frame.pending >>= fun result =>
        ({ frame with pending := [], gathered := .choice result.1 result.2 } : Frame).finish
          o) := by
  obtain ⟨node, tag, span, cuts, pending, gathered⟩ := frame
  obtain rfl : gathered = _ := hgathered
  induction pending generalizing viable found w with
  | nil => exact simulates_finish rfl
  | cons child pending ih =>
    rw [alternatives, bind_assoc]
    refine simulates_child hgives rfl fun output w' => ?_
    rcases output with _ | _ | ⟨t, ts⟩
    · exact ih hgives
    · exact ih hgives
    · simp only [Frame.receive, List.isEmpty_cons, Bool.false_eq_true, if_false]
      cases hpolicy : o.ambiguity with
      | first =>
        change Simulates f o below w'
          (goOn f o ⟨node, tag, span, cuts, [], .choice true ((t :: ts) :: found)⟩ below) _
        exact simulates_finish rfl
      | packed =>
        rw [hpolicy] at ih
        exact ih hgives
      | error =>
        rw [hpolicy] at ih
        cases found with
        | nil => exact ih hgives
        | cons one found => exact ⟨0, fun k => rfl⟩

/-- **A choice goes on** to what is chosen, if nothing has been gathered yet. -/
theorem simulates_choice (hgives : EntersAs f o (path (frame :: below)) gives)
    (hgathered : frame.gathered = .choice false []) :
    Simulates f o below w (goOn f o frame below)
      (choose o gives frame.span frame.pending >>= fun output =>
        frame.label o output >>= frame.keep) := by
  rw [choose_eq gives frame, bind_assoc]
  exact simulates_alternatives hgives hgathered

/-- **Entering a node comes to what visiting it gives**, uniformly in the stack: only the path on it
matters, which leaves the depth of the recursion as what the proof goes by. -/
theorem enter_simulates {depth : Nat} (hpath : f.IsPath (path stack))
    (hdepth : f.size < depth + (path stack).length) (id : NodeId) (w : Walk) :
    Simulates f o stack w (enter f o stack id) (visit f o depth (path stack) id) := by
  induction depth generalizing stack id w with
  | zero => exact absurd hpath.length_le (by omega)
  | succ depth ih =>
    rw [enter, visit]
    refine simulates_get ?_
    cases w.known[id]? with
    | some output => exact simulates_pure output
    | none =>
      cases hnot : (path stack).contains id with
      | true => exact ⟨0, fun k => by rw [Nat.zero_add]; rfl⟩
      | false =>
        cases hnode : f.node? id with
        | none => exact ⟨0, fun k => rfl⟩
        | some node =>
          have hid : id < f.size := (Array.getElem?_eq_some_iff.mp hnode).1
          have hlonger : f.IsPath (id :: path stack) := hpath.cons hid (by simpa using hnot)
          have hgives : EntersAs f o (id :: path stack) (visit f o depth (id :: path stack)) := by
            intro id' stack' w' hstack
            rw [← hstack] at hlonger ⊢
            refine ih hlonger ?_ id' w'
            rw [hstack, List.length_cons]
            omega
          obtain ⟨kind, span⟩ := node
          cases kind with
          | symbol | omitted | lexical => exact simulates_pure _
          | sequence tag children =>
            cases children with
            | nil => cases tag <;> exact simulates_pure _
            | cons child children =>
              -- the definitions split by tag here, to tell apart the sequences without children
              cases tag <;>
                exact (simulates_pushed (simulates_sequence hgives rfl)).congr
                  (run_settle id span _ _ rfl rfl rfl rfl)
          | choice tag ids =>
            refine (simulates_pushed (simulates_choice hgives rfl)).congr ?_
            exact run_settle id span tag _ rfl rfl rfl rfl

/-- The frame for the roots neither tags **nor keeps** an output. -/
theorem label_keep_roots (f : Forest) (output : Output) :
    ((roots f).label o output >>= (roots f).keep) = pure output := by
  cases output <;> rfl

/-- An empty stack **ends the walk**, with what has been returned. -/
theorem run_of_returned (rounds : Nat) (output : Output) :
    run f o rounds ⟨[], some output⟩ = pure output := by
  rw [run]
  rfl

/-- **The walk comes to an end**, whatever the forest: with enough rounds the stack is empty, and
what is returned is the choice among the roots, if there is no error. -/
theorem exists_run_start (f : Forest) (o : ParseOptions) (w : Walk) :
    ∃ n, ∀ rounds, n ≤ rounds → (run f o rounds (start f)).run w =
      (choose o (visit f o (f.size + 1) []) f.wholeSpan f.roots).run w := by
  have hgives : EntersAs f o (path [roots f]) (visit f o (f.size + 1) []) := by
    intro id stack w' hstack
    have hnil : path stack = [] := hstack
    rw [← hnil]
    exact enter_simulates (hnil ▸ isPath_nil f) (by rw [hnil]; exact Nat.lt_succ_self _) id w'
  have hroots := simulates_choice (w := w) hgives rfl
  simp only [label_keep_roots, bind_pure] at hroots
  obtain ⟨n, hn⟩ := simulates_pushed hroots
  refine ⟨n, fun rounds hle => ?_⟩
  obtain ⟨k, rfl⟩ := Nat.exists_eq_add_of_le hle
  have hrun := hn k
  simp only [pure_bind, run_of_returned, bind_pure] at hrun
  exact hrun

end Frames

namespace Forest

/-- **Extraction in rounds extracts the same tree**, or fails alike, with enough rounds. What number
of rounds is enough depends on the forest and the options; a greater one makes no difference. -/
theorem exists_extractWithin_eq (f : Forest) (o : ParseOptions) :
    ∃ n, ∀ rounds, n ≤ rounds → f.extractWithin o rounds = f.extract o := by
  obtain ⟨n, hn⟩ := Frames.exists_run_start f o {}
  refine ⟨n, fun rounds hle => ?_⟩
  have hsame : (f.extractTreeWithin o rounds).run {} = (f.extractTree o).run {} := by
    rw [extractTreeWithin, extractTree, StateT.run_bind, StateT.run_bind, hn rounds hle]
  exact congrArg (Except.map fun result => (result.1, result.2.next)) hsame

end Forest

end GeneralParsing
