import GeneralParsing.Proofs.Grammar.Additions

/-!
# Definitions in sessions

In a finished grammar a slot and the body it was defined by hold the same expression, whatever else
was built or defined before and after, and whether the body was there at the time or not
(`Grammar.BuiltWith.exists_expr?`).

`recs` does nothing that its caller could not do by calls of `declare` and `define`, so a session
comes down to calls (`Builder.Session.calls`), and what is defined by `recs` is defined by a call
among them (`Builder.Session.exists_define_of_recs`). A call leaves all slots linked, and only
`define` makes a link (`Builder.Calls.linkedBy`).
-/

namespace GeneralParsing

namespace Builder

/-! ### Sessions come down to calls -/

/-- **Calls** one after another, as in a session without calls of `recs`. -/
inductive Calls [PatternReader] : List ExprId → Builder → List ExprId → Builder → Prop
  | nil (ids : List ExprId) (b : Builder) : Calls ids b ids b
  | call {ids ids' : List ExprId} {b b' : Builder} (h : Calls ids b ids' b') (c : Call)
      (hargs : c.args ⊆ ids') : Calls ids b (ids' ++ c.handed b') (c.after b')

section

variable {ids ids' ids'' slots : List ExprId} {b b' b'' b₁ b₂ : Builder} {slot body : ExprId}

theorem Calls.session [PatternReader] (h : Calls ids b ids' b') : Session ids b ids' b' := by
  induction h with
  | nil => exact .nil _ _
  | call _ c hargs ih => exact ih.call c hargs

theorem Calls.trans [PatternReader] (h : Calls ids b ids' b') (h' : Calls ids' b' ids'' b'') :
    Calls ids b ids'' b'' := by
  induction h' with
  | nil => exact h
  | call _ c hargs ih => exact (ih h).call c hargs

/-- A definition is a call that **hands out nothing**. -/
theorem calls_define [PatternReader] (b : Builder) (hslot : slot ∈ ids) (hbody : body ∈ ids) :
    Calls ids b ids ((define slot body).run.run b).2 := by
  have hcall := (Calls.nil ids b).call (.define slot body) (by simp [Call.args, hslot, hbody])
  rw [Call.handed, Call.after, Call.run, run_bind] at hcall
  generalize (define slot body).run.run b = outcome at hcall ⊢
  rcases outcome with ⟨e | u, b'⟩
  all_goals
    change Calls ids b (ids ++ []) b' at hcall
    rwa [List.append_nil] at hcall

/-- The first of several slots **is the next one**. -/
theorem declareMany_succ_inv {n : Nat}
    (hrun : (declareMany (n + 1)).run.run b = (.ok slots, b')) :
    ∃ slots', slots = b.slots.size :: slots' ∧
      (declareMany n).run.run { b with slots := b.slots.push none } = (.ok slots', b') := by
  have hmore : (declareMany (n + 1)).run.run b =
      (declareMany n >>= fun slots => pure (b.slots.size :: slots)).run.run
        { b with slots := b.slots.push none } := by
    rw [declareMany, run_bind]
    rfl
  rw [hmore, run_bind] at hrun
  rcases hrest : (declareMany n).run.run { b with slots := b.slots.push none } with
    ⟨e | slots', b₁⟩
  · rw [hrest] at hrun
    cases hrun
  · rw [hrest] at hrun
    cases hrun
    exact ⟨slots', rfl, rfl⟩

theorem calls_declareMany [PatternReader] {n : Nat}
    (hrun : (declareMany n).run.run b = (.ok slots, b')) :
    Calls ids b (ids ++ slots) b' := by
  induction n generalizing ids b slots with
  | zero =>
    cases hrun
    simpa using Calls.nil ids _
  | succ n ih =>
    have hdeclare : Calls ids b (ids ++ [b.slots.size]) { b with slots := b.slots.push none } :=
      (Calls.nil ids b).call .declare (by simp [Call.args])
    obtain ⟨slots', rfl, hrest⟩ := declareMany_succ_inv hrun
    simpa using hdeclare.trans (ih hrest)

/-- **Definitions** one after another, until one fails. -/
def definitions (links : List (ExprId × ExprId)) : Build Unit :=
  links.forM fun (slot, body) => define slot body

theorem definitions_cons (link : ExprId × ExprId) (links : List (ExprId × ExprId)) (b : Builder) :
    (definitions (link :: links)).run.run b = match (define link.1 link.2).run.run b with
      | (.ok _, b') => (definitions links).run.run b'
      | (.error e, b') => (.error e, b') := by
  change (define link.1 link.2 >>= fun _ => definitions links).run.run b = _
  rw [run_bind]
  rcases (define link.1 link.2).run.run b with ⟨e | u, b'⟩ <;> rfl

/-- A single definition is **a call**. -/
theorem definitions_singleton [PatternReader] (slot body : ExprId) (b : Builder) :
    ((definitions [(slot, body)]).run.run b).2 = (Call.define slot body).after b := by
  rw [definitions_cons, Call.after, Call.run, run_bind]
  rcases (define slot body).run.run b with ⟨e | u, b'⟩ <;> rfl

theorem calls_definitions [PatternReader] {links : List (ExprId × ExprId)} (b : Builder)
    (hlinks : ∀ link ∈ links, link.1 ∈ ids ∧ link.2 ∈ ids) :
    Calls ids b ids ((definitions links).run.run b).2 := by
  induction links generalizing b with
  | nil => exact .nil ids b
  | cons link links ih =>
    obtain ⟨⟨hslot, hbody⟩, hlinks⟩ := List.forall_mem_cons.mp hlinks
    have hdefine := calls_define b hslot hbody
    rw [definitions_cons]
    rcases hrun : (define link.1 link.2).run.run b with ⟨e | u, b'⟩ <;> rw [hrun] at hdefine
    · exact hdefine
    · exact hdefine.trans (ih b' hlinks)

/-- Each of definitions that succeed **is made** at some time. Others may come before and after it.
-/
theorem exists_define_of_definitions [PatternReader] {links : List (ExprId × ExprId)}
    (hlinks : ∀ link ∈ links, link.1 ∈ ids ∧ link.2 ∈ ids)
    (hok : ((definitions links).run.run b).1 = .ok ()) (hlink : (slot, body) ∈ links) :
    ∃ b', Calls ids b ids b' ∧ ((define slot body).run.run b').1 = .ok () ∧
      Calls ids ((define slot body).run.run b').2 ids ((definitions links).run.run b).2 := by
  induction links generalizing b with
  | nil => cases hlink
  | cons link links ih =>
    obtain ⟨⟨hslot, hbody⟩, hothers⟩ := List.forall_mem_cons.mp hlinks
    have hdefine := calls_define b hslot hbody
    rw [definitions_cons] at hok ⊢
    rcases hrun : (define link.1 link.2).run.run b with ⟨e | u, b₁⟩
    · rw [hrun] at hok
      cases hok
    · rw [hrun] at hok hdefine
      rcases List.mem_cons.mp hlink with rfl | hlink
      · exact ⟨b, .nil ids b, by rw [hrun], by rw [hrun]; exact calls_definitions b₁ hothers⟩
      · obtain ⟨b', hcalls, hrest⟩ := ih hothers hok hlink
        exact ⟨b', hdefine.trans hcalls, hrest⟩

/-- `recs` builds its bodies **with the slots declared**, and defines them. The bodies may be
computed in any way, with calls of their own. -/
theorem recs_run {n : Nat} {bodies : List ExprId → Build (List ExprId)}
    (hslots : (declareMany n).run.run b = (.ok slots, b₁)) :
    (recs n bodies).run.run b = (bodies slots >>= fun out => do
      defineAll slots out
      return slots).run.run b₁ := by
  rw [recs, run_bind, hslots]

theorem recs_run_ok {n : Nat} {bodies : List ExprId → Build (List ExprId)} {out : List ExprId}
    (hslots : (declareMany n).run.run b = (.ok slots, b₁))
    (hbodies : (bodies slots).run.run b₁ = (.ok out, b₂)) :
    ((recs n bodies).run.run b).2 = ((defineAll slots out).run.run b₂).2 := by
  rw [recs_run hslots, run_bind, hbodies]
  simp only [run_bind]
  rcases (defineAll slots out).run.run b₂ with ⟨e | u, b₃⟩ <;> rfl

/-- The slots and bodies of `recs` **have been handed out** when they are linked. -/
theorem zip_given [PatternReader] {out : List ExprId} (hinner : Session (ids' ++ slots) b₁ ids'' b₂)
    (hgiven : out ⊆ ids'') : ∀ link ∈ slots.zip out, link.1 ∈ ids'' ∧ link.2 ∈ ids'' := by
  intro link hlink
  obtain ⟨hslot, hbody⟩ := List.of_mem_zip hlink
  exact ⟨hinner.subset (List.mem_append_right _ hslot), hgiven hbody⟩

/-- **A session comes down to calls.** A failing call changes nothing, and `recs` is some
declarations and definitions around its bodies. -/
theorem Session.calls [PatternReader] (h : Session ids b ids' b') : Calls ids b ids' b' := by
  induction h with
  | nil => exact .nil _ _
  | call _ c hargs ih => exact ih.call c hargs
  | @recs ids ids' ids'' slots b b' b₁ b₂ result _ n bodies hslots hinner hbodies hgiven ih
      ihinner =>
    have hbefore := ih.trans ((calls_declareMany hslots).trans ihinner)
    cases result with
    | error e =>
      rw [recs_run hslots, run_bind, hbodies]
      exact hbefore
    | ok out =>
      rw [recs_run_ok hslots hbodies]
      exact hbefore.trans (calls_definitions b₂ (zip_given hinner (hgiven out rfl)))

/-- What `recs` defines **is defined by a call** in a session that comes to the same. So a theorem
about calls is one about everything that the builder offers. -/
theorem Session.exists_define_of_recs [PatternReader] {n : Nat}
    {bodies : List ExprId → Build (List ExprId)}
    {out : List ExprId} (h : Session ids b ids' b')
    (hslots : (declareMany n).run.run b' = (.ok slots, b₁))
    (hinner : Session (ids' ++ slots) b₁ ids'' b₂)
    (hbodies : (bodies slots).run.run b₁ = (.ok out, b₂)) (hgiven : out ⊆ ids'')
    (hok : ((defineAll slots out).run.run b₂).1 = .ok ()) (hlink : (slot, body) ∈ slots.zip out) :
    ∃ b₃, Session ids b ids'' b₃ ∧ slot ∈ ids'' ∧ body ∈ ids'' ∧
      ((define slot body).run.run b₃).1 = .ok () ∧
      Session ids'' ((define slot body).run.run b₃).2 ids''
        ((Builder.recs n bodies).run.run b').2 := by
  have hzip := zip_given hinner hgiven
  obtain ⟨hslot, hbody⟩ := hzip _ hlink
  obtain ⟨b₃, hcalls, hdefine, hrest⟩ := exists_define_of_definitions hzip hok hlink
  rw [recs_run_ok hslots hbodies]
  exact ⟨b₃, (h.calls.trans ((calls_declareMany hslots).trans (hinner.calls.trans hcalls))).session,
    hslot, hbody, hdefine, hrest.session⟩

end

/-! ### Calls keep slots linked -/

/-- The slots of a builder **are linked**, wherever their expressions have come from. -/
def LinkedBy (b : Builder) (links : List (ExprId × ExprId)) : Prop :=
  Linked (fun _ => False) links b.slots b.aliases

/-- Only `define` **makes a link**. -/
theorem LinkedBy.call [PatternReader] {b : Builder} {links : List (ExprId × ExprId)}
    (h : LinkedBy b links)
    (c : Call) (hc : ∀ slot body, c ≠ .define slot body) : LinkedBy (c.after b) links := by
  by_cases hdeclare : c = .declare
  · subst hdeclare
    exact Linked.push_none h fun _ _ => id
  · exact onlyAdds_call c hdeclare hc (LinkedBy · links) (fun _ _ _ h => Linked.push_some h id) b h

section

variable {ids ids' : List ExprId} {b b' : Builder} {slot body : ExprId}
variable {links : List (ExprId × ExprId)}

/-- A definition that succeeds **makes its link**. The slot is empty before, and from now on it has
what its body has. -/
theorem LinkedBy.define {u : Unit} (h : LinkedBy b links) (hbody : body < b.slots.size)
    (hrun : (Builder.define slot body).run.run b = (.ok u, b')) :
    LinkedBy b' ((slot, body) :: links) := by
  obtain ⟨hslot, hnew, rfl⟩ := define_inv hrun
  exact h.withDefinition hslot hnew hbody

/-- Calls keep slots linked, **with more and more links**. Links are never lost, whatever is called
later. -/
theorem Calls.linkedBy [PatternReader] (h : Calls ids b ids' b') (hb : b.InRange)
    (hids : ∀ id ∈ ids, id < b.slots.size) (hlinks : LinkedBy b links) :
    ∃ links', links ⊆ links' ∧ LinkedBy b' links' := by
  induction h with
  | nil => exact ⟨links, List.Subset.refl links, hlinks⟩
  | @call ids' b b' h c hargs ih =>
    obtain ⟨links', hsubset, hlinks'⟩ := ih hb hids hlinks
    obtain ⟨-, -, hids'⟩ := h.session.inRange hb hids
    by_cases hc : ∃ slot body, c = .define slot body
    · obtain ⟨slot, body, rfl⟩ := hc
      have hbody : body < b'.slots.size := hids' body (hargs (by simp [Call.args]))
      rw [Call.after, Call.run, run_bind]
      rcases hrun : (Builder.define slot body).run.run b' with ⟨e | u, b''⟩
      · exact ⟨links', hsubset, define_failed hrun ▸ hlinks'⟩
      · exact ⟨(slot, body) :: links', List.subset_cons_of_subset _ hsubset,
          hlinks'.define hbody hrun⟩
    · exact ⟨links', hsubset, hlinks'.call c fun slot body heq => hc ⟨slot, body, heq⟩⟩

end

end Builder

namespace Grammar

variable {g : Grammar} {slot body : ExprId}

/-- A grammar is **built with a definition** when it comes out of a session that has, at some time,
defined the slot by the body. -/
def BuiltWith [PatternReader] (g : Grammar) (slot body : ExprId) : Prop :=
  ∃ ids b ids' b', Builder.Session [] {} ids b ∧ slot ∈ ids ∧ body ∈ ids ∧
    ((Builder.define slot body).run.run b).1 = .ok () ∧
    Builder.Session ids ((Builder.define slot body).run.run b).2 ids' b' ∧ g.start ∈ ids' ∧
    b'.finish g.start = .ok g

theorem BuiltWith.built [PatternReader] (hg : g.BuiltWith slot body) : g.Built := by
  obtain ⟨ids, b, ids', b', hbefore, hslot, hbody, -, hafter, hstart, hfinish⟩ := hg
  exact ⟨ids', b', (hbefore.trans (Builder.calls_define b hslot hbody).session).trans hafter,
    hstart, hfinish⟩

/-- A slot holds **the same expression as its body**. It may have been copied at once or when
everything was settled. -/
theorem BuiltWith.exists_expr? [PatternReader] (hg : g.BuiltWith slot body) :
    ∃ e, g.expr? slot = some e ∧ g.expr? body = some e := by
  obtain ⟨ids, b, ids', b', hbefore, hslot, hbody, hok, hafter, -, hfinish⟩ := hg
  have hempty : ({} : Builder).InRange := fun id e he => by simp at he
  have hnone : ∀ id ∈ ([] : List ExprId), id < ({} : Builder).slots.size := by simp
  have hlinked : Builder.LinkedBy {} [] :=
    ⟨List.nodup_nil, by simp, by simp, by simp, by simp, by simp⟩
  obtain ⟨hrange, -, hids⟩ := hbefore.inRange hempty hnone
  obtain ⟨links, -, hlinks⟩ := hbefore.calls.linkedBy hempty hnone hlinked
  have hdefine := (Builder.calls_define b hslot hbody).session
  obtain ⟨hrange', -, hids'⟩ := hdefine.inRange hrange hids
  rcases hrun : (Builder.define slot body).run.run b with ⟨e | u, b₁⟩
  · rw [hrun] at hok
    cases hok
  · rw [hrun] at hafter hrange' hids'
    obtain ⟨links', hsubset, hlinks'⟩ :=
      hafter.calls.linkedBy hrange' hids' (hlinks.define (hids body hbody) hrun)
    obtain ⟨-, -, -, hmet, -⟩ := hlinks'.finish hfinish
    exact hmet (slot, body) (hsubset List.mem_cons_self)

end Grammar

end GeneralParsing
