import GeneralParsing.Proofs.Grammar.Settling

/-!
# Sessions with a builder

A **session** is a sequence of calls of the builder's operations in which every index that is given
to a call has been handed out before by the same builder. Calls may fail, and what they had added
stays. A call of `recs` hands out its slots to a computation of its caller's, which is a session
in its own right.

In a session no index is ever handed out that has no slot, and no expression ever refers to one
(`Session.inRange`). So a grammar that comes out of a session is closed (`Grammar.Built.closed`).
-/

namespace GeneralParsing

namespace Builder

/-! ### Calls and sessions -/

/-- A **call** of an operation, with what is given to it. -/
inductive Call where
  | token (text : String)
  | pattern (source : String)
  | seq (children : List ExprId) (tag : Option String)
  | alt (children : List ExprId) (tag : Option String)
  | rep (child : ExprId) (tag : Option String) (min : Nat) (max : Option Nat)
  | omitted (child : ExprId)
  | lexical (child : ExprId)
  | declare
  | define (slot body : ExprId)
  | quotedString (delimiter escape : String) (tag : Option String)
  | delimitedList (item delimiter : ExprId) (space : Option ExprId) (min : Nat)
      (tag : Option String)

namespace Call

/-- The indices that are **given** to a call. -/
def args : Call → List ExprId
  | token _ | pattern _ | declare | quotedString _ _ _ => []
  | seq children _ | alt children _ => children
  | rep child _ _ _ | omitted child | lexical child => [child]
  | define slot body => [slot, body]
  | delimitedList item delimiter space _ _ => item :: delimiter :: space.toList

variable [PatternReader]

/-- The call **carried out**. It returns the indices that it hands out. -/
def run : Call → Build (List ExprId)
  | token text => return [← Builder.token text]
  | pattern source => return [← Builder.pattern source]
  | seq children tag => return [← Builder.seq children tag]
  | alt children tag => return [← Builder.alt children tag]
  | rep child tag min max => return [← Builder.rep child tag min max]
  | omitted child => return [← Builder.omitted child]
  | lexical child => return [← Builder.lexical child]
  | declare => return [← Builder.declare]
  | define slot body => do
    Builder.define slot body
    return []
  | quotedString delimiter escape tag => return [← Builder.quotedString delimiter escape tag]
  | delimitedList item delimiter space min tag =>
    return [← Builder.delimitedList item delimiter space min tag]

/-- What a call **hands out**: nothing if it fails. -/
def handed (c : Call) (b : Builder) : List ExprId := (c.run.run.run b).1.toOption.getD []

/-- The builder **after** a call, be it failed. -/
def after (c : Call) (b : Builder) : Builder := (c.run.run.run b).2

end Call

/-- **Sessions**: from a builder and the indices it has handed out to what they are after some
calls, each of which is given only indices that have been handed out before. -/
inductive Session [PatternReader] : List ExprId → Builder → List ExprId → Builder → Prop
  | nil (ids : List ExprId) (b : Builder) : Session ids b ids b
  | call {ids ids' : List ExprId} {b b' : Builder} (h : Session ids b ids' b') (c : Call)
      (hargs : c.args ⊆ ids') : Session ids b (ids' ++ c.handed b') (c.after b')
  | recs {ids ids' ids'' slots : List ExprId} {b b' b₁ b₂ : Builder}
      {result : Except Error (List ExprId)} (h : Session ids b ids' b') (n : Nat)
      (bodies : List ExprId → Build (List ExprId))
      (hslots : (declareMany n).run.run b' = (.ok slots, b₁))
      (hinner : Session (ids' ++ slots) b₁ ids'' b₂)
      (hbodies : (bodies slots).run.run b₁ = (result, b₂))
      (hgiven : ∀ out, result = .ok out → out ⊆ ids'') :
      Session ids b ids'' ((Builder.recs n bodies).run.run b').2

section

variable [PatternReader] {ids ids' ids'' : List ExprId} {b b' b'' : Builder}

/-- What has been handed out **stays so**. -/
theorem Session.subset (h : Session ids b ids' b') : ids ⊆ ids' := by
  induction h with
  | nil => exact List.Subset.refl _
  | call _ c _ ih => exact List.subset_append_of_subset_left _ ih
  | recs _ n bodies _ _ _ _ ih ihinner =>
    exact fun id hid => ihinner (List.mem_append_left _ (ih hid))

/-- Sessions **may follow one another**. -/
theorem Session.trans (h : Session ids b ids' b') (h' : Session ids' b' ids'' b'') :
    Session ids b ids'' b'' := by
  induction h' with
  | nil => exact h
  | call _ c hargs ih => exact (ih h).call c hargs
  | recs _ n bodies hslots hinner hbodies hgiven ih _ =>
    exact (ih h).recs n bodies hslots hinner hbodies hgiven

/-- A call that succeeds hands out **what it returns**. A call that fails hands out nothing. -/
theorem Session.one (c : Call) {new : List ExprId} (hargs : c.args ⊆ ids)
    (hrun : c.run.run.run b = (.ok new, b')) : Session ids b (ids ++ new) b' := by
  have hcall := (Session.nil ids b).call c hargs
  rwa [Call.handed, Call.after, hrun] at hcall

end

/-! ### Indices in range -/

/-- Every expression refers **to slots that are there**. -/
def InRange (b : Builder) : Prop :=
  AllHold (fun e => ∀ child ∈ e.children, child < b.slots.size) b.slots

/-- A computation **leads** from a builder to one with its indices in range, whether it fails or
not, and if it does not, then to a value of which something is known. -/
structure Leads {α : Type} (x : Build α) (b : Builder) (post : α → Builder → Prop) : Prop where
  inRange : (x.run.run b).2.InRange
  size : b.slots.size ≤ (x.run.run b).2.slots.size
  post : ∀ a, (x.run.run b).1 = .ok a → post a (x.run.run b).2

/-- A computation leads to **an index with a slot**. -/
def HandsOut (x : Build ExprId) (b : Builder) : Prop := Leads x b fun id b' => id < b'.slots.size

section

variable {α β : Type} {b b' : Builder} {x : Build α} {k : α → Build β}
variable {p : α → Builder → Prop} {q : β → Builder → Prop}

/-- A value is **handed out as it is**. -/
theorem leads_pure {a : α} (hb : b.InRange) (h : p a b) : Leads (pure a) b p where
  inRange := hb
  size := Nat.le_refl _
  post := by
    rintro _ ⟨⟩
    exact h

/-- A call that fails hands out **nothing**, so it is enough that indices are in range. -/
theorem leads_throw {e : Error} (hb : b.InRange) : Leads (throw e) b p where
  inRange := hb
  size := Nat.le_refl _
  post := nofun

/-- One computation after another, **run**. -/
theorem run_bind (x : Build α) (k : α → Build β) (b : Builder) :
    (x >>= k).run.run b = match x.run.run b with
      | (.ok a, b') => (k a).run.run b'
      | (.error e, b') => (.error e, b') := by
  rcases hx : x.run.run b with ⟨result, b'⟩
  simp only [ExceptT.run_bind, StateT.run_bind, hx]
  cases result <;> rfl

/-- Computations lead on **one after another**. A failure of the first is a failure of both, and
then nothing more is asked. -/
theorem Leads.bind (h : Leads x b p) (hk : ∀ a b', b'.InRange → b.slots.size ≤ b'.slots.size →
    p a b' → Leads (k a) b' q) : Leads (x >>= k) b q := by
  obtain ⟨hrange, hsize, hpost⟩ := h
  rcases hx : x.run.run b with ⟨result, b₁⟩
  rw [hx] at hrange hsize hpost
  cases result with
  | error e =>
    have hrun : (x >>= k).run.run b = (.error e, b₁) := by rw [run_bind, hx]
    exact ⟨hrun ▸ hrange, hrun ▸ hsize, hrun ▸ nofun⟩
  | ok a =>
    have hrun : (x >>= k).run.run b = (k a).run.run b₁ := by rw [run_bind, hx]
    obtain ⟨hrange', hsize', hpost'⟩ := hk a b₁ hrange hsize (hpost a rfl)
    exact ⟨hrun ▸ hrange', hrun ▸ Nat.le_trans hsize hsize', hrun ▸ hpost'⟩

/-- After an index with a slot **the next call may refer to it**. Most builders of expressions go on
in this way. -/
theorem HandsOut.bind {x : Build ExprId} {k : ExprId → Build β} (h : HandsOut x b)
    (hk : ∀ id b', b'.InRange → b.slots.size ≤ b'.slots.size → id < b'.slots.size →
      Leads (k id) b' q) : Leads (x >>= k) b q :=
  Leads.bind h hk

/-! ### Operations -/

variable {e : Expr} {child item delimiter slot body : ExprId} {children : List ExprId}
variable {tag : Option String}

/-- A new slot may hold an expression that refers to **slots that are there**. -/
theorem handsOut_addSlot {content : Option Expr} (hb : b.InRange)
    (hc : ∀ e, content = some e → ∀ child ∈ e.children, child < b.slots.size) :
    HandsOut (addSlot content) b := by
  have hsize : (b.slots.push content).size = b.slots.size + 1 := Array.size_push content
  refine ⟨fun id e he child hchild => ?_, hsize ▸ Nat.le_succ _, ?_⟩
  · change (b.slots.push content)[id]? = some (some e) at he
    change child < (b.slots.push content).size
    rw [hsize]
    refine Nat.lt_succ_of_lt ?_
    rcases getElem?_push_eq_some he with ⟨-, hcontent⟩ | he
    · exact hc e hcontent child hchild
    · exact hb id e he child hchild
  · rintro _ ⟨⟩
    exact hsize ▸ Nat.lt_succ_self _

/-- Adding an expression hands out **its own slot**, if it refers to slots that are there. -/
theorem handsOut_add (hb : b.InRange) (hc : ∀ child ∈ e.children, child < b.slots.size) :
    HandsOut (add e) b :=
  handsOut_addSlot hb fun _ he => Option.some.inj he ▸ hc

theorem handsOut_token (hb : b.InRange) (text : String) :
    HandsOut (token text) b := by
  unfold token
  split <;> exact handsOut_add hb (by simp [Expr.children])

/-- Reading a pattern may fail, and **nothing is added** in that case. -/
theorem handsOut_pattern [PatternReader] (hb : b.InRange) (source : String) :
    HandsOut (pattern source) b := by
  rw [pattern]
  cases Pattern.read source with
  | error e => exact leads_throw hb
  | ok p => exact handsOut_add hb (by simp [Expr.children])

/-- A repetition with its bounds in the wrong order is **refused before anything is added**. -/
theorem handsOut_rep (hb : b.InRange) (hc : child < b.slots.size) (min : Nat) (max : Option Nat) :
    HandsOut (rep child tag min max) b := by
  have hadd : HandsOut (add (.rep tag child min max)) b :=
    handsOut_add hb (by simpa [Expr.children] using hc)
  unfold rep
  split
  · split
    · exact leads_throw hb
    · exact hadd
  · exact hadd

/-- Defining a slot **adds none**. -/
theorem size_withDefinition (b : Builder) (slot body : ExprId) :
    (b.withDefinition slot body).slots.size = b.slots.size := by
  unfold withDefinition
  split
  · exact Array.size_setIfInBounds
  · rfl

/-- A definition copies what **another slot holds**. -/
theorem leads_define (hb : b.InRange) (slot body : ExprId) :
    Leads (define slot body) b fun _ _ => True := by
  have hsize := size_withDefinition b slot body
  have hrange : (b.withDefinition slot body).InRange := by
    rw [InRange, hsize]
    exact hb.withDefinition slot body
  refine ⟨?_, ?_, fun _ _ => trivial⟩ <;> rw [define_run] <;> split
  · exact hrange
  · exact hb
  · exact Nat.le_of_eq hsize.symm
  · exact Nat.le_refl _

theorem handsOut_pair (hb : b.InRange) {x y : ExprId} (hx : x < b.slots.size)
    (hy : y < b.slots.size) (tag : Option String) : HandsOut (seq [x, y] tag) b :=
  handsOut_add hb (by simp [Expr.children, hx, hy])

theorem handsOut_triple (hb : b.InRange) {x y z : ExprId} (hx : x < b.slots.size)
    (hy : y < b.slots.size) (hz : z < b.slots.size) (tag : Option String) :
    HandsOut (seq [x, y, z] tag) b :=
  handsOut_add hb (by simp [Expr.children, hx, hy, hz])

/-- The whole of a quoted string is built **of what it has handed out itself**. -/
theorem handsOut_quotedString [PatternReader] (hb : b.InRange) (delimiter escape : String)
    (tag : Option String) :
    HandsOut (quotedString delimiter escape tag) b := by
  unfold quotedString
  refine (handsOut_token hb escape).bind fun escapeToken b₁ hb₁ hle₁ hescape => ?_
  refine (handsOut_add hb₁ (by simpa [Expr.children] using hescape)).bind
    fun escapeOmitted b₂ hb₂ hle₂ hescapeOmitted => ?_
  refine (handsOut_token hb₂ delimiter).bind fun delimiterToken b₃ hb₃ hle₃ hdelimiter => ?_
  refine (handsOut_add hb₃ (by simpa [Expr.children] using hdelimiter)).bind
    fun delimiterOmitted b₄ hb₄ hle₄ hdelimiterOmitted => ?_
  refine (handsOut_pattern hb₄ _).bind fun plain b₅ hb₅ hle₅ hplain => ?_
  refine (handsOut_pair hb₅ (by grind) (by grind) none).bind
    fun escapedEscape b₆ hb₆ hle₆ hescapedEscape => ?_
  refine (handsOut_pair hb₆ (by grind) (by grind) none).bind
    fun escapedDelimiter b₇ hb₇ hle₇ hescapedDelimiter => ?_
  have hkinds : ∀ child ∈ [plain, escapedEscape, escapedDelimiter], child < b₇.slots.size := by
    grind
  refine (handsOut_add (e := .alt none _) hb₇ hkinds).bind fun piece b₈ hb₈ hle₈ hpiece => ?_
  refine (handsOut_rep hb₈ hpiece 0 none).bind fun pieces b₉ hb₉ hle₉ hpieces => ?_
  refine (handsOut_add hb₉ (by simpa [Expr.children] using hpieces)).bind
    fun text b₁₀ hb₁₀ hle₁₀ htext => ?_
  exact handsOut_triple hb₁₀ (by grind) htext (by grind) tag

/-- A list with separators is built of **the item, the separator** and what is made of them. It is
three expressions: a separated item, a repetition of it, and the sequence of both. -/
theorem handsOut_separated (hb : b.InRange) (hitem : item < b.slots.size)
    (hdelimiter : delimiter < b.slots.size) (min : Nat) (tag : Option String) :
    HandsOut (separated item delimiter min tag) b := by
  unfold separated
  refine (handsOut_add hb (by simpa [Expr.children] using hdelimiter)).bind
    fun between b₁ hb₁ hle₁ hbetween => ?_
  refine (handsOut_pair hb₁ hbetween (by grind) none).bind fun next b₂ hb₂ hle₂ hnext => ?_
  refine (handsOut_rep hb₂ hnext (min - 1) none).bind fun others b₃ hb₃ hle₃ hothers => ?_
  exact handsOut_pair hb₃ (by grind) hothers tag

/-- A delimited list is built of **what is given**, with blanks around the delimiter or not. -/
theorem handsOut_delimitedList (hb : b.InRange) (hitem : item < b.slots.size)
    (hdelimiter : delimiter < b.slots.size) {space : Option ExprId}
    (hspace : ∀ id ∈ space, id < b.slots.size) (min : Nat) (tag : Option String) :
    HandsOut (delimitedList item delimiter space min tag) b := by
  unfold delimitedList
  split
  · exact leads_throw hb
  · split
    · next space =>
      have hspace := hspace space rfl
      refine (handsOut_triple hb hspace hdelimiter hspace none).bind ?_
      intro spaced b₁ hb₁ hle₁ hspaced
      exact handsOut_separated hb₁ (Nat.lt_of_lt_of_le hitem hle₁) hspaced min tag
    · exact handsOut_separated hb hitem hdelimiter min tag

/-- **Every call** hands out slots that are there. The cases are the calls, each of which has its
own lemma above. -/
theorem leads_call [PatternReader] (c : Call) (hb : b.InRange)
    (hargs : ∀ id ∈ c.args, id < b.slots.size) :
    Leads c.run b fun ids b' => ∀ id ∈ ids, id < b'.slots.size := by
  have hone : ∀ {x : Build ExprId}, HandsOut x b →
      Leads (return [← x]) b fun ids b' => ∀ id ∈ ids, id < b'.slots.size :=
    fun hx => hx.bind fun id b' hb' _ hid => leads_pure hb' (by simpa using hid)
  cases c with
  | token text => exact hone (handsOut_token hb text)
  | pattern source => exact hone (handsOut_pattern hb source)
  | seq children tag | alt children tag => exact hone (handsOut_add hb hargs)
  | rep child tag min max =>
    exact hone (handsOut_rep hb (hargs child (by simp [Call.args])) min max)
  | omitted child | lexical child => exact hone (handsOut_add hb hargs)
  | declare => exact hone (handsOut_addSlot hb (by simp))
  | define slot body =>
    exact (leads_define hb slot body).bind fun _ b' hb' _ _ => leads_pure hb' (by simp)
  | quotedString delimiter escape tag => exact hone (handsOut_quotedString hb delimiter escape tag)
  | delimitedList item delimiter space min tag =>
    refine hone (handsOut_delimitedList hb (hargs item (by simp [Call.args]))
      (hargs delimiter (by simp [Call.args])) (fun id hid => hargs id ?_) min tag)
    simp [Call.args, Option.mem_toList.mpr hid]

/-- All slots that are declared together **are there**. -/
theorem leads_declareMany (hb : b.InRange) (n : Nat) :
    Leads (declareMany n) b fun ids b' => ∀ id ∈ ids, id < b'.slots.size := by
  induction n generalizing b with
  | zero => exact leads_pure hb (by simp)
  | succ n ih =>
    rw [declareMany]
    refine (handsOut_addSlot hb (by simp)).bind fun slot b₁ hb₁ hle₁ hslot => ?_
    refine (ih hb₁).bind fun slots b₂ hb₂ hle₂ hslots => ?_
    exact leads_pure hb₂ (List.forall_mem_cons.mpr ⟨Nat.lt_of_lt_of_le hslot hle₂, hslots⟩)

theorem leads_defineAll (hb : b.InRange) (slots bodies : List ExprId) :
    Leads (defineAll slots bodies) b fun _ _ => True := by
  rw [defineAll]
  induction slots.zip bodies generalizing b with
  | nil => exact leads_pure hb trivial
  | cons link links ih => exact (leads_define hb link.1 link.2).bind fun _ b' hb' _ _ => ih hb'

end

/-! ### Sessions keep indices in range -/

/-- **A session keeps indices in range**: no expression refers to a slot that is not there, and no
such slot is handed out. -/
theorem Session.inRange [PatternReader] {ids ids' : List ExprId} {b b' : Builder}
    (h : Session ids b ids' b')
    (hb : b.InRange) (hids : ∀ id ∈ ids, id < b.slots.size) :
    b'.InRange ∧ b.slots.size ≤ b'.slots.size ∧ ∀ id ∈ ids', id < b'.slots.size := by
  induction h with
  | nil => exact ⟨hb, Nat.le_refl _, hids⟩
  | @call ids ids' b b' _ c hargs ih =>
    obtain ⟨hb', hle, hids'⟩ := ih hb hids
    obtain ⟨hrange, hsize, hpost⟩ := leads_call c hb' fun id hid => hids' id (hargs hid)
    refine ⟨hrange, Nat.le_trans hle hsize, fun id hid => ?_⟩
    rcases List.mem_append.mp hid with hid | hid
    · exact Nat.lt_of_lt_of_le (hids' id hid) hsize
    · rw [Call.handed] at hid
      rcases hresult : (c.run.run.run b').1 with e | new
      · rw [hresult] at hid
        cases hid
      · rw [hresult] at hid
        exact hpost new hresult id hid
  | @recs ids ids' ids'' slots b b' b₁ b₂ result _ n bodies hslots _ hbodies hgiven ih ihinner =>
    obtain ⟨hb', hle, hids'⟩ := ih hb hids
    obtain ⟨hb₁, hle₁, hnew⟩ := leads_declareMany hb' n
    rw [hslots] at hb₁ hle₁ hnew
    obtain ⟨hb₂, hle₂, hids''⟩ := ihinner hb₁ fun id hid => (List.mem_append.mp hid).elim
      (fun hid => Nat.lt_of_lt_of_le (hids' id hid) hle₁) (hnew slots rfl id)
    have hrun : (Builder.recs n bodies).run.run b' = (bodies slots >>= fun out => do
        defineAll slots out
        return slots).run.run b₁ := by
      rw [Builder.recs, run_bind, hslots]
    rw [hrun, run_bind, hbodies]
    -- what remains is to define the slots, if the bodies have been built
    cases result with
    | error e => exact ⟨hb₂, Nat.le_trans hle (Nat.le_trans hle₁ hle₂), hids''⟩
    | ok out =>
      have hdefine : Leads (do defineAll slots out; return slots : Build (List ExprId)) b₂
          fun _ _ => True :=
        (leads_defineAll hb₂ slots out).bind fun _ b' hb' _ _ => leads_pure hb' trivial
      refine ⟨hdefine.inRange, ?_, fun id hid => Nat.lt_of_lt_of_le (hids'' id hid) hdefine.size⟩
      exact Nat.le_trans hle (Nat.le_trans hle₁ (Nat.le_trans hle₂ hdefine.size))

/-! ### Grammars out of sessions -/

/-- A grammar that is finished with indices in range **is closed**. Whatever settles in a slot is
one of the expressions that are in range. -/
theorem InRange.closed {b : Builder} {start : ExprId} {g : Grammar} (hb : b.InRange)
    (hfinish : b.finish start = .ok g) : g.Closed := by
  have hsize : g.exprs.size = b.slots.size :=
    (size_of_settled (settled_of_finish hfinish).2).trans size_settle
  intro e he child hchild
  rw [hsize]
  exact AllHold.finish hb hfinish e he child hchild

end Builder

namespace Grammar

/-- A grammar is **built** when it comes out of a session that has handed out its start. -/
def Built [PatternReader] (g : Grammar) : Prop :=
  ∃ ids b, Builder.Session [] {} ids b ∧ g.start ∈ ids ∧ b.finish g.start = .ok g

/-- **A grammar that is built is closed.** So a grammar that comes from the builder has no faults.
-/
theorem Built.closed [PatternReader] {g : Grammar} (hg : g.Built) : g.Closed := by
  obtain ⟨ids, b, hsession, -, hfinish⟩ := hg
  have hempty : ({} : Builder).InRange := fun id e he => by simp at he
  exact (hsession.inRange hempty (by simp)).1.closed hfinish

end Grammar

end GeneralParsing
