import GeneralParsing.Proofs.Grammar.Session

/-!
# Operations that only add

All operations but `declare` and `define` do nothing to a builder but add expressions to it, whether
they fail or not, and a pattern that they add is one that was read. `OnlyAdds` puts this as what
every invariant can use: what holds of a builder, and goes on to hold as an expression is added,
holds after the operation (`onlyAdds_call`).
-/

namespace GeneralParsing

/-- An expression that is a pattern is the one **read from its source**. -/
def Expr.IsRead [PatternReader] (e : Expr) : Prop :=
  ∀ p, e = .pattern p → Pattern.read p.source = .ok p

namespace Builder

variable [PatternReader]

/-- A computation **only adds** expressions: it keeps whatever adding one expression keeps. -/
def OnlyAdds {α : Type} (x : Build α) : Prop :=
  ∀ inv : Builder → Prop,
    (∀ b e, e.IsRead → inv b → inv { b with slots := b.slots.push (some e) }) →
    ∀ b, inv b → inv (x.run.run b).2

variable {α β : Type} {x : Build α} {k : α → Build β} {tag : Option String}

theorem onlyAdds_pure (a : α) : OnlyAdds (pure a) := fun _ _ _ h => h

/-- A failing computation **adds nothing**. -/
theorem onlyAdds_throw (e : Error) : OnlyAdds (throw e : Build α) := fun _ _ _ h => h

/-- Computations that only add **may follow one another**. So whatever is put together from such
computations is one. -/
theorem OnlyAdds.bind (hx : OnlyAdds x) (hk : ∀ a, OnlyAdds (k a)) : OnlyAdds (x >>= k) := by
  intro inv hadd b h
  have h' := hx inv hadd b h
  rw [run_bind]
  rcases hrun : x.run.run b with ⟨e | a, b'⟩ <;> rw [hrun] at h'
  · exact h'
  · exact hk a inv hadd b' h'

/-- Adding an expression only adds, if its pattern **is read from its source**. That is the one
thing about an expression that has to be kept. -/
theorem onlyAdds_add {e : Expr} (he : e.IsRead) : OnlyAdds (add e) :=
  fun _ hadd b h => hadd b e he h

theorem onlyAdds_seq (children : List ExprId) (tag : Option String) : OnlyAdds (seq children tag) :=
  onlyAdds_add nofun

theorem onlyAdds_alt (children : List ExprId) (tag : Option String) : OnlyAdds (alt children tag) :=
  onlyAdds_add nofun

theorem onlyAdds_omitted (child : ExprId) : OnlyAdds (omitted child) := onlyAdds_add nofun

theorem onlyAdds_lexical (child : ExprId) : OnlyAdds (lexical child) := onlyAdds_add nofun

theorem onlyAdds_token (text : String) : OnlyAdds (token text) := by
  unfold token
  split <;> exact onlyAdds_add nofun

/-- A pattern that is added **has been read**. -/
theorem onlyAdds_pattern (source : String) : OnlyAdds (pattern source) := by
  rw [pattern]
  cases hread : Pattern.read source with
  | error e => exact onlyAdds_throw e
  | ok p =>
    refine onlyAdds_add ?_
    rintro _ ⟨⟩
    rwa [Pattern.source_of_read hread]

/-- A repetition only adds, and **a refused one adds nothing**. -/
theorem onlyAdds_rep (child : ExprId) (min : Nat) (max : Option Nat) :
    OnlyAdds (rep child tag min max) := by
  unfold rep
  split
  · split
    · exact onlyAdds_throw _
    · exact onlyAdds_add nofun
  · exact onlyAdds_add nofun

/-- A quoted string only adds: all it builds of is **its own**. -/
theorem onlyAdds_quotedString (delimiter escape : String) (tag : Option String) :
    OnlyAdds (quotedString delimiter escape tag) :=
  (onlyAdds_token _).bind fun _ => (onlyAdds_omitted _).bind fun _ =>
    (onlyAdds_token _).bind fun _ => (onlyAdds_omitted _).bind fun _ =>
      (onlyAdds_pattern _).bind fun _ => (onlyAdds_seq _ _).bind fun _ =>
        (onlyAdds_seq _ _).bind fun _ => (onlyAdds_alt _ _).bind fun _ =>
          (onlyAdds_rep _ _ _).bind fun _ => (onlyAdds_lexical _).bind fun _ => onlyAdds_seq _ _

theorem onlyAdds_separated (item separator : ExprId) (min : Nat) (tag : Option String) :
    OnlyAdds (separated item separator min tag) :=
  (onlyAdds_omitted _).bind fun _ => (onlyAdds_seq _ _).bind fun _ =>
    (onlyAdds_rep _ _ _).bind fun _ => onlyAdds_seq _ _

/-- A delimited list only adds, **by way of a list with separators**. Whether there is space around
the delimiters makes a difference to what is added only. -/
theorem onlyAdds_delimitedList (item delimiter : ExprId) (space : Option ExprId) (min : Nat)
    (tag : Option String) : OnlyAdds (delimitedList item delimiter space min tag) := by
  unfold delimitedList
  split
  · exact onlyAdds_throw _
  · split
    · exact (onlyAdds_seq _ _).bind fun _ => onlyAdds_separated _ _ _ _
    · exact onlyAdds_separated _ _ _ _

/-- **Every other call** than `declare` and `define` only adds expressions, and those that it adds
are read if they are patterns. -/
theorem onlyAdds_call (c : Call) (hdeclare : c ≠ .declare)
    (hdefine : ∀ slot body, c ≠ .define slot body) : OnlyAdds c.run := by
  cases c with
  | token text => exact (onlyAdds_token text).bind fun _ => onlyAdds_pure _
  | pattern source => exact (onlyAdds_pattern source).bind fun _ => onlyAdds_pure _
  | seq => exact (onlyAdds_seq _ _).bind fun _ => onlyAdds_pure _
  | alt => exact (onlyAdds_alt _ _).bind fun _ => onlyAdds_pure _
  | omitted => exact (onlyAdds_omitted _).bind fun _ => onlyAdds_pure _
  | lexical => exact (onlyAdds_lexical _).bind fun _ => onlyAdds_pure _
  | rep child tag min max => exact (onlyAdds_rep _ _ _).bind fun _ => onlyAdds_pure _
  | declare => exact absurd rfl hdeclare
  | define slot body => exact absurd rfl (hdefine slot body)
  | quotedString => exact (onlyAdds_quotedString _ _ _).bind fun _ => onlyAdds_pure _
  | delimitedList => exact (onlyAdds_delimitedList _ _ _ _ _).bind fun _ => onlyAdds_pure _

end Builder

end GeneralParsing
