import GeneralParsing.Proofs.Derivation.Inversion
import GeneralParsing.Proofs.Derivation.Yields
import GeneralParsing.Proofs.Machine.Goals

/-!
# All that an expression yields and spells

For each kind of expression there is an equivalence that says which words it derives, and with which
output or as which text, in terms of its children. So what a whole expression comes to can be
rewritten from the leaves up, in both directions at once.
-/

namespace GeneralParsing

namespace Derivation

variable {g : Grammar} {collapse : Bool} {id child : ExprId} {ids : List ExprId} {w : List String}
variable {out : List PlainTree} {tag : Option String} {text symbol : String}
variable {min k : Nat} {max : Option Nat} {e : Expr}

/-- What a terminal derives is **a symbol that it accepts**. -/
theorem Valid.of_terminal {d : Derivation} (hd : d.Valid g) (hroot : d.root = id)
    (he : g.expr? id = some e) (ht : e.isTerminal = true) :
    ∃ s, d = .symbol id s ∧ e.accepts s = true := by
  cases e with
  | token text => exact ⟨text, hd.of_token hroot he, beq_self_eq_true text⟩
  | pattern p => exact hd.of_pattern hroot he
  | _ => cases ht

/-! ### Texts -/

theorem spells_terminal_iff (he : g.expr? id = some e) (ht : e.isTerminal = true) :
    Spells g id w text ↔ w = [text] ∧ e.accepts text = true := by
  constructor
  · rintro ⟨d, hd, hroot, rfl, rfl⟩
    obtain ⟨s, rfl, ha⟩ := hd.of_terminal hroot he ht
    exact ⟨rfl, ha⟩
  · rintro ⟨rfl, ha⟩
    exact spells_terminal id he ha

theorem spells_token_iff (he : g.expr? id = some (.token symbol)) :
    Spells g id w text ↔ w = [symbol] ∧ text = symbol := by
  rw [spells_terminal_iff he rfl, Expr.accepts, beq_iff_eq, and_congr_left_iff.mpr]
  · rw [eq_comm (a := symbol)]
  · rintro rfl
    rfl

/-- What is omitted spells **the empty text**. There still has to be a derivation of it. -/
theorem spells_omitted_iff (he : g.expr? id = some (.omitted child)) :
    Spells g id w text ↔ text = "" ∧ ∃ t, Spells g child w t := by
  constructor
  · rintro ⟨d, hd, hroot, rfl, rfl⟩
    obtain ⟨part, rfl, hroot, hpart⟩ := hd.of_omitted hroot he
    exact ⟨rfl, _, part, hpart, hroot, rfl, rfl⟩
  · rintro ⟨rfl, t, h⟩
    exact h.omitted id he

theorem spells_alt_iff (he : g.expr? id = some (.alt tag ids)) :
    Spells g id w text ↔ ∃ child ∈ ids, Spells g child w text := by
  constructor
  · rintro ⟨d, hd, hroot, rfl, rfl⟩
    obtain ⟨part, rfl, hmem, hpart⟩ := hd.of_alt hroot he
    exact ⟨_, hmem, part, hpart, rfl, rfl, rfl⟩
  · rintro ⟨child, hmem, h⟩
    exact h.alt id he hmem

theorem spellsAll_nil_iff : SpellsAll g [] w text ↔ w = [] ∧ text = "" := by
  constructor
  · rintro ⟨ds, -, hroots, rfl, rfl⟩
    obtain rfl := List.map_eq_nil_iff.mp hroots
    exact ⟨rfl, rfl⟩
  · rintro ⟨rfl, rfl⟩
    exact spellsAll_nil

/-- Expressions in order spell texts that are **strung together**. -/
theorem spellsAll_cons_iff : SpellsAll g (id :: ids) w text ↔
    ∃ v t, Spells g id v t ∧ ∃ v' t', SpellsAll g ids v' t' ∧ w = v ++ v' ∧ text = t ++ t' := by
  constructor
  · rintro ⟨ds, hds, hroots, rfl, rfl⟩
    obtain ⟨d, rest, rfl, hroot, hrest⟩ := List.map_eq_cons_iff.mp hroots
    obtain ⟨hd, hds⟩ := List.forall_mem_cons.mp hds
    exact ⟨_, _, ⟨d, hd, hroot, rfl, rfl⟩, _, _, ⟨rest, hds, hrest, rfl, rfl⟩, rfl, rfl⟩
  · rintro ⟨v, t, h, v', t', hs, rfl, rfl⟩
    exact h.cons hs

theorem spells_seq_iff (he : g.expr? id = some (.seq tag ids)) :
    Spells g id w text ↔ SpellsAll g ids w text := by
  constructor
  · rintro ⟨d, hd, hroot, rfl, rfl⟩
    obtain ⟨parts, rfl, hroots, hparts⟩ := hd.of_seq hroot he
    exact ⟨parts, hparts, hroots, (yield_sequence id parts).symm, rfl⟩
  · exact fun h => h.seq id he

/-- A repetition spells what **so many iterations** spell in order. The bounds are on their number,
and a missing bound allows any. -/
theorem spells_rep_iff (he : g.expr? id = some (.rep tag child min max)) :
    Spells g id w text ↔ ∃ k, min ≤ k ∧ (∀ m, max = some m → k ≤ m) ∧
      SpellsAll g (List.replicate k child) w text := by
  constructor
  · rintro ⟨d, hd, hroot, rfl, rfl⟩
    obtain ⟨parts, rfl, hroots, hmin, hmax, hparts⟩ := hd.of_rep hroot he
    exact ⟨parts.length, hmin, hmax, parts, hparts,
      List.map_eq_replicate_iff.mpr hroots, (yield_sequence id parts).symm, rfl⟩
  · rintro ⟨k, hmin, hmax, h⟩
    exact h.rep id he hmin hmax

/-- Iterations of a terminal spell **as many symbols** that it accepts. Each iteration is one
symbol, so it is known how the word is divided. -/
theorem spellsAll_terminal_iff (he : g.expr? child = some e) (ht : e.isTerminal = true) :
    SpellsAll g (List.replicate k child) w text ↔
      w.length = k ∧ (∀ s ∈ w, e.accepts s = true) ∧ text = String.join w := by
  constructor
  · intro h
    induction k generalizing w text with
    | zero =>
      obtain ⟨rfl, rfl⟩ := spellsAll_nil_iff.mp h
      exact ⟨rfl, by simp, rfl⟩
    | succ k ih =>
      obtain ⟨v, t, hfirst, v', t', hrest, rfl, rfl⟩ := spellsAll_cons_iff.mp h
      obtain ⟨rfl, ha⟩ := (spells_terminal_iff he ht).mp hfirst
      obtain ⟨rfl, hall, rfl⟩ := ih hrest
      exact ⟨rfl, List.forall_mem_cons.mpr ⟨ha, hall⟩, (String.join_cons).symm⟩
  · rintro ⟨rfl, hall, rfl⟩
    exact spellsAll_terminal child he hall

/-! ### Outputs -/

/-- A terminal yields **a symbol that it accepts**. -/
theorem yields_terminal_iff (he : g.expr? id = some e) (ht : e.isTerminal = true) :
    Yields g collapse id w out ↔
      ∃ s, e.accepts s = true ∧ w = [s] ∧ out = [PlainTree.value s] := by
  constructor
  · rintro ⟨d, hd, hroot, rfl, rfl⟩
    obtain ⟨s, rfl, ha⟩ := hd.of_terminal hroot he ht
    exact ⟨s, ha, rfl, rfl⟩
  · rintro ⟨s, ha, rfl, rfl⟩
    exact yields_terminal id he ha

/-- What is omitted **has no output**. What stood there is needed for the word, and not for the
output. -/
theorem yields_omitted_iff (he : g.expr? id = some (.omitted child)) :
    Yields g collapse id w out ↔ out = [] ∧ ∃ t, Spells g child w t := by
  constructor
  · rintro ⟨d, hd, hroot, rfl, rfl⟩
    obtain ⟨part, rfl, hroot, hpart⟩ := hd.of_omitted hroot he
    exact ⟨rfl, _, part, hpart, hroot, rfl, rfl⟩
  · rintro ⟨rfl, _, d, hd, hroot, hyield, -⟩
    exact Yields.omitted ⟨d, hd, hroot, hyield, rfl⟩ id he

/-- What is lexical has **its text** as output. All structure below is gone, tags included. -/
theorem yields_lexical_iff (he : g.expr? id = some (.lexical child)) :
    Yields g collapse id w out ↔ ∃ t, Spells g child w t ∧ out = [PlainTree.value t] := by
  constructor
  · rintro ⟨d, hd, hroot, rfl, rfl⟩
    obtain ⟨part, rfl, hroot, hpart⟩ := hd.of_lexical hroot he
    exact ⟨_, ⟨part, hpart, hroot, rfl, rfl⟩, rfl⟩
  · rintro ⟨t, h, rfl⟩
    exact h.lexical id he

theorem yieldsAll_nil_iff : YieldsAll g collapse [] w out ↔ w = [] ∧ out = [] := by
  constructor
  · rintro ⟨ds, -, hroots, rfl, rfl⟩
    obtain rfl := List.map_eq_nil_iff.mp hroots
    exact ⟨rfl, rfl⟩
  · rintro ⟨rfl, rfl⟩
    exact yieldsAll_nil

/-- Expressions in order have outputs that are **strung together**. The word is divided somewhere
between them. -/
theorem yieldsAll_cons_iff : YieldsAll g collapse (id :: ids) w out ↔
    ∃ v ts, Yields g collapse id v ts ∧ ∃ v' ts', YieldsAll g collapse ids v' ts' ∧ w = v ++ v' ∧
      out = ts ++ ts' := by
  constructor
  · rintro ⟨ds, hds, hroots, rfl, rfl⟩
    obtain ⟨d, rest, rfl, hroot, hrest⟩ := List.map_eq_cons_iff.mp hroots
    obtain ⟨hd, hds⟩ := List.forall_mem_cons.mp hds
    exact ⟨_, _, ⟨d, hd, hroot, rfl, rfl⟩, _, _, ⟨rest, hds, hrest, rfl, rfl⟩, rfl, rfl⟩
  · rintro ⟨v, ts, h, v', ts', hs, rfl, rfl⟩
    exact h.cons hs

/-- A sequence has the output of its children, **tagged if it has a tag**. Without children it would
be a leaf, which is another case. -/
theorem yields_seq_iff (he : g.expr? id = some (.seq tag (child :: ids))) :
    Yields g collapse id w out ↔ ∃ ts, YieldsAll g collapse (child :: ids) w ts ∧
      out = PlainTree.labelled collapse tag ts := by
  constructor
  · rintro ⟨d, hd, hroot, rfl, rfl⟩
    obtain ⟨parts, rfl, hroots, hparts⟩ := hd.of_seq hroot he
    have hne : parts ≠ [] := by
      rintro rfl
      cases hroots
    refine ⟨_, ⟨parts, hparts, hroots, (yield_sequence id parts).symm, rfl⟩, ?_⟩
    rw [output_sequence_of_ne_nil collapse id hne, Grammar.tag?_eq he, Expr.tag?]
  · rintro ⟨ts, h, rfl⟩
    exact h.seq id he

/-- Without a tag or a bound a repetition has the output of **its iterations**. -/
theorem yields_rep_iff (he : g.expr? id = some (.rep none child min none)) :
    Yields g collapse id w out ↔
      ∃ k, min ≤ k ∧ YieldsAll g collapse (List.replicate k child) w out := by
  constructor
  · rintro ⟨d, hd, hroot, rfl, rfl⟩
    obtain ⟨parts, rfl, hroots, hmin, -, hparts⟩ := hd.of_rep hroot he
    refine ⟨parts.length, hmin, parts, hparts, List.map_eq_replicate_iff.mpr hroots,
      (yield_sequence id parts).symm, ?_⟩
    cases parts with
    | nil => rw [output, Grammar.tag?_eq he, Expr.tag?]; rfl
    | cons d ds => rw [output, Grammar.tag?_eq he, Expr.tag?, outputAll_eq_flatMap]; rfl
  · rintro ⟨k, hmin, h⟩
    exact h.rep_untagged id he hmin

end Derivation

end GeneralParsing
