import GeneralParsing.Proofs.Rules.Outcome

/-!
# Which patterns compiling reads

Compiling rules asks the reader of patterns about the patterns that stand in their bodies, and about
no others. So two readers that agree on these compile the rules to one and the same grammar
(`Grammar.ofRules_eq_of_agree`), whatever they make of the rest. What compiling comes to with a
reader of which little is known can thus be worked out with another one that knows little else.
-/

namespace GeneralParsing

variable {R R' : PatternReader} {split : Bool}

/-- The source **of a pattern**. -/
def Phrase.pattern? : Phrase → Option String
  | .pattern source => some source
  | _ => none

/-- Two readers **agree on the patterns** in a phrase: each of them is read to the same pattern, or
refused by both. -/
def Phrase.Agree (R R' : PatternReader) (p : Phrase) : Prop :=
  ∀ source, .pattern source ∈ p.subphrases → @Pattern.read R source = @Pattern.read R' source

namespace Compile

theorem pattern_eq_of_agree {source : String}
    (h : @Pattern.read R source = @Pattern.read R' source) :
    @Builder.pattern R source = @Builder.pattern R' source := by
  unfold Builder.pattern
  rw [h]

mutual

/-- Compiling a phrase **reads the patterns in it** and no others. -/
theorem phrase_eq_of_agree : ∀ (p : Phrase) (tag : Option String), p.Agree R R' →
    @phrase R split tag p = @phrase R' split tag p
  | .symbol name, tag, _ => by unfold phrase; rfl
  | .literal text, tag, _ => by unfold phrase; rfl
  | .pattern source, tag, h => by
    unfold phrase
    rw [pattern_eq_of_agree (h source List.mem_cons_self)]
  | .seq parts, tag, h => by
    unfold phrase
    rw [phrases_eq_of_agree parts fun source hs => h source (.tail _ hs)]
  | .alt parts, tag, h => by
    unfold phrase
    rw [phrases_eq_of_agree parts fun source hs => h source (.tail _ hs)]
  | .repeated part quantifier, tag, h => by
    unfold phrase
    rw [phrase_eq_of_agree part none fun source hs => h source (.tail _ hs)]
  | .omitted part, tag, h => by
    unfold phrase
    rw [phrase_eq_of_agree part none fun source hs => h source (.tail _ hs)]
  | .lexical part, tag, h => by
    unfold phrase
    rw [phrase_eq_of_agree part none fun source hs => h source (.tail _ hs)]

theorem phrases_eq_of_agree : ∀ ps : List Phrase,
    (∀ source, .pattern source ∈ Phrase.subphrasesAll ps →
      @Pattern.read R source = @Pattern.read R' source) →
    @phrases R split ps = @phrases R' split ps
  | [], _ => by unfold phrases; rfl
  | p :: ps, h => by
    unfold phrases
    rw [phrase_eq_of_agree p none fun source hs => h source (List.mem_append_left _ hs),
      phrases_eq_of_agree ps fun source hs => h source (List.mem_append_right _ hs)]

end

theorem rule_eq_of_agree {r : Rule} (h : r.body.Agree R R') :
    @rule R split r = @rule R' split r := by
  unfold rule defineRule
  rw [phrase_eq_of_agree r.body _ h]

theorem rules_eq_of_agree {rs : List Rule} (h : ∀ r ∈ rs, r.body.Agree R R') :
    @rules R split rs = @rules R' split rs := by
  have hrules : rs.mapM (@rule R split) = rs.mapM (@rule R' split) := by
    induction rs with
    | nil => rw [List.mapM_nil, List.mapM_nil]
    | cons r rs ih =>
      obtain ⟨hr, hrs⟩ := List.forall_mem_cons.mp h
      rw [List.mapM_cons, List.mapM_cons, rule_eq_of_agree hr, ih hrs]
  unfold rules
  rw [hrules]

end Compile

/-- Readers that agree on the patterns of rules **compile the rules alike**. So a witness for one
reader is one for any other that reads its few patterns alike. -/
theorem Grammar.ofRules_eq_of_agree {rs : List Rule} (h : ∀ r ∈ rs, r.body.Agree R R') :
    @ofRules R split rs = @ofRules R' split rs := by
  unfold ofRules
  rw [Compile.rules_eq_of_agree h]

end GeneralParsing
