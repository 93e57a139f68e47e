import GeneralParsing.Pattern.Basic
import GeneralParsing.Rules.Basic

/-!
# What rules mean

`Rule.Derives split rules p w` says that a phrase derives a list of symbols by way of rules, with no
regard to any grammar that the rules are compiled into: a name derives what the body of its rule
derives, a literal its text as one symbol or letter by letter, a pattern one symbol that it accepts,
and phrases are put together in the usual way. Hidden and visible rules derive alike, and it makes
no difference whether something is omitted or taken as one text.
-/

namespace GeneralParsing

/-- The symbols that a literal **stands for**: none for the empty text, its characters where
literals are split and there are several, and else the text itself. -/
def literalSymbols (split : Bool) (text : String) : List String :=
  if text.isEmpty then []
  else if split && text.length > 1 then text.toList.map String.singleton
  else [text]

namespace Rule

variable [PatternReader]

/-- The **tag** of a rule's node: its name, unless it is hidden. -/
def tag? (r : Rule) : Option String := if r.hidden then none else some r.name

mutual

/-- A phrase **derives** a list of symbols by way of rules. -/
inductive Derives (split : Bool) (rules : List Rule) : Phrase → List String → Prop
  /-- What the body of the rule derives. -/
  | symbol {rule : Rule} {w : List String} (hrule : rule ∈ rules)
      (h : Derives split rules rule.body w) : Derives split rules (.symbol rule.name) w
  /-- The text, as one symbol or in letters. -/
  | literal (text : String) : Derives split rules (.literal text) (literalSymbols split text)
  /-- One symbol that the pattern accepts. -/
  | pattern {source symbol : String} {p : Pattern} (hp : Pattern.read source = .ok p)
      (ha : p.accepts symbol = true) : Derives split rules (.pattern source) [symbol]
  /-- What the parts derive in order. -/
  | seq {parts : List Phrase} {w : List String} (h : DerivesAll split rules parts w) :
      Derives split rules (.seq parts) w
  /-- What one of the parts derives. -/
  | alt {parts : List Phrase} {part : Phrase} {w : List String} (hpart : part ∈ parts)
      (h : Derives split rules part w) : Derives split rules (.alt parts) w
  /-- What an admissible number of copies of the part derive in order. -/
  | repeated {part : Phrase} {quantifier : Quantifier} {count : Nat} {w : List String}
      (hmin : quantifier.bounds.1 ≤ count) (hmax : ∀ m, quantifier.bounds.2 = some m → count ≤ m)
      (h : DerivesAll split rules (List.replicate count part) w) :
      Derives split rules (.repeated part quantifier) w
  /-- What the part derives. -/
  | omitted {part : Phrase} {w : List String} (h : Derives split rules part w) :
      Derives split rules (.omitted part) w
  /-- What the part derives. -/
  | lexical {part : Phrase} {w : List String} (h : Derives split rules part w) :
      Derives split rules (.lexical part) w

/-- Phrases derive a list of symbols **in order**. -/
inductive DerivesAll (split : Bool) (rules : List Rule) : List Phrase → List String → Prop
  | nil : DerivesAll split rules [] []
  | cons {part : Phrase} {parts : List Phrase} {v w : List String}
      (h : Derives split rules part v) (hs : DerivesAll split rules parts w) :
      DerivesAll split rules (part :: parts) (v ++ w)

end

end Rule

end GeneralParsing
