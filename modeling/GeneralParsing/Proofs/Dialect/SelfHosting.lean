import GeneralParsing.Proofs.Derivation.Counterparts
import GeneralParsing.Proofs.Dialect.SelfDescription
import GeneralParsing.Proofs.Dialect.Trailing
import GeneralParsing.Proofs.Grammar.Patterns
import GeneralParsing.Proofs.Parsing.NoFaults
import GeneralParsing.Proofs.Parsing.WordTree
import GeneralParsing.Proofs.Rules.Patterns

/-!
# The dialect parses itself

Compiling the description of the dialect gives a grammar for the dialect. It is not the grammar
that is put together by hand: expressions are shared differently, symbols have slots and bodies,
and it knows nothing of blanks around a text and of a semicolon at its end. But its expressions
have counterparts there, of the same kind and with the same tags (`exists_mirrors`), so both derive
the same words with the same outputs. Hence whatever the text, without the blanks and the semicolon
it is parsed by the compiled grammar into the tree that it has, or rejected if it has none
(`parses_itself`).
-/

namespace GeneralParsing

namespace Forest

variable {g : Grammar} {w : List String}

/-- A word is **rejected** just when it has no tree. Whoever shows that two grammars give the same
trees has shown that they reject the same words. -/
theorem rejected_iff (hg : g.Closed) :
    (∃ position, parse g w = .error (.rejected position)) ↔ ¬ ∃ tree, HasTree g w tree := by
  constructor
  · rintro ⟨position, hrejected⟩ ⟨tree, f, t, n, hf, -⟩
    cases hrejected.symm.trans hf
  · intro hnone
    obtain ⟨f, hf⟩ | hrejected := parse_cases hg w
    · obtain ⟨t, n, out, ht, -⟩ := exists_hasTree_of_parse hg hf
      exact absurd ⟨t.plain, f, t, n, hf, ht, rfl⟩ hnone
    · exact hrejected

end Forest

namespace Dialect

open GeneralParsing.Derivation Forest

variable {t : List Char} {tree : PlainTree} {out out' : List PlainTree} {w : List String}

/-! ### Counterparts -/

open GeneralParsing.Dialect.Part in
/-- Which expression of the dialect each expression is **that the rules describe**, rule by rule. -/
def counterparts : List ExprId := [
  -- rules, and what is first met there
  Part.rules, rule, separator, nextRule, nextRules, Part.rules,
  -- rule
  symbol, hiddenSymbol, ruleName, optionalSpace, equals, colon, colonEquals, colonColonEquals,
  definition, definedAs, phrase, rule,
  -- exp
  atom, quantified, sequence, alternation, phrase,
  -- symbol and hiddenSymbol
  name, symbol, 6, openAngle, 8, closeAngle, hiddenSymbol,
  -- omittedSymbol and lex
  omittedPhrase, openAngle, closeAngle, omittedPhrase, lexicalPhrase, 14, openBracket, 16,
  closeBracket, lexicalPhrase,
  -- token
  literal, quoted, literal,
  -- variable
  pattern, 10, openParen, 12, closeParen, paren, atom,
  -- repStar, repPlus and repQuestion
  repStar, 49, star, repStar, repPlus, 51, plus, repPlus, repQuestion, 53, question, repQuestion,
  -- repExact, repMin and repMinMax
  repExact, 0, openBrace, integer, 2, closeBrace, repExact, repMin, openBrace, 4, comma, closeBrace,
  repMin, repMinMax, openBrace, comma, closeBrace, repMinMax,
  -- quantifier, seq_ and seq
  quantified, item, item, space, someSpace, gap, nextItem, nextItems, sequence,
  -- alt_ and alt
  branch, branch, barToken, spacedBar, bar, nextBranch, nextBranches, alternation,
  -- integer and regexp
  digit, integer, 35, hash, pattern,
  -- optionalSpace and ruleSeparator
  space, spaces, optionalSpace, newline, semicolon, separatorMark, spacedSeparator, separator,
  -- identifier
  nameCharacter, nameCharacters, name,
  -- string
  quote, quoteMark, plain, escape, escapeMark, escapedEscape, escapeMark, escapedQuote, piece,
  pieces, string, quoteMark, quoted]

/-- The **counterpart** of an expression in the dialect. -/
def counterpart (id : ExprId) : ExprId := counterparts.getD id 0

/-! ### Expressions at bars

The description has optional blanks around a bar where the dialect has the blanks themselves. All of
it leaves no trace, so it makes no difference, but these expressions have no counterparts. -/

namespace AtBars

def optionalSpace : ExprId := 9
def mark : ExprId := 91
def spacedMark : ExprId := 92
def bar : ExprId := 93
def space : ExprId := 102
def spaces : ExprId := 103

/-- What these expressions **are**. -/
def expressions : List (ExprId × Expr) :=
  [(optionalSpace, .omitted spaces), (mark, .token "|"),
    (spacedMark, .seq none [optionalSpace, mark, optionalSpace]), (bar, .omitted spacedMark),
    (space, .pattern blankPattern), (spaces, .rep none space 0 none)]

end AtBars

/-- A grammar **mirrors the dialect**: it starts with rules, and but for bars its expressions are
their counterparts under other references. -/
structure Mirrors (c : Grammar) : Prop where
  size : c.size = counterparts.length
  start : c.start = 0
  bars : ∀ p ∈ AtBars.expressions, c.expr? p.1 = some p.2
  counterpart : ∀ id < counterparts.length, id ≠ AtBars.spacedMark → id ≠ AtBars.bar →
    (c.expr? id).map (Expr.rename counterpart) = written.expr? (counterpart id)
  children : ∀ id < counterparts.length, id ≠ AtBars.spacedMark → id ≠ AtBars.bar →
    (c.expr? id).all fun e => e.children.all fun child =>
      child < counterparts.length && child != AtBars.spacedMark

/-! ### The grammar that is described

What compiling the rules comes to is computed with a reader that knows just the four patterns in
them. Any other reader that knows these compiles the rules alike. -/

/-- The reader of the four patterns, which **refuses all others**. -/
@[reducible] def fourReader : PatternReader where
  read? source := (patterns.find? fun p =>
    source = p.source.toList ∨ source = Pattern.anchor p.source.toList).map Pattern.anchored

/-- The patterns in the rules are **among the four**, so every reader that knows these reads them
alike. -/
theorem agree_selfRules [known : KnownPatterns] :
    ∀ r ∈ selfRules, r.body.Agree known.toPatternReader fourReader := by
  have hsources : ∀ r ∈ selfRules, ∀ p ∈ r.body.subphrases, ∀ source ∈ p.pattern?,
      source ∈ patterns.map Pattern.source := by
    decide +kernel
  intro r hr source hpattern
  have hsource := hsources r hr _ hpattern source rfl
  simp only [patterns, List.map_cons, List.map_nil, List.mem_cons, List.not_mem_nil,
    or_false] at hsource
  rcases hsource with rfl | rfl | rfl | rfl
  · exact read_namePattern
  · exact read_plainPattern
  · exact read_blankPattern
  · exact read_digitPattern

/-- Whether there are two expressions, **the same but for what their patterns match**. -/
def resemble (x y : Option Expr) : Bool :=
  x.any fun e => y.any fun e' => e.alike e' && e.children == e'.children

/-- Expressions that resemble each other are **the same** if their patterns are read, since they
have the same sources. -/
theorem eq_of_resemble {x y : Option Expr} (h : resemble x y = true)
    (hx : ∀ e ∈ x, @Expr.IsRead fourReader e) (hy : ∀ e ∈ y, @Expr.IsRead fourReader e) :
    x = y := by
  simp only [resemble, Option.any_eq_true, Bool.and_eq_true, beq_iff_eq] at h
  obtain ⟨e, he, e', he', halike, hchildren⟩ := h
  rw [he, he']
  congr 1
  refine Expr.eq_of_alike halike hchildren fun p q hp hq hsource => ?_
  have hread := hx e he p hp
  rw [hsource] at hread
  exact Except.ok.inj (hread.symm.trans (hy e' he' q hq))

theorem isRead_of_mem_expressions {e : Expr} (he : e ∈ expressions.toList) :
    @Expr.IsRead fourReader e := by
  rintro p rfl
  have hp := mem_patterns he
  simp only [patterns, List.mem_cons, List.not_mem_nil, or_false] at hp
  rcases hp with rfl | rfl | rfl | rfl <;> rfl

theorem isRead_rename {e : Expr} (he : @Expr.IsRead fourReader e) (f : ExprId → ExprId) :
    @Expr.IsRead fourReader (e.rename f) := by
  intro p hp
  cases e with
  | pattern => exact he p hp
  | _ => cases hp

theorem isRead_atBars : ∀ p ∈ AtBars.expressions, @Expr.IsRead fourReader p.2 := by
  simp only [AtBars.expressions, List.forall_mem_cons]
  refine ⟨nofun, nofun, nofun, nofun, ?_, nofun, nofun⟩
  rintro _ ⟨⟩
  rfl

/-- Compiled with the reader of the four patterns, the rules of the dialect describe a grammar that
**mirrors it**. -/
theorem exists_mirrors_fourReader :
    ∃ c, @Grammar.ofRules fourReader false selfRules = .ok c ∧ Mirrors c := by
  have hmirrors : (@Grammar.ofRules fourReader false selfRules).toOption.any (fun c => decide (
      c.size = counterparts.length ∧ c.start = 0 ∧
      (∀ p ∈ AtBars.expressions, resemble (c.expr? p.1) (some p.2)) ∧
      (∀ id < counterparts.length, id ≠ AtBars.spacedMark → id ≠ AtBars.bar →
        resemble ((c.expr? id).map (Expr.rename counterpart)) (written.expr? (counterpart id))) ∧
      ∀ id < counterparts.length, id ≠ AtBars.spacedMark → id ≠ AtBars.bar →
        (c.expr? id).all fun e => e.children.all fun child =>
          child < counterparts.length && child != AtBars.spacedMark)) = true := by
    decide +kernel
  cases hc : @Grammar.ofRules fourReader false selfRules with
  | error e =>
    rw [hc] at hmirrors
    cases hmirrors
  | ok c =>
    rw [hc, Except.toOption, Option.any_some, decide_eq_true_eq] at hmirrors
    obtain ⟨hsize, hstart, hbars, hcounterpart, hchildren⟩ := hmirrors
    -- what resembles its counterpart is the same, since all patterns are read from their sources
    have hread : ∀ {id e}, c.expr? id = some e → @Expr.IsRead fourReader e := by
      rintro id e he p rfl
      have hbuilt := @Grammar.built_of_ofRules fourReader _ _ _ hc
      exact @Grammar.Built.patternsRead fourReader c hbuilt p (Array.mem_of_getElem? he)
    have hwritten : ∀ {id}, ∀ e ∈ written.expr? id, @Expr.IsRead fourReader e := fun e he =>
      isRead_of_mem_expressions (Array.mem_toList_iff.mpr (Array.mem_of_getElem? he))
    refine ⟨c, rfl, hsize, hstart, fun p hp => ?_, fun id hlt hmark hbar => ?_, hchildren⟩
    · refine eq_of_resemble (hbars p hp) (fun e he => hread he) ?_
      rintro _ ⟨⟩
      exact isRead_atBars p hp
    · refine eq_of_resemble (hcounterpart id hlt hmark hbar) ?_ hwritten
      intro x hx
      obtain ⟨e, he, rfl⟩ := Option.map_eq_some_iff.mp hx
      exact isRead_rename (hread he) counterpart

/-- The grammar that the rules of the dialect describe **mirrors it**, whatever else the reader of
patterns makes of other sources. -/
theorem exists_mirrors [KnownPatterns] :
    ∃ c, Grammar.ofRules false selfRules = .ok c ∧ Mirrors c := by
  rw [Grammar.ofRules_eq_of_agree agree_selfRules]
  exact exists_mirrors_fourReader

variable {c : Grammar}

/-- Expressions at bars are **counterparts but for their numbers**: the blanks, what they are made
of, and the bar itself. -/
inductive AtBars.Related : ExprId → ExprId → Prop
  | spaces : AtBars.Related Part.spaces AtBars.spaces
  | space : AtBars.Related Part.space AtBars.space
  | mark : AtBars.Related Part.barToken AtBars.mark

/-- At bars a grammar that mirrors the dialect **derives the same words**. There the description
puts a rule of its own, so the expressions are no counterparts. -/
theorem Mirrors.derives_spacedMark_iff (h : Mirrors c) (w : List String) :
    written.Derives Part.spacedBar w ↔ c.Derives AtBars.spacedMark w := by
  have hbars := h.bars
  simp only [AtBars.expressions, List.forall_mem_cons] at hbars
  obtain ⟨hoptional, hmark, hspaced, -, hspace, hspaces, -⟩ := hbars
  have hR : written.Bisimulation c AtBars.Related := by
    rintro a b (_ | _ | _)
    · exact ⟨_, _, rfl, hspaces, .rep .space⟩
    · exact ⟨_, _, rfl, hspace, .pattern blankPattern⟩
    · exact ⟨_, _, rfl, hmark, .token "|"⟩
  -- the two differ in that one of them omits the blanks, which does not change the words
  have hblanks : ∀ w, written.Derives Part.spaces w ↔ c.Derives AtBars.optionalSpace w := fun w =>
    (hR.derives_iff .spaces w).trans (Grammar.derives_omitted_iff hoptional).symm
  have hbar : ∀ w, written.Derives Part.barToken w ↔ c.Derives AtBars.mark w :=
    hR.derives_iff .mark
  have hspacedBar : written.expr? Part.spacedBar =
    some (.seq none [Part.spaces, Part.barToken, Part.spaces]) := rfl
  rw [Grammar.derives_seq_iff hspacedBar, Grammar.derives_seq_iff hspaced]
  exact Grammar.derivesAll_congr (.cons hblanks (.cons hbar (.cons hblanks .nil))) w

/-- An expression **has a counterpart**. -/
def Related (a b : ExprId) : Prop :=
  b < counterparts.length ∧ b ≠ AtBars.spacedMark ∧ a = counterpart b

theorem Mirrors.bisimulation (h : Mirrors c) : written.Bisimulation c Related := by
  rintro a b ⟨hlt, hne, rfl⟩
  by_cases hbar : b = AtBars.bar
  · subst hbar
    have hb : c.expr? AtBars.bar = some (.omitted AtBars.spacedMark) :=
      h.bars (AtBars.bar, .omitted AtBars.spacedMark) (by simp [AtBars.expressions])
    exact ⟨_, _, rfl, hb, .silent h.derives_spacedMark_iff⟩
  · obtain ⟨e, he⟩ := c.exists_expr?_of_lt (h.size ▸ hlt)
    have hcounterpart := h.counterpart b hlt hne hbar
    have hchildren := h.children b hlt hne hbar
    rw [he] at hcounterpart hchildren
    refine ⟨_, e, hcounterpart.symm, he, Expr.agree_rename fun child hchild => ?_⟩
    have hin := List.all_eq_true.mp (Option.all_some.symm.trans hchildren) child hchild
    simp only [Bool.and_eq_true, decide_eq_true_eq, bne_iff_ne] at hin
    exact ⟨hin.1, hin.2, rfl⟩

/-! ### The tree of a text -/

/-- A text has **only one output**. -/
theorem output_unique (hout : Yields written true Part.text w out)
    (hout' : Yields written true Part.text w out') : out = out' := by
  obtain ⟨d, hd, hroot, hyield, rfl⟩ := hout
  obtain ⟨d', hd', hroot', hyield', rfl⟩ := hout'
  exact (clear_written w d d' hd hd' hroot hroot' hyield hyield').output_eq

/-- A grammar that mirrors the dialect derives **what is left of a text** with the output of the
text. -/
theorem Mirrors.yields_iff (h : Mirrors c) :
    Yields c true c.start (characters (withoutSemicolon t)) out ↔
      Yields written true Part.text (characters (Text.trim t)) out := by
  rw [yields_text_iff, h.start]
  have hlt : 0 < counterparts.length := List.length_pos_iff.mpr (List.cons_ne_nil _ _)
  have hrules : Related Part.rules 0 := ⟨hlt, by decide, rfl⟩
  exact (h.bisimulation.yields_iff hrules).symm

theorem parse_eq [KnownPatterns] (t : List Char) :
    parse t = match Forest.parse written (characters (Text.trim t)) with
      | .ok forest => forest.extract {}
      | .error (.rejected p) => .error (refuse t (t.length - (Text.trimStart t).length + p))
      | .error (.broken fault) => .error (.broken fault) := by
  rw [parse, grammar_eq]
  rfl

/-- Parsing a text **comes to the tree** that the grammar of the dialect gives it. The numbers of
families are left out, as they depend on the forest. -/
theorem parse_iff_hasTree [KnownPatterns] : (∃ u n, parse t = .ok (u, n) ∧ u.plain = tree) ↔
    HasTree written (characters (Text.trim t)) tree := by
  rw [parse_eq]
  constructor
  · rintro ⟨u, n, hparse, rfl⟩
    cases hf : Forest.parse written (characters (Text.trim t)) with
    | ok f =>
      rw [hf] at hparse
      exact ⟨f, u, n, hf, hparse, rfl⟩
    | error stop =>
      rw [hf] at hparse
      cases stop <;> cases hparse
  · rintro ⟨f, u, n, hf, hu, rfl⟩
    exact ⟨u, n, by rw [hf]; exact hu, rfl⟩

/-- **The dialect parses itself.** Its description compiles, and of every text the compiled grammar
parses what is left without the blanks around it and without a semicolon at its end: into the tree
of the text, and it rejects what is left just when the text is refused. -/
theorem parses_itself [KnownPatterns] :
    ∃ c, Grammar.compile false selfDescription.toList = .ok c ∧ ∀ t : List Char,
      (∀ tree : PlainTree, (∃ u n, parse t = .ok (u, n) ∧ u.plain = tree) ↔
        HasTree c (characters (withoutSemicolon t)) tree) ∧
      ((∃ e, parse t = .error e) ↔ ∃ position,
        Forest.parse c (characters (withoutSemicolon t)) = .error (.rejected position)) := by
  obtain ⟨c, hc, hmirrors⟩ := exists_mirrors
  have hcompile : Grammar.compile false selfDescription.toList = .ok c := by
    rw [Grammar.compile, rules_selfDescription, ok_bind, hc]
  have hclosed := (Grammar.built_of_compile hcompile).closed
  refine ⟨c, hcompile, fun t => ?_⟩
  -- both grammars give a word at most one output, and the outputs are the same
  have htree : ∀ tree, HasTree written (characters (Text.trim t)) tree ↔
      HasTree c (characters (withoutSemicolon t)) tree := by
    intro tree
    rw [hasTree_iff closed_written output_unique, hasTree_iff hclosed fun hout hout' =>
      output_unique (hmirrors.yields_iff.mp hout) (hmirrors.yields_iff.mp hout')]
    simp only [hmirrors.yields_iff]
    rfl
  refine ⟨fun tree => parse_iff_hasTree.trans (htree tree), ?_⟩
  rw [rejected_iff hclosed]
  simp only [← htree, ← parse_iff_hasTree]
  cases hparse : parse t with
  | ok result =>
    obtain ⟨u, n⟩ := result
    simp
  | error e => simp

end Dialect

end GeneralParsing
