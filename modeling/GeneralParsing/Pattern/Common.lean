import GeneralParsing.Pattern.Basic
import GeneralParsing.Pattern.CharSet
import GeneralParsing.Pattern.Escape
import GeneralParsing.Pattern.Lexeme

/-!
# A reader of regular expressions

A reader to run: it knows character classes, the usual escapes, anchors, groups with modes and
names, and repetition counts. `Common.next` says what stands first in a text, and the rest is
reading lexeme by lexeme. It has no classes of Unicode properties, and knows no bound on the size of
an expression. What is proved of patterns does not rest on this reader but on any that does what is
asked of it; this one shows that there is one.

A text that is not a regular expression is simply refused; `Common.read?` gives no reason. The modes
`u`, `U` and `R` are recognised and change nothing: the first two do not matter for whether a match
exists in texts of characters, and the third concerns line ends only.
-/

namespace GeneralParsing

namespace Common

/-! ### Items -/

/-- A **condition on a place** that consumes nothing. -/
inductive Anchor where
  /-- The beginning of the text. -/
  | textStart
  /-- The end of the text. -/
  | textEnd
  /-- The beginning of a line. -/
  | lineStart
  /-- The end of a line. -/
  | lineEnd
  /-- Between a word character and a place without one. -/
  | wordEdge
  /-- Anywhere but at a word edge. -/
  | noWordEdge
  /-- A word edge with the word after it. -/
  | wordStart
  /-- A word edge with the word before it. -/
  | wordEnd
  deriving Repr, DecidableEq

/-- Whether the nearest of these characters is a word character. -/
def nearestIsWord (cs : List Char) : Bool := cs.head?.any isWordCharacter

/-- Whether an anchor **holds** at a place. -/
def Anchor.holds : Anchor → Cursor → Bool
  | textStart, c => c.before.isEmpty
  | textEnd, c => c.after.isEmpty
  | lineStart, c => c.before.isEmpty || c.before.head? == some '\n'
  | lineEnd, c => c.after.isEmpty || c.after.head? == some '\n'
  | wordEdge, c => nearestIsWord c.before != nearestIsWord c.after
  | noWordEdge, c => nearestIsWord c.before == nearestIsWord c.after
  | wordStart, c => !nearestIsWord c.before && nearestIsWord c.after
  | wordEnd, c => nearestIsWord c.before && !nearestIsWord c.after

/-- An **item** of the regular expressions that are read here. -/
inductive Item where
  /-- One character of the set. -/
  | set (chars : CharSet)
  /-- The empty text, at a place where the anchor holds. -/
  | look (anchor : Anchor)
  deriving Repr, DecidableEq

/-- The places where a match of an item that begins at the cursor **can end**. -/
def Item.ends : Item → Cursor → List Cursor
  | set chars, c =>
    match c.after with
    | [] => []
    | x :: rest => if chars.mem x then [⟨x :: c.before, rest⟩] else []
  | look anchor, c => if anchor.holds c then [c] else []

/-! ### Modes -/

/-- The **modes** that a pattern can switch. -/
structure Flags where
  /-- Letters match in either case. -/
  ignoreCase : Bool := false
  /-- The anchors `^` and `$` also hold at line ends. -/
  multiLine : Bool := false
  /-- The dot matches a newline too. -/
  dotAll : Bool := false
  /-- Blanks and remarks in the pattern are skipped. -/
  verbose : Bool := false
  deriving Repr, DecidableEq

/-- Drops **blanks and remarks**. A remark begins with `#` and lasts to the end of the line; the
first argument says whether the text begins within one. -/
def dropRemarks : Bool → List Char → List Char
  | _, [] => []
  | true, c :: rest => dropRemarks (c != '\n') rest
  | false, c :: rest =>
    if isBlank c then dropRemarks false rest
    else if c = '#' then dropRemarks true rest
    else c :: rest

/-- Skips what a verbose pattern does not mean. -/
def Flags.skip (flags : Flags) (cs : List Char) : List Char :=
  if flags.verbose then dropRemarks false cs else cs

/-- The set, in either case where the mode asks for it. -/
def Flags.cased (flags : Flags) (chars : CharSet) : CharSet :=
  if flags.ignoreCase then .anyCase chars else chars

/-! ### Escapes -/

/-- What an **escape** stands for. -/
inductive Escaped where
  /-- A character. -/
  | char (c : Char)
  /-- A class of characters. -/
  | set (chars : CharSet)
  /-- A condition on the place. -/
  | anchor (a : Anchor)

/-- The value of a hexadecimal digit. -/
def hexValue? (c : Char) : Option Nat :=
  if '0' ≤ c ∧ c ≤ '9' then some (c.toNat - '0'.toNat)
  else if 'a' ≤ c ∧ c ≤ 'f' then some (c.toNat - 'a'.toNat + 10)
  else if 'A' ≤ c ∧ c ≤ 'F' then some (c.toNat - 'A'.toNat + 10)
  else none

/-- The character with this code point, if there is one. -/
def charOfCode? (n : Nat) : Option Char :=
  if h : n.isValidChar then some (Char.ofNatAux n h) else none

/-- Reads exactly `width` **hexadecimal digits** onto the value so far. -/
def hexDigits (flags : Flags) : Nat → Nat → List Char → Option (Nat × List Char)
  | 0, value, cs => some (value, cs)
  | width + 1, value, cs =>
    match cs with
    | [] => none
    | c :: rest => do
      let digit ← hexValue? c
      hexDigits flags width (16 * value + digit) (flags.skip rest)

/-- Reads hexadecimal digits **up to a closing brace**, at least one. -/
def bracedHex (flags : Flags) : Nat → Option Nat → List Char → Option (Nat × List Char)
  | 0, _, _ => none
  | fuel + 1, value, cs =>
    match flags.skip cs with
    | [] => none
    | '\x7d' :: rest => do
      let value ← value
      return (value, flags.skip rest)
    | c :: rest => do
      let digit ← hexValue? c
      bracedHex flags fuel (some (16 * value.getD 0 + digit)) rest

/-- Reads the digits of a **code point**, in braces or with a fixed width. -/
def codePoint (flags : Flags) (width : Nat) (cs : List Char) : Option (Char × List Char) := do
  let (value, rest) ← match flags.skip cs with
    | '\x7b' :: rest => bracedHex flags (rest.length + 1) none rest
    | cs => hexDigits flags width 0 cs
  return (← charOfCode? value, rest)

/-- Whether a backslash makes the character **literal** although it is no operator. -/
def isEscapable (c : Char) : Bool :=
  Pattern.isOperator c || (c.toNat < 128 && !c.isAlphanum && c != '<' && c != '>')

/-- Reads an **escape**, the backslash being gone. -/
def escaped (flags : Flags) : List Char → Option (Escaped × List Char)
  | [] => none
  | c :: rest =>
    match c with
    | 'x' => (codePoint flags 2 rest).map fun (c, rest) => (.char c, rest)
    | 'u' => (codePoint flags 4 rest).map fun (c, rest) => (.char c, rest)
    | 'U' => (codePoint flags 8 rest).map fun (c, rest) => (.char c, rest)
    | 'd' => some (.set .digit, rest)
    | 's' => some (.set .blank, rest)
    | 'w' => some (.set .word, rest)
    | 'D' => some (.set (.compl .digit), rest)
    | 'S' => some (.set (.compl .blank), rest)
    | 'W' => some (.set (.compl .word), rest)
    | 'a' => some (.char '\x07', rest)
    | 'f' => some (.char '\x0c', rest)
    | 't' => some (.char '\t', rest)
    | 'n' => some (.char '\n', rest)
    | 'r' => some (.char '\r', rest)
    | 'v' => some (.char '\x0b', rest)
    | 'A' => some (.anchor .textStart, rest)
    | 'z' => some (.anchor .textEnd, rest)
    | 'b' => some (.anchor .wordEdge, rest)
    | 'B' => some (.anchor .noWordEdge, rest)
    | '<' => some (.anchor .wordStart, rest)
    | '>' => some (.anchor .wordEnd, rest)
    | c => if isEscapable c then some (.char c, rest) else none

/-! ### Classes in brackets -/

/-- The **named ASCII classes** of the form `[:name:]`. -/
def asciiClass? (name : String) : Option CharSet :=
  match name with
  | "alnum" => some (.ofRanges [('0', '9'), ('A', 'Z'), ('a', 'z')])
  | "alpha" => some (.ofRanges [('A', 'Z'), ('a', 'z')])
  | "ascii" => some (.range '\x00' '\x7f')
  | "blank" => some (.ofRanges [('\t', '\t'), (' ', ' ')])
  | "cntrl" => some (.ofRanges [('\x00', '\x1f'), ('\x7f', '\x7f')])
  | "digit" => some (.range '0' '9')
  | "graph" => some (.range '!' '~')
  | "lower" => some (.range 'a' 'z')
  | "print" => some (.range ' ' '~')
  | "punct" => some (.ofRanges [('!', '/'), (':', '@'), ('[', '\x60'), ('\x7b', '~')])
  | "space" => some (.ofRanges [('\t', '\r'), (' ', ' ')])
  | "upper" => some (.range 'A' 'Z')
  | "word" => some (.ofRanges [('0', '9'), ('A', 'Z'), ('_', '_'), ('a', 'z')])
  | "xdigit" => some (.ofRanges [('0', '9'), ('A', 'F'), ('a', 'f')])
  | _ => none

/-- Reads `:name:]` or `:^name:]`, the bracket before it being gone. -/
def namedClass? : List Char → Option (CharSet × List Char)
  | ':' :: cs =>
    let (negated, cs) := match cs with
      | '^' :: rest => (true, rest)
      | cs => (false, cs)
    match cs.dropWhile (· != ':') with
    | ':' :: ']' :: rest =>
      (asciiClass? (String.ofList (cs.takeWhile (· != ':')))).map fun chars =>
        (.negateIf negated chars, rest)
    | _ => none
  | _ => none

/-- The **operators between sets** inside brackets. -/
inductive SetOperator where
  /-- What both sides hold. -/
  | inter
  /-- What only the left side holds. -/
  | diff
  /-- What exactly one side holds. -/
  | symmDiff

/-- Applies a set operator. -/
def SetOperator.apply : SetOperator → CharSet → CharSet → CharSet
  | inter, a, b => .inter a b
  | diff, a, b => .diff a b
  | symmDiff, a, b => .symmDiff a b

/-- Applies the operator that was waiting for its right side, if one was. -/
def applyWaiting (flags : Flags) (waiting : Option (SetOperator × CharSet)) (items : CharSet) :
    CharSet :=
  match waiting with
  | none => items
  | some (op, left) => op.apply (flags.cased left) (flags.cased items)

/-- Reads the **beginning of a bracket**: whether it is negated, and the characters that are
literal only in this place, hyphens and a closing bracket. -/
def openBracket (flags : Flags) (cs : List Char) : Option (Bool × CharSet × List Char) :=
  let (negated, cs) := match flags.skip cs with
    | '^' :: rest => (true, flags.skip rest)
    | cs => (false, cs)
  let rec hyphens (fuel : Nat) (items : CharSet) (cs : List Char) : CharSet × List Char :=
    match fuel, cs with
    | fuel + 1, '-' :: rest => hyphens fuel (.union items (.single '-')) (flags.skip rest)
    | _, cs => (items, cs)
  let (items, cs) := hyphens cs.length .empty cs
  match items, cs with
  | .empty, ']' :: rest => some (negated, .single ']', rest)
  | _, [] => none
  | items, cs => some (negated, items, cs)

/-- Reads **one element** of a bracket. -/
def element (flags : Flags) : List Char → Option (Escaped × List Char)
  | [] => none
  | '\\' :: rest => escaped flags rest
  | c :: rest => some (.char c, rest)

/-- Reads **one element or range** of a bracket. -/
def elementOrRange (flags : Flags) (cs : List Char) : Option (CharSet × List Char) := do
  let (first, rest) ← element flags cs
  let alone : Option (CharSet × List Char) := match first with
    | .char c => some (.single c, flags.skip rest)
    | .set chars => some (chars, flags.skip rest)
    | .anchor _ => none
  match flags.skip rest with
  | [] => none
  | '-' :: more =>
    match flags.skip more with
    | [] => none
    | ']' :: _ => alone
    | '-' :: _ => alone
    | more =>
      let (last, rest) ← element flags more
      match first, last with
      | .char a, .char b => if a ≤ b then some (.range a b, rest) else none
      | _, _ => none
  | _ => alone

/-- Reads the **rest of a bracket** through its closing bracket. -/
def bracketFrom (flags : Flags) : Nat → Bool → Option (SetOperator × CharSet) → CharSet →
    List Char → Option (CharSet × List Char)
  | 0, _, _, _, _ => none
  | fuel + 1, negated, waiting, items, cs =>
    let operator (op : SetOperator) (rest : List Char) :=
      bracketFrom flags fuel negated (some (op, applyWaiting flags waiting items)) .empty rest
    match flags.skip cs with
    | [] => none
    | ']' :: rest =>
      some (.negateIf negated (flags.cased (applyWaiting flags waiting items)), rest)
    | '[' :: rest =>
      match namedClass? rest with
      | some (chars, rest) => bracketFrom flags fuel negated waiting (.union items chars) rest
      | none => do
        let (negated', items', rest) ← openBracket flags rest
        let (chars, rest) ← bracketFrom flags fuel negated' none items' rest
        bracketFrom flags fuel negated waiting (.union items chars) rest
    | '&' :: '&' :: rest => operator .inter rest
    | '-' :: '-' :: rest => operator .diff rest
    | '~' :: '~' :: rest => operator .symmDiff rest
    | cs => do
      let (chars, rest) ← elementOrRange flags cs
      bracketFrom flags fuel negated waiting (.union items chars) rest

/-- Reads a **class in brackets**, the opening bracket being gone. -/
def bracket (flags : Flags) (cs : List Char) : Option (CharSet × List Char) := do
  let (negated, items, rest) ← openBracket flags cs
  bracketFrom flags (cs.length + 1) negated none items rest

/-! ### Repetition counts -/

/-- Reads the digits of a **decimal number**, onto the value so far if there is one. -/
def decimalDigits (flags : Flags) : Nat → Option Nat → List Char → Option Nat × List Char
  | 0, value, cs => (value, cs)
  | fuel + 1, value, cs =>
    match cs with
    | [] => (value, [])
    | c :: rest =>
      if c.isDigit then
        let digit := c.toNat - '0'.toNat
        decimalDigits flags fuel (some (10 * value.getD 0 + digit)) (flags.skip rest)
      else (value, cs)

/-- Reads a **decimal number** below `2 ^ 32`, with blanks around it. -/
def decimal (flags : Flags) (cs : List Char) : Option (Nat × List Char) :=
  let cs := cs.dropWhile isBlank
  match decimalDigits flags cs.length none cs with
  | (some n, rest) => if n < Nat.pow 2 32 then some (n, rest.dropWhile isBlank) else none
  | (none, _) => none

/-- Reads **counts in braces**, the opening brace being gone. -/
def counts (flags : Flags) (cs : List Char) : Option ((Nat × Option Nat) × List Char) := do
  let (low, rest) ← decimal flags (flags.skip cs)
  match rest with
  | '\x7d' :: rest => some ((low, some low), rest)
  | ',' :: rest =>
    match flags.skip rest with
    | '\x7d' :: rest => some ((low, none), rest)
    | rest =>
      match ← decimal flags rest with
      | (high, '\x7d' :: rest) => if low ≤ high then some ((low, some high), rest) else none
      | _ => none
  | _ => none

/-! ### Groups and flags -/

/-- Reads **mode letters** up to a colon or a closing parenthesis. The letters seen so far and
whether a minus has been seen, and whether it was the last thing, come first. -/
def modeLetters : List Char → Bool → Bool → Flags → List Char →
    Option (Flags × Bool × List Char)
  | _, _, _, _, [] => none
  | seen, off, dangling, flags, c :: rest =>
    if c = ':' ∨ c = ')' then
      if dangling then none else some (flags, seen.isEmpty, c :: rest)
    else if c = '-' then
      if off then none else modeLetters seen true true flags rest
    else if seen.contains c then none
    else
      let go flags := modeLetters (c :: seen) off false flags rest
      match c with
      | 'i' => go { flags with ignoreCase := !off }
      | 'm' => go { flags with multiLine := !off }
      | 's' => go { flags with dotAll := !off }
      | 'x' => go { flags with verbose := !off }
      | 'u' | 'U' | 'R' => go flags
      | _ => none

/-- Whether a character may **begin a group name**. -/
def beginsName (c : Char) : Bool :=
  c == '_' || c.isAlpha || (c.toNat ≥ 128 && isWordCharacter c && !isDecimalDigit c)

/-- Whether a character may **stand in a group name**. -/
def inName (c : Char) : Bool :=
  beginsName c || c == '.' || c == '[' || c == ']' || isDecimalDigit c

/-- Reads a **group name** through the closing angle. -/
def groupName? (cs : List Char) : Option (List Char × List Char) :=
  match cs.takeWhile (· != '>'), cs.dropWhile (· != '>') with
  | c :: name, '>' :: rest =>
    if beginsName c && name.all inName then some (c :: name, rest) else none
  | _, _ => none

/-- What follows an **opening parenthesis**. -/
inductive Opening where
  /-- A group, with the modes that hold in it and its name if it has one. -/
  | group (flags : Flags) (name : Option (List Char))
  /-- A change of mode for what follows in the enclosing group. -/
  | modes (flags : Flags)

/-- Reads the **beginning of a group**, the parenthesis being gone. Looking ahead or behind is
refused. -/
def opening (flags : Flags) (cs : List Char) : Option (Opening × List Char) :=
  let named (cs : List Char) :=
    (groupName? cs).map fun (name, rest) => (Opening.group flags (some name), rest)
  match flags.skip cs with
  | '?' :: '=' :: _ => none
  | '?' :: '!' :: _ => none
  | '?' :: '<' :: '=' :: _ => none
  | '?' :: '<' :: '!' :: _ => none
  | '?' :: 'P' :: '<' :: rest => named rest
  | '?' :: '<' :: rest => named rest
  | '?' :: rest => do
    let (flags, none?, rest) ← modeLetters [] false false flags rest
    match rest with
    | ':' :: rest => some (.group flags none, rest)
    | ')' :: rest => if none? then none else some (.modes flags, rest)
    | _ => none
  | cs => some (.group flags none, cs)

/-! ### Lexemes -/

/-- Drops the mark of **lazy repetition**. -/
def dropLazyMark : List Char → List Char
  | '?' :: rest => rest
  | cs => cs

/-- What an escape stands for, **as an item**. -/
def Escaped.item (flags : Flags) : Escaped → Item
  | .char c => .set (flags.cased (.single c))
  | .set chars => .set chars
  | .anchor a => .look a

/-- What the beginning of a group **stands for**. -/
def Opening.lexeme : Opening → Lexeme Item Flags
  | .group flags name => .opening flags name
  | .modes flags => .switch flags

/-- Reads the **lexeme** that begins with a character. -/
def lexeme? (flags : Flags) (c : Char) (rest : List Char) :
    Option (Lexeme Item Flags × List Char) :=
  match c with
  | '(' => (opening flags rest).map fun (o, rest) => (o.lexeme, rest)
  | ')' => some (.closing, rest)
  | '|' => some (.bar, rest)
  | '[' => (bracket flags rest).map fun (chars, rest) => (.item (.set chars), rest)
  | '?' => some (.repeated 0 (some 1), dropLazyMark rest)
  | '*' => some (.repeated 0 none, dropLazyMark rest)
  | '+' => some (.repeated 1 none, dropLazyMark rest)
  | '\x7b' => (counts flags rest).map fun ((min, max), rest) =>
    (.repeated min max, dropLazyMark (flags.skip rest))
  | '\\' => (escaped flags rest).map fun (e, rest) => (.item (e.item flags), rest)
  | '.' => some (.item (.set (if flags.dotAll then .all else .compl (.single '\n'))), rest)
  | '^' => some (.item (.look (if flags.multiLine then .lineStart else .textStart)), rest)
  | '$' => some (.item (.look (if flags.multiLine then .lineEnd else .textEnd)), rest)
  | c => some (.item (.set (flags.cased (.single c))), rest)

/-- What **stands first** in a text, behind blanks and remarks. -/
def next (flags : Flags) (cs : List Char) : Lexed Item Flags :=
  match flags.skip cs with
  | [] => .done
  | c :: rest =>
    match lexeme? flags c rest with
    | some (l, rest) => .lexeme l rest
    | none => .refused

/-! ### The reader -/

/-- **Reads** a regular expression. -/
def read? (text : List Char) : Option (Regex Item) :=
  Progress.finish? next (text.length + 1) { modes := {} } text

/-- Regular expressions are read, and **searched for by listing the ends** of their matches. -/
scoped instance reader : PatternReader where
  read? source := (read? source).map fun r => r.occursIn Item.ends

end Common

end GeneralParsing
