import GeneralParsing.Proofs.Text.Quoting
import GeneralParsing.Proofs.Tree.Tiling
import GeneralParsing.Tree.Print

/-!
# Printed trees can be read back

A printed tree has a line for each of its parts, in order. A line is indented by a block of four
characters for each level, and none of the characters that blocks start with can start a label, so
that the level and the label can be read off it (`Shows.unique`). A label tells the tag, the value
and the span, provided that tags are made of characters that have no meaning there
(`Label.render_inj`): a value is quoted, and no text in it can look like a label, a span or a
branch.

The levels and the labels in order are the **outline** of a tree, and they tell the tree: a part
goes on as long as the levels are deeper than its own (`outline_append_inj`). So trees with labels
that can be read back print the same just when they are the same (`print_eq_print_iff`).
-/

namespace GeneralParsing

open Text

/-! ### Labels -/

/-- A tag that **shows as what it is**: none of its characters has a meaning in print. -/
def Showable (tag : String) : Prop :=
  tag.toList ≠ [] ∧ ∀ c ∈ tag.toList, c ∉ [' ', '"', '<', '|', '\x60', '\n']

namespace Label

/-- A label that **can be read back**: its tag shows, and there is neither a tag nor a value if it
is packed. -/
structure Shown (label : Label) : Prop where
  packed : label.packed = true → label.tag = none ∧ label.value = none
  tag : ∀ tag, label.tag = some tag → Showable tag

/-- What a label **begins with**: its tag, or a mark of what has none. -/
def front (label : Label) : List Char :=
  if label.packed then "<packed>".toList
  else match label.tag, label.value with
    | some tag, _ => tag.toList
    | none, some _ => []
    | none, none => "<group>".toList

/-- A value **behind a tag**, or alone. -/
def valueText (tagged : Bool) : Option String → List Char
  | some value => (if tagged then [' '] else []) ++ (quote value).toList
  | none => []

/-- A span **behind anything else**. -/
def spanText : Option Span → List Char
  | some span =>
    ' ' :: '@' :: (Nat.toDigits 10 span.start ++ '.' :: '.' :: Nat.toDigits 10 span.stop)
  | none => []

variable {l l' : Label} {s s' : Option Span} {v v' : Option String}

/-- A label prints as its front, **then its value, then its span**. -/
theorem Shown.toList_render (h : l.Shown) :
    l.render.toList = l.front ++ (valueText l.tag.isSome l.value ++ spanText l.span) := by
  have hat : (toString " @").toList = [' ', '@'] := rfl
  have hdots : (toString "..").toList = ['.', '.'] := rfl
  obtain ⟨tag, value, span, packed⟩ := l
  cases packed with
  | true =>
    obtain ⟨rfl, rfl⟩ := h.packed rfl
    cases span <;> simp [render, front, valueText, spanText, hat, hdots]
  | false =>
    cases tag <;> cases value <;> cases span <;>
      simp [render, front, valueText, spanText, hat, hdots]

theorem isDigit_of_mem {n : Nat} : ∀ c ∈ Nat.toDigits 10 n, c.isDigit = true :=
  fun _ hc => Nat.isDigit_of_mem_toDigits (by decide) (by decide) hc

/-- Numbers with **the same digits** are the same. -/
theorem toDigits_inj {m n : Nat} (h : Nat.toDigits 10 m = Nat.toDigits 10 n) : m = n := by
  rw [← Nat.ofDigitChars_ten_toDigits (n := m), h, Nat.ofDigitChars_ten_toDigits]

/-- **A span** is told by its text. -/
theorem spanText_inj (h : spanText s = spanText s') : s = s' := by
  cases s with
  | none =>
    cases s' with
    | none => rfl
    | some b => cases h
  | some a =>
    cases s' with
    | none => cases h
    | some b =>
      have hdigits := (List.cons.inj (List.cons.inj h).2).2
      obtain ⟨hstart, hrest⟩ :=
        append_inj_of_ends (p := (Char.isDigit · = true)) isDigit_of_mem isDigit_of_mem (by simp)
          (by simp) hdigits
      have hstop := (List.cons.inj (List.cons.inj hrest).2).2
      obtain ⟨start, stop⟩ := a
      obtain ⟨start', stop'⟩ := b
      rw [Option.some.injEq, Span.mk.injEq]
      exact ⟨toDigits_inj hstart, toDigits_inj hstop⟩

/-- **A value and a span** are told by their texts, if it is known whether there is a tag. A quoted
value ends at its second quote, and a span begins with a sign of its own. -/
theorem valueText_append_inj {tagged : Bool}
    (h : valueText tagged v ++ spanText s = valueText tagged v' ++ spanText s') :
    v = v' ∧ s = s' := by
  have hspan : ∀ (s : Option Span) (value : String) (rest : List Char),
      spanText s ≠ valueText tagged (some value) ++ rest := by
    intro s value rest
    cases s <;> cases tagged <;> simp [spanText, valueText, toList_quote]
  cases v with
  | none =>
    cases v' with
    | none => exact ⟨rfl, spanText_inj h⟩
    | some value' => exact absurd h (hspan s value' _)
  | some value =>
    cases v' with
    | none => exact absurd h.symm (hspan s' value _)
    | some value' =>
      rw [valueText, valueText, List.append_assoc, List.append_assoc] at h
      obtain ⟨rfl, hrest⟩ := quote_append_inj (List.append_cancel_left h)
      exact ⟨rfl, spanText_inj hrest⟩

/-- The **three kinds** of label: packed, tagged and others. -/
theorem Shown.front_cases (h : l.Shown) :
    (l.packed = true ∧ l.tag = none ∧ l.front = "<packed>".toList) ∨
      (l.packed = false ∧ ∃ tag, l.tag = some tag ∧ Showable tag ∧ l.front = tag.toList) ∨
      l.packed = false ∧ l.tag = none ∧
        (l.value.isSome ∧ l.front = [] ∨ l.front = "<group>".toList) := by
  have hshows := h.tag
  have hpacked := h.packed
  obtain ⟨tag, value, span, packed⟩ := l
  cases packed with
  | true => exact .inl ⟨rfl, (hpacked rfl).1, rfl⟩
  | false =>
    cases tag with
    | some tag => exact .inr (.inl ⟨rfl, tag, rfl, hshows tag rfl, rfl⟩)
    | none => cases value with
      | some value => exact .inr (.inr ⟨rfl, rfl, .inl ⟨rfl, rfl⟩⟩)
      | none => exact .inr (.inr ⟨rfl, rfl, .inr rfl⟩)

/-- The front of a label ends before **the first blank or quote**, since none is in a tag that
shows. -/
theorem Shown.front_ends (h : l.Shown) : ∀ c ∈ l.front, c ∉ [' ', '"'] := by
  rcases h.front_cases with ⟨-, -, hf⟩ | ⟨-, tag, -, hshows, hf⟩ | ⟨-, -, ⟨-, hf⟩ | hf⟩ <;> rw [hf]
  · simp
  · exact fun c hc hmem => hshows.2 c hc (by simp at hmem ⊢; tauto)
  · simp
  · simp

/-- What is behind the front begins **with a blank or a quote**, so that the front can be cut off
there. -/
theorem back_begins {tagged : Bool} : ∀ c ∈ (valueText tagged v ++ spanText s).head?,
    ¬ c ∉ [' ', '"'] := by
  cases v <;> cases s <;> cases tagged <;> simp [valueText, spanText, toList_quote]

/-- **Whether it is packed and which tag it has**, from what a label begins with. -/
def readFront (cs : List Char) : Bool × Option String :=
  if cs = "<packed>".toList then (true, none)
  else if cs = [] ∨ cs = "<group>".toList then (false, none)
  else (false, some (String.ofList cs))

/-- From the front of a label it can be read **whether it is packed and which tag it has**. -/
theorem Shown.readFront_front (h : l.Shown) : readFront l.front = (l.packed, l.tag) := by
  rcases h.front_cases with ⟨hp, ht, hf⟩ | ⟨hp, tag, ht, hshows, hf⟩ | ⟨hp, ht, ⟨-, hf⟩ | hf⟩ <;>
    rw [hf, hp, ht]
  · rfl
  · have hangle : '<' ∉ tag.toList := fun hmem => hshows.2 '<' hmem (by simp)
    have hne : ∀ cs, '<' ∈ cs → tag.toList ≠ cs := fun cs hmem heq => hangle (heq ▸ hmem)
    rw [readFront, if_neg (hne _ (by simp)), if_neg (not_or.mpr ⟨hshows.1, hne _ (by simp)⟩),
      String.ofList_toList]
  · rfl
  · rfl

/-- Labels with the same front **have the same tag**, and both are packed or neither. -/
theorem front_inj (h : l.Shown) (h' : l'.Shown) (hfront : l.front = l'.front) :
    l.packed = l'.packed ∧ l.tag = l'.tag := by
  rw [← Prod.mk.injEq, ← h.readFront_front, ← h'.readFront_front, hfront]

/-- **A label** is told by its text. That needs tags that are names, since any other text could look
like a value. -/
theorem render_inj (h : l.Shown) (h' : l'.Shown) (heq : l.render = l'.render) : l = l' := by
  have htexts := congrArg String.toList heq
  rw [h.toList_render, h'.toList_render] at htexts
  -- nothing in front is a blank or a quote, and what follows begins with one
  obtain ⟨hfront, hback⟩ := append_inj_of_ends h.front_ends h'.front_ends back_begins
    back_begins htexts
  obtain ⟨hpacked, htag⟩ := front_inj h h' hfront
  rw [htag] at hback
  obtain ⟨hvalue, hspan⟩ := valueText_append_inj hback
  obtain ⟨tag, value, span, packed⟩ := l
  obtain ⟨tag', value', span', packed'⟩ := l'
  rw [Label.mk.injEq]
  exact ⟨htag, hvalue, hspan, hpacked⟩

/-- A label **stays on one line**. -/
theorem Shown.newline_not_mem_render (h : l.Shown) : '\n' ∉ l.render.toList := by
  have hfront : '\n' ∉ l.front := by
    rcases h.front_cases with ⟨-, -, hf⟩ | ⟨-, tag, -, hshows, hf⟩ | ⟨-, -, ⟨-, hf⟩ | hf⟩ <;>
      rw [hf]
    · simp
    · exact fun hmem => hshows.2 _ hmem (by simp)
    · simp
    · simp
  have hvalue : '\n' ∉ valueText l.tag.isSome l.value := by
    cases l.value <;> cases l.tag <;> simp [valueText, newline_not_mem_quote]
  have hspan : '\n' ∉ spanText l.span := by
    have hdigits : ∀ n, '\n' ∉ Nat.toDigits 10 n := fun n hmem =>
      absurd (isDigit_of_mem _ hmem) (by decide)
    cases l.span <;> simp [spanText, hdigits]
  rw [h.toList_render]
  simp only [List.mem_append, not_or]
  exact ⟨hfront, hvalue, hspan⟩

/-- A label begins with a character that **no indentation begins with**. -/
theorem Shown.exists_render_eq_cons (h : l.Shown) :
    ∃ c rest, l.render.toList = c :: rest ∧ c ∉ ['|', '\x60', ' '] := by
  have hpacked : "<packed>".toList = '<' :: "packed>".toList := rfl
  have hgroup : "<group>".toList = '<' :: "group>".toList := rfl
  rw [h.toList_render]
  rcases h.front_cases with ⟨-, -, hf⟩ | ⟨-, tag, -, hshows, hf⟩ | ⟨-, htag, ⟨hvalue, hf⟩ | hf⟩ <;>
    rw [hf]
  · rw [hpacked]
    exact ⟨'<', _, rfl, by decide⟩
  · obtain ⟨c, cs, hcs⟩ := List.exists_cons_of_ne_nil hshows.1
    have hc := hshows.2 c (hcs ▸ List.mem_cons_self)
    rw [hcs]
    exact ⟨c, _, rfl, by simp at hc ⊢; tauto⟩
  · obtain ⟨value, hvalue⟩ := Option.isSome_iff_exists.mp hvalue
    rw [hvalue, htag, valueText, toList_quote]
    exact ⟨'"', _, rfl, by decide⟩
  · rw [hgroup]
    exact ⟨'<', _, rfl, by decide⟩

end Label

/-! ### Lines -/

/-- The blocks that **indentation** is made of. -/
def blocks : List (List Char) := ["|-- ".toList, "\x60-- ".toList, "|   ".toList, "    ".toList]

/-- An indentation **of a depth** has a block for each level. -/
def Indents (indent : String) (depth : Nat) : Prop :=
  ∃ parts : List (List Char), parts.length = depth ∧ (∀ part ∈ parts, part ∈ blocks) ∧
    indent.toList = parts.flatten

/-- A line that **shows** a label at a depth. -/
def Shows (line : String) (entry : Nat × Label) : Prop :=
  entry.2.Shown ∧ ∃ indent, Indents indent entry.1 ∧ line = indent ++ entry.2.render

section

variable {indent : String} {depth : Nat}

theorem indents_empty : Indents "" 0 := ⟨[], rfl, by simp, rfl⟩

/-- One more block is **one more level** of indentation. -/
theorem Indents.push (h : Indents indent depth) (block : String) (hblock : block.toList ∈ blocks) :
    Indents (indent ++ block) (depth + 1) := by
  obtain ⟨parts, hlen, hparts, hindent⟩ := h
  refine ⟨parts ++ [block.toList], by simp [hlen], ?_, by simp [hindent]⟩
  simpa [or_imp, forall_and] using ⟨hparts, hblock⟩

/-- All blocks are **four characters** wide, and begin with one that no label begins with. -/
theorem blocks_begin : ∀ block ∈ blocks, block.length = 4 ∧
    ∃ c rest, block = c :: rest ∧ c ∈ ['|', '\x60', ' '] := by
  simp [blocks]

/-- **How deep it is** and what comes behind can be told from an indented line. The blocks are taken
off one by one, for as long as the line begins with one. -/
theorem flatten_append_inj {parts parts' : List (List Char)} {u v : List Char}
    (hparts : ∀ part ∈ parts, part ∈ blocks) (hparts' : ∀ part ∈ parts', part ∈ blocks)
    (hu : ∃ c rest, u = c :: rest ∧ c ∉ ['|', '\x60', ' '])
    (hv : ∃ c rest, v = c :: rest ∧ c ∉ ['|', '\x60', ' '])
    (h : parts.flatten ++ u = parts'.flatten ++ v) : parts.length = parts'.length ∧ u = v := by
  -- a block does not begin as what has no block in front of it
  have hstays : ∀ {part : List Char} {u : List Char} (v : List Char), part ∈ blocks →
      (∃ c rest, u = c :: rest ∧ c ∉ ['|', '\x60', ' ']) → u ≠ part ++ v := by
    rintro part u v hpart ⟨c, rest, rfl, hc⟩ heq
    obtain ⟨-, d, rest', rfl, hd⟩ := blocks_begin part hpart
    obtain ⟨rfl, -⟩ := List.cons.inj heq
    exact hc hd
  induction parts generalizing parts' with
  | nil =>
    cases parts' with
    | nil => exact ⟨rfl, h⟩
    | cons part' parts' =>
      rw [List.flatten_cons, List.append_assoc] at h
      exact absurd h (hstays _ (hparts' part' List.mem_cons_self) hu)
  | cons part parts ih =>
    obtain ⟨hpart, hparts⟩ := List.forall_mem_cons.mp hparts
    cases parts' with
    | nil =>
      rw [List.flatten_cons, List.append_assoc] at h
      exact absurd h.symm (hstays _ hpart hv)
    | cons part' parts' =>
      obtain ⟨hpart', hparts'⟩ := List.forall_mem_cons.mp hparts'
      rw [List.flatten_cons, List.flatten_cons, List.append_assoc, List.append_assoc] at h
      have hlen := (blocks_begin part hpart).1.trans (blocks_begin part' hpart').1.symm
      obtain ⟨hcount, hrest⟩ := ih hparts hparts' (List.append_inj h hlen).2
      exact ⟨congrArg (· + 1) hcount, hrest⟩

/-- **The depth and the label** can be told from the line. -/
theorem Shows.unique : Relator.RightUnique Shows := by
  rintro line ⟨depth, l⟩ ⟨depth', l'⟩ ⟨hl, indent, ⟨parts, hlen, hparts, hindent⟩, hline⟩
    ⟨hl', indent', ⟨parts', hlen', hparts', hindent'⟩, hline'⟩
  have htexts := congrArg String.toList (hline.symm.trans hline')
  rw [String.toList_append, String.toList_append, hindent, hindent'] at htexts
  obtain ⟨hdepth, hrender⟩ := flatten_append_inj hparts hparts' hl.exists_render_eq_cons
    hl'.exists_render_eq_cons htexts
  rw [Prod.mk.injEq]
  exact ⟨hlen.symm.trans (hdepth.trans hlen'),
    Label.render_inj hl hl' (String.toList_inj.mp hrender)⟩

/-- A line has **no newline in it**, so lines can be told apart. -/
theorem Shows.newline_not_mem {line : String} {entry : Nat × Label} (h : Shows line entry) :
    '\n' ∉ line.toList := by
  obtain ⟨hl, indent, ⟨parts, -, hparts, hindent⟩, rfl⟩ := h
  have hblocks : ∀ block ∈ blocks, '\n' ∉ block := by simp [blocks]
  rw [String.toList_append, hindent, List.mem_append, List.mem_flatten]
  rintro (⟨part, hpart, hmem⟩ | hmem)
  · exact hblocks part (hparts part hpart) hmem
  · exact hl.newline_not_mem_render hmem

end

namespace Tree

variable {ι κ : Type} {t : Tree ι} {u : Tree κ} {depth : Nat}

/-! ### Outlines -/

mutual

/-- The **depths and labels** of the parts of a tree, in order. -/
def outline (depth : Nat) : Tree ι → List (Nat × Label)
  | leaf label => [(depth, label)]
  | branch label _ children => (depth, label) :: outlineAll (depth + 1) children

/-- The depths and labels of the parts of **siblings**, in order. -/
def outlineAll (depth : Nat) : List (Tree ι) → List (Nat × Label)
  | [] => []
  | t :: ts => outline depth t ++ outlineAll depth ts

end

/-- A tree whose **labels can be read back**, and where the leaves are what has a value. -/
def Readable (t : Tree ι) : Prop :=
  ∀ u : Tree ι, u.PartOf t → u.label.Shown ∧ u.isBranch = u.label.value.isNone

/-- A tree can be read back if **its label can, and so can its children**. -/
theorem readable_iff : t.Readable ↔ (t.label.Shown ∧ t.isBranch = t.label.value.isNone) ∧
    ∀ child ∈ t.children, child.Readable :=
  forall_part_iff

/-- Parts at a depth or below **end** where the depth is less. -/
def Ends (depth : Nat) (rest : List (Nat × Label)) : Prop := ∀ entry ∈ rest.head?, entry.1 < depth

variable {rest rest' : List (Nat × Label)}

/-- Parts that end at a depth **end below** it, too. -/
theorem Ends.succ (h : Ends depth rest) : Ends (depth + 1) rest :=
  fun entry hentry => Nat.lt_succ_of_lt (h entry hentry)

/-- An outline begins **with the root**. -/
theorem head?_outline (depth : Nat) (t : Tree ι) :
    (outline depth t).head? = some (depth, t.label) := by
  cases t <;> rfl

theorem head?_outline_append (depth : Nat) (t : Tree ι) (rest : List (Nat × Label)) :
    (outline depth t ++ rest).head? = some (depth, t.label) := by
  rw [List.head?_append, head?_outline, Option.some_or]

theorem head?_outlineAll_append (t : Tree ι) (ts : List (Tree ι)) :
    (outlineAll depth (t :: ts) ++ rest).head? = some (depth, t.label) := by
  rw [outlineAll, List.append_assoc, head?_outline_append]

/-- The children of a tree end **before what follows the tree**. What follows the tree is at its
depth or higher up. -/
theorem ends_outlineAll_append (h : Ends depth rest) (ts : List (Tree ι)) :
    Ends (depth + 1) (outlineAll depth ts ++ rest) := by
  cases ts with
  | nil => exact h.succ
  | cons t ts =>
    intro entry hentry
    rw [head?_outlineAll_append] at hentry
    obtain rfl := Option.some.inj hentry
    exact Nat.lt_succ_self depth

/-- Siblings and what comes behind them are told by the outline, if **each of them is**. Siblings
are taken off one by one; the next begins where the depth comes back. -/
theorem outlineAll_append_inj {ts : List (Tree ι)} {us : List (Tree κ)}
    (htold : ∀ t ∈ ts, ∀ u ∈ us, ∀ rest rest', Ends (depth + 1) rest → Ends (depth + 1) rest' →
      outline depth t ++ rest = outline depth u ++ rest' → t.plain = u.plain ∧ rest = rest')
    (hrest : Ends depth rest) (hrest' : Ends depth rest')
    (h : outlineAll depth ts ++ rest = outlineAll depth us ++ rest') :
    ts.map plain = us.map plain ∧ rest = rest' := by
  -- siblings never begin where they are to end
  have hgoes : ∀ {κ : Type} (u : Tree κ) us {rest rest'}, Ends depth rest →
      rest ≠ outlineAll depth (u :: us) ++ rest' := by
    rintro κ u us rest rest' hrest rfl
    exact absurd (hrest _ (head?_outlineAll_append u us)) (lt_irrefl depth)
  induction ts generalizing us with
  | nil =>
    cases us with
    | nil => exact ⟨rfl, h⟩
    | cons u us => exact absurd h (hgoes u us hrest)
  | cons t ts ih =>
    cases us with
    | nil => exact absurd h.symm (hgoes t ts hrest')
    | cons u us =>
      rw [outlineAll, outlineAll, List.append_assoc, List.append_assoc] at h
      obtain ⟨htu, hback⟩ := htold t List.mem_cons_self u List.mem_cons_self _ _
        (ends_outlineAll_append hrest ts) (ends_outlineAll_append hrest' us) h
      obtain ⟨hmap, hrest⟩ := ih (fun t ht u hu =>
        htold t (List.mem_cons_of_mem _ ht) u (List.mem_cons_of_mem _ hu)) hback
      exact ⟨by rw [List.map_cons, List.map_cons, htu, hmap], hrest⟩

/-- The **root** is told by the outline. -/
theorem label_isBranch_eq (ht : t.Readable) (hu : u.Readable)
    (h : outline depth t ++ rest = outline depth u ++ rest') :
    t.label = u.label ∧ t.isBranch = u.isBranch := by
  have hhead := congrArg List.head? h
  rw [head?_outline_append, head?_outline_append] at hhead
  have hlabel : t.label = u.label := congrArg Prod.snd (Option.some.inj hhead)
  rw [(readable_iff.mp ht).1.2, (readable_iff.mp hu).1.2, hlabel]
  exact ⟨rfl, rfl⟩

/-- A tree and **what comes behind it** are told by the outline, if it ends there. The induction is
on the tree, and at each level the depth tells where the children end. -/
theorem outline_append_inj (ht : t.Readable) (hu : u.Readable) (hrest : Ends (depth + 1) rest)
    (hrest' : Ends (depth + 1) rest') (h : outline depth t ++ rest = outline depth u ++ rest') :
    t.plain = u.plain ∧ rest = rest' := by
  induction t using induct generalizing u depth rest rest' with
  | leaf label =>
    obtain ⟨hlabel, hkind⟩ := label_isBranch_eq ht hu h
    cases u with
    | leaf label' => exact ⟨congrArg leaf hlabel, (List.cons.inj h).2⟩
    | branch label' family' children' => cases hkind
  | branch label family children ih =>
    obtain ⟨hlabel, hkind⟩ := label_isBranch_eq ht hu h
    cases u with
    | leaf label' => cases hkind
    | branch label' family' children' =>
      obtain ⟨-, ht⟩ := readable_iff.mp ht
      obtain ⟨-, hu⟩ := readable_iff.mp hu
      -- what ends behind the parent ends before a depth that the children have
      obtain ⟨hplain, hback⟩ := outlineAll_append_inj
        (fun t htc u huc rest rest' hrest hrest' =>
          ih t htc (ht t htc) (hu u huc) hrest hrest') hrest hrest' (List.cons.inj h).2
      obtain rfl : label = label' := hlabel
      rw [plain_branch, plain_branch, hplain]
      exact ⟨rfl, hback⟩

/-! ### Printing -/

/-- The lines that are added for a tree **show its outline**. -/
theorem exists_addLines (lines : Array String) {head indent : String} (ht : t.Readable)
    (hhead : Indents head depth) (hindent : Indents indent depth) :
    ∃ new, (addLines lines head indent t).toList = lines.toList ++ new ∧
      List.Forall₂ Shows new (outline depth t) := by
  induction t using induct generalizing lines head indent depth with
  | leaf label =>
    have hshown := (readable_iff.mp ht).1.1
    exact ⟨[head ++ label.render], by simp [addLines], by
      simpa [outline] using ⟨hshown, head, hhead, rfl⟩⟩
  | branch label family children ih =>
    obtain ⟨⟨hshown, -⟩, hreadable⟩ := readable_iff.mp ht
    -- the last of the siblings has other blocks, and they are as many
    have hall : ∀ ts, (∀ t ∈ ts, t ∈ children) → ∀ lines : Array String,
        ∃ new, (addLinesList lines indent ts).toList = lines.toList ++ new ∧
          List.Forall₂ Shows new (outlineAll (depth + 1) ts) := by
      intro ts hts
      induction ts with
      | nil => exact fun lines => ⟨[], by simp [addLinesList], .nil⟩
      | cons t ts iht =>
        intro lines
        obtain ⟨ht, hts⟩ := List.forall_mem_cons.mp hts
        rw [addLinesList]
        split
        · next hlast =>
          obtain rfl : ts = [] := List.isEmpty_iff.mp hlast
          obtain ⟨new, hnew, hshows⟩ := ih t ht lines (hreadable t ht)
            (hindent.push "\x60-- " (by simp [blocks]))
            (hindent.push "    " (by simp [blocks]))
          exact ⟨new, hnew, by simpa [outlineAll] using hshows⟩
        · obtain ⟨new, hnew, hshows⟩ := ih t ht lines (hreadable t ht)
            (hindent.push "|-- " (by simp [blocks]))
            (hindent.push "|   " (by simp [blocks]))
          obtain ⟨more, hmore, hshows'⟩ :=
            iht hts (addLines lines (indent ++ "|-- ") (indent ++ "|   ") t)
          exact ⟨new ++ more, by rw [hmore, hnew, List.append_assoc],
            List.rel_append hshows hshows'⟩
    obtain ⟨new, hnew, hshows⟩ := hall children (fun _ h => h) (lines.push (head ++ label.render))
    exact ⟨(head ++ label.render) :: new, by simp [addLines, hnew],
      .cons ⟨hshown, head, hhead, rfl⟩ hshows⟩

/-- Printing has **no regard to sharing**. -/
theorem addLines_plain (lines : Array String) (head indent : String) (t : Tree ι) :
    addLines lines head indent t.plain = addLines lines head indent t := by
  induction t using induct generalizing lines head indent with
  | leaf label => rfl
  | branch label family children ih =>
    rw [plain_branch, addLines, addLines]
    generalize lines.push (head ++ label.render) = lines
    induction children generalizing lines with
    | nil => rfl
    | cons t ts iht =>
      obtain ⟨ht, hts⟩ := List.forall_mem_cons.mp ih
      rw [List.map_cons, addLinesList, addLinesList, List.isEmpty_map, ht, ht, iht hts]

/-- Printing has **no regard to sharing**. -/
theorem print_plain (t : Tree ι) : t.plain.print = t.print := by
  rw [print, print, addLines_plain]

/-- What is printed, taken apart at the line breaks, **shows the outline**. -/
theorem forall₂_shows_splitOn (ht : t.Readable) :
    List.Forall₂ Shows ((t.print.toList.splitOn '\n').map String.ofList) (outline 0 t) := by
  obtain ⟨lines, hlines, hshows⟩ := exists_addLines #[] ht indents_empty indents_empty
  have hne : lines.map String.toList ≠ [] := by
    rintro hnil
    obtain rfl := List.map_eq_nil_iff.mp hnil
    have hhead := head?_outline 0 t
    rw [List.forall₂_nil_left_iff.mp hshows] at hhead
    cases hhead
  have hstay : ∀ line ∈ lines.map String.toList, '\n' ∉ line := by
    have hboth := hshows.imp fun line entry h => And.intro h.newline_not_mem h
    exact List.forall_mem_map.mpr ((List.forall₂_and_left _ _).mp hboth).1
  have hprint : t.print.toList = ['\n'].intercalate (lines.map String.toList) := by
    rw [print, hlines, List.nil_append, String.toList_intercalate]
    rfl
  rw [hprint, List.splitOn_intercalate _ hstay hne]
  simpa using hshows

/-- **Printing loses nothing.** Readable trees print the same just when they are the same, apart
from sharing. -/
theorem print_eq_print_iff (ht : t.Readable) (hu : u.Readable) :
    t.print = u.print ↔ t.plain = u.plain := by
  constructor
  · intro h
    have hshows := forall₂_shows_splitOn ht
    rw [h] at hshows
    have houtline := List.right_unique_forall₂' Shows.unique hshows (forall₂_shows_splitOn hu)
    have hends : Ends (0 + 1) ([] : List (Nat × Label)) := by simp [Ends]
    exact (outline_append_inj ht hu hends hends (congrArg (· ++ []) houtline)).1
  · intro h
    rw [← print_plain t, h, print_plain]

example : (PlainTree.node "S" [PlainTree.node "S" [], PlainTree.value "a"]).print =
    "S\n|-- S\n\x60-- \"a\"" := by decide +kernel

end Tree

end GeneralParsing
