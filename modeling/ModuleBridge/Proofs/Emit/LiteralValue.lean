import ModuleBridge.Emit.Quote
import ModuleBridge.Proofs.Emit.Quoting
import ModuleBridge.Proofs.Grammar.PatternReading
import ModuleBridge.Url.Percent

/-!
# What a string literal denotes

The raw value of a literal denotes a sequence of code units: its characters, with escape sequences
decoded. Quoting a raw value again may put a backslash before a single quote, which denotes the same
quote. Main statement: `quoted_quote`.
-/

namespace ModuleBridge

open Cursor List Option Scan StringItem

variable {raw text more rest : List Char} {value : String} {d : Cursor} {t : Quoted}
  {mark : QuoteMark}

/-! ## Escape sequences -/

/-- The code units of a code point: itself, or a surrogate pair. -/
def codeUnits (code : Nat) : List Nat :=
  if code < 0x10000 then [code]
  else [0xd800 + (code - 0x10000) / 0x400, 0xdc00 + (code - 0x10000) % 0x400]

def textUnits (text : List Char) : List Nat :=
  text.flatMap fun ch => codeUnits ch.toNat

/-- What is still to come of an escape sequence. -/
inductive EscapeState where
  /-- Nothing: outside of an escape sequence. -/
  | text
  /-- Anything: a backslash was read. -/
  | escape
  /-- One hexadecimal digit and `more` after it. -/
  | hex (more value : Nat)
  /-- Four digits, or a code point in braces. -/
  | unicode
  /-- More digits, or the closing brace. -/
  | braced (value : Option Nat)
  /-- No digit: the character zero was read. -/
  | zero
  /-- Perhaps a line feed: a backslash and a carriage return were read. -/
  | carriage
deriving DecidableEq

/-- What a letter or another character stands for behind a backslash. -/
def escapedCode (ch : Char) : Nat :=
  match ch with
  | 'b' => 0x08
  | 't' => 0x09
  | 'n' => 0x0a
  | 'v' => 0x0b
  | 'f' => 0x0c
  | 'r' => 0x0d
  | ch => ch.toNat

namespace EscapeState

def plainStep (ch : Char) : List Nat × EscapeState :=
  if ch = '\\' then ([], .escape) else (codeUnits ch.toNat, .text)

def hexStep (more value : Nat) (ch : Char) : Option (List Nat × EscapeState) :=
  (hexValue? ch).map fun digit =>
    match more with
    | 0 => ([16 * value + digit], .text)
    | more + 1 => ([], .hex more (16 * value + digit))

def bracedStep (value : Option Nat) (ch : Char) : Option (List Nat × EscapeState) :=
  if ch = '\x7d' then
    value.bind fun code => if code ≤ 0x10ffff then some (codeUnits code, .text) else none
  else (hexValue? ch).map fun digit => ([], .braced (some (16 * value.getD 0 + digit)))

/-- Read one character: the code units that are complete with it, and what is to come. None when the
escape sequence is malformed; a digit behind a backslash is, unless it is a single zero. -/
def step : EscapeState → Char → Option (List Nat × EscapeState)
  | .text, ch => some (plainStep ch)
  | .escape, ch =>
    if ch = 'x' then some ([], .hex 1 0)
    else if ch = 'u' then some ([], .unicode)
    else if ch = '0' then some ([0], .zero)
    else if ch.isDigit then none
    else if ch = '\r' then some ([], .carriage)
    else if isLineBreak ch then some ([], .text)
    else some (codeUnits (escapedCode ch), .text)
  | .hex more value, ch => hexStep more value ch
  | .unicode, ch => if ch = '\x7b' then some ([], .braced none) else hexStep 3 0 ch
  | .braced value, ch => bracedStep value ch
  | .zero, ch => if ch.isDigit then none else some (plainStep ch)
  | .carriage, ch => if ch = '\n' then some ([], .text) else some (plainStep ch)

def isComplete : EscapeState → Bool
  | .text | .zero | .carriage => true
  | _ => false

def units? : EscapeState → List Char → Option (List Nat)
  | s, [] => if s.isComplete then some [] else none
  | s, ch :: rest => (s.step ch).bind fun read => (read.2.units? rest).map (read.1 ++ ·)

end EscapeState

/-- The string that a raw value denotes, if its escape sequences are well-formed. -/
def stringValue? (raw : List Char) : Option (List Nat) :=
  EscapeState.text.units? raw

/-! ## Escaping single quotes -/

namespace EscapeState

variable {s next : EscapeState} {ch : Char} {units : List Nat}

theorem step_backslash (hs : s ≠ .escape) :
    s.step '\\' = if s.isComplete then some ([], .escape) else none := by
  cases s with
  | escape => exact absurd rfl hs
  | text | unicode | zero | carriage => rfl
  | hex more value => rfl
  | braced value => rfl

theorem step_singleQuote (hs : s ≠ .escape) :
    s.step '\'' = if s.isComplete then some ([0x27], .text) else none := by
  cases s with
  | escape => exact absurd rfl hs
  | text | unicode | zero | carriage => rfl
  | hex more value => rfl
  | braced value => rfl

theorem ne_escape_of_plainStep (hch : ch ≠ '\\') : (plainStep ch).2 ≠ .escape := by
  rw [plainStep, if_neg hch]
  exact fun hstate => by cases hstate

theorem ne_escape_of_hexStep {more value : Nat} (h : hexStep more value ch = some (units, next)) :
    next ≠ .escape := by
  obtain ⟨digit, -, hread⟩ := map_eq_some_iff.mp h
  cases more with
  | zero =>
    cases hread
    decide
  | succ more =>
    cases hread
    exact fun hstate => by cases hstate

theorem ne_escape_of_bracedStep {value : Option Nat}
    (h : bracedStep value ch = some (units, next)) : next ≠ .escape := by
  rw [bracedStep] at h
  split at h
  · obtain ⟨code, -, hcode⟩ := bind_eq_some_iff.mp h
    split at hcode
    · cases hcode
      exact fun hstate => by cases hstate
    · cases hcode
  · obtain ⟨digit, -, hread⟩ := map_eq_some_iff.mp h
    cases hread
    exact fun hstate => by cases hstate

/-- Only a backslash that is not escaped itself begins an escape sequence. -/
theorem ne_escape_of_step (hch : s = .escape ∨ ch ≠ '\\') (h : s.step ch = some (units, next)) :
    next ≠ .escape := by
  have hplain : s ≠ .escape → some (plainStep ch) = some (units, next) → next ≠ .escape := by
    intro hs hread
    have hnext := ne_escape_of_plainStep (hch.resolve_left hs)
    rwa [Option.some.inj hread] at hnext
  cases s with
  | text => exact hplain (by decide) h
  | escape => grind [step]
  | hex more value => exact ne_escape_of_hexStep h
  | unicode =>
    rw [step] at h
    split at h
    · grind
    · exact ne_escape_of_hexStep h
  | braced value => exact ne_escape_of_bracedStep h
  | zero =>
    rw [step] at h
    split at h
    · cases h
    · exact hplain (by decide) h
  | carriage =>
    rw [step] at h
    split at h
    · grind
    · exact hplain (by decide) h

theorem units?_congr (hch : s = .escape ∨ ch ≠ '\\')
    (h : ∀ next : EscapeState, next ≠ .escape → next.units? rest = next.units? more) :
    s.units? (ch :: rest) = s.units? (ch :: more) := by
  rw [units?, units?]
  cases hstep : s.step ch with
  | none => rfl
  | some read => rw [bind_some, bind_some, h _ (ne_escape_of_step hch hstep)]

theorem units?_quote (hs : s ≠ .escape)
    (h : EscapeState.text.units? rest = EscapeState.text.units? more) :
    s.units? ('\\' :: '\'' :: rest) = s.units? ('\'' :: more) := by
  rw [units?, units?, step_backslash hs, step_singleQuote hs]
  cases s.isComplete with
  | false => rfl
  | true =>
    change ((EscapeState.text.units? rest).map _).map _ = (EscapeState.text.units? more).map _
    rw [h, Option.map_map]
    rfl

/-- A backslash before a bare single quote changes nothing of what is denoted. -/
theorem units?_escapeSingleQuotes (hs : s ≠ .escape) (raw : List Char) :
    s.units? (escapeSingleQuotes raw) = s.units? raw := by
  fun_induction escapeSingleQuotes raw generalizing s with
  | case1 => rfl
  | case2 ch hch =>
    rw [beq_iff_eq.mp hch]
    exact units?_quote hs rfl
  | case3 => rfl
  | case4 a b rest ha ih =>
    rw [beq_iff_eq.mp ha, units?, units?, step_backslash hs]
    cases s.isComplete with
    | false => rfl
    | true =>
      have hnext : EscapeState.escape.units? (b :: escapeSingleQuotes rest) =
          EscapeState.escape.units? (b :: rest) :=
        units?_congr (.inl rfl) fun next hnext => ih hnext
      rw [if_pos rfl, bind_some, bind_some, hnext]
  | case5 a b rest ha hb ih =>
    rw [beq_iff_eq.mp hb]
    exact units?_quote hs (ih (by decide))
  | case6 a b rest ha hb ih =>
    exact units?_congr (.inr fun heq => ha (beq_iff_eq.mpr heq)) fun next hnext => ih hnext

end EscapeState

/-! ## Bare quotes -/

/-- The number of single quotes that have no backslash before them that escapes them. -/
def bareQuotes : List Char → Nat
  | [] => 0
  | [ch] => if ch == '\'' then 1 else 0
  | a :: b :: rest =>
    if a == '\\' then bareQuotes rest
    else (if a == '\'' then 1 else 0) + bareQuotes (b :: rest)

theorem length_escapeSingleQuotes (raw : List Char) :
    (escapeSingleQuotes raw).length = raw.length + bareQuotes raw := by
  fun_induction escapeSingleQuotes raw with
  | case1 => rfl
  | case2 ch hch =>
    rw [bareQuotes, if_pos hch]
    rfl
  | case3 ch hch =>
    rw [bareQuotes, if_neg hch]
    rfl
  | case4 a b rest ha ih =>
    simp only [bareQuotes, if_pos ha, length_cons, ih]
    omega
  | case5 a b rest ha hb ih =>
    simp only [bareQuotes, if_neg ha, if_pos hb, length_cons, ih]
    omega
  | case6 a b rest ha hb ih =>
    simp only [bareQuotes, if_neg ha, if_neg hb, length_cons, ih]
    omega

theorem escapeSingleQuotes_of_bareQuotes (h : bareQuotes raw = 0) :
    escapeSingleQuotes raw = raw := by
  fun_induction escapeSingleQuotes raw with
  | case1 => rfl
  | case2 ch hch => simp [bareQuotes, hch] at h
  | case3 ch hch => rfl
  | case4 a b rest ha ih =>
    rw [bareQuotes, if_pos ha] at h
    rw [ih h]
  | case5 a b rest ha hb ih =>
    rw [bareQuotes, if_neg ha, if_pos hb] at h
    omega
  | case6 a b rest ha hb ih =>
    rw [bareQuotes, if_neg ha, if_neg hb, Nat.zero_add] at h
    rw [ih h]

theorem escapeSingleQuotes_eq_self_iff : escapeSingleQuotes raw = raw ↔ bareQuotes raw = 0 := by
  constructor
  · intro hsame
    have hlength := length_escapeSingleQuotes raw
    rw [hsame] at hlength
    omega
  · exact escapeSingleQuotes_of_bareQuotes

theorem bareQuotes_of_not_mem (h : '\'' ∉ raw) : bareQuotes raw = 0 := by
  fun_induction bareQuotes raw with
  | case1 => rfl
  | case2 ch hch => exact absurd (by simp [beq_iff_eq.mp hch]) h
  | case3 ch hch => rfl
  | case4 a b rest ha ih => exact ih fun hmem => h (by simp [hmem])
  | case5 a b rest ha ih =>
    have hrest : '\'' ∉ b :: rest := fun hmem => h (mem_cons_of_mem _ hmem)
    have hfirst : (a == '\'') = false := by
      rw [beq_eq_false_iff_ne]
      rintro rfl
      exact h mem_cons_self
    rw [ih hrest, hfirst]
    rfl

/-- The second text is the first one, but for backslashes before some of its bare single quotes. -/
inductive QuotesEscaped : List Char → List Char → Prop where
  | nil : QuotesEscaped [] []
  | bare {raw escaped : List Char} (h : QuotesEscaped raw escaped) :
      QuotesEscaped ('\'' :: raw) ('\\' :: '\'' :: escaped)
  | escape (ch : Char) {raw escaped : List Char} (h : QuotesEscaped raw escaped) :
      QuotesEscaped ('\\' :: ch :: raw) ('\\' :: ch :: escaped)
  | keep {ch : Char} (hch : ch ≠ '\\') {raw escaped : List Char} (h : QuotesEscaped raw escaped) :
      QuotesEscaped (ch :: raw) (ch :: escaped)

namespace QuotesEscaped

variable {mark : QuoteMark} {raw escaped : List Char}

theorem item (item : StringItem mark) (h : QuotesEscaped raw escaped) :
    QuotesEscaped (item.chars ++ raw) (item.chars ++ escaped) := by
  cases item with
  | plain ch hch => exact .keep (fun heq => hch (by simp [heq])) h
  | escape ch => exact .escape ch h
  | continuation => exact .escape '\r' (.keep (by decide) h)

theorem requoted_item (item : StringItem mark) (h : QuotesEscaped raw escaped) :
    QuotesEscaped (item.chars ++ raw) ((item.requote .single).chars ++ escaped) := by
  by_cases hquote : '\'' ∈ item.chars
  · cases item with
    | plain ch hch =>
      obtain rfl := mem_singleton.mp hquote
      exact .bare h
    | escape ch => exact .escape ch h
    | continuation => simp [chars] at hquote
  · rw [chars_requote hquote]
    exact h.item item

theorem betweenQuotes_items (items : List (StringItem mark)) :
    QuotesEscaped (items.flatMap chars)
      (betweenQuotes (items.flatMap chars)) := by
  have hsame : QuotesEscaped (items.flatMap chars)
      (items.flatMap chars) := by
    induction items with
    | nil => exact .nil
    | cons item items ih => exact ih.item item
  have hescaped : QuotesEscaped (items.flatMap chars)
      ((items.map (requote .single)).flatMap chars) := by
    clear hsame
    induction items with
    | nil => exact .nil
    | cons item items ih => exact ih.requoted_item item
  rw [betweenQuotes]
  split
  · rw [escapeSingleQuotes_items]
    exact hescaped
  · exact hsame

end QuotesEscaped

theorem stringValue?_betweenQuotes (raw : List Char) :
    stringValue? (betweenQuotes raw) = stringValue? raw := by
  rw [betweenQuotes]
  split
  · exact EscapeState.units?_escapeSingleQuotes (by decide) raw
  · rfl

theorem betweenQuotes_eq_self_iff : betweenQuotes raw = raw ↔ '"' ∉ raw ∨ bareQuotes raw = 0 := by
  rw [betweenQuotes]
  split
  · rename_i hboth
    rw [escapeSingleQuotes_eq_self_iff]
    exact ⟨.inr, fun h => h.resolve_left fun hnone => hnone hboth.2⟩
  · rename_i hlacks
    refine ⟨fun _ => ?_, fun _ => rfl⟩
    by_cases hdouble : '"' ∈ raw
    · exact .inr (bareQuotes_of_not_mem fun hsingle => hlacks ⟨hsingle, hdouble⟩)
    · exact .inl hdouble

/-! ## Reading a quoted value back -/

theorem isBoundary_of_quoted {text : String} {c : Cursor} (hc : c.bytes = bytesOf text)
    (h : quoted c = .ok t d) : c.IsBoundary := by
  unfold quoted at h
  split at h
  · cases h
  · rename_i quote rest hafter
    split at h
    · rename_i hquote
      rw [bytes, hafter] at hc
      obtain ⟨front, back, -, hfront, hback⟩ := exists_cut_before hc.symm (isQuote_ascii hquote)
      exact ⟨⟨front, hfront.symm⟩, back, hafter.trans hback.symm⟩
    · cases h

/-- A text that is read to its end as a literal is one, and has the value that was read. -/
theorem exists_items_of_quoted {literal : String}
    (h : quoted (ofText literal) = .ok t d) (hend : d.after = []) :
    ∃ (mark : QuoteMark) (items : List (StringItem mark)), literal = stringText mark items ∧
      t.value.toList = items.flatMap chars := by
  obtain ⟨mark, items, hpasses, hvalue⟩ := quoted_passes (isBoundary_ofText _) h
  have htext := hpasses.after_eq
  rw [hend, append_nil] at htext
  exact ⟨mark, items, bytesOf_inj.mp htext, hvalue⟩

theorem eq_of_stringText_eq {other : QuoteMark} {chars : List Char}
    {items : List (StringItem other)}
    (h : String.ofList (mark.char :: chars ++ [mark.char]) = stringText other items) :
    mark = other ∧ chars = items.flatMap StringItem.chars := by
  rw [stringText, String.ofList_inj, cons_append, cons_append] at h
  obtain ⟨hmark, hrest⟩ := cons.inj h
  refine ⟨?_, (append_inj' hrest rfl).1⟩
  cases mark <;> cases other <;> first | rfl | cases hmark

theorem quoted_stringText (mark : QuoteMark) (items : List (StringItem mark)) :
    ∃ t d, quoted (ofText (stringText mark items)) = .ok t d ∧ d.after = [] ∧
      t.value.toList = items.flatMap StringItem.chars := by
  have hstart : (ofText (stringText mark items)).after =
      bytesOf (stringText mark items) ++ [] := (append_nil _).symm
  obtain ⟨t, hread⟩ := quoted_items mark items hstart
  have hend := after_past hstart
  obtain ⟨other, others, hsame, hvalue⟩ := exists_items_of_quoted hread hend
  refine ⟨t, _, hread, hend, ?_⟩
  rw [hvalue]
  exact (eq_of_stringText_eq hsame).2.symm

/-- Quoting a raw value gives a literal that is read whole. Its raw value is the old one, but for
backslashes before bare single quotes, and these are there exactly if the old one has double quotes
as well; and it denotes the same string. -/
theorem quoted_quote {text : String} {c d : Cursor} {t : Quoted} (hc : c.bytes = bytesOf text)
    (h : quoted c = .ok t d) :
    ∃ t' d', quoted (ofText (quote t.value)) = .ok t' d' ∧ d'.after = [] ∧
      QuotesEscaped t.value.toList t'.value.toList ∧
      ('\'' ∉ t.value.toList ∨ '"' ∉ t.value.toList → t'.value = t.value) ∧
      (t'.value = t.value ↔ '"' ∉ t.value.toList ∨ bareQuotes t.value.toList = 0) ∧
      stringValue? t'.value.toList = stringValue? t.value.toList := by
  obtain ⟨mark, items, -, hvalue⟩ := quoted_passes (isBoundary_of_quoted hc h) h
  obtain ⟨other, others, hquote, hothers⟩ := exists_quote_items items hvalue
  obtain ⟨t', d', hread, hend, hback⟩ := quoted_stringText other others
  have hbetween : t'.value.toList = betweenQuotes t.value.toList := hback.trans hothers
  have hsame : t'.value = t.value ↔ '"' ∉ t.value.toList ∨ bareQuotes t.value.toList = 0 := by
    rw [← String.toList_inj, hbetween, betweenQuotes_eq_self_iff]
  refine ⟨t', d', by rw [hquote, hread], hend, ?_, fun hlacks => ?_, hsame, ?_⟩
  · rw [hbetween, hvalue]
    exact QuotesEscaped.betweenQuotes_items items
  · exact hsame.mpr (hlacks.symm.imp_right bareQuotes_of_not_mem)
  · rw [hbetween, stringValue?_betweenQuotes]

theorem quoted_quote_both :
    ∃ t d, quoted (ofText "\"it's \\\"x\\\"\"") = .ok t d ∧
      ∃ t' d', quoted (ofText "'it\\'s \\\"x\\\"'") = .ok t' d' ∧ d'.after = [] ∧
        t'.value ≠ t.value ∧
        stringValue? t'.value.toList = some (textUnits "it's \"x\"".toList) := by
  have hread : quoted (ofText "\"it's \\\"x\\\"\"") =
      .ok ⟨"it's \\\"x\\\"", ⟨0, 12⟩⟩ ((ofText "\"it's \\\"x\\\"\"").advance 12) := by
    cbv
  obtain ⟨t', d', hquoted, hend, -, -, hsame, hvalue⟩ := quoted_quote rfl hread
  have hquote : quote "it's \\\"x\\\"" = "'it\\'s \\\"x\\\"'" := by decide
  rw [hquote] at hquoted
  refine ⟨_, _, hread, t', d', hquoted, hend, fun heq => ?_, hvalue.trans (by decide)⟩
  exact absurd (hsame.mp heq) (by decide)

/-! ## Literals and the strings they denote -/

theorem codeUnits_append_inj {a b : Char} {rest more : List Nat}
    (h : codeUnits a.toNat ++ rest = codeUnits b.toNat ++ more) : a = b ∧ rest = more := by
  have hvalid : ∀ ch : Char, ch.toNat < 0xd800 ∨ 0xdfff < ch.toNat ∧ ch.toNat < 0x110000 :=
    fun ch => ch.valid
  have ha := hvalid a
  have hb := hvalid b
  have hboth : a.toNat = b.toNat ∧ rest = more := by
    unfold codeUnits at h
    split at h
    · split at h
      · exact cons.inj h
      · have hfirst := (cons.inj h).1
        omega
    · split at h
      · have hfirst := (cons.inj h).1
        omega
      · obtain ⟨hhigh, hrest⟩ := cons.inj h
        obtain ⟨hlow, hmore⟩ := cons.inj hrest
        exact ⟨by omega, hmore⟩
  exact ⟨Char.toNat_inj.mp hboth.1, hboth.2⟩

theorem textUnits_inj {other : List Char} (h : textUnits text = textUnits other) :
    text = other := by
  have hne : ∀ code, codeUnits code ≠ [] := by
    intro code
    unfold codeUnits
    split <;> simp
  induction text generalizing other with
  | nil =>
    cases other with
    | nil => rfl
    | cons ch other => exact absurd (append_eq_nil_iff.mp h.symm).1 (hne _)
  | cons ch text ih =>
    cases other with
    | nil => exact absurd (append_eq_nil_iff.mp h).1 (hne _)
    | cons first other =>
      obtain ⟨rfl, hrest⟩ := codeUnits_append_inj h
      rw [ih hrest]

/-- The first text is the second one with backslashes before some of its quotes. -/
inductive Spells : List Char → List Char → Prop where
  | nil : Spells [] []
  | plain (ch : Char) {raw text : List Char} (h : Spells raw text) :
      Spells (ch :: raw) (ch :: text)
  | escaped (mark : QuoteMark) {raw text : List Char} (h : Spells raw text) :
      Spells ('\\' :: mark.char :: raw) (mark.char :: text)

/-- Escaped quotes denote themselves, and so does all else but a backslash. -/
theorem Spells.stringValue?_eq (h : Spells raw text) (hplain : '\\' ∉ text) :
    stringValue? raw = some (textUnits text) := by
  induction h with
  | nil => rfl
  | plain ch h ih =>
    have hch : ch ≠ '\\' := fun heq => hplain (heq ▸ mem_cons_self)
    have hrest := ih fun hmem => hplain (mem_cons_of_mem _ hmem)
    rw [stringValue?] at hrest ⊢
    rw [EscapeState.units?, EscapeState.step, EscapeState.plainStep, if_neg hch, bind_some,
      hrest]
    rfl
  | escaped mark h ih =>
    have hrest := ih fun hmem => hplain (mem_cons_of_mem _ hmem)
    have hstep : EscapeState.escape.step mark.char =
        some (codeUnits mark.char.toNat, .text) := by cases mark <;> rfl
    have hslash : EscapeState.text.step '\\' = some ([], .escape) := rfl
    rw [stringValue?] at hrest ⊢
    rw [EscapeState.units?, hslash, bind_some, EscapeState.units?, hstep, bind_some,
      hrest]
    rfl

def escapeMark (mark : QuoteMark) (text : List Char) : List Char :=
  text.flatMap fun ch => if ch = mark.char then ['\\', ch] else [ch]

theorem escapeMark_mark (mark : QuoteMark) (text : List Char) :
    escapeMark mark (mark.char :: text) = '\\' :: mark.char :: escapeMark mark text := by
  rw [escapeMark, flatMap_cons, if_pos rfl]
  rfl

theorem escapeMark_plain {ch : Char} (h : ch ≠ mark.char) (text : List Char) :
    escapeMark mark (ch :: text) = ch :: escapeMark mark text := by
  rw [escapeMark, flatMap_cons, if_neg h]
  rfl

theorem escapeMark_spells (mark : QuoteMark) (text : List Char) :
    Spells (escapeMark mark text) text := by
  induction text with
  | nil => exact .nil
  | cons ch text ih =>
    by_cases hmark : ch = mark.char
    · rw [hmark, escapeMark_mark]
      exact .escaped mark ih
    · rw [escapeMark_plain hmark]
      exact .plain ch ih

theorem escapeMark_of_not_mem (h : mark.char ∉ text) : escapeMark mark text = text := by
  induction text with
  | nil => rfl
  | cons ch text ih =>
    have hch : ch ≠ mark.char := fun heq => h (heq ▸ mem_cons_self)
    rw [escapeMark_plain hch, ih fun hmem => h (mem_cons_of_mem _ hmem)]

theorem escapeSingleQuotes_eq_escapeMark (h : '\\' ∉ text) :
    escapeSingleQuotes text = escapeMark .single text := by
  induction text with
  | nil => rfl
  | cons ch text ih =>
    have hch : ch ≠ '\\' := fun heq => h (heq ▸ mem_cons_self)
    have hrest := ih fun hmem => h (mem_cons_of_mem _ hmem)
    by_cases hquote : ch = QuoteMark.single.char
    · rw [hquote, escapeMark_mark, ← hrest]
      exact escapeSingleQuotes_quote text
    · rw [escapeMark_plain hquote, ← hrest]
      exact escapeSingleQuotes_plain hch hquote text

/-- A text without backslashes is quoted in one way or the other. -/
theorem quote_eq_escapeMark (h : '\\' ∉ value.toList) :
    ∃ mark : QuoteMark, quote value =
      String.ofList (mark.char :: escapeMark mark value.toList ++ [mark.char]) := by
  by_cases hsingle : '\'' ∈ value.toList
  · by_cases hdouble : '"' ∈ value.toList
    · refine ⟨.single, ?_⟩
      rw [← escapeSingleQuotes_eq_escapeMark h]
      simp [quote, quoteChars, hsingle, hdouble, QuoteMark.char]
    · refine ⟨.double, ?_⟩
      rw [@escapeMark_of_not_mem _ .double hdouble]
      simp [quote, quoteChars, hsingle, hdouble, QuoteMark.char]
  · refine ⟨.single, ?_⟩
    rw [@escapeMark_of_not_mem _ .single hsingle]
    simp [quote, quoteChars, hsingle, QuoteMark.char]

section Items

variable {mark : QuoteMark} {items : List (StringItem mark)} {ch : Char} {rest : List Char}

theorem exists_items_of_escape (h : items.flatMap chars = '\\' :: ch :: rest)
    (hch : ch ≠ '\r') :
    ∃ others : List (StringItem mark), others.flatMap chars = rest := by
  cases items with
  | nil => cases h
  | cons item others =>
    rw [flatMap_cons] at h
    cases item with
    | plain first hfirst =>
      obtain ⟨rfl, -⟩ := cons.inj h
      exact absurd hfirst (by simp)
    | escape first => exact ⟨others, (cons.inj (cons.inj h).2).2⟩
    | continuation => exact absurd (cons.inj (cons.inj h).2).1.symm hch

theorem exists_items_of_plain (h : items.flatMap chars = ch :: rest) (hch : ch ≠ '\\') :
    ch ≠ '\n' ∧ ch ≠ '\r' ∧
      ∃ others : List (StringItem mark), others.flatMap chars = rest := by
  cases items with
  | nil => cases h
  | cons item others =>
    rw [flatMap_cons] at h
    cases item with
    | plain first hfirst =>
      obtain ⟨rfl, hrest⟩ := cons.inj h
      simp only [mem_cons, not_mem_nil, or_false, not_or] at hfirst
      exact ⟨hfirst.2.2.1, hfirst.2.2.2, others, hrest⟩
    | escape first => exact absurd (cons.inj h).1.symm hch
    | continuation => exact absurd (cons.inj h).1.symm hch

end Items

/-- Between quotes that are escaped in it, a text without backslashes is a literal exactly if it is
a single line. -/
theorem exists_items_iff (h : '\\' ∉ text) :
    (∃ items : List (StringItem mark), items.flatMap chars = escapeMark mark text) ↔
      '\n' ∉ text ∧ '\r' ∉ text := by
  induction text with
  | nil => exact ⟨fun _ => ⟨not_mem_nil, not_mem_nil⟩, fun _ => ⟨[], rfl⟩⟩
  | cons ch text ih =>
    have hch : ch ≠ '\\' := fun heq => h (heq ▸ mem_cons_self)
    have hrest := ih fun hmem => h (mem_cons_of_mem _ hmem)
    constructor
    · rintro ⟨items, hitems⟩
      -- The first item is the first character, and the others are the rest of the text.
      have hfirst : ch ≠ '\n' ∧ ch ≠ '\r' ∧
          ∃ others : List (StringItem mark),
            others.flatMap chars = escapeMark mark text := by
        by_cases hmark : ch = mark.char
        · have hline : mark.char ≠ '\n' ∧ mark.char ≠ '\r' := by cases mark <;> decide
          rw [hmark, escapeMark_mark] at hitems
          rw [hmark]
          exact ⟨hline.1, hline.2, exists_items_of_escape hitems hline.2⟩
        · rw [escapeMark_plain hmark] at hitems
          exact exists_items_of_plain hitems hch
      obtain ⟨hfeed, hreturn, hothers⟩ := hfirst
      obtain ⟨hnoFeed, hnoReturn⟩ := hrest.mp hothers
      simp [hnoFeed, hnoReturn, Ne.symm hfeed, Ne.symm hreturn]
    · rintro ⟨hfeed, hreturn⟩
      rw [mem_cons, not_or] at hfeed hreturn
      obtain ⟨others, hothers⟩ := hrest.mpr ⟨hfeed.2, hreturn.2⟩
      by_cases hmark : ch = mark.char
      · refine ⟨.escape ch :: others, ?_⟩
        rw [flatMap_cons, hothers, hmark, escapeMark_mark]
        rfl
      · have hplain : ch ∉ [mark.char, '\\', '\n', '\r'] := by
          simp [hmark, hch, Ne.symm hfeed.1, Ne.symm hreturn.1]
        refine ⟨.plain ch hplain :: others, ?_⟩
        rw [flatMap_cons, hothers, escapeMark_plain hmark]
        rfl

/-- The text is one whole literal, and denotes the string of these code units. -/
def Denotes (literal : String) (units : List Nat) : Prop :=
  ∃ t d, quoted (ofText literal) = .ok t d ∧ d.after = [] ∧
    stringValue? t.value.toList = some units

/-- A text without backslashes is quoted as a literal that denotes it, unless it has line ends; then
it is quoted as no literal. -/
theorem denotes_quote_iff (h : '\\' ∉ value.toList) {units : List Nat} :
    Denotes (quote value) units ↔
      ('\n' ∉ value.toList ∧ '\r' ∉ value.toList) ∧ units = textUnits value.toList := by
  obtain ⟨mark, hquote⟩ := quote_eq_escapeMark h
  have hmeans := (escapeMark_spells mark value.toList).stringValue?_eq h
  constructor
  · rintro ⟨t, d, hread, hend, hunits⟩
    obtain ⟨other, others, htext, hvalue⟩ := exists_items_of_quoted hread hend
    rw [hquote] at htext
    obtain ⟨rfl, hchars⟩ := eq_of_stringText_eq htext
    refine ⟨(exists_items_iff h).mp ⟨others, hchars.symm⟩, ?_⟩
    rw [hvalue, ← hchars, hmeans] at hunits
    exact (Option.some.inj hunits).symm
  · rintro ⟨hline, rfl⟩
    obtain ⟨items, hitems⟩ := (@exists_items_iff _ mark h).mpr hline
    obtain ⟨t, d, hread, hend, hvalue⟩ := quoted_stringText mark items
    refine ⟨t, d, ?_, hend, ?_⟩
    · rw [hquote, ← hitems]
      exact hread
    · rw [hvalue, hitems, hmeans]

/-- Two texts without backslashes are quoted as literals of one string exactly if they are one
single line. -/
theorem denotes_quote_both_iff {other : String} (h : '\\' ∉ value.toList)
    (hother : '\\' ∉ other.toList) :
    (∃ units, Denotes (quote value) units ∧ Denotes (quote other) units) ↔
      value = other ∧ '\n' ∉ other.toList ∧ '\r' ∉ other.toList := by
  constructor
  · rintro ⟨units, hfirst, hsecond⟩
    obtain ⟨-, hunits⟩ := (denotes_quote_iff h).mp hfirst
    obtain ⟨hline, hsame⟩ := (denotes_quote_iff hother).mp hsecond
    exact ⟨String.toList_inj.mp (textUnits_inj (hunits.symm.trans hsame)), hline⟩
  · rintro ⟨rfl, hline⟩
    have hmeans := (denotes_quote_iff h).mpr ⟨hline, rfl⟩
    exact ⟨_, hmeans, hmeans⟩

end ModuleBridge
