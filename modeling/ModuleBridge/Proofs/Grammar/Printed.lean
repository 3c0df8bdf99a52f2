import ModuleBridge.Proofs.Grammar.Statements
import ModuleBridge.Proofs.Source.TriviaText

/-!
# Printed tokens

Tokens written one after another with trivia between them, and what each scanning operation does in
front of them. `At tokens` is a text that starts with the first token, `Before tokens` one that may
have trivia in front of it; `Takes` says that an operation leads from one to the other, so that a
reading is followed token by token along its own shape.
-/

namespace ModuleBridge

open Cursor List

variable {tokens : List Token} {n : Identifier} {word : String} {p : Punctuation} {b : UInt8}
  {c : Cursor}

/-- A letter, `_` or `$`, then letters, digits, `_` or `$`. -/
def IsIdentifier (text : String) : Prop :=
  (bytesOf text).head?.any isNameStart = true ∧ ∀ b ∈ bytesOf text, isNamePart b = true

instance (text : String) : Decidable (IsIdentifier text) :=
  inferInstanceAs (Decidable (_ ∧ _))

structure Identifier where
  text : String
  isIdentifier : IsIdentifier text

theorem Identifier.exists_cons (n : Identifier) :
    ∃ first rest, bytesOf n.text = first :: rest ∧ isNameStart first = true := by
  have hstart := n.isIdentifier.1
  cases hbytes : bytesOf n.text with
  | nil =>
    rw [hbytes] at hstart
    cases hstart
  | cons first rest => exact ⟨first, rest, rfl, by simpa [hbytes] using hstart⟩

/-- A string in quotes that needs no escapes. -/
structure Literal where
  value : String
  mark : Char
  isMark : mark = '\'' ∨ mark = '"'
  isPlain : ∀ ch ∈ value.toList, ch ≠ mark ∧ ch ≠ '\\' ∧ ch ≠ '\n' ∧ ch ≠ '\r'

def Literal.text (l : Literal) : String :=
  l.mark.toString ++ l.value ++ l.mark.toString

theorem Literal.isQuote_mark (l : Literal) : isQuote (byte l.mark) = true := by
  rcases l.isMark with h | h <;> rw [h] <;> decide

theorem Literal.utf8EncodeChar_mark (l : Literal) :
    String.utf8EncodeChar l.mark = [byte l.mark] := by
  rcases l.isMark with h | h <;> rw [h] <;> decide

theorem Literal.bytesOf_text (l : Literal) :
    bytesOf l.text = byte l.mark :: (bytesOf l.value ++ [byte l.mark]) := by
  rw [text, bytesOf_append, bytesOf_append, bytesOf_toString, l.utf8EncodeChar_mark]
  rfl

/-- The punctuation of module declarations. -/
inductive Punctuation where
  | openBrace
  | closeBrace
  | comma
  | star
  | semicolon
deriving DecidableEq

def Punctuation.text : Punctuation → String
  | openBrace => "\x7b"
  | closeBrace => "\x7d"
  | comma => ","
  | star => "*"
  | semicolon => ";"

inductive Token where
  | name (n : Identifier)
  | mark (p : Punctuation)
  | string (l : Literal)

def Token.text : Token → String
  | name n => n.text
  | mark p => p.text
  | string l => l.text

/-- The end of `front` and the start of `back` would read as one name. -/
def Touches (front back : String) : Prop :=
  (bytesOf front).getLast?.any isNamePart = true ∧ (bytesOf back).head?.any isNamePart = true

instance (front back : String) : Decidable (Touches front back) :=
  inferInstanceAs (Decidable (_ ∧ _))

/-- `text` is the tokens, each followed by trivia that keeps names apart. -/
def At : List Token → String → Prop
  | [], text => text = ""
  | token :: tokens, text => ∃ gap rest, text = token.text ++ gap ++ rest ∧ TriviaText gap ∧
      (gap = "" → ¬Touches token.text rest) ∧ At tokens rest

/-- `text` is the tokens, with trivia around them. -/
def Before (tokens : List Token) (text : String) : Prop :=
  ∃ gap rest, text = gap ++ rest ∧ TriviaText gap ∧ At tokens rest

theorem At.before {tokens : List Token} {text : String} (h : At tokens text) : Before tokens text :=
  ⟨"", text, by simp, .empty, h⟩

/-! ## First bytes -/

def startsToken (b : UInt8) : Bool :=
  isNameStart b || isQuote b || isAnyOf ['\x7b', '\x7d', ',', '*', ';'] b

theorem triviaItem_of_startsToken (hb : startsToken b = true ∨ isNamePart b = true)
    (rest : List UInt8) : triviaItem (b :: rest) = .nothing := by
  refine triviaItem_of_startsCode ?_ rest
  revert hb
  apply forall_byte _ b
  decide +kernel

def Token.first : Token → UInt8
  | name n => (bytesOf n.text).headD 0
  | mark p => (bytesOf p.text).headD 0
  | string l => byte l.mark

theorem Token.exists_text (t : Token) :
    ∃ rest, bytesOf t.text = t.first :: rest ∧ startsToken t.first = true := by
  cases t with
  | name n =>
    obtain ⟨first, rest, hbytes, hfirst⟩ := n.exists_cons
    refine ⟨rest, ?_, ?_⟩
    · simp only [text, Token.first, hbytes, headD_cons]
    · simp only [Token.first, hbytes, headD_cons, startsToken, hfirst, Bool.true_or]
  | mark p => cases p <;> exact ⟨[], by decide, by decide⟩
  | string l =>
    refine ⟨bytesOf l.value ++ [byte l.mark], l.bytesOf_text, ?_⟩
    rw [startsToken, Token.first, l.isQuote_mark, Bool.or_true, Bool.true_or]

def firstByte : List Token → Option UInt8
  | [] => none
  | t :: _ => some t.first

theorem At.head? {text : String} (h : At tokens text) :
    (bytesOf text).head? = firstByte tokens := by
  cases tokens with
  | nil =>
    have hempty : text = "" := h
    simp [hempty, firstByte]
  | cons t tokens =>
    obtain ⟨gap, rest, rfl, _⟩ := h
    obtain ⟨more, hbytes, _⟩ := t.exists_text
    simp [hbytes, firstByte]

theorem At.triviaItem {text : String} (h : At tokens text) :
    triviaItem (bytesOf text) = .nothing := by
  cases tokens with
  | nil =>
    have hempty : text = "" := h
    simp [hempty, ModuleBridge.triviaItem]
  | cons t tokens =>
    obtain ⟨gap, rest, rfl, _⟩ := h
    obtain ⟨more, hbytes, hstarts⟩ := t.exists_text
    rw [bytesOf_append, bytesOf_append, hbytes]
    exact triviaItem_of_startsToken (.inl hstarts) _

theorem TriviaText.head?_ne {gap : String} (h : TriviaText gap)
    (hb : ∀ rest, ModuleBridge.triviaItem (b :: rest) = .nothing) :
    (bytesOf gap).head? ≠ some b := by
  obtain ⟨crosses, hreach⟩ := triviaReach_of_text h (rfl : ModuleBridge.triviaItem [] = .nothing)
  rw [append_nil] at hreach
  intro hhead
  obtain ⟨rest, hbytes⟩ := head?_eq_some_iff.mp hhead
  rw [hbytes, triviaReach_of_nothing (hb rest)] at hreach
  simp at hreach

theorem At.cons_cut {t : Token} {text : String} (h : At (t :: tokens) text) :
    ∃ rest, text = t.text ++ rest ∧ ¬Touches t.text rest ∧ Before tokens rest := by
  obtain ⟨gap, rest, rfl, hgap, happart, hrest⟩ := h
  refine ⟨gap ++ rest, String.append_assoc .., ?_, gap, rest, rfl, hgap, hrest⟩
  by_cases hempty : gap = ""
  · rw [hempty, String.empty_append]
    exact happart hempty
  · rintro ⟨_, hhead⟩
    have hne : bytesOf gap ≠ [] := fun hnil => hempty (bytesOf_inj.mp (by rw [hnil, bytesOf_empty]))
    obtain ⟨b, more, hbytes⟩ := exists_cons_of_ne_nil hne
    rw [bytesOf_append, hbytes, cons_append, head?_cons, Option.any_some] at hhead
    exact hgap.head?_ne (triviaItem_of_startsToken (.inr hhead)) (by rw [hbytes, head?_cons])

theorem At.length_le {text : String} (h : At tokens text) :
    tokens.length ≤ (bytesOf text).length := by
  induction tokens generalizing text with
  | nil => exact Nat.zero_le _
  | cons t tokens ih =>
    obtain ⟨gap, rest, rfl, _, _, hrest⟩ := h
    obtain ⟨more, hbytes, _⟩ := t.exists_text
    have hle := ih hrest
    rw [bytesOf_append, bytesOf_append, hbytes]
    simp only [length_append, length_cons]
    omega

theorem Before.length_le {text : String} (h : Before tokens text) :
    tokens.length ≤ (bytesOf text).length := by
  obtain ⟨gap, rest, rfl, _, hrest⟩ := h
  have hle := hrest.length_le
  rw [bytesOf_append, length_append]
  omega

/-! ## Words and strings -/

theorem Identifier.bytes (n : Identifier) : ∀ b ∈ bytesOf n.text, isNamePart b = true :=
  n.isIdentifier.2

theorem Identifier.ne_nil (n : Identifier) : bytesOf n.text ≠ [] := by
  obtain ⟨first, rest, hbytes, _⟩ := n.exists_cons
  simp [hbytes]

/-- The name that the tokens start with; nothing when they start with another token. -/
def firstWord : List Token → List UInt8
  | .name n :: _ => bytesOf n.text
  | _ => []

theorem takeWhile_name {rest : String} (happart : ¬Touches n.text rest) :
    (bytesOf (n.text ++ rest)).takeWhile isNamePart = bytesOf n.text := by
  have hstop : (bytesOf rest).takeWhile isNamePart = [] := by
    cases hbytes : bytesOf rest with
    | nil => rfl
    | cons b more =>
      refine takeWhile_cons_of_neg fun hb => happart ⟨?_, by simp [hbytes, hb]⟩
      rw [getLast?_eq_some_getLast n.ne_nil, Option.any_some]
      exact n.bytes _ (getLast_mem n.ne_nil)
  rw [bytesOf_append, takeWhile_append_of_pos n.bytes, hstop, append_nil]

theorem At.takeWhile {text : String} (h : At tokens text) :
    (bytesOf text).takeWhile isNamePart = firstWord tokens := by
  have hstop : ∀ t : Token, isNamePart t.first = false → ∀ more,
      (t.first :: more).takeWhile isNamePart = [] := by
    intro t ht more
    exact takeWhile_cons_of_neg (by simp [ht])
  cases tokens with
  | nil =>
    have hempty : text = "" := h
    simp [hempty, firstWord]
  | cons t tokens =>
    obtain ⟨rest, rfl, happart, _⟩ := h.cons_cut
    obtain ⟨more, hbytes, _⟩ := t.exists_text
    cases t with
    | name n => exact takeWhile_name happart
    | mark p =>
      rw [bytesOf_append, hbytes]
      exact hstop _ (by cases p <;> decide) _
    | string l =>
      rw [bytesOf_append, hbytes]
      refine hstop _ ?_ _
      rcases l.isMark with h | h <;> rw [Token.first, h] <;> decide

theorem Literal.bytes (l : Literal) :
    ∀ b ∈ bytesOf l.value, isLineEndByte b = false ∧ b ≠ byte '\\' ∧ b ≠ byte l.mark := by
  intro b hb
  refine ⟨?_, ?_, ?_⟩
  · have hline : IsSingleLine l.value := fun ch hch => (l.isPlain ch hch).2.2
    exact isSingleLine_iff_bytes.mp hline b hb
  · rintro rfl
    have hmem : '\\' ∈ l.value.toList := mem_toList_of_mem_bytesOf (by decide) (by decide) hb
    exact (l.isPlain _ hmem).2.1 rfl
  · rintro rfl
    have hmem : l.mark ∈ l.value.toList :=
      mem_toList_of_mem_bytesOf l.utf8EncodeChar_mark (isQuote_ascii l.isQuote_mark) hb
    exact (l.isPlain _ hmem).1 rfl

namespace Scan

variable {α β : Type} {I M O : String → Prop} {P : α → Prop} {tokens : List Token}

/-- In front of a text of `I`, `op` succeeds, leaves a text of `O` and answers with `P`. -/
def Takes (I O : String → Prop) (P : α → Prop) (op : Scan α) : Prop :=
  ∀ ⦃c text⦄, c.after = bytesOf text → I text →
    ∃ a d rest, op c = .ok a d ∧ d.after = bytesOf rest ∧ O rest ∧ P a

namespace Takes

theorem pure {a : α} (h : P a) : Takes I I P (pure a) := by
  intro c text hc hI
  exact ⟨a, c, text, rfl, hc, hI, h⟩

theorem bind {op : Scan β} {next : β → Scan α} {Q : β → Prop} (hop : Takes I M Q op)
    (hnext : ∀ b, Q b → Takes M O P (next b)) : Takes I O P (op >>= next) := by
  intro c text hc hI
  obtain ⟨b, d, mid, hfirst, hd, hM, hQ⟩ := hop hc hI
  obtain ⟨a, e, rest, hsecond, he, hO, hP⟩ := hnext b hQ hd hM
  exact ⟨a, e, rest, bind_eq_ok.mpr ⟨b, d, hfirst, hsecond⟩, he, hO, hP⟩

theorem mono {Q : α → Prop} {op : Scan α} (hop : Takes I O P op) (h : ∀ a, P a → Q a) :
    Takes I O Q op := by
  intro c text hc hI
  obtain ⟨a, d, rest, hrun, hd, hO, hP⟩ := hop hc hI
  exact ⟨a, d, rest, hrun, hd, hO, h a hP⟩

theorem get : Takes I I (fun c => ∃ text, c.after = bytesOf text ∧ I text) get := by
  intro c text hc hI
  exact ⟨c, c, text, rfl, hc, hI, text, hc, hI⟩

theorem peek {f : Cursor → α} (h : ∀ c text, c.after = bytesOf text → I text → P (f c)) :
    Takes I I P (peek f) := by
  intro c text hc hI
  exact ⟨f c, c, text, rfl, hc, hI, h c text hc hI⟩

end Takes

/-! ### Trivia and names -/

theorem space_takes : Takes (Before tokens) (At tokens) (fun _ => True) space := by
  rintro c text hc ⟨gap, rest, rfl, hgap, hrest⟩
  obtain ⟨crosses, hreach⟩ := triviaReach_of_text hgap hrest.triviaItem
  rw [← bytesOf_append, ← hc] at hreach
  refine ⟨(), _, rest, space_eq_advance.mpr ⟨_, crosses, hreach, rfl⟩, ?_, hrest, trivial⟩
  rw [after_advance, hc, bytesOf_append, drop_left]

theorem Takes.weaken {I' : String → Prop} {op : Scan α} (h : Takes I O P op)
    (hI : ∀ text, I' text → I text) : Takes I' O P op := by
  intro c text hc hI'
  exact h hc (hI text hI')

theorem name_takes :
    Takes (At (.name n :: tokens)) (Before tokens) (fun a => a.text = n.text) name := by
  intro c text hc hat
  have hword : c.after.takeWhile isNamePart = bytesOf n.text := by
    rw [hc, hat.takeWhile, firstWord]
  obtain ⟨rest, rfl, _, hrest⟩ := hat.cons_cut
  have hafter : c.after = bytesOf n.text ++ bytesOf rest := by
    rw [hc, bytesOf_append, Token.text]
  have hstart : c.byte?.any isNameStart = true := by
    obtain ⟨first, more, hname, hfirst⟩ := n.exists_cons
    rw [byte?, hafter, hname, cons_append, head?_cons, Option.any_some, hfirst]
  let d := c.advance (bytesOf n.text).length
  refine ⟨⟨c.textUpTo d, c.rangeTo d⟩, d, rest, ?_, ?_, hrest, ?_⟩
  · rw [name, if_pos hstart, hword]
  · rw [after_advance, hafter, drop_left]
  · rw [textUpTo_advance, hafter, take_left, textOf_bytesOf]

theorem startsWithWord_eq_true (hn : n.text = word) {text : String} (hc : c.after = bytesOf text)
    (hat : At (.name n :: tokens) text) : c.startsWithWord word = true := by
  rw [← hn, startsWithWord_iff n.bytes, hc, hat.takeWhile, firstWord]

theorem acceptWord_takes (hn : n.text = word) :
    Takes (At (.name n :: tokens)) (Before tokens) (· = true) (acceptWord word) := by
  intro c text hc hat
  have hstarts := startsWithWord_eq_true hn hc hat
  obtain ⟨rest, rfl, _, hrest⟩ := hat.cons_cut
  refine ⟨true, c.advance (bytesOf word).length, rest, ?_, ?_, hrest, rfl⟩
  · rw [acceptWord, if_pos hstarts]
  · rw [after_advance, hc, bytesOf_append, Token.text, ← hn, drop_left]

theorem startsWithWord_eq_false (hword : ∀ b ∈ bytesOf word, isNamePart b = true)
    (hother : firstWord tokens ≠ bytesOf word) {text : String} (hc : c.after = bytesOf text)
    (hat : At tokens text) : c.startsWithWord word = false := by
  refine Bool.eq_false_iff.mpr fun hstarts => hother ?_
  rw [startsWithWord_iff hword, hc, hat.takeWhile] at hstarts
  exact hstarts

theorem acceptWord_misses (hword : ∀ b ∈ bytesOf word, isNamePart b = true)
    (hother : firstWord tokens ≠ bytesOf word) :
    Takes (At tokens) (At tokens) (· = false) (acceptWord word) := by
  intro c text hc hat
  have hstarts := startsWithWord_eq_false hword hother hc hat
  exact ⟨false, c, text, by rw [acceptWord, hstarts]; rfl, hc, hat, rfl⟩

theorem expectWord_takes (hn : n.text = word) :
    Takes (At (.name n :: tokens)) (Before tokens) (fun _ => True) (expectWord word) := by
  refine .bind (acceptWord_takes hn) fun found hfound => ?_
  rw [hfound]
  exact .pure trivial

theorem startsWith_mark {text : String} (hc : c.after = bytesOf text) (hat : At tokens text)
    (p : Punctuation) :
    c.startsWith p.text = true ↔ firstByte tokens = some (Token.mark p).first := by
  have hbytes : bytesOf p.text = [(Token.mark p).first] := by cases p <;> decide
  rw [← hat.head?, ← hc, startsWith, hbytes]
  cases c.after with
  | nil => simp
  | cons b rest =>
    rw [isPrefixOf_cons_cons, isPrefixOf_nil_left, Bool.and_true, beq_iff_eq,
      head?_cons, Option.some.injEq]
    exact eq_comm

theorem accept_takes :
    Takes (At (.mark p :: tokens)) (Before tokens) (· = true) (accept p.text) := by
  intro c text hc hat
  have hstarts := (startsWith_mark hc hat p).mpr rfl
  obtain ⟨rest, rfl, _, hrest⟩ := hat.cons_cut
  refine ⟨true, c.advance (bytesOf p.text).length, rest, ?_, ?_, hrest, rfl⟩
  · rw [accept, if_pos hstarts]
  · rw [after_advance, hc, bytesOf_append, Token.text, drop_left]

theorem accept_misses (hother : firstByte tokens ≠ some (Token.mark p).first) :
    Takes (At tokens) (At tokens) (· = false) (accept p.text) := by
  intro c text hc hat
  have hstarts : ¬c.startsWith p.text = true := fun h => hother ((startsWith_mark hc hat p).mp h)
  exact ⟨false, c, text, by rw [accept, if_neg hstarts], hc, hat, rfl⟩

theorem expect_takes :
    Takes (At (.mark p :: tokens)) (Before tokens) (fun _ => True) (expect p.text) := by
  refine .bind accept_takes fun found hfound => ?_
  rw [hfound]
  exact .pure trivial

theorem quotedReach_of_plain {quote : UInt8} {value rest : List UInt8} {start : Nat}
    (hquote : isQuote quote = true)
    (hvalue : ∀ b ∈ value, isLineEndByte b = false ∧ b ≠ byte '\\' ∧ b ≠ quote) :
    quotedReach quote (value ++ quote :: rest) start = .closed (start + value.length + 1) := by
  have hmark : isLineEndByte quote = false ∧ (quote == byte '\\') = false := by
    revert hquote
    apply forall_byte _ quote
    decide +kernel
  induction value generalizing start with
  | nil =>
    rw [nil_append, quotedReach.eq_def]
    simp only [hmark, Bool.false_eq_true, if_false, beq_self_eq_true, if_true, length_nil,
      Nat.add_zero]
  | cons b value ih =>
    obtain ⟨hend, hslash, hother⟩ := hvalue b mem_cons_self
    rw [cons_append, quotedReach.eq_def]
    simp only [hend, beq_eq_false_iff_ne.mpr hslash, beq_eq_false_iff_ne.mpr hother,
      Bool.false_eq_true, if_false, length_cons]
    rw [ih fun b hb => hvalue b (mem_cons_of_mem _ hb)]
    congr 1
    omega

theorem quoted_takes {l : Literal} :
    Takes (At (.string l :: tokens)) (Before tokens) (fun a => a.value = l.value) quoted := by
  intro c text hc hat
  obtain ⟨rest, rfl, _, hrest⟩ := hat.cons_cut
  have hreach : quotedReach (byte l.mark) (bytesOf l.value ++ byte l.mark :: bytesOf rest) 0 =
      .closed ((bytesOf l.value).length + 1) := by
    rw [quotedReach_of_plain l.isQuote_mark l.bytes, Nat.zero_add]
  have hafter : c.after = byte l.mark :: (bytesOf l.value ++ byte l.mark :: bytesOf rest) := by
    rw [hc, Token.text, bytesOf_append, l.bytesOf_text]
    simp
  let d := c.advance ((bytesOf l.value).length + 1 + 1)
  refine ⟨⟨l.value, c.rangeTo d⟩, d, rest, ?_, ?_, hrest, rfl⟩
  · simp only [quoted, hafter, l.isQuote_mark, if_true, hreach, Nat.add_sub_cancel, take_left,
      textOf_bytesOf, d]
  · rw [after_advance, hafter, drop_succ_cons, drop_length_add_append]
    rfl

theorem afterSpace_takes {op : Scan (Option α)}
    (hop : Takes (At tokens) O (fun answer => ∃ a, answer = some a ∧ P a) op) :
    Takes (Before tokens) O (fun answer => ∃ a, answer = some a ∧ P a) (afterSpace op) := by
  intro c text hc hbefore
  obtain ⟨_, q, mid, hspace, hq, hat, _⟩ := space_takes hc hbefore
  obtain ⟨answer, d, rest, hrun, hd, hrest, a, rfl, ha⟩ := hop hq hat
  exact ⟨some a, d, rest, afterSpace_eq_ok.mpr ⟨q, d, hspace, hrun, rfl⟩, hd, hrest, a, rfl, ha⟩

theorem afterSpace_misses {op : Scan (Option α)}
    (hop : Takes (At tokens) (At tokens) (· = none) op) :
    Takes (Before tokens) (Before tokens) (· = none) (afterSpace op) := by
  intro c text hc hbefore
  obtain ⟨_, q, mid, hspace, hq, hat, _⟩ := space_takes hc hbefore
  obtain ⟨answer, d, rest, hrun, _, _, rfl⟩ := hop hq hat
  exact ⟨none, c, text, afterSpace_eq_ok.mpr ⟨q, d, hspace, hrun, rfl⟩, hc, hbefore, rfl⟩

def ending (semicolon : Bool) : List Token :=
  if semicolon then [.mark .semicolon] else []

theorem optionalSemicolon_takes {semicolon : Bool} (hend : semicolon = false → tokens = []) :
    Takes (Before (ending semicolon ++ tokens)) (Before tokens) (fun _ => True)
      optionalSemicolon := by
  unfold optionalSemicolon
  cases semicolon with
  | true =>
    refine .bind (afterSpace_takes (P := fun _ => True) (.bind (accept_takes (p := .semicolon)) ?_))
      fun _ _ => .pure trivial
    rintro found rfl
    exact .pure ⟨(), rfl, trivial⟩
  | false =>
    rw [hend rfl]
    have hmiss : firstByte [] ≠ some (Token.mark .semicolon).first := by simp [firstByte]
    refine .bind (afterSpace_misses (.bind (accept_misses (p := .semicolon) hmiss) ?_))
      fun _ _ => .pure trivial
    rintro found rfl
    exact .pure rfl

end Scan

end ModuleBridge
