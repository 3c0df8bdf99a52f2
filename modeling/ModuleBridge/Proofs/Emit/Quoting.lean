import ModuleBridge.Emit.Quote
import ModuleBridge.Proofs.Source.Nesting

/-!
# Quoting a raw value

The raw value of a string literal is quoted again, perhaps with the other quote. Whatever quote it
came from, the result is a complete literal: a quote of the new kind in it is escaped or there is
none, and escapes and line continuations stay whole.
-/

namespace ModuleBridge

open List StringItem

variable {mark : QuoteMark}

namespace StringItem

variable {mark : QuoteMark}

/-- The same step in a string with the quote `other`. -/
def requote (other : QuoteMark) : StringItem mark → StringItem other
  | plain ch h =>
    if hquote : ch = other.char then .escape ch
    else .plain ch fun hmem => (mem_cons.mp hmem).elim hquote fun hrest =>
      h (mem_cons_of_mem _ hrest)
  | escape ch => .escape ch
  | continuation => .continuation

theorem chars_requote {other : QuoteMark} {item : StringItem mark} (h : other.char ∉ item.chars) :
    (item.requote other).chars = item.chars := by
  cases item with
  | plain ch hplain =>
    have hne : ch ≠ other.char := fun heq => h (heq ▸ mem_cons_self)
    rw [requote, dif_neg hne, chars, chars]
  | escape ch => rfl
  | continuation => rfl

end StringItem

theorem escapeSingleQuotes_plain {ch : Char} (hslash : ch ≠ '\\') (hquote : ch ≠ '\'')
    (rest : List Char) : escapeSingleQuotes (ch :: rest) = ch :: escapeSingleQuotes rest := by
  cases rest with
  | nil => simp [escapeSingleQuotes, hquote]
  | cons b rest => simp [escapeSingleQuotes, hslash, hquote]

theorem escapeSingleQuotes_quote (rest : List Char) :
    escapeSingleQuotes ('\'' :: rest) = '\\' :: '\'' :: escapeSingleQuotes rest := by
  cases rest with
  | nil => rfl
  | cons b rest => simp [escapeSingleQuotes]

theorem escapeSingleQuotes_escape (ch : Char) (rest : List Char) :
    escapeSingleQuotes ('\\' :: ch :: rest) = '\\' :: ch :: escapeSingleQuotes rest := by
  simp [escapeSingleQuotes]

theorem escapeSingleQuotes_item (item : StringItem mark) (rest : List Char) :
    escapeSingleQuotes (item.chars ++ rest) =
      (item.requote .single).chars ++ escapeSingleQuotes rest := by
  cases item with
  | plain ch h =>
    by_cases hquote : ch = '\''
    · subst hquote
      exact escapeSingleQuotes_quote rest
    · have hslash : ch ≠ '\\' := fun heq => h (by simp [heq])
      have hmark : ch ≠ QuoteMark.single.char := hquote
      rw [requote, dif_neg hmark]
      exact escapeSingleQuotes_plain hslash hquote rest
  | escape ch => exact escapeSingleQuotes_escape ch rest
  | continuation =>
    have hfeed : escapeSingleQuotes ('\n' :: rest) = '\n' :: escapeSingleQuotes rest :=
      escapeSingleQuotes_plain (by decide) (by decide) rest
    change escapeSingleQuotes ('\\' :: '\r' :: '\n' :: rest) = _
    rw [escapeSingleQuotes_escape, hfeed]
    rfl

theorem escapeSingleQuotes_items (items : List (StringItem mark)) :
    escapeSingleQuotes (items.flatMap chars) =
      (items.map (requote .single)).flatMap chars := by
  induction items with
  | nil => rfl
  | cons item items ih =>
    rw [flatMap_cons, escapeSingleQuotes_item, ih, map_cons, flatMap_cons]

theorem flatMap_requote {mark other : QuoteMark} {items : List (StringItem mark)}
    (h : other.char ∉ items.flatMap chars) :
    (items.map (requote other)).flatMap chars =
      items.flatMap chars := by
  rw [flatMap_map, flatMap_def, flatMap_def]
  refine congrArg flatten (map_congr_left fun item hitem => ?_)
  exact chars_requote fun hmem => h (mem_flatMap.mpr ⟨item, hitem, hmem⟩)

def betweenQuotes (value : List Char) : List Char :=
  if '\'' ∈ value ∧ '"' ∈ value then escapeSingleQuotes value else value

/-- A value that stood between quotes of some kind is quoted as a complete literal. -/
theorem exists_quote_items {value : String} (items : List (StringItem mark))
    (hvalue : value.toList = items.flatMap chars) :
    ∃ other, ∃ others : List (StringItem other), quote value = stringText other others ∧
      others.flatMap chars = betweenQuotes value.toList := by
  by_cases hsingle : '\'' ∈ value.toList
  · by_cases hdouble : '"' ∈ value.toList
    · have hchars := escapeSingleQuotes_items items
      rw [← hvalue] at hchars
      refine ⟨.single, items.map (requote .single), ?_, ?_⟩
      · rw [stringText, ← hchars]
        simp [quote, quoteChars, hsingle, hdouble, QuoteMark.char]
      · rw [← hchars, betweenQuotes, if_pos ⟨hsingle, hdouble⟩]
    · have hchars := @flatMap_requote mark .double items (hvalue ▸ hdouble)
      rw [← hvalue] at hchars
      refine ⟨.double, items.map (requote .double), ?_, ?_⟩
      · rw [stringText, hchars]
        simp [quote, quoteChars, hsingle, hdouble, QuoteMark.char]
      · rw [hchars, betweenQuotes, if_neg fun h => hdouble h.2]
  · have hchars := @flatMap_requote mark .single items (hvalue ▸ hsingle)
    rw [← hvalue] at hchars
    refine ⟨.single, items.map (requote .single), ?_, ?_⟩
    · rw [stringText, hchars]
      simp [quote, quoteChars, hsingle, QuoteMark.char]
    · rw [hchars, betweenQuotes, if_neg fun h => hsingle h.1]

theorem exists_quote_eq {value : String} (items : List (StringItem mark))
    (hvalue : value.toList = items.flatMap chars) :
    ∃ other, ∃ others : List (StringItem other), quote value = stringText other others := by
  obtain ⟨other, others, hquote, -⟩ := exists_quote_items items hvalue
  exact ⟨other, others, hquote⟩

end ModuleBridge
