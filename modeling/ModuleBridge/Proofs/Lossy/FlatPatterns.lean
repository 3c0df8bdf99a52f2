import ModuleBridge.Proofs.Grammar.PatternReading
import ModuleBridge.Proofs.Lossy.LineForms

/-!
# Names of flat patterns

A flat pattern is cut at its commas, and a name is looked for in each piece. Where the text is a
pattern without nested brackets, this is compared with the names that the pattern binds: as long as
white space is all that surrounds the names, every name is found, and behind it whatever the pieces
of its default value are mistaken for. Both lists agree exactly when there is no such stray name.
-/

namespace ModuleBridge

open Scan List

variable {inObject : Bool} {lead gap : List Char} {ch : Char} {p : BindingPattern}
  {e : PatternEntry}

/-! ## Entries -/

/-- What an entry of a flat pattern binds, and how. -/
inductive EntryHead where
  | hole
  | bare (n : Identifier)
  | keyed (key : PropertyKey) (before after : Spacing) (n : Identifier)
  | rest (gap : Spacing) (n : Identifier)

namespace EntryHead

def text : EntryHead → String
  | hole => ""
  | bare n => n.text
  | keyed key before after n => key.text ++ (before.text ++ (":" ++ (after.text ++ n.text)))
  | rest gap n => "..." ++ (gap.text ++ n.text)

def names : EntryHead → List String
  | hole => []
  | bare n | keyed _ _ _ n | rest _ n => [n.text]

end EntryHead

/-- One entry of a flat pattern, with all trivia around it. -/
structure PatternEntry where
  lead : Spacing
  head : EntryHead
  value : Option DefaultText
  after : Spacing

namespace PatternEntry

def text (e : PatternEntry) : String :=
  e.lead.text ++ (e.head.text ++ (valueText e.value ++ e.after.text))

/-- The trivia between the name and the default value, or the end of the entry. -/
def tail (e : PatternEntry) : Spacing :=
  e.value.elim e.after DefaultText.before

/-- What the pieces of the default value behind its first comma are mistaken for. -/
def strays (inObject : Bool) (e : PatternEntry) : List (List Char) :=
  e.value.elim [] fun value =>
    (splitAtAll (· == ',') (value.after.text ++ (value.code ++ e.after.text)).toList).tail.filterMap
      (elementName? inObject)

end PatternEntry

namespace Property

def entry (lead after : Spacing) : Property → PatternEntry
  | shorthand n value => ⟨lead, .bare n, value, after⟩
  | keyed key before behind (.name n) value => ⟨lead, .keyed key before behind n, value, after⟩
  | rest gap (.name n) => ⟨lead, .rest gap n, none, after⟩
  | _ => ⟨lead, .hole, none, after⟩

end Property

namespace Element

def entry (lead after : Spacing) : Element → PatternEntry
  | item (.name n) value => ⟨lead, .bare n, value, after⟩
  | rest gap (.name n) value => ⟨lead, .rest gap n, value, after⟩
  | _ => ⟨lead, .hole, none, after⟩

end Element

def PropertyList.entries : PropertyList → List PatternEntry
  | .close gap => [⟨gap, .hole, none, .none⟩]
  | .last gap property after => [property.entry gap after]
  | .more gap property after rest => property.entry gap after :: rest.entries

def ElementList.entries : ElementList → List PatternEntry
  | .close gap => [⟨gap, .hole, none, .none⟩]
  | .hole gap rest => ⟨gap, .hole, none, .none⟩ :: rest.entries
  | .last gap element after => [element.entry gap after]
  | .more gap element after rest => element.entry gap after :: rest.entries

/-- The entries of an object or array pattern, cut at the commas between them. -/
def BindingPattern.entries : BindingPattern → List PatternEntry
  | .name _ => []
  | .object properties => properties.entries
  | .array elements => elements.entries

def Spacing.IsWhite (gap : Spacing) : Prop :=
  ∀ ch ∈ gap.text.toList, isWhiteSpace ch = true

namespace EntryHead

/-- The trivia is white space, a key shows neither comma nor `=`, and in an array pattern the name
follows its rest mark directly. -/
def IsPlain (inObject : Bool) : EntryHead → Prop
  | hole | bare _ => True
  | keyed key before after _ =>
    inObject = true ∧ (∀ ch ∈ key.text.toList, ch ≠ ',' ∧ ch ≠ '=') ∧ before.IsWhite ∧
      after.IsWhite
  | rest gap _ => gap.IsWhite ∧ (inObject = false → gap.text = "")

end EntryHead

/-- Up to its default value an entry has only white space around its tokens. -/
structure PatternEntry.IsPlain (inObject : Bool) (e : PatternEntry) : Prop where
  lead : e.lead.IsWhite
  head : e.head.IsPlain inObject
  tail : e.tail.IsWhite

theorem trim_between {inner tail : List Char} (hlead : ∀ ch ∈ lead, isWhiteSpace ch = true)
    (htail : ∀ ch ∈ tail, isWhiteSpace ch = true) (hfirst : inner.head?.any isWhiteSpace = false)
    (hlast : inner.getLast?.any isWhiteSpace = false) (hne : inner ≠ []) :
    trim (lead ++ (inner ++ tail)) = inner := by
  have hdrop : ∀ {white rest : List Char}, (∀ ch ∈ white, isWhiteSpace ch = true) →
      rest.head?.any isWhiteSpace = false → (white ++ rest).dropWhile isWhiteSpace = rest := by
    intro white rest hwhite hrest
    rw [dropWhile_append_of_pos hwhite]
    exact Recogniser.Unspaced.dropWhile hrest
  have hstart : trimStart (lead ++ (inner ++ tail)) = inner ++ tail := by
    refine hdrop hlead ?_
    obtain ⟨ch, more, rfl⟩ := exists_cons_of_ne_nil hne
    exact hfirst
  rw [trim, hstart, trimEnd, reverse_append, hdrop, reverse_reverse]
  · exact fun ch hch => htail ch (mem_reverse.mp hch)
  · rwa [head?_reverse]

theorem trim_white {text : List Char} (h : ∀ ch ∈ text, isWhiteSpace ch = true) :
    trim text = [] := by
  rw [trim, trimStart, dropWhile_eq_nil_iff.mpr h]
  rfl

/-! ## The name of an element -/

def isBareChar (ch : Char) : Bool :=
  !isWhiteSpace ch && !",=:.\x7b[".toList.contains ch

theorem Identifier.isBareChar (n : Identifier) :
    ∀ ch ∈ n.text.toList, ModuleBridge.isBareChar ch = true :=
  n.forall_chars (forall_byte (P := fun b => isNamePart b = true →
    ModuleBridge.isBareChar (Char.ofNat b.toNat) = true) (by decide +kernel))

theorem Identifier.isBindingName (n : Identifier) :
    ModuleBridge.isBindingName n.text.toList = true := by
  obtain ⟨ch, rest, hchars, hfirst⟩ := n.exists_chars
  have hall := n.isPlainNameChar
  rw [hchars] at hall ⊢
  rw [ModuleBridge.isBindingName, hfirst, Bool.true_and, all_eq_true]
  intro ch hch
  have hplain := hall ch (mem_cons_of_mem _ hch)
  simp only [ModuleBridge.isPlainNameChar, Bool.and_eq_true] at hplain
  exact hplain.1.1.1.1.1

theorem Identifier.trim_element (n : Identifier) {front tail : List Char}
    (hlead : ∀ ch ∈ lead, isWhiteSpace ch = true) (htail : ∀ ch ∈ tail, isWhiteSpace ch = true)
    (hfront : (front ++ n.text.toList).head?.any isWhiteSpace = false) :
    trim (lead ++ (front ++ n.text.toList ++ tail)) = front ++ n.text.toList := by
  refine trim_between hlead htail hfront ?_ (append_ne_nil_of_right_ne_nil _ n.toList_ne_nil)
  rw [getLast?_append_of_ne_nil _ n.toList_ne_nil]
  cases hlast : n.text.toList.getLast? with
  | none => rfl
  | some ch => exact n.not_whiteSpace ch (mem_of_getLast? hlast)

theorem Identifier.trim_name (n : Identifier) {tail : List Char}
    (hlead : ∀ ch ∈ lead, isWhiteSpace ch = true) (htail : ∀ ch ∈ tail, isWhiteSpace ch = true) :
    trim (lead ++ (n.text.toList ++ tail)) = n.text.toList := by
  have hfirst : ([] ++ n.text.toList).head?.any isWhiteSpace = false := by
    cases hhead : n.text.toList.head? with
    | none => rw [nil_append, hhead]; rfl
    | some ch =>
      rw [nil_append, hhead]
      exact n.not_whiteSpace ch (mem_of_head? hhead)
  have htrim := n.trim_element hlead htail hfirst
  rwa [nil_append] at htrim

theorem takeWhile_colon {front back : List Char} (hback : ':' ∉ back) :
    ((front ++ ':' :: back).reverse.takeWhile (· != ':')).reverse = back := by
  have hrev : (front ++ ':' :: back).reverse = back.reverse ++ ':' :: front.reverse := by simp
  rw [hrev, takeWhile_append_of_pos, takeWhile_cons_of_neg (by simp), append_nil,
    reverse_reverse]
  intro ch hch
  rw [bne_iff_ne]
  rintro rfl
  exact hback (mem_reverse.mp hch)

theorem takeWhile_no_colon {text : List Char} (h : ':' ∉ text) :
    (text.reverse.takeWhile (· != ':')).reverse = text := by
  rw [takeWhile_eq_self_iff.mpr, reverse_reverse]
  intro ch hch
  rw [bne_iff_ne]
  rintro rfl
  exact h (mem_reverse.mp hch)

theorem takeWhile_no_equals {text : List Char} (h : '=' ∉ text) (rest : List Char) :
    (text ++ '=' :: rest).takeWhile (· != '=') = text ∧ text.takeWhile (· != '=') = text := by
  have hall : ∀ ch ∈ text, (ch != '=') = true := by
    intro ch hch
    rw [bne_iff_ne]
    rintro rfl
    exact h hch
  refine ⟨?_, takeWhile_eq_self_iff.mpr hall⟩
  rw [takeWhile_append_of_pos hall, takeWhile_cons_of_neg (by simp), append_nil]

theorem elementName?_equals {text : List Char} (h : '=' ∉ text) (rest : List Char) :
    elementName? inObject (text ++ '=' :: rest) = elementName? inObject text := by
  obtain ⟨hcut, hwhole⟩ := takeWhile_no_equals h rest
  simp only [elementName?, hcut, hwhole]

/-- How the name of an element is found: the text before `=` is trimmed, a rest mark is taken away,
and in an object pattern all that ends with a colon. -/
theorem elementName?_of_name {n : Identifier} {element target rest : List Char}
    (hequals : '=' ∉ element) (htarget : trim element = target)
    (hrest : (if ['.', '.', '.'].isPrefixOf target then target.drop 3 else target) = rest)
    (hname : (if inObject then trim (rest.reverse.takeWhile (· != ':')).reverse else rest) =
      n.text.toList) :
    elementName? inObject element = some n.text.toList := by
  simp only [elementName?, (takeWhile_no_equals hequals []).2, htarget, hrest, hname,
    n.isBindingName, if_true]

section Plain

variable {inObject : Bool} {lead tail : List Char}

theorem not_mem_white {white : List Char} (h : ∀ ch ∈ white, isWhiteSpace ch = true)
    (hch : isWhiteSpace ch = false) : ch ∉ white := by
  intro hmem
  rw [h ch hmem] at hch
  cases hch

theorem Identifier.not_mem (n : Identifier) (hch : ModuleBridge.isBareChar ch = false) :
    ch ∉ n.text.toList := by
  intro hmem
  rw [n.isBareChar ch hmem] at hch
  cases hch

theorem Identifier.trim_after_colon (n : Identifier) (hlead : ∀ ch ∈ lead, isWhiteSpace ch = true)
    (hbare : inObject = false → lead = []) :
    (if inObject then
      trim ((lead ++ n.text.toList).reverse.takeWhile (· != ':')).reverse
      else lead ++ n.text.toList) = n.text.toList := by
  have hcolon : ':' ∉ lead ++ n.text.toList := by
    rw [mem_append, not_or]
    exact ⟨not_mem_white hlead (by decide), n.not_mem (by decide)⟩
  cases inObject with
  | true =>
    have htrim := n.trim_name hlead (fun ch hch => absurd hch not_mem_nil)
    rw [append_nil] at htrim
    rw [if_pos rfl, takeWhile_no_colon hcolon, htrim]
  | false => rw [if_neg Bool.false_ne_true, hbare rfl, nil_append]

theorem elementName?_hole (hlead : ∀ ch ∈ lead, isWhiteSpace ch = true) :
    elementName? inObject lead = none := by
  have hequals : '=' ∉ lead := not_mem_white hlead (by decide)
  cases inObject <;>
    simp only [elementName?, (takeWhile_no_equals hequals []).2, trim_white hlead] <;> rfl

theorem elementName?_bare (n : Identifier) (hlead : ∀ ch ∈ lead, isWhiteSpace ch = true)
    (htail : ∀ ch ∈ tail, isWhiteSpace ch = true) :
    elementName? inObject (lead ++ (n.text.toList ++ tail)) = some n.text.toList := by
  have hequals : '=' ∉ lead ++ (n.text.toList ++ tail) := by
    simp only [mem_append, not_or]
    exact ⟨not_mem_white hlead (by decide), n.not_mem (by decide), not_mem_white htail (by decide)⟩
  have hdots : ¬['.', '.', '.'].isPrefixOf n.text.toList = true := by
    rw [List.isPrefixOf_iff_prefix]
    exact fun hdots => n.not_mem (by decide) (hdots.subset mem_cons_self)
  have hname := n.trim_after_colon (fun ch hch => absurd hch not_mem_nil)
    fun _ : inObject = false => rfl
  rw [nil_append] at hname
  exact elementName?_of_name hequals (n.trim_name hlead htail) (if_neg hdots) hname

theorem elementName?_rest (n : Identifier) (hlead : ∀ ch ∈ lead, isWhiteSpace ch = true)
    (hgap : ∀ ch ∈ gap, isWhiteSpace ch = true) (hbare : inObject = false → gap = [])
    (htail : ∀ ch ∈ tail, isWhiteSpace ch = true) :
    elementName? inObject (lead ++ (['.', '.', '.'] ++ gap ++ n.text.toList ++ tail)) =
      some n.text.toList := by
  have hequals : '=' ∉ lead ++ (['.', '.', '.'] ++ gap ++ n.text.toList ++ tail) := by
    simp only [mem_append, not_or]
    exact ⟨not_mem_white hlead (by decide), ⟨⟨by decide, not_mem_white hgap (by decide)⟩,
      n.not_mem (by decide)⟩, not_mem_white htail (by decide)⟩
  have hdots : ['.', '.', '.'].isPrefixOf (['.', '.', '.'] ++ gap ++ n.text.toList) = true := rfl
  exact elementName?_of_name hequals (n.trim_element hlead htail rfl) (if_pos hdots)
    (n.trim_after_colon hgap hbare)

theorem PropertyKey.exists_chars (key : PropertyKey) :
    ∃ ch rest, key.text.toList = ch :: rest ∧ isWhiteSpace ch = false ∧
      (ch = '.' → ∃ next more, rest = next :: more ∧ next ≠ '.') := by
  obtain ⟨b, more, hbytes, hentry, hpoint⟩ := key.exists_cons
  obtain ⟨hlow, hone, hwhite, hdot⟩ : b < 128 ∧
      String.utf8EncodeChar (Char.ofNat b.toNat) = [b] ∧
      isWhiteSpace (Char.ofNat b.toNat) = false ∧ (Char.ofNat b.toNat = '.' → b = byte '.') :=
    forall_byte (P := fun b => startsEntry b = true → b < 128 ∧
      String.utf8EncodeChar (Char.ofNat b.toNat) = [b] ∧
      isWhiteSpace (Char.ofNat b.toNat) = false ∧ (Char.ofNat b.toNat = '.' → b = byte '.'))
      (by decide +kernel) b hentry
  rw [bytesOf_eq_flatMap] at hbytes
  obtain ⟨rest, hchars⟩ := eq_of_head?_flatMap hone hlow (by rw [hbytes, head?_cons])
  rw [hchars, flatMap_cons, hone, singleton_append] at hbytes
  refine ⟨_, rest, hchars, hwhite, fun hch => ?_⟩
  obtain ⟨a, tail, rfl, ha⟩ := hpoint (hdot hch)
  cases rest with
  | nil => cases hbytes
  | cons next others =>
    refine ⟨next, others, rfl, ?_⟩
    rintro rfl
    exact ha (cons.inj (cons.inj hbytes).2).1.symm

theorem elementName?_keyed (n : Identifier) (key : PropertyKey) {before : List Char}
    (hlead : ∀ ch ∈ lead, isWhiteSpace ch = true) (hkey : '=' ∉ key.text.toList)
    (hbefore : ∀ ch ∈ before, isWhiteSpace ch = true) (hgap : ∀ ch ∈ gap, isWhiteSpace ch = true)
    (htail : ∀ ch ∈ tail, isWhiteSpace ch = true) :
    elementName? true
      (lead ++ (key.text.toList ++ before ++ (':' :: gap) ++ n.text.toList ++ tail)) =
        some n.text.toList := by
  have hequals : '=' ∉ lead ++
      (key.text.toList ++ before ++ (':' :: gap) ++ n.text.toList ++ tail) := by
    simp only [mem_append, mem_cons, not_or]
    exact ⟨not_mem_white hlead (by decide), ⟨⟨⟨hkey, not_mem_white hbefore (by decide)⟩, by decide,
      not_mem_white hgap (by decide)⟩, n.not_mem (by decide)⟩, not_mem_white htail (by decide)⟩
  have hcolon : ':' ∉ gap ++ n.text.toList := by
    rw [mem_append, not_or]
    exact ⟨not_mem_white hgap (by decide), n.not_mem (by decide)⟩
  obtain ⟨ch, rest, hchars, hwhite, hpoint⟩ := key.exists_chars
  have hdots : ¬['.', '.', '.'].isPrefixOf
      (key.text.toList ++ before ++ (':' :: gap) ++ n.text.toList) = true := by
    rw [List.isPrefixOf_iff_prefix, hchars]
    rintro ⟨tail, htail⟩
    obtain ⟨hch, hmore⟩ := cons.inj htail
    obtain ⟨next, more, rfl, hnext⟩ := hpoint hch.symm
    exact hnext (cons.inj hmore).1.symm
  refine elementName?_of_name hequals (n.trim_element hlead htail ?_) (if_neg hdots) ?_
  · rw [hchars]
    exact hwhite
  · have htrim := n.trim_name hgap (fun ch hch => absurd hch not_mem_nil)
    rw [append_nil] at htrim
    rw [if_pos rfl, append_assoc, cons_append, takeWhile_colon hcolon, htrim]

end Plain

/-! ## The names of plain entries -/

namespace PatternEntry

variable {inObject : Bool} {e : PatternEntry}

/-- The piece of an entry before its default value. -/
def front (e : PatternEntry) : List Char :=
  e.lead.text.toList ++ (e.head.text.toList ++ e.tail.text.toList)

theorem text_toList (e : PatternEntry) :
    e.text.toList = e.front ++ e.value.elim [] fun value =>
      '=' :: (value.after.text ++ (value.code ++ e.after.text)).toList := by
  cases hvalue : e.value with
  | none => simp [text, front, tail, hvalue, valueText]
  | some value => simp [text, front, tail, hvalue, valueText, DefaultText.text]

theorem IsPlain.front_uncut (h : e.IsPlain inObject) : ',' ∉ e.front ∧ '=' ∉ e.front := by
  have hwhite : ∀ {gap : Spacing}, gap.IsWhite → ',' ∉ gap.text.toList ∧ '=' ∉ gap.text.toList :=
    fun hgap => ⟨not_mem_white hgap (by decide), not_mem_white hgap (by decide)⟩
  have hname : ∀ n : Identifier, ',' ∉ n.text.toList ∧ '=' ∉ n.text.toList :=
    fun n => ⟨n.not_mem (by decide), n.not_mem (by decide)⟩
  have hhead : ',' ∉ e.head.text.toList ∧ '=' ∉ e.head.text.toList := by
    have hplain := h.head
    cases hhead : e.head with
    | hole => simp [EntryHead.text]
    | bare n => exact hname n
    | keyed key before after n =>
      rw [hhead] at hplain
      obtain ⟨-, hkey, hbefore, hafter⟩ := hplain
      have hkey' : ',' ∉ key.text.toList ∧ '=' ∉ key.text.toList :=
        ⟨fun hmem => (hkey _ hmem).1 rfl, fun hmem => (hkey _ hmem).2 rfl⟩
      simp [EntryHead.text, hkey', hwhite hbefore, hwhite hafter, hname n]
    | rest gap n =>
      rw [hhead] at hplain
      simp [EntryHead.text, hwhite hplain.1, hname n]
  simp only [front, mem_append, not_or]
  exact ⟨⟨(hwhite h.lead).1, hhead.1, (hwhite h.tail).1⟩, (hwhite h.lead).2, hhead.2,
    (hwhite h.tail).2⟩

theorem IsPlain.elementName? (h : e.IsPlain inObject) :
    (ModuleBridge.elementName? inObject e.front).toList = e.head.names.map String.toList := by
  have hplain := h.head
  rw [front]
  cases hhead : e.head with
  | hole =>
    have hwhite : ∀ ch ∈ e.lead.text.toList ++ e.tail.text.toList, isWhiteSpace ch = true := by
      intro ch hch
      exact (mem_append.mp hch).elim (h.lead ch) (h.tail ch)
    simp [EntryHead.text, EntryHead.names, elementName?_hole hwhite]
  | bare n =>
    rw [EntryHead.text, elementName?_bare n h.lead h.tail]
    rfl
  | keyed key before after n =>
    rw [hhead] at hplain
    obtain ⟨rfl, hkey, hbefore, hafter⟩ := hplain
    have hfound :=
      elementName?_keyed n key h.lead (fun hmem => (hkey _ hmem).2 rfl) hbefore hafter
      h.tail
    have htext : (EntryHead.keyed key before after n).text.toList =
        key.text.toList ++ before.text.toList ++ (':' :: after.text.toList) ++ n.text.toList := by
      simp [EntryHead.text]
    rw [htext, hfound]
    rfl
  | rest gap n =>
    rw [hhead] at hplain
    have hfound := elementName?_rest n h.lead hplain.1
      (fun hobject => by rw [hplain.2 hobject]; rfl) h.tail
    have htext : (EntryHead.rest gap n).text.toList =
        ['.', '.', '.'] ++ gap.text.toList ++ n.text.toList := by
      simp [EntryHead.text]
    rw [htext, hfound]
    rfl

theorem IsPlain.flatPatternNames (h : e.IsPlain inObject) :
    ModuleBridge.flatPatternNames inObject e.text.toList =
      e.head.names.map String.toList ++ e.strays inObject := by
  obtain ⟨hcomma, hequals⟩ := h.front_uncut
  have huncut : ∀ ch ∈ e.front, (ch == ',') = false := by
    intro ch hch
    rw [beq_eq_false_iff_ne]
    rintro rfl
    exact hcomma hch
  rw [ModuleBridge.flatPatternNames, text_toList, ← h.elementName?, strays]
  cases e.value with
  | none =>
    rw [Option.elim_none, Option.elim_none, append_nil, append_nil,
      splitAtAll_last huncut, filterMap_cons]
    cases ModuleBridge.elementName? inObject e.front <;> rfl
  | some value =>
    rw [Option.elim_some, Option.elim_some]
    generalize (value.after.text ++ (value.code ++ e.after.text)).toList = code
    obtain ⟨first, others, hparts, hfront⟩ := exists_splitAtAll_front (· == ',') code
    have hboth : ∀ ch ∈ e.front ++ ['='], (ch == ',') = false := by
      intro ch hch
      rcases mem_append.mp hch with hch | hch
      · exact huncut ch hch
      · rw [mem_singleton.mp hch]
        rfl
    have hsplit := hfront _ hboth
    rw [append_assoc, append_assoc, singleton_append,
      singleton_append] at hsplit
    rw [hsplit, hparts, tail_cons, filterMap_cons, elementName?_equals hequals]
    cases ModuleBridge.elementName? inObject e.front <;> rfl

end PatternEntry

/-! ## Flat patterns -/

/-- No braces and no square brackets. -/
def IsUnbracketed (text : String) : Prop :=
  ∀ ch ∈ text.toList, ch ∉ ['\x7b', '\x7d', '[', ']']

theorem IsUnbracketed.of_append {front back : String} (h : IsUnbracketed (front ++ back)) :
    IsUnbracketed front ∧ IsUnbracketed back := by
  simp only [IsUnbracketed, String.toList_append, mem_append] at h ⊢
  exact ⟨fun ch hch => h ch (.inl hch), fun ch hch => h ch (.inr hch)⟩

theorem BindingPattern.exists_name (h : IsUnbracketed p.text) : ∃ n, p = .name n := by
  cases p with
  | name n => exact ⟨n, rfl⟩
  | object properties =>
    have hopen : '\x7b' ∉ ['\x7b', '\x7d', '[', ']'] := h '\x7b' (by simp [text])
    simp at hopen
  | array elements =>
    have hopen : '[' ∉ ['\x7b', '\x7d', '[', ']'] := h '[' (by simp [text])
    simp at hopen

theorem Property.entry_eq {p : Property} (h : IsUnbracketed p.text) (lead after : Spacing) :
    (p.entry lead after).text = lead.text ++ (p.text ++ after.text) ∧
      (p.entry lead after).head.names = p.names := by
  cases p with
  | shorthand n value =>
    exact ⟨by simp only [entry, PatternEntry.text, EntryHead.text, text, String.append_assoc],
      rfl⟩
  | keyed key before behind target value =>
    obtain ⟨n, rfl⟩ := BindingPattern.exists_name
      h.of_append.2.of_append.2.of_append.2.of_append.2.of_append.1
    refine ⟨?_, rfl⟩
    simp only [entry, PatternEntry.text, EntryHead.text, text, BindingPattern.text,
      String.append_assoc]
  | rest gap target =>
    obtain ⟨n, rfl⟩ := BindingPattern.exists_name h.of_append.2.of_append.2
    refine ⟨?_, rfl⟩
    simp only [entry, PatternEntry.text, EntryHead.text, text, BindingPattern.text, valueText,
      Option.elim_none, String.empty_append, String.append_assoc]

theorem Element.entry_eq {x : Element} (h : IsUnbracketed x.text) (lead after : Spacing) :
    (x.entry lead after).text = lead.text ++ (x.text ++ after.text) ∧
      (x.entry lead after).head.names = x.names := by
  cases x with
  | item target value =>
    obtain ⟨n, rfl⟩ := BindingPattern.exists_name h.of_append.1
    refine ⟨?_, rfl⟩
    simp only [entry, PatternEntry.text, EntryHead.text, text, BindingPattern.text,
      String.append_assoc]
  | rest gap target value =>
    obtain ⟨n, rfl⟩ := BindingPattern.exists_name h.of_append.2.of_append.2.of_append.1
    refine ⟨?_, rfl⟩
    simp only [entry, PatternEntry.text, EntryHead.text, text, BindingPattern.text,
      String.append_assoc]

def PropertyList.inside : PropertyList → String
  | .close gap => gap.text
  | .last gap property after => gap.text ++ (property.text ++ after.text)
  | .more gap property after rest =>
    gap.text ++ (property.text ++ (after.text ++ ("," ++ rest.inside)))

def ElementList.inside : ElementList → String
  | .close gap => gap.text
  | .hole gap rest => gap.text ++ ("," ++ rest.inside)
  | .last gap element after => gap.text ++ (element.text ++ after.text)
  | .more gap element after rest =>
    gap.text ++ (element.text ++ (after.text ++ ("," ++ rest.inside)))

/-- The text between the brackets is the entries with commas between them, and the names are those
of the entries. -/
structure IsCut (inside : String) (names : List String) (entries : List PatternEntry) : Prop where
  pieces : ∀ inObject, flatPatternNames inObject inside.toList =
    entries.flatMap fun e => flatPatternNames inObject e.text.toList
  names_eq : names = entries.flatMap fun e => e.head.names

theorem IsCut.single : IsCut e.text e.head.names [e] :=
  ⟨fun _ => (flatMap_singleton ..).symm, (flatMap_singleton ..).symm⟩

theorem IsCut.cons {inside : String} {names : List String} {entries : List PatternEntry}
    (h : IsCut inside names entries) :
    IsCut (e.text ++ ("," ++ inside)) (e.head.names ++ names) (e :: entries) := by
  constructor
  · intro inObject
    have htext : (e.text ++ ("," ++ inside)).toList = e.text.toList ++ ',' :: inside.toList := by
      simp
    rw [htext, flatMap_cons, ← h.pieces inObject]
    simp only [flatPatternNames]
    rw [splitAtAll_cut (by decide), filterMap_append]
  · rw [flatMap_cons, ← h.names_eq]

theorem PatternEntry.text_hole (gap : Spacing) :
    (⟨gap, .hole, none, .none⟩ : PatternEntry).text = gap.text := by
  simp [text, EntryHead.text, valueText, Spacing.none]

theorem PropertyList.text_eq_inside (ps : PropertyList) : ps.text = ps.inside ++ "\x7d" := by
  induction hentries : ps.entries generalizing ps with
  | nil => cases ps <;> cases hentries
  | cons e entries ih =>
    cases ps with
    | close gap => rfl
    | last gap p after => simp only [text, inside, String.append_assoc]
    | more gap p after rest =>
      rw [text, inside, ih rest (cons.inj hentries).2]
      simp only [String.append_assoc]

theorem ElementList.text_eq_inside (es : ElementList) : es.text = es.inside ++ "]" := by
  induction hentries : es.entries generalizing es with
  | nil => cases es <;> cases hentries
  | cons e entries ih =>
    cases es with
    | close gap => rfl
    | hole gap rest =>
      rw [text, inside, ih rest (cons.inj hentries).2]
      simp only [String.append_assoc]
    | last gap x after => simp only [text, inside, String.append_assoc]
    | more gap x after rest =>
      rw [text, inside, ih rest (cons.inj hentries).2]
      simp only [String.append_assoc]

theorem PropertyList.isCut {ps : PropertyList} (h : IsUnbracketed ps.inside) :
    IsCut ps.inside ps.names ps.entries := by
  induction hlength : ps.entries.length generalizing ps with
  | zero => cases ps <;> cases hlength
  | succ n ih =>
    cases ps with
    | close gap =>
      rw [inside, ← PatternEntry.text_hole gap]
      exact .single
    | last gap p after =>
      obtain ⟨htext, hnames⟩ := p.entry_eq h.of_append.2.of_append.1 gap after
      rw [inside, names, ← htext, ← hnames]
      exact .single
    | more gap p after rest =>
      obtain ⟨htext, hnames⟩ := p.entry_eq h.of_append.2.of_append.1 gap after
      have hrest := ih h.of_append.2.of_append.2.of_append.2.of_append.2
        (Nat.succ.inj hlength)
      have hinside : (PropertyList.more gap p after rest).inside =
          (p.entry gap after).text ++ ("," ++ rest.inside) := by
        rw [htext]
        simp only [inside, String.append_assoc]
      rw [hinside, names, ← hnames]
      exact hrest.cons

theorem ElementList.isCut {es : ElementList} (h : IsUnbracketed es.inside) :
    IsCut es.inside es.names es.entries := by
  induction hlength : es.entries.length generalizing es with
  | zero => cases es <;> cases hlength
  | succ n ih =>
    cases es with
    | close gap =>
      rw [inside, ← PatternEntry.text_hole gap]
      exact .single
    | hole gap rest =>
      have hrest := ih h.of_append.2.of_append.2 (Nat.succ.inj hlength)
      rw [inside, ← PatternEntry.text_hole gap]
      exact hrest.cons
    | last gap x after =>
      obtain ⟨htext, hnames⟩ := x.entry_eq h.of_append.2.of_append.1 gap after
      rw [inside, names, ← htext, ← hnames]
      exact .single
    | more gap x after rest =>
      obtain ⟨htext, hnames⟩ := x.entry_eq h.of_append.2.of_append.1 gap after
      have hrest := ih h.of_append.2.of_append.2.of_append.2.of_append.2
        (Nat.succ.inj hlength)
      have hinside : (ElementList.more gap x after rest).inside =
          (x.entry gap after).text ++ ("," ++ rest.inside) := by
        rw [htext]
        simp only [inside, String.append_assoc]
      rw [hinside, names, ← hnames]
      exact hrest.cons

/-! ## Both readings of a flat pattern -/

def enclosed (inObject : Bool) (inside : String) : String :=
  if inObject then "\x7b" ++ (inside ++ "\x7d") else "[" ++ (inside ++ "]")

/-- A pattern whose text is enclosed has the entries between its brackets. -/
theorem BindingPattern.isCut {inside : String} (htext : p.text = enclosed inObject inside)
    (hflat : IsUnbracketed inside) : IsCut inside p.names p.entries ∧ ∀ n, p ≠ .name n := by
  have hchars := congrArg String.toList htext
  cases p with
  | name n =>
    have hopen : ('\x7b' ∈ n.text.toList) ∨ ('[' ∈ n.text.toList) := by
      rw [text] at hchars
      rw [hchars]
      cases inObject <;> simp [enclosed]
    rcases hopen with hopen | hopen <;>
      exact absurd (n.isBareChar _ hopen) (by decide)
  | object properties =>
    cases inObject with
    | true =>
      have hinside : properties.inside = inside := by
        rw [text, properties.text_eq_inside] at hchars
        exact String.toList_inj.mp (by simpa [enclosed] using hchars)
      subst hinside
      exact ⟨properties.isCut hflat, fun n hn => by cases hn⟩
    | false => simp [text, enclosed] at hchars
  | array elements =>
    cases inObject with
    | true => simp [text, enclosed] at hchars
    | false =>
      have hinside : elements.inside = inside := by
        rw [text, elements.text_eq_inside] at hchars
        exact String.toList_inj.mp (by simpa [enclosed] using hchars)
      subst hinside
      exact ⟨elements.isCut hflat, fun n hn => by cases hn⟩

/-- Where all entries show their names, the lists differ by the stray names. -/
theorem flatMap_names_eq_iff {entries : List PatternEntry} :
    (entries.flatMap fun e => e.head.names.map String.toList ++ e.strays inObject) =
        entries.flatMap (fun e => e.head.names.map String.toList) ↔
      ∀ e ∈ entries, e.strays inObject = [] := by
  constructor
  · intro heq e he
    have hlength := congrArg length heq
    simp only [length_flatMap, length_append, sum_map_add] at hlength
    have hsum : (entries.map fun e => (e.strays inObject).length).sum = 0 := by omega
    rw [sum_eq_zero_iff] at hsum
    exact eq_nil_of_length_eq_zero (hsum _ (mem_map_of_mem he))
  · intro hnone
    exact flatMap_congr fun e he => by rw [hnone e he, append_nil]

theorem Scan.Collects.of_ok {op : Scan (List Name)} {c d e : Cursor} {reads : Bool}
    {names : List String} {found : List Name} (h : Collects op c d reads names)
    (hok : op c = .ok found e) : found.map Name.text = names := by
  cases reads with
  | true =>
    obtain ⟨all, hall, hnames⟩ := h
    rw [hok] at hall
    cases hall
    exact hnames
  | false =>
    obtain ⟨fault, f, hfault, -⟩ := h
    rw [hok] at hfault
    cases hfault

/-- Cutting at commas finds the names that a flat pattern binds, each followed by the strays of its
default value. So it finds the bound names alone exactly where no default value leaves a stray. -/
theorem flatPatternNames_eq_iff {inObject : Bool} {inside : String} (hflat : IsUnbracketed inside)
    {names : List Name} {d : Cursor}
    (hread : boundNames (Cursor.ofText (enclosed inObject inside)) = .ok names d)
    (hall : d.after = []) :
    (∃ p : BindingPattern, p.text = enclosed inObject inside ∧
      p.Fits (Cursor.ofText (enclosed inObject inside))) ∧
    ∀ p : BindingPattern, p.text = enclosed inObject inside →
      p.Fits (Cursor.ofText (enclosed inObject inside)) →
      names.map Name.text = p.names ∧
      ((∀ e ∈ p.entries, e.IsPlain inObject) →
        flatPatternNames inObject inside.toList =
          (p.entries.flatMap fun e => e.head.names.map String.toList ++ e.strays inObject) ∧
        (flatPatternNames inObject inside.toList = names.map (fun n => n.text.toList) ↔
          ∀ e ∈ p.entries, e.strays inObject = [])) := by
  refine ⟨?_, fun p htext hfits => ?_⟩
  · obtain ⟨p, hpasses, hfits⟩ := boundNames_passes (Cursor.isBoundary_ofText _) hread
    refine ⟨p, ?_, hfits⟩
    have hafter := hpasses.after_eq
    rw [hall, List.append_nil] at hafter
    exact (bytesOf_inj.mp hafter).symm
  · obtain ⟨hcut, hbracketed⟩ := BindingPattern.isCut htext hflat
    have hstart : (Cursor.ofText (enclosed inObject inside)).after = bytesOf p.text ++ [] := by
      rw [htext, List.append_nil]
      rfl
    have hnames := (boundNames_collects hstart (fun n hn => absurd hn (hbracketed n)) hfits).of_ok
      hread
    refine ⟨hnames, fun hplain => ?_⟩
    have hflatNames : flatPatternNames inObject inside.toList =
        p.entries.flatMap fun e => e.head.names.map String.toList ++ e.strays inObject := by
      rw [hcut.pieces]
      exact List.flatMap_congr fun e he => (hplain e he).flatPatternNames
    have hbound : names.map (fun n => n.text.toList) =
        p.entries.flatMap fun e => e.head.names.map String.toList := by
      rw [← map_flatMap, ← hcut.names_eq, ← hnames, map_map]
      rfl
    refine ⟨hflatNames, ?_⟩
    rw [hflatNames, hbound]
    exact flatMap_names_eq_iff

theorem single_call :
    (bytesOf (Spacing.blank.text ++ "f(1, b, c)")).head? ≠ some (byte '=') := by
  decide +kernel

/-- The names from `a` to `z`. -/
def Identifier.letter (i : Fin 26) : Identifier :=
  ⟨.singleton (.ofNat (97 + i)), by decide +kernel +revert⟩

def defaultCall : BindingPattern :=
  .object (.more .blank
    (.shorthand (.letter 0) (some ⟨.blank, .blank, "f(1, b, c)", single_call⟩)) .none
    (.last .blank (.keyed (.name (.letter 3)) .none .blank (.name (.letter 4)) none) .blank))

theorem defaultCall_stray :
    (∃ names d, boundNames (Cursor.ofText (enclosed true " a = f(1, b, c), d: e ")) = .ok names d ∧
      d.after = [] ∧ names.map Name.text = ["a", "e"] ∧
      flatPatternNames true " a = f(1, b, c), d: e ".toList ≠ names.map fun n => n.text.toList) ∧
    flatPatternNames true " a = f(1, b, c), d: e ".toList = [['a'], ['b'], ['e']] := by
  have hblank : Spacing.blank.IsWhite := fun ch hch => by
    rw [List.mem_singleton.mp hch]
    decide
  have hnone : Spacing.none.IsWhite := fun ch hch => absurd hch List.not_mem_nil
  have htext : defaultCall.text = enclosed true " a = f(1, b, c), d: e " := by decide
  have hfits : defaultCall.Fits (Cursor.ofText (enclosed true " a = f(1, b, c), d: e ")) := by
    refine ⟨?_, trivial, trivial, by simp⟩
    rintro v ⟨⟩
    exact ⟨⟨6, 16⟩, by cbv⟩
  have hkey : ∀ ch ∈ "d".toList, ch ≠ ',' ∧ ch ≠ '=' := fun ch hch => by
    rw [List.mem_singleton.mp hch]
    decide
  have hplain : ∀ e ∈ defaultCall.entries, e.IsPlain true := by
    intro e he
    rcases List.mem_cons.mp he with rfl | he
    · exact ⟨hblank, trivial, hblank⟩
    · rw [List.mem_singleton.mp he]
      exact ⟨hblank, ⟨rfl, hkey, hnone, hblank⟩, hblank⟩
  have hflat : IsUnbracketed " a = f(1, b, c), d: e " := fun ch hch hmark => by
    simp at hch hmark
    rcases hmark with rfl | rfl | rfl | rfl <;> simp at hch
  have hstart : (Cursor.ofText (enclosed true " a = f(1, b, c), d: e ")).after =
      bytesOf defaultCall.text ++ [] := by
    rw [htext, List.append_nil]
    rfl
  have hcollects := boundNames_collects hstart (fun n hn => by cases hn) hfits
  rw [Collects, if_pos (by decide)] at hcollects
  obtain ⟨names, hread, -⟩ := hcollects
  have hall := Cursor.after_past hstart
  obtain ⟨hnames, hboth⟩ := (flatPatternNames_eq_iff hflat hread hall).2 defaultCall htext hfits
  obtain ⟨hfound, hiff⟩ := hboth hplain
  have hstray : flatPatternNames true " a = f(1, b, c), d: e ".toList = [['a'], ['b'], ['e']] := by
    rw [hfound]
    decide
  refine ⟨⟨names, _, hread, hall, hnames, fun hsame => ?_⟩, hstray⟩
  have hnone := hiff.mp hsame _ List.mem_cons_self
  exact absurd hnone (by decide)

end ModuleBridge
