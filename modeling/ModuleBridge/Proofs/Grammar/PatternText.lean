import Mathlib
import ModuleBridge.Proofs.Grammar.FollowDeclaration
import ModuleBridge.Proofs.Source.Nesting
import ModuleBridge.Proofs.Source.Passing

/-!
# Printed patterns

Binding patterns as they are written: names, object patterns and array patterns with trivia between
any two tokens, property keys of all kinds and default values. A default value is any code, as long
as an expression that is read at its place ends with it.

Reading a pattern collects the names that it binds and ends just behind it. The one exception is a
decimal key that starts with its point: no key is recognised there, and the reading fails.
-/

namespace ModuleBridge

open Cursor hiding after
open List Option Scan

variable {b a : UInt8} {value : Option DefaultText} {test : Scan Bool} {yes no : Scan (List Name)}
  {key : PropertyKey} {r : Range} {target : BindingPattern} {p : Property} {x : Element}
  {gap : Spacing}

/-! ## Keys and default values -/

/-- Digits with a point before, behind or between them, or without one. -/
structure DecimalText where
  whole : String
  /-- The digits behind the point, if there is one. -/
  fraction : Option String
  whole_digits : ∀ b ∈ bytesOf whole, isDigitByte b = true
  fraction_digits : ∀ b ∈ bytesOf (fraction.getD ""), isDigitByte b = true
  ne_empty : whole ++ fraction.getD "" ≠ ""

def DecimalText.text (n : DecimalText) : String :=
  n.whole ++ n.fraction.elim "" ("." ++ ·)

inductive PropertyKey where
  | name (n : Identifier)
  | string (mark : QuoteMark) (items : List (StringItem mark))
  | decimal (n : DecimalText)
  /-- The code of a computed key, which stands between brackets. -/
  | computed (code : String)

open PropertyKey

namespace PropertyKey

def text : PropertyKey → String
  | name n => n.text
  | string mark items => stringText mark items
  | decimal n => n.text
  | computed code => "[" ++ code ++ "]"

/-- No decimal key starts with its point. -/
def reads : PropertyKey → Bool
  | decimal n => n.whole != ""
  | _ => true

/-- The brackets of a computed key at the cursor end with it. -/
def Fits (c : Cursor) : PropertyKey → Prop
  | computed code => ∃ r, brackets c = .ok r (c.past ("[" ++ code ++ "]"))
  | _ => True

end PropertyKey

/-- A default value with the `=` before it, which is not half of a `==`. -/
structure DefaultText where
  before : Spacing
  after : Spacing
  code : String
  single : (bytesOf (after.text ++ code)).head? ≠ some (byte '=')

namespace DefaultText

def text (value : DefaultText) : String :=
  value.before.text ++ ("=" ++ (value.after.text ++ value.code))

/-- An expression that is read at the place of the code ends with it. -/
def Fits (c : Cursor) (value : DefaultText) : Prop :=
  let start := ((c.past value.before.text).past "=").past value.after.text
  ∃ r, expression start = .ok r (start.past value.code)

end DefaultText

def valueText (value : Option DefaultText) : String :=
  value.elim "" DefaultText.text

/-! ## Patterns -/

mutual

inductive BindingPattern where
  | name (n : Identifier)
  | object (properties : PropertyList)
  | array (elements : ElementList)

/-- What stands behind the brace of an object pattern or behind a comma in it. -/
inductive PropertyList where
  | close (gap : Spacing)
  | last (gap : Spacing) (property : Property) (after : Spacing)
  | more (gap : Spacing) (property : Property) (after : Spacing) (rest : PropertyList)

inductive Property where
  /-- A name that is the key and the binding. -/
  | shorthand (n : Identifier) (value : Option DefaultText)
  | keyed (key : PropertyKey) (before after : Spacing) (target : BindingPattern)
      (value : Option DefaultText)
  | rest (gap : Spacing) (target : BindingPattern)

/-- What stands behind the bracket of an array pattern or behind a comma in it. -/
inductive ElementList where
  | close (gap : Spacing)
  /-- An element that is left out. -/
  | hole (gap : Spacing) (rest : ElementList)
  | last (gap : Spacing) (element : Element) (after : Spacing)
  | more (gap : Spacing) (element : Element) (after : Spacing) (rest : ElementList)

inductive Element where
  | item (target : BindingPattern) (value : Option DefaultText)
  | rest (gap : Spacing) (target : BindingPattern) (value : Option DefaultText)

end

mutual

def BindingPattern.text : BindingPattern → String
  | .name n => n.text
  | .object properties => "\x7b" ++ properties.text
  | .array elements => "[" ++ elements.text

def PropertyList.text : PropertyList → String
  | .close gap => gap.text ++ "\x7d"
  | .last gap property after => gap.text ++ (property.text ++ (after.text ++ "\x7d"))
  | .more gap property after rest =>
    gap.text ++ (property.text ++ (after.text ++ ("," ++ rest.text)))

def Property.text : Property → String
  | .shorthand n value => n.text ++ valueText value
  | .keyed key before after target value =>
    key.text ++ (before.text ++ (":" ++ (after.text ++ (target.text ++ valueText value))))
  | .rest gap target => "..." ++ (gap.text ++ target.text)

def ElementList.text : ElementList → String
  | .close gap => gap.text ++ "]"
  | .hole gap rest => gap.text ++ ("," ++ rest.text)
  | .last gap element after => gap.text ++ (element.text ++ (after.text ++ "]"))
  | .more gap element after rest =>
    gap.text ++ (element.text ++ (after.text ++ ("," ++ rest.text)))

def Element.text : Element → String
  | .item target value => target.text ++ valueText value
  | .rest gap target value => "..." ++ (gap.text ++ (target.text ++ valueText value))

end

mutual

def BindingPattern.names : BindingPattern → List String
  | .name n => [n.text]
  | .object properties => properties.names
  | .array elements => elements.names

def PropertyList.names : PropertyList → List String
  | .close _ => []
  | .last _ property _ => property.names
  | .more _ property _ rest => property.names ++ rest.names

def Property.names : Property → List String
  | .shorthand n _ => [n.text]
  | .keyed _ _ _ target _ => target.names
  | .rest _ target => target.names

def ElementList.names : ElementList → List String
  | .close _ => []
  | .hole _ rest => rest.names
  | .last _ element _ => element.names
  | .more _ element _ rest => element.names ++ rest.names

def Element.names : Element → List String
  | .item target _ => target.names
  | .rest _ target _ => target.names

end

mutual

/-- No key of the pattern is a decimal that starts with its point. -/
def BindingPattern.reads : BindingPattern → Bool
  | .name _ => true
  | .object properties => properties.reads
  | .array elements => elements.reads

def PropertyList.reads : PropertyList → Bool
  | .close _ => true
  | .last _ property _ => property.reads
  | .more _ property _ rest => property.reads && rest.reads

def Property.reads : Property → Bool
  | .shorthand _ _ => true
  | .keyed key _ _ target _ => key.reads && target.reads
  | .rest _ target => target.reads

def ElementList.reads : ElementList → Bool
  | .close _ => true
  | .hole _ rest => rest.reads
  | .last _ element _ => element.reads
  | .more _ element _ rest => element.reads && rest.reads

def Element.reads : Element → Bool
  | .item target _ => target.reads
  | .rest _ target _ => target.reads

end

mutual

/-- At the cursor all default values and computed keys of the pattern end where they should. -/
def BindingPattern.Fits (c : Cursor) : BindingPattern → Prop
  | .name _ => True
  | .object properties => properties.Fits (c.past "\x7b")
  | .array elements => elements.Fits (c.past "[")

def PropertyList.Fits (c : Cursor) : PropertyList → Prop
  | .close _ => True
  | .last gap property _ => property.Fits (c.past gap.text)
  | .more gap property after rest =>
    property.Fits (c.past gap.text) ∧
      rest.Fits ((((c.past gap.text).past property.text).past after.text).past ",")

def Property.Fits (c : Cursor) : Property → Prop
  | .shorthand n value => ∀ v ∈ value, v.Fits (c.past n.text)
  | .keyed key before after target value =>
    let start := (((c.past key.text).past before.text).past ":").past after.text
    key.Fits c ∧ target.Fits start ∧ ∀ v ∈ value, v.Fits (start.past target.text)
  | .rest gap target => target.Fits ((c.past "...").past gap.text)

def ElementList.Fits (c : Cursor) : ElementList → Prop
  | .close _ => True
  | .hole gap rest => rest.Fits ((c.past gap.text).past ",")
  | .last gap element _ => element.Fits (c.past gap.text)
  | .more gap element after rest =>
    element.Fits (c.past gap.text) ∧
      rest.Fits ((((c.past gap.text).past element.text).past after.text).past ",")

def Element.Fits (c : Cursor) : Element → Prop
  | .item target value => target.Fits c ∧ ∀ v ∈ value, v.Fits (c.past target.text)
  | .rest gap target value =>
    let start := (c.past "...").past gap.text
    target.Fits start ∧ ∀ v ∈ value, v.Fits (start.past target.text)

end

namespace Scan

/-- From `c` on, `op` collects `names` and leaves `d`, or fails where a name is missing. -/
def Collects (op : Scan (List Name)) (c d : Cursor) (reads : Bool) (names : List String) : Prop :=
  if reads then ∃ found, op c = .ok found d ∧ found.map Name.text = names
  else ∃ fault e, op c = .error fault e ∧ fault.message = .identifierExpected

namespace Collects

variable {α : Type} {c d e : Cursor} {reads : Bool} {names : List String}

theorem pure {found : List Name} (h : found.map Name.text = names) :
    Collects (pure found) c c true names :=
  ⟨found, rfl, h⟩

theorem step {op : Scan α} {next : α → Scan (List Name)} {a : α} (h : op c = .ok a d)
    (hnext : Collects (next a) d e reads names) : Collects (op >>= next) c e reads names := by
  unfold Collects
  rw [bind_of_ok h]
  exact hnext

theorem taken (h : test c = .ok true d) (hyes : Collects yes d e reads names) :
    Collects (do if ← test then yes else no) c e reads names :=
  step h hyes

theorem missed (h : test c = .ok false d) (hno : Collects no d e reads names) :
    Collects (do if ← test then yes else no) c e reads names :=
  step h hno

theorem fail {op : Scan α} {next : α → Scan (List Name)} {fault : Fault} {d : Cursor}
    (h : op c = .error fault d) (hfault : fault.message = .identifierExpected) :
    Collects (op >>= next) c e false names :=
  ⟨fault, d, bind_of_error h, hfault⟩

theorem bind {op : Scan (List Name)} {next : List Name → Scan (List Name)} {more : Bool}
    {collected : List String} (h : Collects op c d reads collected)
    (hnext : ∀ found, found.map Name.text = collected → Collects (next found) d e more names) :
    Collects (op >>= next) c e (reads && more) names := by
  cases reads with
  | true =>
    obtain ⟨found, hrun, hfound⟩ := h
    exact step hrun (hnext found hfound)
  | false =>
    obtain ⟨fault, stop, hrun, hfault⟩ := h
    exact fail hrun hfault

end Collects

end Scan

/-! ## First bytes -/

def startsEntry (b : UInt8) : Bool :=
  isNamePart b || isQuote b || isAnyOf ['\x7b', '[', '.'] b

def endsEntry (b : UInt8) : Bool :=
  isAnyOf [',', '\x7d', ']'] b

theorem startsEntry_code : startsEntry b = true → startsCode b = true ∧
    b ≠ byte '\x7d' ∧ b ≠ byte ']' ∧ b ≠ byte ',' := by
  apply forall_byte _ b
  decide +kernel

theorem endsEntry_code : endsEntry b = true → startsCode b = true ∧
    joinsToken b = false ∧ b ≠ byte '=' ∧ b ≠ byte ':' := by
  apply forall_byte _ b
  decide +kernel

theorem startsEntry_of_digit : isDigitByte b = true → startsEntry b = true ∧
    b ≠ byte '.' := by
  apply forall_byte _ b
  decide +kernel

theorem startsEntry_of_name : isNameStart b = true → startsEntry b = true ∧
    b ≠ byte '.' ∧ isQuote b = false ∧ b ≠ byte '[' ∧ b ≠ byte '\x7b' ∧ isDigitByte b = false := by
  apply forall_byte _ b
  decide +kernel

theorem DecimalText.bytesOf_text (n : DecimalText) :
    bytesOf n.text = bytesOf n.whole ++ n.fraction.elim [] (byte '.' :: bytesOf ·) := by
  cases h : n.fraction with
  | none => simp [text, h]
  | some digits =>
    have hpoint : bytesOf "." = [byte '.'] := by decide
    simp [text, h, hpoint]

theorem DecimalText.exists_cons (n : DecimalText) :
    ∃ b more, bytesOf n.text = b :: more ∧ ((n.whole ≠ "" ∧ isDigitByte b = true) ∨
      (n.whole = "" ∧ b = byte '.' ∧ ∃ a tail, more = a :: tail ∧ isDigitByte a = true)) := by
  rw [n.bytesOf_text]
  cases hwhole : bytesOf n.whole with
  | cons b more =>
    have hdigit := n.whole_digits b (by rw [hwhole]; exact mem_cons_self)
    refine ⟨b, _, rfl, .inl ⟨?_, hdigit⟩⟩
    intro hempty
    rw [hempty, bytesOf_empty] at hwhole
    cases hwhole
  | nil =>
    have hempty : n.whole = "" := bytesOf_inj.mp (by rw [hwhole, bytesOf_empty])
    have hne := n.ne_empty
    have hdigits := n.fraction_digits
    rw [hempty, String.empty_append] at hne
    cases hfraction : n.fraction with
    | none =>
      rw [hfraction] at hne
      exact absurd rfl hne
    | some digits =>
      rw [hfraction, getD_some] at hne hdigits
      refine ⟨byte '.', bytesOf digits, rfl, .inr ⟨hempty, rfl, ?_⟩⟩
      cases hbytes : bytesOf digits with
      | nil => exact absurd (bytesOf_inj.mp (by rw [hbytes, bytesOf_empty])) hne
      | cons a tail =>
        exact ⟨a, tail, rfl, hdigits a (by rw [hbytes]; exact mem_cons_self)⟩

namespace Scan

variable {c d e : Cursor} {rest : List UInt8}

/-! ## Keys -/

theorem span_digits {digits : List UInt8} (h : ∀ b ∈ digits, isDigitByte b = true)
    (hrest : rest.takeWhile isDigitByte = []) :
    (digits ++ rest).takeWhile isDigitByte = digits ∧
      (digits ++ rest).dropWhile isDigitByte = rest := by
  have htake : (digits ++ rest).takeWhile isDigitByte = digits := by
    rw [takeWhile_append_of_pos h, hrest, append_nil]
  refine ⟨htake, ?_⟩
  rw [dropWhile_eq_drop, htake, drop_left]

theorem number_past (n : DecimalText) (h : c.after = bytesOf n.text ++ rest)
    (hrest : StopsToken rest) : ∃ token, number c = .ok token (c.past n.text) := by
  have hdigits : ∀ b, isDigitByte b = true → joinsToken b = true := by
    intro b hb
    rw [joinsToken, isNamePart, hb, Bool.or_true, Bool.true_or]
  have hstop := hrest.takeWhile hdigits
  have hne : bytesOf n.whole ++ bytesOf (n.fraction.getD "") ≠ [] := by
    rw [← bytesOf_append]
    exact fun hnil => n.ne_empty (bytesOf_inj.mp (by rw [hnil, bytesOf_empty]))
  obtain ⟨b, more, hmore⟩ := exists_cons_of_ne_nil hne
  rw [n.bytesOf_text] at h
  have hpast : c.past n.text = c.advance (bytesOf n.text).length := rfl
  rw [n.bytesOf_text] at hpast
  cases hfraction : n.fraction with
  | none =>
    rw [hfraction, elim_none, append_nil] at h hpast
    rw [hfraction, getD_none, bytesOf_empty] at hmore
    obtain ⟨htake, hdrop⟩ := span_digits n.whole_digits hstop
    have hpoint : (rest.head? == some (byte '.')) = false := by
      refine Bool.eq_false_iff.mpr fun hhead => ?_
      rw [StopsToken, beq_iff_eq.mp hhead] at hrest
      cases hrest
    rw [number, h, htake, hdrop, hpoint]
    simp only [Bool.false_eq_true, if_false, hmore]
    exact ⟨_, by rw [hpast]; rfl⟩
  | some digits =>
    have hfrac := n.fraction_digits
    rw [hfraction, getD_some] at hmore hfrac
    rw [hfraction, elim_some, append_assoc, cons_append] at h
    rw [hfraction, elim_some] at hpast
    have hpoint : (byte '.' :: (bytesOf digits ++ rest)).takeWhile isDigitByte = [] :=
      takeWhile_cons_of_neg (by decide)
    obtain ⟨htake, hdrop⟩ := span_digits n.whole_digits hpoint
    obtain ⟨htakeFraction, -⟩ := span_digits hfrac hstop
    rw [number, h, htake, hdrop]
    simp only [head?_cons, beq_self_eq_true, if_true, tail_cons, htakeFraction, hmore]
    rw [length_append, length_cons, Nat.add_comm _ 1, ← Nat.add_assoc] at hpast
    exact ⟨_, by rw [hpast]⟩

theorem quoted_items (mark : QuoteMark) (items : List (StringItem mark))
    (h : c.after = bytesOf (stringText mark items) ++ rest) :
    ∃ token, quoted c = .ok token (c.past (stringText mark items)) := by
  have hmark : isQuote (byte mark.char) = true := by cases mark <;> decide
  have hpast : c.past (stringText mark items) =
      c.advance (bytesOf (stringText mark items)).length :=
    rfl
  rw [bytesOf_stringText] at h hpast
  rw [cons_append, append_assoc, singleton_append] at h
  rw [quoted, h]
  simp only [hmark, if_true, quotedReach_items, Nat.zero_add]
  rw [length_cons, length_append, length_singleton] at hpast
  exact ⟨_, by rw [hpast]⟩

theorem propertyKey_eq (hb : c.byte? = some b) :
    propertyKey c =
      if isQuote b then (do let _ ← quoted; return none : Scan (Option Name)) c
      else if b == byte '[' then (do let _ ← brackets; return none : Scan (Option Name)) c
      else if isDigitByte b then (do let _ ← number; return none : Scan (Option Name)) c
      else (do return some (← name) : Scan (Option Name)) c := by
  rw [propertyKey, get_bind, hb]
  dsimp only
  split
  · rfl
  · split
    · rfl
    · split <;> rfl

theorem propertyKey_name {n : Identifier} (h : c.after = bytesOf n.text ++ rest)
    (hrest : StopsToken rest) :
    propertyKey c = .ok (some ⟨n.text, c.rangeTo (c.past n.text)⟩) (c.past n.text) := by
  obtain ⟨b, more, hbytes, hstart⟩ := n.exists_cons
  obtain ⟨-, -, hquote, hbracket, -, hdigit⟩ := startsEntry_of_name hstart
  have hb : c.byte? = some b := by rw [byte?, h, hbytes]; rfl
  rw [propertyKey_eq hb]
  simp only [hquote, beq_eq_false_iff_ne.mpr hbracket, hdigit, Bool.false_eq_true, if_false]
  rw [bind_of_ok (name_past h hrest)]
  rfl

theorem propertyKey_past (h : c.after = bytesOf key.text ++ rest) (hrest : StopsToken rest)
    (hfits : key.Fits c) (hreads : key.reads = true) :
    ∃ answer, propertyKey c = .ok answer (c.past key.text) := by
  cases key with
  | name n => exact ⟨_, propertyKey_name h hrest⟩
  | string mark items =>
    have hmark : isQuote (byte mark.char) = true := by cases mark <;> decide
    have hb : c.byte? = some (byte mark.char) := by
      rw [byte?, h, text, bytesOf_stringText]
      rfl
    obtain ⟨token, hquoted⟩ := quoted_items mark items h
    rw [propertyKey_eq hb, if_pos hmark, bind_of_ok hquoted]
    exact ⟨none, rfl⟩
  | decimal n =>
    obtain ⟨b, more, hbytes, ⟨-, hdigit⟩ | ⟨hempty, -⟩⟩ := n.exists_cons
    · have hb : c.byte? = some b := by rw [byte?, h, text, hbytes]; rfl
      have hplain : isQuote b = false ∧ (b == byte '[') = false :=
        forall_byte (P := fun b => isDigitByte b = true → isQuote b = false ∧
          (b == byte '[') = false) (by decide +kernel) b hdigit
      obtain ⟨token, hnumber⟩ := number_past n h hrest
      rw [propertyKey_eq hb]
      simp only [hplain, hdigit, Bool.false_eq_true, if_false, if_true]
      rw [bind_of_ok hnumber]
      exact ⟨none, rfl⟩
    · rw [reads, hempty] at hreads
      cases hreads
  | computed code =>
    have hb : c.byte? = some (byte '[') := by
      rw [byte?, h, text, bytesOf_append, bytesOf_append]
      rfl
    obtain ⟨r, hbrackets⟩ := hfits
    rw [propertyKey_eq hb, if_neg (by decide), if_pos (by decide), bind_of_ok hbrackets]
    exact ⟨none, rfl⟩

theorem propertyKey_point (h : c.after = bytesOf key.text ++ rest) (hreads : key.reads = false) :
    ∃ fault d, propertyKey c = .error fault d ∧ fault.message = .identifierExpected := by
  cases key with
  | name | string | computed => cases hreads
  | decimal n =>
    have hwhole : n.whole = "" := by simpa [reads] using hreads
    obtain ⟨b, more, hbytes, ⟨hne, -⟩ | ⟨-, rfl, -⟩⟩ := n.exists_cons
    · exact absurd hwhole hne
    · have hb : c.byte? = some (byte '.') := by
        rw [byte?, h, text, hbytes]
        rfl
      have hname : name c = .error (c.fault .identifierExpected []) c := by
        rw [name, hb]
        rfl
      rw [propertyKey_eq hb, if_neg (by decide), if_neg (by decide), if_neg (by decide),
        bind_of_error hname]
      exact ⟨_, _, rfl, rfl⟩

/-! ## Default values -/

theorem defaultValue_of_space (h : space c = .ok () d) : defaultValue d = defaultValue c := by
  rw [defaultValue, bind_of_ok h, bind_of_ok (space_space h)]

theorem atAssignment_single (h : c.after = byte '=' :: rest)
    (hrest : rest.head? ≠ some (byte '=')) : atAssignment c = .ok true c := by
  have hsingle : bytesOf "=" = [byte '='] := by decide
  have hdouble : bytesOf "==" = [byte '=', byte '='] := by decide
  have hstarts : c.startsWith "=" = true :=
    startsWith_past (by rw [hsingle, singleton_append, h])
  have hother : c.startsWith "==" = false := by
    refine Bool.eq_false_iff.mpr fun htwice => hrest ?_
    rw [startsWith, h, hdouble, isPrefixOf_iff_prefix] at htwice
    obtain ⟨tail, htail⟩ := htwice
    rw [← (List.cons.inj htail).2]
    rfl
  change EStateM.Result.ok (c.startsWith "=" && !c.startsWith "==") c = _
  rw [hstarts, hother]
  rfl

theorem atAssignment_other (h : c.after.head? ≠ some (byte '=')) :
    atAssignment c = .ok false c := by
  have hstarts : c.startsWith "=" = false :=
    startsWith_other (by decide : bytesOf "=" = [byte '=']) h
  change EStateM.Result.ok (c.startsWith "=" && !c.startsWith "==") c = _
  rw [hstarts]
  rfl

theorem defaultValue_none (gap : Spacing) (hb : endsEntry b = true)
    (h : c.after = bytesOf gap.text ++ b :: rest) : defaultValue c = .ok () (c.past gap.text) := by
  obtain ⟨hcode, -, hassign, -⟩ := endsEntry_code hb
  have htest : atAssignment (c.past gap.text) = .ok false (c.past gap.text) := by
    refine atAssignment_other fun hhead => hassign ?_
    rw [after_past h] at hhead
    exact some.inj hhead
  rw [defaultValue, bind_of_ok (space_past gap h (triviaItem_of_startsCode hcode _)),
    bind_of_ok htest]
  rfl

theorem space_of_expression (h : expression c = .ok r d) : ∃ q, space c = .ok () q := by
  cases (run_of_stretchFrom h).1 with
  | atEnd hspace => exact ⟨_, space_eq_ok.mpr ⟨_, hspace⟩⟩
  | before hspace => exact ⟨_, space_eq_ok.mpr ⟨_, hspace⟩⟩
  | after hspace => exact ⟨_, space_eq_ok.mpr ⟨_, hspace⟩⟩
  | token hspace => exact ⟨_, space_eq_ok.mpr ⟨_, hspace⟩⟩

/-- Code that an expression ends with may start with trivia of its own. That is passed before the
expression is read, and still the reading comes to the end of the trivia behind it. -/
theorem expression_past {before : Spacing} {code : String}
    (h : c.after = bytesOf before.text ++ rest)
    (hexpression : expression (c.past before.text) = .ok r ((c.past before.text).past code))
    (hclosed : space ((c.past before.text).past code) = .ok () d) :
    ∃ q e r', space c = .ok () q ∧ expression q = .ok r' e ∧ space e = .ok () d := by
  obtain ⟨q, hq⟩ := space_of_expression hexpression
  obtain ⟨r', ⟨hnone, hempty⟩ | hsame⟩ := expression_space hexpression hq
  · refine ⟨q, q, r', space_append before h hq, hnone, ?_⟩
    rw [hempty, hq] at hclosed
    rw [← hclosed]
    exact space_space hq
  · exact ⟨q, _, r', space_append before h hq, hsame, hclosed⟩

/-- A default value is passed, and with the trivia behind it the reading comes to the byte that ends
the entry. -/
theorem defaultValue_some {value : DefaultText} (gap : Spacing) (hb : endsEntry b = true)
    (h : c.after = bytesOf value.text ++ (bytesOf gap.text ++ b :: rest)) (hfits : value.Fits c) :
    ∃ e, defaultValue c = .ok () e ∧ space e = .ok () ((c.past value.text).past gap.text) := by
  obtain ⟨hcode, -, hassign, -⟩ := endsEntry_code hb
  obtain ⟨r, hexpression⟩ := hfits
  have hequals : bytesOf "=" = [byte '='] := by decide
  simp only [DefaultText.text, bytesOf_append, append_assoc, past_append] at h ⊢
  have hassignment := after_past h
  have hvalue := after_past hassignment
  have hclosing := after_past (after_past hvalue)
  have hsecond : (bytesOf value.after.text ++ (bytesOf value.code ++
      (bytesOf gap.text ++ b :: rest))).head? ≠ some (byte '=') := by
    have hsingle := value.single
    rw [bytesOf_append] at hsingle
    rw [← append_assoc]
    cases hboth : bytesOf value.after.text ++ bytesOf value.code with
    | nil => exact gap.head?_ne (by decide) fun heq => hassign (some.inj heq)
    | cons a more => rwa [hboth] at hsingle
  have hspace : space c = .ok () (c.past value.before.text) := by
    rw [hequals, singleton_append] at h
    exact space_past _ h (triviaItem_of_startsCode (by decide) _)
  have htest : atAssignment (c.past value.before.text) = .ok true (c.past value.before.text) := by
    rw [hequals, singleton_append] at hassignment
    exact atAssignment_single hassignment hsecond
  obtain ⟨q, e, r', hq, he, hend⟩ := expression_past hvalue hexpression
    (space_past gap hclosing (triviaItem_of_startsCode hcode _))
  refine ⟨e, ?_, hend⟩
  rw [defaultValue, bind_of_ok hspace, bind_of_ok htest, if_pos rfl,
    bind_of_ok (accept_past hassignment), bind_of_ok hq, bind_of_ok he]
  rfl

theorem defaultValue_past (gap : Spacing) (hb : endsEntry b = true)
    (h : c.after = bytesOf (valueText value) ++ (bytesOf gap.text ++ b :: rest))
    (hfits : ∀ v ∈ value, v.Fits c) :
    ∃ e, defaultValue c = .ok () e ∧
      space e = .ok () ((c.past (valueText value)).past gap.text) := by
  cases value with
  | none =>
    rw [valueText, elim_none] at h ⊢
    rw [bytesOf_empty, nil_append] at h
    rw [past_empty]
    refine ⟨_, defaultValue_none gap hb h, space_of_nothing ?_⟩
    rw [after_past h]
    exact triviaItem_of_startsCode (endsEntry_code hb).1 _
  | some v => exact defaultValue_some gap hb h (hfits v rfl)

/-- Behind the target of an entry stands a default value or what ends the entry. -/
theorem valueText_head (gap : Spacing) (hb : endsEntry b = true) :
    StopsToken (bytesOf (valueText value) ++ (bytesOf gap.text ++ b :: rest)) := by
  cases value with
  | none =>
    rw [valueText, elim_none, bytesOf_empty, nil_append]
    exact gap.stopsToken (stopsToken_cons (endsEntry_code hb).2.1)
  | some v =>
    have hequals : bytesOf "=" = [byte '='] := by decide
    rw [valueText, elim_some, DefaultText.text, bytesOf_append, bytesOf_append, hequals,
      append_assoc, append_assoc, singleton_append]
    exact v.before.stopsToken (stopsToken_cons (by decide))

theorem space_valueText (gap : Spacing) (hb : endsEntry b = true)
    (h : c.after = bytesOf (valueText value) ++ (bytesOf gap.text ++ b :: rest)) :
    ∃ q, space c = .ok () q ∧ q.after.head? ≠ some (byte ':') := by
  cases value with
  | none =>
    obtain ⟨hcode, -, -, hcolon⟩ := endsEntry_code hb
    rw [valueText, elim_none, bytesOf_empty, nil_append] at h
    refine ⟨_, space_past gap h (triviaItem_of_startsCode hcode _), ?_⟩
    rw [after_past h]
    exact fun hhead => hcolon (some.inj hhead)
  | some v =>
    have hequals : bytesOf "=" = [byte '='] := by decide
    rw [valueText, elim_some, DefaultText.text, bytesOf_append, bytesOf_append, hequals,
      append_assoc, append_assoc, singleton_append] at h
    refine ⟨_, space_past v.before h (triviaItem_of_startsCode (by decide) _), ?_⟩
    rw [after_past h]
    exact fun hhead => absurd (some.inj hhead) (by decide)

end Scan

/-! ## First bytes of entries -/

theorem BindingPattern.exists_cons (p : BindingPattern) :
    ∃ b more, bytesOf p.text = b :: more ∧ startsEntry b = true ∧ b ≠ byte '.' := by
  cases p with
  | name n =>
    obtain ⟨b, more, hbytes, hstart⟩ := n.exists_cons
    obtain ⟨hentry, hpoint, -⟩ := startsEntry_of_name hstart
    exact ⟨b, more, by rw [text, hbytes], hentry, hpoint⟩
  | object properties =>
    refine ⟨byte '\x7b', bytesOf properties.text, ?_, by decide, by decide⟩
    rw [text, bytesOf_append]
    rfl
  | array elements =>
    refine ⟨byte '[', bytesOf elements.text, ?_, by decide, by decide⟩
    rw [text, bytesOf_append]
    rfl

/-- A key may start with a point, but never with three. -/
theorem PropertyKey.exists_cons (key : PropertyKey) :
    ∃ b more, bytesOf key.text = b :: more ∧ startsEntry b = true ∧
      (b = byte '.' → ∃ a tail, more = a :: tail ∧ a ≠ byte '.') := by
  cases key with
  | name n =>
    obtain ⟨b, more, hbytes, hstart⟩ := n.exists_cons
    obtain ⟨hentry, hpoint, -⟩ := startsEntry_of_name hstart
    exact ⟨b, more, hbytes, hentry, fun heq => absurd heq hpoint⟩
  | string mark items =>
    have hmark : startsEntry (byte mark.char) = true ∧ byte mark.char ≠ byte '.' := by
      cases mark <;> decide
    exact ⟨_, _, bytesOf_stringText mark items, hmark.1, fun heq => absurd heq hmark.2⟩
  | decimal n =>
    obtain ⟨b, more, hbytes, ⟨-, hdigit⟩ | ⟨-, rfl, a, tail, hmore, hdigit⟩⟩ := n.exists_cons
    · obtain ⟨hentry, hpoint⟩ := startsEntry_of_digit hdigit
      exact ⟨b, more, hbytes, hentry, fun heq => absurd heq hpoint⟩
    · exact ⟨_, more, hbytes, by decide,
        fun _ => ⟨a, tail, hmore, (startsEntry_of_digit hdigit).2⟩⟩
  | computed code =>
    refine ⟨byte '[', bytesOf (code ++ "]"), ?_, by decide, fun heq => absurd heq (by decide)⟩
    rw [text, String.append_assoc, bytesOf_append]
    rfl

theorem Property.exists_cons (p : Property) :
    ∃ b more, bytesOf p.text = b :: more ∧ startsEntry b = true := by
  cases p with
  | shorthand n value =>
    obtain ⟨b, more, hbytes, hstart⟩ := n.exists_cons
    rw [text, bytesOf_append, hbytes]
    exact ⟨b, _, rfl, (startsEntry_of_name hstart).1⟩
  | keyed key before after target value =>
    obtain ⟨b, more, hbytes, hentry, -⟩ := key.exists_cons
    rw [text, bytesOf_append, hbytes]
    exact ⟨b, _, rfl, hentry⟩
  | rest gap target =>
    rw [text, bytesOf_append]
    exact ⟨byte '.', _, rfl, by decide⟩

theorem Element.exists_cons (e : Element) :
    ∃ b more, bytesOf e.text = b :: more ∧ startsEntry b = true := by
  cases e with
  | item target value =>
    obtain ⟨b, more, hbytes, hentry, -⟩ := target.exists_cons
    rw [text, bytesOf_append, hbytes]
    exact ⟨b, _, rfl, hentry⟩
  | rest gap target value =>
    rw [text, bytesOf_append]
    exact ⟨byte '.', _, rfl, by decide⟩

namespace Scan

variable {c d e : Cursor} {rest : List UInt8} {fuel : Nat}

theorem accept_at_entry {text : String} (htext : bytesOf text = [b]) (hb : endsEntry b = true)
    (h : c.after = a :: rest) (ha : startsEntry a = true) : accept text c = .ok false c := by
  refine accept_other htext fun hhead => ?_
  rw [h, head?_cons, some.injEq] at hhead
  rw [hhead] at ha
  exact absurd hb (by
    revert ha
    apply forall_byte _ b
    decide +kernel)

theorem accept_dots_other (h : c.after = b :: rest)
    (hb : b = byte '.' → ∃ a tail, rest = a :: tail ∧ a ≠ byte '.') :
    accept "..." c = .ok false c := by
  have hdots : bytesOf "..." = [byte '.', byte '.', byte '.'] := by decide
  have hstarts : ¬c.startsWith "..." = true := by
    rw [startsWith, hdots, h, isPrefixOf_iff_prefix]
    rintro ⟨tail, htail⟩
    obtain ⟨heq, hmore⟩ := List.cons.inj htail
    obtain ⟨a, tail', rfl, ha⟩ := hb heq.symm
    exact ha (List.cons.inj hmore).1.symm
  rw [accept, if_neg hstarts]

/-! ## Reading -/

/-- With this fuel every pattern is read whose bytes it counts. Only a lone name can run into what
follows it. -/
def ReadsPatterns (fuel : Nat) : Prop :=
  ∀ ⦃p : BindingPattern⦄ ⦃c : Cursor⦄ ⦃rest⦄, 2 * (bytesOf p.text).length + 1 ≤ fuel →
    c.after = bytesOf p.text ++ rest → (∀ n, p = .name n → StopsToken rest) → p.Fits c →
    Collects (bindingNames fuel) c (c.past p.text) p.reads p.names

def ReadsProperties (fuel : Nat) : Prop :=
  ∀ ⦃ps : PropertyList⦄ ⦃c : Cursor⦄ ⦃rest⦄, 2 * (bytesOf ps.text).length + 2 ≤ fuel →
    c.after = bytesOf ps.text ++ rest → ps.Fits c →
    Collects (objectNames fuel) c (c.past ps.text) ps.reads ps.names

def ReadsElements (fuel : Nat) : Prop :=
  ∀ ⦃es : ElementList⦄ ⦃c : Cursor⦄ ⦃rest⦄, 2 * (bytesOf es.text).length + 2 ≤ fuel →
    c.after = bytesOf es.text ++ rest → es.Fits c →
    Collects (arrayNames fuel) c (c.past es.text) es.reads es.names

theorem readsPatterns_succ (hobject : ReadsProperties fuel) (harray : ReadsElements fuel) :
    ReadsPatterns (fuel + 1) := by
  intro p c rest hfuel hc hrest hfits
  have hbrace : bytesOf "\x7b" = [byte '\x7b'] := by decide
  have hbracket : bytesOf "[" = [byte '['] := by decide
  rw [bindingNames]
  cases p with
  | name n =>
    obtain ⟨b, more, hbytes, hstart⟩ := n.exists_cons
    obtain ⟨-, -, -, hnotBracket, hnotBrace, -⟩ := startsEntry_of_name hstart
    rw [BindingPattern.text] at hc
    have hhead : c.after.head? = some b := by rw [hc, hbytes]; rfl
    refine .missed (accept_other hbrace ?_) (.missed (accept_other hbracket ?_) ?_)
    · rw [hhead]
      exact fun heq => hnotBrace (some.inj heq)
    · rw [hhead]
      exact fun heq => hnotBracket (some.inj heq)
    · exact .step (name_past hc (hrest n rfl)) (.pure rfl)
  | object properties =>
    rw [BindingPattern.text, bytesOf_append, append_assoc] at hc
    rw [BindingPattern.text, bytesOf_append, length_append, hbrace,
      length_singleton] at hfuel
    rw [BindingPattern.text, past_append]
    exact .taken (accept_past hc) (hobject (by omega) (after_past hc) hfits)
  | array elements =>
    rw [BindingPattern.text, bytesOf_append, append_assoc] at hc
    rw [BindingPattern.text, bytesOf_append, length_append, hbracket,
      length_singleton] at hfuel
    have hhead : c.after.head? = some (byte '[') := by rw [hc, hbracket]; rfl
    rw [BindingPattern.text, past_append]
    refine .missed (accept_other hbrace ?_)
      (.taken (accept_past hc) (harray (by omega) (after_past hc) hfits))
    rw [hhead]
    exact fun heq => absurd (some.inj heq) (by decide)

section Entries

variable {more : Scan (List Name)} {closer : String} {found : List Name} {reads : Bool}
  {names : List String} {q : Cursor}

theorem patternRest_close (hcloser : bytesOf closer = [b]) (hb : b ≠ byte ',')
    (hspace : space d = .ok () q) (hq : q.after = bytesOf closer ++ rest) :
    Collects (patternRest more closer found) d (q.past closer) true (found.map Name.text) := by
  have hcomma : bytesOf "," = [byte ','] := by decide
  refine .step hspace (.missed (accept_other hcomma ?_) (.step (expect_past hq) (.pure rfl)))
  rw [hq, hcloser]
  exact fun heq => hb (some.inj heq)

theorem patternRest_more (hspace : space d = .ok () q) (hq : q.after = bytesOf "," ++ rest)
    (hmore : Collects more (q.past ",") e reads names) :
    Collects (patternRest more closer found) d e reads (found.map Name.text ++ names) := by
  have htail : Collects (more >>= fun names => Pure.pure (found ++ names)) (q.past ",") e
      (reads && true) (found.map Name.text ++ names) :=
    .bind hmore fun rest hrest => .pure (by rw [map_append, hrest])
  rw [Bool.and_true] at htail
  exact .step hspace (.taken (accept_past hq) htail)

variable {next : List Name → Scan (List Name)} {after : Spacing} {b : UInt8}

/-- What follows an entry is read from the end of the trivia behind it. -/
def GoesOn (next : List Name → Scan (List Name)) (q e : Cursor) (entry : List String) (reads : Bool)
    (names : List String) : Prop :=
  ∀ ⦃found d⦄, found.map Name.text = entry → space d = .ok () q →
    Collects (next found) d e reads names

theorem space_before_entry {text : String} {tail : List UInt8} (gap : Spacing)
    (hc : c.after = bytesOf gap.text ++ (bytesOf text ++ rest)) (hbytes : bytesOf text = a :: tail)
    (hentry : startsEntry a = true) : space c = .ok () (c.past gap.text) := by
  refine space_past gap hc ?_
  rw [hbytes, cons_append]
  exact triviaItem_of_startsCode (startsEntry_code hentry).1 _

theorem space_before_target (gap : Spacing)
    (hc : c.after = bytesOf gap.text ++ (bytesOf target.text ++ rest)) :
    space c = .ok () (c.past gap.text) := by
  obtain ⟨a, tail, hbytes, hentry, -⟩ := target.exists_cons
  exact space_before_entry gap hc hbytes hentry

section

variable (hpatterns : ReadsPatterns fuel)

include hpatterns

theorem target_collects {target : BindingPattern} (hb : endsEntry b = true)
    (hfuel : 2 * (bytesOf target.text).length + 1 ≤ fuel)
    (hc : c.after = bytesOf target.text ++
      (bytesOf (valueText value) ++ (bytesOf after.text ++ b :: rest)))
    (htarget : target.Fits c) (hvalue : ∀ v ∈ value, v.Fits (c.past target.text))
    (hnext : GoesOn next (((c.past target.text).past (valueText value)).past after.text) e
      target.names reads names) :
    Collects (entry (bindingNames fuel) next) c e (target.reads && reads) names := by
  refine .bind (hpatterns hfuel hc (fun _ _ => valueText_head after hb) htarget)
    fun found hfound => ?_
  obtain ⟨d, hdefault, hspace⟩ := defaultValue_past after hb (after_past hc) hvalue
  exact .step hdefault (hnext hfound hspace)

theorem property_collects {p : Property} (hb : endsEntry b = true)
    (hfuel : 2 * (bytesOf p.text).length + 1 ≤ fuel)
    (hc : c.after = bytesOf p.text ++ (bytesOf after.text ++ b :: rest)) (hfits : p.Fits c)
    (hnext : GoesOn next ((c.past p.text).past after.text) e p.names reads names) :
    Collects (property (bindingNames fuel) next) c e (p.reads && reads) names := by
  cases p with
  | rest gap target =>
    simp only [Property.text, bytesOf_append, append_assoc, length_append] at hc hfuel
    simp only [Property.text, past_append] at hnext
    have hgap := after_past hc
    have htarget := after_past hgap
    have hstop : StopsToken (bytesOf after.text ++ b :: rest) :=
      after.stopsToken (stopsToken_cons (endsEntry_code hb).2.1)
    refine .taken (accept_past hc) (.step (space_before_target gap hgap)
      (.bind (hpatterns (by omega) htarget (fun _ _ => hstop) hfits) fun found hfound => ?_))
    exact hnext hfound (space_past after (after_past htarget)
      (triviaItem_of_startsCode (endsEntry_code hb).1 _))
  | shorthand n value =>
    simp only [Property.text, bytesOf_append, append_assoc] at hc
    simp only [Property.text, past_append] at hnext
    obtain ⟨a, tail, hname, hstart⟩ := n.exists_cons
    have hhead : c.after = a :: (tail ++ (bytesOf (valueText value) ++
        (bytesOf after.text ++ b :: rest))) := by
      rw [hc, hname, cons_append]
    have hvalue := after_past hc
    obtain ⟨q, hq, hcolon⟩ := space_valueText after hb hvalue
    obtain ⟨d, hdefault, hspace⟩ := defaultValue_past after hb hvalue hfits
    rw [← defaultValue_of_space hq] at hdefault
    have hmark : bytesOf ":" = [byte ':'] := by decide
    exact .missed (accept_dots_other hhead fun heq => absurd heq (startsEntry_of_name hstart).2.1)
      (.step (propertyKey_name hc (valueText_head after hb)) (.step hq
        (.missed (accept_other hmark hcolon) (.step hdefault (hnext rfl hspace)))))
  | keyed key before colon target value =>
    simp only [Property.text, bytesOf_append, append_assoc, length_append] at hc hfuel
    simp only [Property.text, past_append] at hnext
    obtain ⟨hkey, htarget, hvalue⟩ := hfits
    obtain ⟨a, tail, hbytes, -, hpoint⟩ := key.exists_cons
    have hmark : bytesOf ":" = [byte ':'] := by decide
    have hbefore := after_past hc
    have hcolon := after_past hbefore
    have hspace : space (c.past key.text) = .ok () ((c.past key.text).past before.text) := by
      refine space_past before hbefore ?_
      rw [hmark, singleton_append]
      exact triviaItem_of_startsCode (by decide) _
    have hgap := after_past hcolon
    refine .missed (accept_dots_other (by rw [hc, hbytes, cons_append]) ?_) ?_
    · intro heq
      obtain ⟨a, more, rfl, ha⟩ := hpoint heq
      exact ⟨a, _, cons_append .., ha⟩
    · rw [Property.reads, Bool.and_assoc]
      cases hreads : key.reads with
      | false =>
        obtain ⟨fault, d, hfail, hfault⟩ := propertyKey_point hc hreads
        exact .fail hfail hfault
      | true =>
        have hstop : StopsToken (bytesOf before.text ++ (bytesOf ":" ++ (bytesOf colon.text ++
            (bytesOf target.text ++ (bytesOf (valueText value) ++
              (bytesOf after.text ++ b :: rest)))))) := by
          refine before.stopsToken ?_
          rw [hmark, singleton_append]
          exact stopsToken_cons (by decide)
        obtain ⟨answer, hanswer⟩ := propertyKey_past hc hstop hkey hreads
        rw [Bool.true_and]
        exact .step hanswer (.step hspace (.taken (accept_past hcolon)
          (.step (space_before_target colon hgap)
            (target_collects hpatterns hb (by omega) (after_past hgap) htarget hvalue
              hnext))))

theorem element_collects (hb : endsEntry b = true) (hfuel : 2 * (bytesOf x.text).length + 1 ≤ fuel)
    (hc : c.after = bytesOf x.text ++ (bytesOf after.text ++ b :: rest)) (hfits : x.Fits c)
    (hnext : GoesOn next ((c.past x.text).past after.text) e x.names reads names) :
    Collects (element (bindingNames fuel) next) c e (x.reads && reads) names := by
  cases x with
  | item target value =>
    simp only [Element.text, bytesOf_append, append_assoc, length_append] at hc hfuel
    simp only [Element.text, past_append] at hnext
    obtain ⟨a, tail, hbytes, -, hpoint⟩ := target.exists_cons
    refine .missed (accept_dots_other (by rw [hc, hbytes, cons_append])
      fun heq => absurd heq hpoint) ?_
    exact target_collects hpatterns hb (by omega) hc hfits.1 hfits.2 hnext
  | rest gap target value =>
    simp only [Element.text, bytesOf_append, append_assoc, length_append] at hc hfuel
    simp only [Element.text, past_append] at hnext
    have hgap := after_past hc
    exact .taken (accept_past hc) (.step (space_before_target gap hgap)
      (target_collects hpatterns hb (by omega) (after_past hgap) hfits.1 hfits.2 hnext))

omit hpatterns in
theorem bytesOf_marks :
    bytesOf "," = [byte ','] ∧ bytesOf "\x7d" = [byte '\x7d'] ∧ bytesOf "]" = [byte ']'] := by
  decide

theorem objectNames_collects {gap : Spacing} {p : Property} (hb : endsEntry b = true)
    (hfuel : 2 * (bytesOf p.text).length + 1 ≤ fuel)
    (hc : c.after = bytesOf gap.text ++ (bytesOf p.text ++ (bytesOf after.text ++ b :: rest)))
    (hfits : p.Fits (c.past gap.text))
    (hnext : GoesOn (patternRest (objectNames fuel) "\x7d")
      (((c.past gap.text).past p.text).past after.text) e p.names reads names) :
    Collects (objectNames (fuel + 1)) c e (p.reads && reads) names := by
  obtain ⟨-, hbrace, -⟩ := bytesOf_marks
  obtain ⟨a, tail, hbytes, hentry⟩ := p.exists_cons
  have hp := after_past hc
  have hhead : (c.past gap.text).after = a :: (tail ++ (bytesOf after.text ++ b :: rest)) := by
    rw [hp, hbytes, cons_append]
  rw [objectNames_succ]
  exact .step (space_before_entry gap hc hbytes hentry)
    (.missed (accept_at_entry hbrace (by decide) hhead hentry)
      (property_collects hpatterns hb hfuel hp hfits hnext))

theorem arrayNames_collects {gap : Spacing} {x : Element} (hb : endsEntry b = true)
    (hfuel : 2 * (bytesOf x.text).length + 1 ≤ fuel)
    (hc : c.after = bytesOf gap.text ++ (bytesOf x.text ++ (bytesOf after.text ++ b :: rest)))
    (hfits : x.Fits (c.past gap.text)) (hnext : GoesOn (patternRest (arrayNames fuel) "]")
      (((c.past gap.text).past x.text).past after.text) e x.names reads names) :
    Collects (arrayNames (fuel + 1)) c e (x.reads && reads) names := by
  obtain ⟨hcomma, -, hbracket⟩ := bytesOf_marks
  obtain ⟨a, tail, hbytes, hentry⟩ := x.exists_cons
  have hx := after_past hc
  have hhead : (c.past gap.text).after = a :: (tail ++ (bytesOf after.text ++ b :: rest)) := by
    rw [hx, hbytes, cons_append]
  rw [arrayNames_succ]
  exact .step (space_before_entry gap hc hbytes hentry)
    (.missed (accept_at_entry hbracket (by decide) hhead hentry)
      (.missed (accept_at_entry hcomma (by decide) hhead hentry)
        (element_collects hpatterns hb hfuel hx hfits hnext)))

end

theorem goesOn_close {entry : List String} (hcloser : bytesOf closer = [b]) (hb : b ≠ byte ',')
    (hq : q.after = bytesOf closer ++ rest) :
    GoesOn (patternRest more closer) q (q.past closer) entry true entry := by
  intro found d hfound hspace
  rw [← hfound]
  exact patternRest_close hcloser hb hspace hq

theorem goesOn_more {entry : List String} (hq : q.after = bytesOf "," ++ rest)
    (hmore : Collects more (q.past ",") e reads names) :
    GoesOn (patternRest more closer) q e entry reads (entry ++ names) := by
  intro found d hfound hspace
  rw [← hfound]
  exact patternRest_more hspace hq hmore

end Entries

theorem space_before_mark {mark : String} (hmark : bytesOf mark = [b]) (hb : startsCode b = true)
    (gap : Spacing) (hc : c.after = bytesOf gap.text ++ (bytesOf mark ++ rest)) :
    space c = .ok () (c.past gap.text) := by
  rw [hmark, singleton_append] at hc
  exact space_past gap hc (triviaItem_of_startsCode hb _)

theorem readsProperties_succ (hpatterns : ReadsPatterns fuel) (hobject : ReadsProperties fuel) :
    ReadsProperties (fuel + 1) := by
  intro ps c rest hfuel hc hfits
  obtain ⟨hcomma, hbrace, -⟩ := bytesOf_marks
  cases ps with
  | close gap =>
    simp only [PropertyList.text, bytesOf_append, append_assoc, past_append] at hc ⊢
    rw [objectNames_succ]
    exact .step (space_before_mark hbrace (by decide) gap hc)
      (.taken (accept_past (after_past hc)) (.pure rfl))
  | last gap p after =>
    simp only [PropertyList.text, bytesOf_append, append_assoc, past_append,
      length_append] at hc hfuel ⊢
    have hclose := after_past (after_past (after_past hc))
    rw [hbrace, singleton_append] at hc
    have hread := objectNames_collects hpatterns (by decide) (by omega) hc hfits
      (goesOn_close hbrace (by decide) hclose)
    rwa [Bool.and_true] at hread
  | more gap p after others =>
    simp only [PropertyList.text, bytesOf_append, append_assoc, past_append,
      length_append, hcomma, length_singleton] at hc hfuel ⊢
    have hclose := after_past (after_past (after_past hc))
    rw [← hcomma] at hclose
    have hmore := hobject (by omega) (after_past hclose) hfits.2
    exact objectNames_collects hpatterns (by decide) (by omega) hc hfits.1
      (goesOn_more hclose hmore)

theorem readsElements_succ (hpatterns : ReadsPatterns fuel) (harray : ReadsElements fuel) :
    ReadsElements (fuel + 1) := by
  intro es c rest hfuel hc hfits
  obtain ⟨hcomma, -, hbracket⟩ := bytesOf_marks
  cases es with
  | close gap =>
    simp only [ElementList.text, bytesOf_append, append_assoc, past_append] at hc ⊢
    rw [arrayNames_succ]
    exact .step (space_before_mark hbracket (by decide) gap hc)
      (.taken (accept_past (after_past hc)) (.pure rfl))
  | hole gap others =>
    simp only [ElementList.text, bytesOf_append, past_append, length_append, hcomma,
      length_singleton] at hfuel ⊢
    simp only [ElementList.text, bytesOf_append, append_assoc] at hc
    have hmark := after_past hc
    have hclose : accept "]" (c.past gap.text) = .ok false (c.past gap.text) := by
      refine accept_other hbracket ?_
      rw [hmark, hcomma]
      exact fun heq => absurd (some.inj heq) (by decide)
    rw [arrayNames_succ]
    exact .step (space_before_mark hcomma (by decide) gap hc) (.missed hclose
      (.taken (accept_past hmark) (harray (by omega) (after_past hmark) hfits)))
  | last gap x after =>
    simp only [ElementList.text, bytesOf_append, append_assoc, past_append,
      length_append] at hc hfuel ⊢
    have hclose := after_past (after_past (after_past hc))
    rw [hbracket, singleton_append] at hc
    have hread := arrayNames_collects hpatterns (by decide) (by omega) hc hfits
      (goesOn_close hbracket (by decide) hclose)
    rwa [Bool.and_true] at hread
  | more gap x after others =>
    simp only [ElementList.text, bytesOf_append, append_assoc, past_append,
      length_append, hcomma, length_singleton] at hc hfuel ⊢
    have hclose := after_past (after_past (after_past hc))
    rw [← hcomma] at hclose
    have hmore := harray (by omega) (after_past hclose) hfits.2
    exact arrayNames_collects hpatterns (by decide) (by omega) hc hfits.1
      (goesOn_more hclose hmore)

/-- Patterns nest at most as deep as they have bytes, and every step of a reading passes one. -/
theorem reads_patterns (fuel : Nat) :
    ReadsPatterns fuel ∧ ReadsProperties fuel ∧ ReadsElements fuel := by
  induction fuel with
  | zero =>
    refine ⟨fun p c rest hfuel => ?_, fun ps c rest hfuel => ?_, fun es c rest hfuel => ?_⟩ <;>
      exact absurd hfuel (by omega)
  | succ fuel ih =>
    obtain ⟨hpatterns, hobject, harray⟩ := ih
    exact ⟨readsPatterns_succ hobject harray, readsProperties_succ hpatterns hobject,
      readsElements_succ hpatterns harray⟩

theorem boundNames_collects {p : BindingPattern} (hc : c.after = bytesOf p.text ++ rest)
    (hrest : ∀ n, p = .name n → StopsToken rest) (hfits : p.Fits c) :
    Collects boundNames c (c.past p.text) p.reads p.names := by
  refine (reads_patterns _).1 ?_ hc hrest hfits
  rw [hc, length_append]
  omega

end Scan

/-- A pattern in brackets is read to its end and binds its names in their order. Only a decimal key
that begins with its point is not read: a name is expected in its place. -/
theorem boundNames_of_pattern {text front rest : String} {p : BindingPattern}
    (htext : text = front ++ (p.text ++ rest)) (hbracketed : ∀ n, p ≠ .name n)
    (hfits : p.Fits ((ofText text).moveTo (bytesOf front).length)) :
    (p.reads = true → ∃ names,
      boundNames ((ofText text).moveTo (bytesOf front).length) =
        .ok names ((ofText text).moveTo (bytesOf (front ++ p.text)).length) ∧
      names.map Name.text = p.names) ∧
    (p.reads = false → ∃ fault d,
      boundNames ((ofText text).moveTo (bytesOf front).length) = .error fault d ∧
      fault.message = .identifierExpected) := by
  have hc : ((ofText text).moveTo (bytesOf front).length).after =
      bytesOf p.text ++ bytesOf rest := by
    rw [htext, moveTo_past, bytesOf_append]
  have hread := boundNames_collects hc (fun n hn => absurd hn (hbracketed n)) hfits
  rw [past_moveTo, Collects] at hread
  constructor
  · intro hreads
    rwa [if_pos hreads] at hread
  · intro hreads
    rwa [hreads] at hread

def mixedPattern : BindingPattern :=
  .object (.more .blank
    (.shorthand ⟨"a", by decide +kernel⟩
      (some ⟨.blank, .blank, "f(1, b)", by decide +kernel⟩)) .none
    (.more .blank
      (.keyed (.computed "k") .none .blank
        (.array (.more .none (.item (.name ⟨"c", by decide +kernel⟩) none) .none
          (.hole .blank
            (.last .blank (.rest .none (.name ⟨"d", by decide +kernel⟩) none) .none)))) none)
      .none
      (.last .blank
        (.keyed (.decimal ⟨"0", some "5", by decide +kernel, by decide +kernel, by decide⟩) .none
          .blank (.name ⟨"e", by decide +kernel⟩) none) .blank)))

def pointPattern : BindingPattern :=
  .object (.last .none
    (.keyed (.decimal ⟨"", some "5", by decide +kernel, by decide +kernel, by decide⟩) .none
      .none (.name ⟨"e", by decide +kernel⟩) none) .none)

theorem mixedPattern_bound :
    (∃ names d, boundNames ((ofText
        "const \x7b a = f(1, b), [k]: [c, , ...d], 0.5: e \x7d = o").moveTo 6) = .ok names d ∧
      names.map Name.text = ["a", "c", "d", "e"]) ∧
    ∃ fault d, boundNames ((ofText "const \x7b.5:e\x7d = o").moveTo 6) = .error fault d ∧
      fault.message = .identifierExpected := by
  have hmixed : "const \x7b a = f(1, b), [k]: [c, , ...d], 0.5: e \x7d = o" =
      "const " ++ (mixedPattern.text ++ " = o") := by decide
  have hpoint : "const \x7b.5:e\x7d = o" = "const " ++ (pointPattern.text ++ " = o") := by decide
  have hfits : mixedPattern.Fits ((ofText
      "const \x7b a = f(1, b), [k]: [c, , ...d], 0.5: e \x7d = o").moveTo 6) := by
    refine ⟨?_, ⟨⟨⟨21, 24⟩, by cbv⟩, ⟨⟨trivial, by simp⟩, trivial, by simp⟩, by simp⟩, trivial,
      trivial, by simp⟩
    rintro v ⟨⟩
    exact ⟨⟨12, 19⟩, by cbv⟩
  obtain ⟨names, hrun, hnames⟩ :=
    (boundNames_of_pattern hmixed (fun n heq => by cases heq) hfits).1 (by decide)
  obtain ⟨fault, d, hfail, hfault⟩ :=
    (boundNames_of_pattern hpoint (fun n heq => by cases heq) ⟨trivial, trivial, by simp⟩).2
      (by decide)
  exact ⟨⟨names, _, hrun, hnames⟩, fault, d, hfail, hfault⟩

end ModuleBridge
