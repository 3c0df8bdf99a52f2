import ModuleBridge.Proofs.Source.FaultEnd
import ModuleBridge.Proofs.Source.Indexed

/-!
# Scanning by offset stays in range

Each operation on an offset comes to just what the operation on the cursor comes to: nothing that it
asks for is out of range, and its loops end. A cursor and its offset are tied by the bytes of the
text; a string and a template may carry the offset past the end for one round, where the cursor
stops.
-/

namespace ModuleBridge

open Cursor Enclosure List Nat Option Outcome Scan

variable {c : Cursor} {n rounds m start depth : Nat} {b quote : UInt8} {rest bytes : List UInt8}
  {inClass : Bool}

namespace Cursor

theorem pos_advance_of_le (h : n ≤ c.after.length) : (c.advance n).pos = c.pos + n := by
  simp [Nat.min_eq_left h]

theorem getElem?_bytes (c : Cursor) (k : Nat) : c.bytes[c.pos + k]? = c.after[k]? := by
  rw [← c.drop_bytes, getElem?_drop]

theorem getElem?_bytes_pos (c : Cursor) : c.bytes[c.pos]? = c.after.head? := by
  rw [head?_eq_getElem?, ← c.getElem?_bytes, Nat.add_zero]

theorem pos_le_length (c : Cursor) : c.pos ≤ c.bytes.length := by
  rw [c.length_bytes]
  omega

end Cursor

def observe {α : Type} : EStateM.Result Fault Cursor α → Outcome α
  | .ok value d => some (.ok value, d.pos)
  | .error fault d => some (.error fault, d.pos)

@[simp] theorem observe_ok {α : Type} (value : α) (d : Cursor) :
    observe (.ok value d) = some (.ok value, d.pos) := rfl

@[simp] theorem observe_error {α : Type} (fault : Fault) (d : Cursor) :
    observe (.error fault d : EStateM.Result Fault Cursor α) = some (.error fault, d.pos) := rfl

namespace Outcome

variable {α β : Type}

@[simp] theorem andThen_ok (value : α) (stop : Nat) (next : α → Nat → Outcome β) :
    andThen (some (.ok value, stop)) next = next value stop := rfl

@[simp] theorem andThen_error (fault : Fault) (stop : Nat) (next : α → Nat → Outcome β) :
    andThen (some (.error fault, stop)) next = some (.error fault, stop) := rfl

end Outcome

namespace Indexed

theorem difference?_of_le (h : n ≤ m) : difference? m n = some (m - n) :=
  if_pos h

theorem rangeTo?_of_le {stop : Nat} (h : start ≤ stop) :
    rangeTo? start stop = some (.ok ⟨start, stop⟩, stop) :=
  if_pos h

theorem slice?_from (h : n ≤ c.after.length) :
    slice? c.bytes (c.pos + n) c.bytes.length = some (c.after.drop n) := by
  have hlength := c.length_bytes
  rw [slice?, if_pos ⟨by omega, Nat.le_refl _⟩, ← drop_drop, c.drop_bytes]
  rw [take_of_length_le]
  rw [length_drop]
  omega

theorem slice?_front (h : n ≤ bytes.length) : slice? bytes 0 n = some (bytes.take n) := by
  rw [slice?, if_pos ⟨Nat.zero_le n, h⟩]
  simp

/-! ## Trivia -/

theorem triviaFrom_round (c : Cursor) (rounds : Nat) (crossed : Bool) :
    triviaFrom c.bytes (rounds + 1) c.pos crossed =
      match triviaItem c.after with
      | .nothing => some (.ok crossed, c.pos)
      | .unclosedComment => some (.error ⟨.commentEndExpected, [], ⟨c.pos, 2⟩⟩, c.pos)
      | .item more breaks =>
        triviaFrom c.bytes rounds (c.pos + (more + 1)) (crossed || breaks) := by
  rw [triviaFrom, c.getElem?_bytes_pos, c.getElem?_bytes, c.drop_bytes]
  cases hc : c.after with
  | nil => rfl
  | cons b rest =>
    simp only [head?_cons, triviaItem]
    cases hblank : isBlankByte b with
    | true => simp
    | false =>
    cases hend : isLineEndByte b with
    | true => simp
    | false =>
    cases hslash : b == byte '/' with
    | false =>
      simp only [Bool.false_eq_true, if_false, Bool.false_and]
      by_cases hascii : b < 128
      · simp only [hascii, if_true]
      · simp only [hascii, if_false]
        cases decodeFirst? (b :: rest) with
        | none => rfl
        | some ch =>
          have hsize : ch.utf8Size - 1 + 1 = ch.utf8Size :=
            Nat.sub_add_cancel ch.utf8Size_pos
          cases hbreak : isLineBreak ch with
          | true => simp [hbreak, hsize]
          | false => cases hgap : isBlank ch <;> simp [hbreak, hgap, hsize]
    | true =>
      have hascii : b < 128 := by rw [beq_iff_eq.mp hslash]; decide
      cases rest with
      | nil => simp [hascii]
      | cons d body =>
        simp only [Bool.false_eq_true, if_false, if_true, Bool.true_and,
          getElem?_cons_succ, getElem?_cons_zero, some_beq_some, hascii]
        cases hline : d == byte '/' with
        | true =>
          have hrest : slice? c.bytes c.pos c.bytes.length = some (b :: d :: body) := by
            rw [← hc]
            exact slice?_from (n := 0) (Nat.zero_le _)
          have hd : isLineEndByte d = false := by rw [beq_iff_eq.mp hline]; decide
          have hlength : lineLength (b :: d :: body) = 1 + lineLength body + 1 := by
            simp [lineLength, hend, hd, Nat.add_comm]
          simp only [if_true, hrest, bind_some, hlength, Bool.or_false]
        | false =>
          cases hstar : d == byte '*' with
          | false => simp
          | true =>
            have hbody : slice? c.bytes (c.pos + 2) c.bytes.length = some body := by
              rw [slice?_from (by simp [hc]), hc]
              rfl
            simp only [Bool.false_eq_true, if_false, if_true, hbody, bind_some,
              commentEnd]
            cases hcomment : commentBody body 0 false with
            | none => rfl
            | some found =>
              obtain ⟨length, breaks⟩ := found
              obtain ⟨inner, tail, hsplit, hlength, hbreaks, _⟩ :=
                commentBody_eq_some hcomment
              have hinner : slice? body 0 length = some inner := by
                rw [slice?_front (by simp [hsplit, hlength]), hsplit, hlength,
                  Nat.zero_add, take_left]
              simp only [map_some, hinner, bind_some, hbreaks,
                Bool.false_or]
              rw [show c.pos + 2 + length + 2 = c.pos + (length + 3 + 1) by omega]

theorem triviaFrom_eq (hrounds : c.after.length < rounds) (crossed : Bool) :
    triviaFrom c.bytes rounds c.pos crossed =
      match triviaReach c.after with
      | .clear length crosses => some (.ok (crossed || crosses), (c.advance length).pos)
      | .unclosed length =>
        some (.error ⟨.commentEndExpected, [], ⟨(c.advance length).pos, 2⟩⟩,
          (c.advance length).pos) := by
  induction rounds generalizing c crossed with
  | zero => omega
  | succ rounds ih =>
    rw [triviaFrom_round]
    cases hitem : triviaItem c.after with
    | nothing => simp [triviaReach_of_nothing hitem]
    | unclosedComment => simp [triviaReach_of_unclosed hitem]
    | item more breaks =>
      have hle := (triviaItem_onward hitem).1
      have hless : (c.advance (more + 1)).after.length < rounds := by
        rw [after_advance, length_drop]
        omega
      have hmore := ih hless (crossed || breaks)
      rw [bytes_advance, pos_advance_of_le hle, after_advance] at hmore
      rw [triviaReach_of_item hitem]
      dsimp only
      rw [hmore]
      cases triviaReach (c.after.drop (more + 1)) with
      | clear length crosses =>
        simp only [TriviaReach.shift, advance_advance, Bool.or_assoc]
      | unclosed length => simp only [TriviaReach.shift, advance_advance]

theorem trivia_eq (c : Cursor) : trivia c.bytes c.pos = observe (Scan.trivia c) := by
  have hrounds : c.after.length < c.bytes.length + 1 := by
    rw [c.length_bytes]
    omega
  rw [trivia, triviaFrom_eq hrounds, Scan.trivia]
  cases triviaReach c.after with
  | clear length crosses => simp
  | unclosed length => simp

/-! ## Literals -/

section Literals

variable {bytes rest : List UInt8} {start pos n rounds : Nat}

section

variable (h : bytes.drop pos = rest)

include h

theorem getElem?_of_drop (k : Nat) : bytes[pos + k]? = rest[k]? := by
  rw [← h, getElem?_drop]

theorem head?_of_drop : bytes[pos]? = rest.head? := by
  rw [← h, head?_drop]

theorem drop_of_drop (k : Nat) : bytes.drop (pos + k) = rest.drop k := by
  rw [← h, drop_drop]

theorem length_of_drop : rest.length = bytes.length - pos := by
  rw [← h, length_drop]

end

/-- What a string opened at `start` comes to. Where it breaks off, the offset is cut down to the
length of the text. -/
def reachOutcome (bytes : List UInt8) (start : Nat) : Reach → Outcome Unit
  | .closed m => some (.ok (), start + 1 + m)
  | .broken m =>
    some (.error ⟨.unterminatedString, [], ⟨start, min (start + 1 + m) bytes.length - start⟩⟩,
      min (start + 1 + m) bytes.length)

theorem quotedFrom_broken (hstart : start < bytes.length) (hpos : pos = start + 1 + n) :
    quotedFrom.broken bytes start pos = reachOutcome bytes start (.broken n) := by
  rw [quotedFrom.broken, difference?_of_le (by omega), hpos]
  rfl

/-- Past the end of the text all offsets are cut down alike. -/
theorem reachOutcome_broken (hm : bytes.length ≤ start + 1 + m) (hn : bytes.length ≤ start + 1 + n) :
    reachOutcome bytes start (.broken m) = reachOutcome bytes start (.broken n) := by
  simp only [reachOutcome, Nat.min_eq_right hm, Nat.min_eq_right hn]

theorem quotedFrom_cons (hrest : bytes.drop pos = b :: rest) (hrounds : 0 < rounds) :
    quotedFrom bytes quote start rounds pos =
      if isLineEndByte b then quotedFrom.broken bytes start pos
      else if b == byte '\\' then
        if rest[0]? == some (byte '\r') && rest[1]? == some (byte '\n') then
          quotedFrom bytes quote start (rounds - 1) (pos + 3)
        else quotedFrom bytes quote start (rounds - 1) (pos + 2)
      else if b == quote then some (.ok (), pos + 1)
      else quotedFrom bytes quote start (rounds - 1) (pos + 1) := by
  cases rounds with
  | zero => omega
  | succ rounds =>
    rw [quotedFrom, head?_of_drop hrest, getElem?_of_drop hrest, getElem?_of_drop hrest]
    simp only [head?_cons, getElem?_cons_succ, Nat.add_sub_cancel]

theorem quotedFrom_nil (hrest : bytes.drop pos = []) (hrounds : 0 < rounds) :
    quotedFrom bytes quote start rounds pos = quotedFrom.broken bytes start pos := by
  cases rounds with
  | zero => omega
  | succ rounds => rw [quotedFrom, head?_of_drop hrest, head?_nil]

theorem quotedFrom_eq (hstart : start < bytes.length) (hpos : pos = start + 1 + n)
    (hrest : bytes.drop pos = rest) (hrounds : rest.length < rounds) :
    quotedFrom bytes quote start rounds pos =
      reachOutcome bytes start (quotedReach quote rest n) := by
  have hlength := length_of_drop hrest
  fun_induction quotedReach quote rest n generalizing pos rounds with
  | case1 n => rw [quotedFrom_nil hrest (by omega), quotedFrom_broken hstart hpos]
  | case2 b rest n hend =>
    rw [quotedFrom_cons hrest (by omega), if_pos hend, quotedFrom_broken hstart hpos]
  | case3 b n hend hslash =>
    -- The backslash is the last byte, and the offset goes past the end of the text.
    have hnil : bytes.drop (pos + 2) = [] := drop_of_drop hrest 2
    simp only [length_cons, length_nil] at hlength hrounds
    rw [quotedFrom_cons hrest (by omega), if_neg hend, if_pos hslash, if_neg (by simp),
      quotedFrom_nil hnil (by omega), quotedFrom_broken (n := n + 2) hstart (by omega)]
    exact reachOutcome_broken (by omega) (by omega)
  | case4 b n hend hslash a =>
    have hnil : bytes.drop (pos + 2) = [] := drop_of_drop hrest 2
    simp only [length_cons, length_nil] at hrounds
    rw [quotedFrom_cons hrest (by omega), if_neg hend, if_pos hslash, if_neg (by simp),
      quotedFrom_nil hnil (by omega), quotedFrom_broken (n := n + 2) hstart (by omega)]
  | case5 b n hend hslash a d tail hpair ih =>
    have htail : bytes.drop (pos + 3) = tail := drop_of_drop hrest 3
    simp only [length_cons] at hrounds
    rw [quotedFrom_cons hrest (by omega), if_neg hend, if_pos hslash, if_pos (by simpa using hpair)]
    exact ih (by omega) htail (by omega) (length_of_drop htail)
  | case6 b n hend hslash a d tail hpair ih =>
    have htail : bytes.drop (pos + 2) = d :: tail := drop_of_drop hrest 2
    simp only [length_cons] at hrounds ih
    rw [quotedFrom_cons hrest (by omega), if_neg hend, if_pos hslash, if_neg (by simpa using hpair)]
    exact ih (by omega) htail (by omega) (length_of_drop htail)
  | case7 b rest n hend hslash hquote =>
    rw [quotedFrom_cons hrest (by omega), if_neg hend, if_neg hslash, if_pos hquote, hpos]
    rfl
  | case8 b rest n hend hslash hquote ih =>
    have htail : bytes.drop (pos + 1) = rest := drop_of_drop hrest 1
    simp only [length_cons] at hrounds
    rw [quotedFrom_cons hrest (by omega), if_neg hend, if_neg hslash, if_neg hquote]
    exact ih (by omega) htail (by omega) (length_of_drop htail)

theorem patternFrom_succ (hrest : bytes.drop pos = rest) (hrounds : 0 < rounds) :
    patternFrom bytes start rounds inClass pos =
      match rest with
      | [] => some (start + 1)
      | b :: _ =>
        if isLineEndByte b then some (start + 1)
        else if b == byte '\\' then patternFrom bytes start (rounds - 1) inClass (pos + 2)
        else if b == byte '[' then patternFrom bytes start (rounds - 1) true (pos + 1)
        else if b == byte ']' then patternFrom bytes start (rounds - 1) false (pos + 1)
        else if b == byte '/' && !inClass then some (runEnd bytes isNamePart (pos + 1))
        else patternFrom bytes start (rounds - 1) inClass (pos + 1) := by
  cases rounds with
  | zero => omega
  | succ rounds =>
    rw [patternFrom, head?_of_drop hrest]
    cases rest <;> rfl

theorem patternFrom_eq (hpos : pos = start + 1 + n) (hrest : bytes.drop pos = rest)
    (hrounds : rest.length < rounds) :
    patternFrom bytes start rounds inClass pos =
      some (start + 1 + (patternReach inClass rest n).getD 0) := by
  fun_induction patternReach inClass rest n generalizing pos rounds with
  | case1 => rw [patternFrom_succ hrest (by omega)]; rfl
  | case2 _ b rest n hend =>
    rw [patternFrom_succ hrest (by omega)]
    simp only [hend, if_true]
    rfl
  | case3 inClass b n hend hslash =>
    have hnil : bytes.drop (pos + 2) = [] := drop_of_drop hrest 2
    simp only [length_cons, length_nil] at hrounds
    rw [patternFrom_succ hrest (by omega)]
    simp only [hend, hslash, if_true]
    rw [patternFrom_succ hnil (by omega)]
    rfl
  | case4 inClass b n hend hslash a tail ih =>
    have htail : bytes.drop (pos + 2) = tail := drop_of_drop hrest 2
    simp only [length_cons] at hrounds
    rw [patternFrom_succ hrest (by omega)]
    simp only [hend, hslash, if_true]
    exact ih (by omega) htail (by omega)
  | case5 _ b rest n hend hslash hopen ih =>
    have htail : bytes.drop (pos + 1) = rest := drop_of_drop hrest 1
    simp only [length_cons] at hrounds
    rw [patternFrom_succ hrest (by omega)]
    simp only [hend, hslash, hopen, if_true]
    exact ih (by omega) htail (by omega)
  | case6 _ b rest n hend hslash hopen hclose ih =>
    have htail : bytes.drop (pos + 1) = rest := drop_of_drop hrest 1
    simp only [length_cons] at hrounds
    rw [patternFrom_succ hrest (by omega)]
    simp only [hend, hslash, hopen, hclose, if_true]
    exact ih (by omega) htail (by omega)
  | case7 inClass b rest n hend hslash hopen hclose hdone =>
    have htail : bytes.drop (pos + 1) = rest := drop_of_drop hrest 1
    rw [patternFrom_succ hrest (by omega)]
    simp only [hend, hslash, hopen, hclose, hdone, if_true]
    rw [runEnd, htail, hpos, getD_some]
    simp only [Bool.false_eq_true, if_false, Option.some.injEq]
    omega
  | case8 inClass b rest n hend hslash hopen hclose hdone ih =>
    have htail : bytes.drop (pos + 1) = rest := drop_of_drop hrest 1
    simp only [length_cons] at hrounds
    rw [patternFrom_succ hrest (by omega)]
    simp only [hend, hslash, hopen, hclose, hdone]
    exact ih (by omega) htail (by omega)

end Literals

/-! ## The byte before a slash -/

theorem lastIndex?_append_singleton (p : UInt8 → Bool) (bytes : List UInt8) (b : UInt8) :
    lastIndex? p (bytes ++ [b]) = if p b then some bytes.length else lastIndex? p bytes := by
  induction bytes with
  | nil => rfl
  | cons a bytes ih =>
    rw [cons_append, lastIndex?, ih, lastIndex?]
    cases hb : p b <;> simp

/-- Seen from the end, the last byte outside a class is the first after the run of the class. -/
theorem lastIndex?_reverse (p : UInt8 → Bool) (before : List UInt8) :
    lastIndex? (!p ·) before.reverse =
      match before.dropWhile p with
      | [] => none
      | _ :: rest => some rest.length := by
  induction before with
  | nil => rfl
  | cons b before ih =>
    rw [reverse_cons, lastIndex?_append_singleton, length_reverse, ih]
    cases hb : p b <;> simp [hb]

theorem runStart_reverse (p : UInt8 → Bool) (before : List UInt8) :
    runStart p before.reverse = (before.dropWhile p).length := by
  rw [runStart, lastIndex?_reverse]
  cases before.dropWhile p <;> rfl

/-- The word of a name that ends with `last`, cut out between what precedes and what follows it. -/
theorem slice?_word (front name after : List UInt8) (last : UInt8) :
    slice? (front.reverse ++ (name.reverse ++ last :: after)) front.length
        (front.length + name.length + 1) = some (last :: name).reverse := by
  have hdrop : (front.reverse ++ (name.reverse ++ last :: after)).drop front.length =
      (last :: name).reverse ++ after := by
    simp
  have hlength : front.length + name.length + 1 - front.length = (last :: name).reverse.length := by
    rw [length_reverse, length_cons]
    omega
  rw [slice?, if_pos, hdrop, hlength, take_left]
  simp only [length_append, length_reverse, length_cons]
  omega

theorem patternAllowedAfterName_eq (rest after : List UInt8) (last : UInt8) :
    patternAllowedAfterName (rest.reverse ++ last :: after) rest.length =
      some (!((rest.dropWhile isNamePart).head? == some (byte '.')) &&
        startsPatternAfterWord (last :: rest.takeWhile isNamePart).reverse) := by
  have hfront : slice? (rest.reverse ++ last :: after) 0 rest.length = some rest.reverse := by
    rw [slice?_front (by simp), ← length_reverse, take_left]
  have hsplit := takeWhile_append_dropWhile (p := isNamePart) (l := rest)
  have hstart := runStart_reverse isNamePart rest
  generalize rest.takeWhile isNamePart = name at hsplit
  generalize rest.dropWhile isNamePart = front at hsplit hstart
  subst hsplit
  have hword := slice?_word front name after last
  rw [patternAllowedAfterName, hfront]
  simp only [bind_eq_bind, bind_some, hstart]
  rw [reverse_append, append_assoc, length_append, Nat.add_comm name.length, hword]
  cases front with
  | nil => simp
  | cons point front =>
    have hpoint : ((point :: front).reverse ++ (name.reverse ++ last :: after))[front.length]? =
        some point := by
      simp
    rw [length_cons, if_pos (succ_pos _), difference?_of_le (succ_pos _),
      succ_sub_one]
    simp only [bind_some, hpoint, head?_cons, some_beq_some]
    cases point == byte '.' <;> rfl

theorem patternAllowedAt_eq (c : Cursor) :
    patternAllowedAt c.bytes c.pos = some (patternAllowedAfter c.before) := by
  rw [patternAllowedAt, slice?_front c.pos_le_length, c.take_bytes]
  simp only [bind_eq_bind, bind_some, lastIndex?_reverse, patternAllowedAfter]
  have hsplit := takeWhile_append_dropWhile (p := isSpacingByte) (l := c.before)
  generalize c.before.takeWhile isSpacingByte = spacing at hsplit
  cases hbefore : c.before.dropWhile isSpacingByte with
  | nil => rfl
  | cons last rest =>
    rw [hbefore] at hsplit
    have hbytes : c.before.reverse = rest.reverse ++ last :: spacing.reverse := by
      simp [← hsplit]
    have hlast : (rest.reverse ++ last :: spacing.reverse)[rest.length]? = some last := by
      simp
    simp only [hbytes, hlast, bind_some, patternAllowedAfterName_eq]
    cases isNamePart last <;> rfl

/-! ## Literals at a cursor -/

def stepAt (c : Cursor) : LiteralStart → LiteralStep
  | .none => .absent
  | .span more => .passed (c.advance (more + 1)).pos
  | .broken more =>
    .broken (unterminatedString c (c.advance (more + 1))) (c.advance (more + 1)).pos
  | .template => .template

theorem string_eq (hc : c.after = quote :: rest) :
    string c.bytes quote c.pos =
      match quotedReach quote rest 0 with
      | .closed length => some (.ok (), (c.advance (length + 1)).pos)
      | .broken length =>
        some (.error (unterminatedString c (c.advance (length + 1))),
          (c.advance (length + 1)).pos) := by
  have hlength := c.length_bytes
  have hsize : c.after.length = rest.length + 1 := by rw [hc, length_cons]
  have hrest : c.bytes.drop (c.pos + 1) = rest := by
    rw [drop_of_drop c.drop_bytes, hc]
    rfl
  rw [string, quotedFrom_eq (n := 0) (by omega) rfl hrest (by omega)]
  cases hreach : quotedReach quote rest 0 with
  | closed length =>
    obtain ⟨n, hn, hget⟩ := quotedReach_eq_closed hreach
    have hlt := (List.getElem?_eq_some_iff.mp hget).1
    simp only [reachOutcome, Option.some.injEq, Prod.mk.injEq, true_and]
    rw [pos_advance_of_le (by omega)]
    omega
  | broken length =>
    have hstop : min (c.pos + 1 + length) c.bytes.length = (c.advance (length + 1)).pos := by
      rw [pos_advance]
      omega
    simp only [reachOutcome, hstop]
    rfl

theorem literalStep_eq (hc : c.after = b :: rest) :
    literalStep c.bytes c.pos b = some (stepAt c (literalStart c.before b rest)) := by
  have hrest : c.bytes.drop (c.pos + 1) = rest := by
    rw [drop_of_drop c.drop_bytes, hc]
    rfl
  have hlength := c.length_bytes
  have hsize : c.after.length = rest.length + 1 := by rw [hc, length_cons]
  simp only [literalStep, literalStart]
  cases hquote : isQuote b with
  | true =>
    rw [string_eq hc]
    cases quotedReach b rest 0 <;> rfl
  | false =>
  cases htick : b == byte '\x60' with
  | true => rfl
  | false =>
  cases hslash : b == byte '/' with
  | false => rfl
  | true =>
    simp only [patternAllowedAt_eq, bind_eq_bind, bind_some, Bool.true_and]
    cases patternAllowedAfter c.before with
    | false => rfl
    | true =>
      rw [patternFrom_eq (n := 0) rfl hrest (by omega)]
      simp only [Bool.false_eq_true, if_false, if_true, bind_some, stepAt]
      rw [pos_advance_of_le]
      · rw [Nat.add_assoc, Nat.add_comm 1]
      · cases hreach : patternReach false rest 0 with
        | none => simp only [getD_none]; omega
        | some length =>
          obtain ⟨n, d, hn, hget, _⟩ := patternReach_eq_some hreach
          have hlt := (List.getElem?_eq_some_iff.mp hget).1
          simp only [getD_some]
          omega

end Indexed

/-! ## Enclosures -/

/-- The enclosure with the first opener of a block counted. -/
def Enclosure.counted : Enclosure → Enclosure
  | .block opener closer depth start => .block opener closer (depth + 1) start
  | .template start => .template start

namespace Indexed

/-- Where no byte is left a template breaks off at the end of the text. -/
theorem closeFrom_template_end {pos : Nat} {outer : List Enclosure} (hrounds : 0 < rounds)
    (hstart : start ≤ bytes.length) (hpos : bytes.length ≤ pos) :
    closeFrom bytes rounds (.template start :: outer) pos =
      some (.error ⟨.unterminatedTemplate, [], ⟨start, bytes.length - start⟩⟩, bytes.length) := by
  cases rounds with
  | zero => omega
  | succ rounds =>
    rw [closeFrom, getElem?_eq_none hpos]
    simp only [difference?_of_le hstart, bind_some]

/-- With this many rounds enclosures are closed as by the cursor, if none was opened after it. -/
def ClosesWithin (rounds : Nat) : Prop :=
  ∀ (stack : List Enclosure) ⦃c : Cursor⦄, c.after.length < rounds →
    (∀ e ∈ stack, e.start ≤ c.pos) →
    closeFrom c.bytes rounds (stack.map counted) c.pos =
      observe (closeEnclosures stack c)

namespace ClosesWithin

variable {rounds start : Nat} {c : Cursor} {outer : List Enclosure}

/-- The rounds that are left do for what follows a move. -/
theorem next (h : ClosesWithin rounds) (stack : List Enclosure) {d : Cursor} (honward : c.Onward d)
    (hrounds : c.after.length < rounds + 1) (hpos : 0 < n) (hle : n ≤ d.after.length)
    (hstack : ∀ e ∈ stack, e.start ≤ d.pos + n) :
    closeFrom c.bytes rounds (stack.map counted) (d.pos + n) =
      observe (closeEnclosures stack (d.advance n)) := by
  have hshort := honward.length_le
  have hless : (d.advance n).after.length < rounds := by
    rw [after_advance, length_drop]
    omega
  have hmore := h stack hless (by rwa [pos_advance_of_le hle])
  rwa [pos_advance_of_le hle, bytes_advance, honward.bytes_eq] at hmore

theorem template (h : ClosesWithin rounds) (hrounds : c.after.length < rounds + 1)
    (hstart : start ≤ c.pos) (houter : ∀ e ∈ outer, e.start ≤ c.pos) :
    closeFrom c.bytes (rounds + 1) ((Enclosure.template start :: outer).map counted)
        c.pos =
      observe (closeEnclosures (.template start :: outer) c) := by
  have hlength := c.length_bytes
  have hstack : ∀ n, ∀ e ∈ Enclosure.template start :: outer, e.start ≤ c.pos + n := by
    intro n e he
    cases he with
    | head => exact le_add_right_of_le hstart
    | tail _ he => exact le_add_right_of_le (houter e he)
  rw [closeEnclosures_template]
  cases hc : c.after with
  | nil =>
    rw [hc, length_nil] at hlength
    rw [map_cons, counted,
      closeFrom_template_end (succ_pos _) (by omega) (by omega), hlength]
    rfl
  | cons b rest =>
    have hsize : c.after.length = rest.length + 1 := by rw [hc, length_cons]
    simp only [map_cons, counted, closeFrom, c.getElem?_bytes_pos,
      c.getElem?_bytes, hc, head?_cons, getElem?_cons_succ]
    by_cases hslash : (b == byte '\\') = true
    · rw [if_pos hslash, if_pos hslash]
      cases rest with
      | nil =>
        -- The offset goes past the end of the text; the cursor stops there.
        rw [length_nil] at hsize
        have hend : (c.advance 2).after = [] := by rw [after_advance, hc]; rfl
        have hpos : (c.advance 2).pos = c.bytes.length := by
          rw [pos_advance, hlength]
          omega
        rw [closeFrom_template_end (by omega) (by omega) (by omega), closeEnclosures_template,
          hend]
        simp only [observe_error, hpos]
      | cons d rest =>
        rw [length_cons] at hsize
        exact h.next (.template start :: outer) (.refl c) hrounds Nat.two_pos (by omega) (hstack 2)
    rw [if_neg hslash, if_neg hslash]
    by_cases htick : (b == byte '\x60') = true
    · rw [if_pos htick, if_pos htick]
      refine h.next outer (.refl c) hrounds Nat.one_pos (by omega) fun e he => ?_
      exact hstack 1 e (mem_cons_of_mem _ he)
    rw [if_neg htick, if_neg htick, head?_eq_getElem?]
    by_cases hopen : (b == byte '$' && rest[0]? == some (byte '\x7b')) = true
    · rw [if_pos hopen, if_pos hopen]
      cases rest with
      | nil => simp at hopen
      | cons d rest =>
        rw [length_cons] at hsize
        refine h.next (.block (byte '\x7b') (byte '\x7d') 0 (c.pos + 1) :: .template start :: outer)
          (.refl c) hrounds Nat.two_pos (by omega) fun e he => ?_
        cases he with
        | head => exact le_succ _
        | tail _ he => exact hstack 2 e he
    · rw [if_neg hopen, if_neg hopen]
      exact h.next (.template start :: outer) (.refl c) hrounds Nat.one_pos (by omega) (hstack 1)

theorem block (h : ClosesWithin rounds) {opener closer : UInt8}
    (hrounds : c.after.length < rounds + 1) (hstart : start ≤ c.pos)
    (houter : ∀ e ∈ outer, e.start ≤ c.pos) :
    closeFrom c.bytes (rounds + 1)
        ((Enclosure.block opener closer depth start :: outer).map counted) c.pos =
      observe (closeEnclosures (.block opener closer depth start :: outer) c) := by
  rw [closeEnclosures_block]
  simp only [map_cons, counted, closeFrom, trivia_eq]
  cases htrivia : Scan.trivia c with
  | error fault q => rfl
  | ok crosses q =>
    have honward := trivia_onward htrivia
    have hle := honward.pos_le
    have hstack : ∀ depth n, ∀ e ∈ Enclosure.block opener closer depth start :: outer,
        e.start ≤ q.pos + n := by
      intro depth n e he
      cases he with
      | head => exact Nat.le_trans hstart (le_add_right_of_le hle)
      | tail _ he => exact Nat.le_trans (houter e he) (le_add_right_of_le hle)
    simp only [observe_ok, andThen_ok]
    rw [← honward.bytes_eq, q.getElem?_bytes_pos]
    cases hq : q.after with
    | nil => rfl
    | cons b rest =>
      have hbyte : 0 < q.after.length := by rw [hq]; exact succ_pos _
      simp only [head?_cons, literalStep_eq hq]
      rw [honward.bytes_eq]
      cases hliteral : literalStart q.before b rest with
      | span more =>
        obtain ⟨d, hget, _⟩ := literalStart_eq_span hliteral
        rw [← hq] at hget
        have hmore := (List.getElem?_eq_some_iff.mp hget).1
        simp only [stepAt]
        rw [pos_advance_of_le hmore]
        exact h.next (.block opener closer depth start :: outer) honward hrounds
          (succ_pos _) hmore (hstack depth _)
      | broken more => rfl
      | template =>
        simp only [stepAt]
        refine h.next (.template q.pos :: .block opener closer depth start :: outer) honward
          hrounds Nat.one_pos hbyte fun e he => ?_
        cases he with
        | head => exact le_succ _
        | tail _ he => exact hstack depth 1 e he
      | none =>
        simp only [stepAt, blockAfter]
        cases hopener : b == opener with
        | true =>
          exact h.next (.block opener closer (depth + 1) start :: outer) honward hrounds
            Nat.one_pos hbyte (hstack (depth + 1) 1)
        | false =>
          cases hcloser : b == closer with
          | false =>
            exact h.next (.block opener closer depth start :: outer) honward hrounds
              Nat.one_pos hbyte (hstack depth 1)
          | true =>
            simp only [Bool.false_eq_true, if_false, if_true,
              difference?_of_le (succ_pos depth), bind_some, succ_sub_one]
            cases depth with
            | zero =>
              rw [if_pos rfl]
              refine h.next outer honward hrounds Nat.one_pos hbyte fun e he => ?_
              exact hstack 0 1 e (mem_cons_of_mem _ he)
            | succ depth =>
              rw [if_neg (succ_ne_zero depth)]
              exact h.next (.block opener closer depth start :: outer) honward hrounds
                Nat.one_pos hbyte (hstack depth 1)

end ClosesWithin

theorem closesWithin (rounds : Nat) : ClosesWithin rounds := by
  induction rounds with
  | zero =>
    intro stack c hrounds
    omega
  | succ rounds ih =>
    intro stack c hrounds hstack
    cases stack with
    | nil =>
      rw [closeEnclosures]
      rfl
    | cons enclosure outer =>
      have hstart := hstack enclosure (.head _)
      have houter : ∀ e ∈ outer, e.start ≤ c.pos := fun e he => hstack e (.tail _ he)
      cases enclosure with
      | template start => exact ih.template hrounds hstart houter
      | block opener closer depth start => exact ih.block hrounds hstart houter

/-- From just after its first byte, an enclosure by offset is one by cursor. -/
theorem closeFrom_eq (hne : c.after ≠ []) (enclosure : Enclosure) (hstart : enclosure.start = c.pos) :
    closeFrom c.bytes (c.bytes.length + 1) [enclosure.counted] (c.pos + 1) =
      observe (closeEnclosures [enclosure] (c.advance 1)) := by
  have hlength := c.length_bytes
  have hbyte := length_pos_iff.mpr hne
  refine (closesWithin (c.bytes.length + 1)).next [enclosure] (.refl c) ?_ Nat.one_pos hbyte ?_
  · omega
  · simp [hstart]

theorem literal_eq (hc : c.after = b :: rest) :
    literal c.bytes c.pos b = observe (Scan.literal c) := by
  simp only [literal, literalStep_eq hc, Scan.literal, hc]
  cases literalStart c.before b rest with
  | none => rfl
  | span more => rfl
  | broken more => rfl
  | template =>
    have hclose := closeFrom_eq (c := c) (by simp [hc]) (.template c.pos) rfl
    rw [counted] at hclose
    simp only [stepAt, hclose]
    cases closeEnclosures [.template c.pos] (c.advance 1) <;> rfl

theorem faultAt_eq (c : Cursor) (message : Message) (args : List String) :
    faultAt c.bytes c.pos message args = c.fault message args := by
  rw [faultAt, c.drop_bytes]
  rfl

theorem stepLength_eq (c : Cursor) : stepLength c.bytes c.pos = c.stepLength := by
  rw [stepLength, c.drop_bytes]
  rfl

theorem runEnd_eq (c : Cursor) (p : UInt8 → Bool) :
    runEnd c.bytes p c.pos = (c.advance (c.after.takeWhile p).length).pos := by
  rw [runEnd, c.drop_bytes, pos_advance_of_le (takeWhile_sublist p).length_le]

theorem block_eq (opener closer : UInt8) (c : Cursor) :
    block c.bytes opener closer c.pos = observe (Scan.block opener closer c) := by
  have hbyte : c.bytes[c.pos]? = c.byte? := c.getElem?_bytes_pos
  rw [block, Scan.block, hbyte, faultAt_eq]
  by_cases hopen : (c.byte? == some opener) = true
  · have hne : c.after ≠ [] := by
      intro hnil
      simp [byte?, hnil] at hopen
    have hclose := closeFrom_eq hne (.block opener closer 0 c.pos) rfl
    rw [counted] at hclose
    rw [if_pos hopen, if_pos hopen, hclose]
    cases hrun : closeEnclosures [.block opener closer 0 c.pos] (c.advance 1) with
    | error fault d => rfl
    | ok u d =>
      obtain ⟨n, hd, _⟩ := (closeEnclosures_past hrun (by simp)).of_advance.reaches
      have hle : c.pos ≤ d.pos := by
        rw [hd, pos_advance]
        omega
      exact rangeTo?_of_le hle
  · rw [if_neg hopen, if_neg hopen]
    rfl

/-! ## Stretches -/

theorem pastSemicolon_eq (c : Cursor) : pastSemicolon c.bytes c.pos = c.pastSemicolon.pos := by
  have hle : (c.after.takeWhile fun b => b == byte ' ' || b == byte '\t').length ≤
      c.after.length := (takeWhile_sublist _).length_le
  rw [pastSemicolon, Cursor.pastSemicolon]
  simp only [runEnd, c.drop_bytes, c.getElem?_bytes, ← head?_drop]
  by_cases hsemicolon : ((c.after.drop
      (c.after.takeWhile fun b => b == byte ' ' || b == byte '\t').length).head? ==
        some (byte ';')) = true
  · rw [if_pos hsemicolon, if_pos hsemicolon, pos_advance_of_le, Nat.add_assoc]
    rw [beq_iff_eq, head?_drop] at hsemicolon
    exact (List.getElem?_eq_some_iff.mp hsemicolon).1
  · rw [if_neg hsemicolon, if_neg hsemicolon]

theorem getElem?_before (h : 0 < c.pos) :
    ∃ b, c.bytes[c.pos - 1]? = some b ∧ c.before.head? = some b := by
  have hlength := c.pos_eq
  cases hbefore : c.before with
  | nil =>
    rw [hbefore, length_nil] at hlength
    omega
  | cons b before =>
    refine ⟨b, ?_, rfl⟩
    rw [hbefore, length_cons] at hlength
    rw [Cursor.bytes, hbefore, hlength]
    simp

theorem endsAtLineBreak?_eq (start last : Cursor) (crossed : Bool) (b : UInt8) :
    endsAtLineBreak? last.bytes start.pos last.pos crossed b =
      some (crossed && start.pos < last.pos && endsAtLineBreak last b) := by
  rw [endsAtLineBreak?]
  by_cases hcrossed : (crossed && decide (start.pos < last.pos)) = true
  · have hlt : start.pos < last.pos := by
      rw [Bool.and_eq_true, decide_eq_true_eq] at hcrossed
      exact hcrossed.2
    obtain ⟨previous, hget, hhead⟩ := getElem?_before (c := last) (by omega)
    rw [if_pos hcrossed, difference?_of_le (by omega), hcrossed, endsAtLineBreak, hhead]
    simp only [bind_some, hget, any_some, Bool.true_and]
  · rw [if_neg hcrossed]
    simp [hcrossed]

theorem boundary?_eq (start last : Cursor) (kind : StretchKind) (crossed : Bool) (b : UInt8) :
    boundary? last.bytes kind start.pos last.pos crossed b =
      some (kind.boundary start last crossed b) := by
  unfold boundary? StretchKind.boundary
  rw [endsAtLineBreak?_eq, bind_some]
  split
  · rfl
  · split
    · cases kind <;> rfl
    · split
      · rfl
      · split
        · split <;> rfl
        · rfl

/-- A closing bracket outside all brackets is never inside a stretch. -/
theorem isCloser_of_inside {kind : StretchKind} {start last : Cursor} {crossed : Bool}
    (h : kind.boundary start last crossed b = .inside) : isCloser b = false := by
  unfold StretchKind.boundary at h
  cases hclose : isCloser b with
  | false => rfl
  | true =>
    simp only [hclose, if_true] at h
    split at h
    · cases h
    · split at h
      · cases kind <;> cases h
      · split at h
        · cases h
        · split at h <;> cases h

/-- With this many rounds a stretch that began at `start` goes on as by the cursor. -/
def StretchesWithin (kind : StretchKind) (start : Cursor) (rounds : Nat) : Prop :=
  ∀ ⦃c : Cursor⦄ (depth : Nat), start.pos ≤ c.pos → c.after.length < rounds →
    stretchFrom c.bytes kind start.pos rounds c.pos depth c.pos =
      observe (ModuleBridge.stretchFrom kind start c depth c)

namespace StretchesWithin

variable {kind : StretchKind} {start q : Cursor} {rounds depth : Nat} {b : UInt8}
  {rest : List UInt8}

/-- The rounds that are left do for what follows a token. -/
theorem next (h : StretchesWithin kind start rounds) (hq : q.after = b :: rest)
    (hstart : start.pos ≤ q.pos) (hrounds : q.after.length < rounds + 1) {e : Cursor} {depth' : Nat}
    (htoken : token depth q = .ok depth' e) :
    stretchFrom q.bytes kind start.pos rounds e.pos depth' e.pos =
      observe (ModuleBridge.stretchFrom kind start e depth' e) := by
  have honward := token_onward depth htoken
  have hless := token_lt (by simp [hq]) htoken
  rw [← honward.bytes_eq]
  exact h depth' (Nat.le_trans hstart honward.pos_le) (by omega)

/-- A byte inside a stretch, and what follows it. -/
theorem inside (h : StretchesWithin kind start rounds) (hq : q.after = b :: rest)
    (hstart : start.pos ≤ q.pos) (hrounds : q.after.length < rounds + 1)
    (hdepth : depth = 0 → isCloser b = false) :
    ((literal q.bytes q.pos b).andThen fun found stop =>
      if found then stretchFrom q.bytes kind start.pos rounds stop depth stop
      else if isOpener b then
        stretchFrom q.bytes kind start.pos rounds (q.pos + 1) (depth + 1) (q.pos + 1)
      else if isCloser b then
        (difference? depth 1).bind fun depth =>
          if depth = 0 && b == byte '\x7d' && kind == .statement then
            rangeTo? start.pos (pastSemicolon q.bytes (q.pos + 1))
          else stretchFrom q.bytes kind start.pos rounds (q.pos + 1) depth (q.pos + 1)
      else if isNamePart b then
        let stop := runEnd q.bytes isNamePart q.pos
        stretchFrom q.bytes kind start.pos rounds stop depth stop
      else
        let stop := q.pos + stepLength q.bytes q.pos
        stretchFrom q.bytes kind start.pos rounds stop depth stop) =
    observe (match token depth q with
      | .error fault e => .error fault e
      | .ok depth' e =>
        if depth = 1 ∧ b = byte '\x7d' ∧ kind = .statement then
          .ok (start.rangeTo e.pastSemicolon) e.pastSemicolon
        else ModuleBridge.stretchFrom kind start e depth' e) := by
  have hbyte : 1 ≤ q.after.length := by rw [hq]; exact succ_pos _
  have hplain : isCloser b = false → ¬(depth = 1 ∧ b = byte '\x7d' ∧ kind = .statement) := by
    intro hclose hend
    rw [hend.2.1] at hclose
    exact absurd hclose (by decide)
  rw [literal_eq hq]
  cases hliteral : Scan.literal q with
  | error fault e =>
    simp only [token, hq, hliteral]
    rfl
  | ok found e =>
  cases found with
  | true =>
    have htoken : token depth q = .ok depth e := by simp only [token, hq, hliteral]
    have hclose : isCloser b = false := by
      cases hclose : isCloser b with
      | false => rfl
      | true =>
        rw [literal_of_plain hq (isCloser_plain hclose).1] at hliteral
        cases hliteral
    simp only [htoken, if_neg (hplain hclose)]
    exact h.next hq hstart hrounds htoken
  | false =>
  simp only [observe_ok, andThen_ok, Bool.false_eq_true, if_false]
  cases hopen : isOpener b with
  | true =>
    have htoken : token depth q = .ok (depth + 1) (q.advance 1) := by
      simp [token, hq, hliteral, hopen]
    have hnext := h.next hq hstart hrounds htoken
    rw [pos_advance_of_le hbyte] at hnext
    simp only [htoken, if_neg (hplain (isOpener_plain hopen).2), if_true]
    exact hnext
  | false =>
  cases hclose : isCloser b with
  | true =>
    have hpos : 1 ≤ depth := by
      rcases Nat.eq_zero_or_pos depth with hzero | hpos
      · rw [hdepth hzero] at hclose
        cases hclose
      · exact hpos
    have htoken := token_closer hq hclose depth
    have hnext := h.next hq hstart hrounds htoken
    rw [pos_advance_of_le hbyte] at hnext
    simp only [htoken, Bool.false_eq_true, if_false, if_true, difference?_of_le hpos,
      bind_some]
    by_cases hend : depth = 1 ∧ b = byte '\x7d' ∧ kind = .statement
    · have hpast := pastSemicolon_eq (q.advance 1)
      have honward := (q.advance 1).pastSemicolon_onward.pos_le
      rw [bytes_advance, pos_advance_of_le hbyte] at hpast
      rw [pos_advance_of_le hbyte] at honward
      rw [if_pos hend, hpast, rangeTo?_of_le (by omega), if_pos (by simp [hend])]
      rfl
    · rw [if_neg hend, if_neg, hnext]
      simp only [Bool.and_eq_true, decide_eq_true_eq, beq_iff_eq, and_assoc]
      intro hthree
      exact hend ⟨by omega, hthree.2⟩
  | false =>
  simp only [if_neg (hplain hclose), Bool.false_eq_true, if_false]
  cases hname : isNamePart b with
  | true =>
    have htoken : token depth q =
        .ok depth (q.advance (q.after.takeWhile isNamePart).length) := by
      simp [token, hq, hliteral, hopen, hclose, hname]
    have hnext := h.next hq hstart hrounds htoken
    simp only [htoken, if_true, runEnd_eq]
    exact hnext
  | false =>
    have htoken : token depth q = .ok depth (q.advance q.stepLength) := by
      simp [token, hq, hliteral, hopen, hclose, hname]
    have hnext := h.next hq hstart hrounds htoken
    rw [pos_advance_of_le (stepLength_le (by simp [hq]))] at hnext
    simp only [htoken, Bool.false_eq_true, if_false, stepLength_eq]
    exact hnext

end StretchesWithin

theorem stretchesWithin (kind : StretchKind) (start : Cursor) (rounds : Nat) :
    StretchesWithin kind start rounds := by
  induction rounds with
  | zero =>
    intro c depth _ hrounds
    omega
  | succ rounds ih =>
    intro c depth hstart hrounds
    rw [stretchFrom, trivia_eq, ModuleBridge.stretchFrom_eq]
    cases htrivia : Scan.trivia c with
    | error fault q => rfl
    | ok crosses q =>
      have honward := trivia_onward htrivia
      have hle := honward.pos_le
      have hshort := honward.length_le
      simp only [observe_ok, andThen_ok]
      rw [← honward.bytes_eq, q.getElem?_bytes_pos]
      cases hq : q.after with
      | nil => exact rangeTo?_of_le hstart
      | cons b rest =>
        have hboundary : (if depth = 0 then boundary? q.bytes kind start.pos c.pos crosses b
            else some .inside) =
            some (if depth = 0 then kind.boundary start c crosses b else .inside) := by
          rw [honward.bytes_eq, boundary?_eq]
          split <;> rfl
        simp only [head?_cons, hboundary]
        cases hb : (if depth = 0 then kind.boundary start c crosses b else .inside) with
        | before => exact rangeTo?_of_le hstart
        | after =>
          have hbyte : 1 ≤ q.after.length := by rw [hq]; exact succ_pos _
          simp only [observe_ok, rangeTo, pos_advance_of_le hbyte]
          exact rangeTo?_of_le (by omega)
        | inside =>
          refine ih.inside hq (by omega) (by omega) fun hdepth => ?_
          rw [if_pos hdepth] at hb
          exact isCloser_of_inside hb

theorem stretch_eq (kind : StretchKind) (c : Cursor) :
    stretch c.bytes kind c.pos = observe (ModuleBridge.stretchFrom kind c c 0 c) := by
  have hlength := c.length_bytes
  exact stretchesWithin kind c (c.bytes.length + 1) 0 (Nat.le_refl _) (by omega)

/-! ## Heads of classes -/

theorem heritageFrom_eq {start : Cursor} (hstart : start.pos ≤ c.pos)
    (hrounds : c.after.length < rounds) :
    heritageFrom c.bytes start.pos rounds c.pos depth c.pos =
      observe (ModuleBridge.heritageFrom start c depth c) := by
  induction rounds generalizing c depth with
  | zero => omega
  | succ rounds ih =>
    rw [heritageFrom, trivia_eq, ModuleBridge.heritageFrom_eq]
    cases htrivia : Scan.trivia c with
    | error fault q => rfl
    | ok crosses q =>
      have honward := trivia_onward htrivia
      have hle := honward.pos_le
      have hshort := honward.length_le
      simp only [observe_ok, andThen_ok]
      rw [← honward.bytes_eq, q.getElem?_bytes_pos]
      cases hq : q.after with
      | nil =>
        simp only [head?_nil, faultAt_eq]
        rfl
      | cons b rest =>
        simp only [head?_cons]
        by_cases hbody : (decide (depth = 0) && b == byte '\x7b') = true
        · rw [if_pos hbody, if_pos hbody, rangeTo?_of_le hstart]
          rfl
        · rw [if_neg hbody, if_neg hbody, literal_eq hq]
          have hbyte : q.byte? = some b := by rw [byte?, hq]; rfl
          have hstep := stepLength_le (c := q) (by simp [hq])
          have hgo : ∀ depth', heritageFrom q.bytes start.pos rounds
              (q.pos + stepLength q.bytes q.pos) depth' (q.pos + stepLength q.bytes q.pos) =
              observe (ModuleBridge.heritageFrom start (q.advance q.stepLength) depth'
                (q.advance q.stepLength)) := by
            intro depth'
            have hless := advance_lt q.stepLength_pos hq
            have hnext := @ih (q.advance q.stepLength) depth'
              (by rw [pos_advance]; omega) (by omega)
            rw [stepLength_eq]
            rwa [bytes_advance, pos_advance_of_le hstep] at hnext
          simp only [headToken, hbyte, any_some]
          cases hliteral : Scan.literal q with
          | error fault e => rfl
          | ok found e =>
            cases found with
            | true =>
              have hpast := literal_onward hliteral
              have hless := literal_lt hliteral
              simp only [observe_ok, andThen_ok, if_true]
              rw [← hpast.bytes_eq]
              exact ih (Nat.le_trans (by omega) hpast.pos_le) (by omega)
            | false =>
              simp only [observe_ok, andThen_ok, Bool.false_eq_true, if_false]
              cases isOpener b with
              | true => exact hgo _
              | false => cases isCloser b <;> exact hgo _

theorem heritage_eq (c : Cursor) : heritage c.bytes c.pos = observe (Scan.heritage c) := by
  have hlength := c.length_bytes
  exact heritageFrom_eq (Nat.le_refl _) (by omega)

end Indexed

end ModuleBridge
