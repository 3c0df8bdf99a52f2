import ModuleBridge.Proofs.Grammar.Printed
import ModuleBridge.Proofs.Source.CopyStretch

/-!
# Passing a known text

What a reading does in front of a text that is known: each token is passed to its end, where
`Cursor.past` puts the cursor, and trivia is passed up to the token after it. An expression ends at
the same place whether it is read from its first token or from the trivia before that.
-/

namespace ModuleBridge

open Scan Cursor List

variable {text : String} {b : UInt8} {rest : List UInt8}

namespace Cursor

variable {c : Cursor} {rest : List UInt8}

def past (c : Cursor) (text : String) : Cursor :=
  c.advance (bytesOf text).length

theorem past_append (c : Cursor) (front back : String) :
    c.past (front ++ back) = (c.past front).past back := by
  rw [past, past, past, advance_advance, bytesOf_append, length_append]

@[simp] theorem past_empty (c : Cursor) : c.past "" = c := by
  rw [past, bytesOf_empty, length_nil, advance_zero]

theorem after_past (h : c.after = bytesOf text ++ rest) : (c.past text).after = rest := by
  rw [past, after_advance, h, drop_left]

theorem pos_past (h : c.after = bytesOf text ++ rest) :
    (c.past text).pos = c.pos + (bytesOf text).length := by
  rw [past, pos_advance, h, length_append, Nat.min_eq_left (Nat.le_add_right ..)]

theorem moveTo_past (front text : String) :
    ((ofText (front ++ text)).moveTo (bytesOf front).length).after = bytesOf text := by
  rw [moveTo, after_advance, ofText, bytes, atStart, atStart, bytesOf_append]
  exact drop_left

theorem past_moveTo (text front piece : String) :
    ((ofText text).moveTo (bytesOf front).length).past piece =
      (ofText text).moveTo (bytesOf (front ++ piece)).length := by
  rw [past, moveTo, moveTo, advance_advance, bytesOf_append, length_append]

theorem startsWith_past (h : c.after = bytesOf text ++ rest) : c.startsWith text = true := by
  rw [startsWith, h, isPrefixOf_iff_prefix]
  exact prefix_append _ _

theorem startsWith_other {more : List UInt8} (htext : bytesOf text = b :: more)
    (h : c.after.head? ≠ some b) : c.startsWith text = false := by
  refine Bool.eq_false_iff.mpr fun hstarts => h ?_
  rw [startsWith, htext, isPrefixOf_iff_prefix] at hstarts
  obtain ⟨tail, htail⟩ := hstarts
  rw [← htail, cons_append, head?_cons]

end Cursor

/-! ## Bytes that may follow a token -/

/-- A byte that would make a name or a number longer. -/
def joinsToken (b : UInt8) : Bool :=
  isNamePart b || b == byte '.'

theorem startsCode_of_joins : joinsToken b = true → startsCode b = true := by
  apply forall_byte _ b
  decide +kernel

/-- Behind a token stands nothing that would make it longer. -/
def StopsToken (rest : List UInt8) : Prop :=
  rest.head?.any joinsToken = false

theorem stopsToken_cons (hb : joinsToken b = false) : StopsToken (b :: rest) :=
  hb

theorem StopsToken.takeWhile {p : UInt8 → Bool} (hp : ∀ b, p b = true → joinsToken b = true)
    (h : StopsToken rest) : rest.takeWhile p = [] := by
  cases rest with
  | nil => rfl
  | cons b rest =>
    refine takeWhile_cons_of_neg fun hb => ?_
    rw [StopsToken, head?_cons, Option.any_some, hp b hb] at h
    cases h

theorem Identifier.takeWhile_bytes (n : Identifier) (h : StopsToken rest) :
    (bytesOf n.text ++ rest).takeWhile isNamePart = bytesOf n.text := by
  have hparts : ∀ b, isNamePart b = true → joinsToken b = true := by
    intro b hb
    rw [joinsToken, hb, Bool.true_or]
  rw [takeWhile_append_of_pos n.bytes, h.takeWhile hparts, append_nil]

/-- Trivia between two tokens. -/
structure Spacing where
  text : String
  isTrivia : TriviaText text

def Spacing.none : Spacing :=
  ⟨"", .empty⟩

def Spacing.blank : Spacing :=
  ⟨" ", .blank (.inl (by decide : isBlank ' ' = true)) .empty⟩

def Spacing.feed : Spacing :=
  ⟨"\n", .blank (.inr (by decide : isLineBreak '\n' = true)) .empty⟩

theorem Spacing.head?_ne (gap : Spacing) (hb : startsCode b = true) (hrest : rest.head? ≠ some b) :
    (bytesOf gap.text ++ rest).head? ≠ some b := by
  cases hbytes : bytesOf gap.text with
  | nil => exact hrest
  | cons a more =>
    have hne := gap.isTrivia.head?_ne (triviaItem_of_startsCode hb)
    rwa [hbytes] at hne

theorem Spacing.stopsToken (gap : Spacing) (hrest : StopsToken rest) :
    StopsToken (bytesOf gap.text ++ rest) := by
  cases hbytes : bytesOf gap.text with
  | nil => exact hrest
  | cons a more =>
    refine stopsToken_cons (Bool.eq_false_iff.mpr fun ha => ?_)
    have hne := gap.isTrivia.head?_ne (triviaItem_of_startsCode (startsCode_of_joins ha))
    exact hne (by rw [hbytes, head?_cons])

/-- A run of trivia may start with any text of trivia. -/
theorem TriviaText.startsRun (h : TriviaText text) : StartsRun text := by
  have hstep : ∀ {item text : String}, StartsRun item → StartsRun text →
      StartsRun (item ++ text) := by
    intro item text hitem htext rest n x hrest
    obtain ⟨y, hy⟩ := htext hrest
    rw [bytesOf_append, append_assoc, length_append, Nat.add_assoc]
    exact hitem hy
  induction h with
  | empty => exact fun rest n x hrest => ⟨x, by simpa using hrest⟩
  | blank hch _ ih => exact hstep (startsRun_blank hch) ih
  | line hbody hending _ ih => exact hstep (startsRun_line hbody hending) ih
  | block hbody _ ih => exact hstep (startsRun_block hbody) ih

namespace Scan

variable {α β : Type} {c d e : Cursor} {rest : List UInt8}

theorem bind_of_ok {op : Scan β} {next : β → Scan α} {b : β} (h : op c = .ok b d) :
    (op >>= next) c = next b d := by
  change EStateM.bind op next c = _
  rw [EStateM.bind, h]

theorem bind_of_error {op : Scan β} {next : β → Scan α} {fault : Fault}
    (h : op c = .error fault d) : (op >>= next) c = .error fault d := by
  change EStateM.bind op next c = _
  rw [EStateM.bind, h]

theorem accept_past (h : c.after = bytesOf text ++ rest) :
    accept text c = .ok true (c.past text) := by
  rw [accept, if_pos (startsWith_past h), Cursor.past]

theorem accept_other {more : List UInt8} (htext : bytesOf text = b :: more)
    (h : c.after.head? ≠ some b) : accept text c = .ok false c := by
  rw [accept, startsWith_other htext h, if_neg Bool.false_ne_true]

theorem expect_past (h : c.after = bytesOf text ++ rest) :
    expect text c = .ok () (c.past text) := by
  rw [expect, bind_of_ok (accept_past h)]
  rfl

theorem space_of_nothing (h : triviaItem c.after = .nothing) : space c = .ok () c :=
  space_eq_ok.mpr ⟨false, trivia_of_clear (triviaReach_of_nothing h)⟩

theorem space_past (gap : Spacing) (h : c.after = bytesOf gap.text ++ rest)
    (hrest : triviaItem rest = .nothing) : space c = .ok () (c.past gap.text) := by
  obtain ⟨crosses, hreach⟩ := triviaReach_of_text gap.isTrivia hrest
  rw [← h] at hreach
  exact space_eq_advance.mpr ⟨_, crosses, hreach, rfl⟩

theorem space_append (gap : Spacing) (h : c.after = bytesOf gap.text ++ rest)
    (hmore : space (c.past gap.text) = .ok () d) : space c = .ok () d := by
  obtain ⟨length, crosses, hreach, rfl⟩ := space_eq_advance.mp hmore
  rw [after_past h] at hreach
  obtain ⟨both, hboth⟩ := gap.isTrivia.startsRun hreach
  rw [← h] at hboth
  refine space_eq_advance.mpr ⟨_, both, hboth, ?_⟩
  rw [Cursor.past, advance_advance]

theorem space_space (h : space c = .ok () d) : space d = .ok () d := by
  obtain ⟨length, crosses, hreach, rfl⟩ := space_eq_advance.mp h
  exact space_of_nothing (triviaItem_after_reach hreach)

theorem name_past {n : Identifier} (h : c.after = bytesOf n.text ++ rest)
    (hrest : StopsToken rest) :
    name c = .ok ⟨n.text, c.rangeTo (c.past n.text)⟩ (c.past n.text) := by
  obtain ⟨first, more, hname, hfirst⟩ := n.exists_cons
  have hstart : c.byte?.any isNameStart = true := by
    rw [Cursor.byte?, h, hname, cons_append, head?_cons, Option.any_some, hfirst]
  have hword : c.after.takeWhile isNamePart = bytesOf n.text := by
    rw [h, n.takeWhile_bytes hrest]
  have htext : c.textUpTo (c.past n.text) = n.text := by
    rw [Cursor.past, textUpTo_advance, h, take_left, textOf_bytesOf]
  rw [name, if_pos hstart, hword]
  change EStateM.Result.ok (Name.mk (c.textUpTo (c.past n.text)) (c.rangeTo (c.past n.text)))
    (c.past n.text) = _
  rw [htext]

/-! ## Expressions -/

end Scan

/-- Past its first token a stretch goes on in the same way from wherever it began. -/
theorem StretchRun.of_later {kind : StretchKind} {start start' c d : Cursor} {depth : Nat}
    (h : StretchRun kind start c depth d) (hstart : start.pos < c.pos)
    (hstart' : start'.pos < c.pos) :
    StretchRun kind start' c depth d := by
  have hboundary : ∀ (c : Cursor) crosses b, start.pos < c.pos → start'.pos < c.pos →
      kind.boundary start' c crosses b = kind.boundary start c crosses b := by
    intro c crosses b hlt hlt'
    have hne : (c.pos == start.pos) = false := by simpa using Nat.ne_of_gt hlt
    have hne' : (c.pos == start'.pos) = false := by simpa using Nat.ne_of_gt hlt'
    simp only [StretchKind.boundary, hlt, hlt', hne, hne', decide_true]
  induction h with
  | atEnd hspace hq => exact .atEnd hspace hq
  | before hspace hq hb => exact .before hspace hq (by rw [hboundary _ _ _ hstart hstart', hb])
  | after hspace hq hb => exact .after hspace hq (by rw [hboundary _ _ _ hstart hstart', hb])
  | block hspace hq hkind => exact .block hspace hq hkind
  | token hspace hq hb hopen htoken _ ih =>
    have hle := (trivia_onward hspace).pos_le
    have hlt := token_pos_lt (by simp [hq]) htoken
    refine .token hspace hq (fun hdepth => ?_) hopen htoken (ih (by omega) (by omega))
    rw [hboundary _ _ _ hstart hstart', hb hdepth]

theorem boundary_at_start (kind : StretchKind) (c d : Cursor) (crosses crosses' : Bool)
    (b : UInt8) :
    kind.boundary c c crosses b = kind.boundary d d crosses' b := by
  simp only [StretchKind.boundary, Nat.lt_irrefl, decide_false, Bool.and_false, Bool.false_and,
    Bool.false_eq_true, if_false, beq_self_eq_true, Bool.and_true]

namespace Scan

variable {c d e : Cursor} {r : Range}

/-- An expression that is read from behind the trivia in front of it ends at the same place, or
there is nothing of it. -/
theorem expression_space (h : expression c = .ok r d) (hspace : space c = .ok () e) :
    ∃ r', (expression e = .ok r' e ∧ d = c) ∨ expression e = .ok r' d := by
  obtain ⟨crosses, htrivia⟩ := space_eq_ok.mp hspace
  obtain ⟨length, hreach, he⟩ := trivia_eq_ok.mp htrivia
  have hstay : trivia e = .ok false e := by
    rw [he]
    exact trivia_of_clear (triviaReach_drop hreach)
  obtain ⟨hrun, -⟩ := run_of_stretchFrom h
  cases hrun with
  | atEnd hspace' hq =>
    cases hspace'.symm.trans htrivia
    exact ⟨_, .inl ⟨stretchFrom_of_run (.atEnd hstay hq), rfl⟩⟩
  | before hspace' hq hb =>
    cases hspace'.symm.trans htrivia
    rw [boundary_at_start _ _ e _ false] at hb
    exact ⟨_, .inl ⟨stretchFrom_of_run (.before hstay hq hb), rfl⟩⟩
  | after _ _ hb => cases boundary_after_kind hb
  | token hspace' hq hb hopen htoken hrest =>
    cases hspace'.symm.trans htrivia
    have hle := (trivia_onward htrivia).pos_le
    have hlt := token_pos_lt (by simp [hq]) htoken
    refine ⟨_, .inr (stretchFrom_of_run (.token hstay hq (fun hdepth => ?_) hopen htoken
      (hrest.of_later (by omega) (by omega))))⟩
    rw [boundary_at_start _ _ c _ crosses, hb hdepth]

end Scan

end ModuleBridge
