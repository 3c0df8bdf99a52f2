import ModuleBridge.Proofs.Grammar.Onward
import ModuleBridge.Proofs.Source.CopyStretch

/-!
# Readings that are moved to another place

A reading of the grammar looks at what follows it, past any trivia. Inside a copied piece it is
followed as long as a token of the piece comes after it. So a composed reading is followed backwards
from its end: the last part ends inside the piece or with it, and each part before it has a token of
the piece after it. `FollowsAt` is the judgement, with one rule for each way of composing and one
for each small reading.
-/

namespace ModuleBridge

open Scan Cursor List

variable {stop k : Nat} {place : Cursor → Prop} {b : UInt8} {text word : String} {x : Cursor}
  {message : Message} {args : List String}

/-- The place of the copy at `c'` that corresponds to the place `x` of the piece at `c`. -/
def mirror (c c' x : Cursor) : Cursor :=
  c'.advance (x.pos - c.pos)

/-- After the trivia at `x` comes a token that starts before the offset `stop`. -/
def HasToken (stop : Nat) (x : Cursor) : Prop :=
  ∃ crosses q, trivia x = .ok crosses q ∧ q.pos < stop

theorem HasToken.pos_lt (h : HasToken stop x) : x.pos < stop := by
  obtain ⟨crosses, q, hspace, hlt⟩ := h
  exact Nat.lt_of_le_of_lt (trivia_onward hspace).pos_le hlt

theorem HasToken.of_space {q : Cursor} (h : HasToken stop x) (hspace : space x = .ok () q) :
    HasToken stop q := by
  obtain ⟨crosses, q', htrivia, hlt⟩ := h
  obtain ⟨crosses', htrivia'⟩ := space_eq_ok.mp hspace
  cases htrivia.symm.trans htrivia'
  exact ⟨false, q, trivia_of_clear (clear_of_space hspace), hlt⟩

/-- How far the end of an optional reading may go. -/
def OptionEnd {α : Type} (stop : Nat) (post : Cursor → Prop) (answer : Option α)
    (d : Cursor) : Prop :=
  if answer.isSome then post d else HasToken stop d

/-- `op` at `x` is followed by `op'` in the copy: if `op` succeeds and `post` holds of its end, then
`pre` holds and `op'` comes to the same place, with an answer that looks the same in `view`. -/
def FollowsAt {α γ : Type} (c c' x : Cursor) (pre : Prop) (op op' : Scan α)
    (post : α → Cursor → Prop) (view : α → γ) : Prop :=
  c.Onward x → ∀ a d, op x = .ok a d → c.Onward d ∧
    (post a d → pre ∧ ∃ a', op' (mirror c c' x) = .ok a' (mirror c c' d) ∧ view a' = view a)

/-- `op` is followed by `op'` where a token comes after it, before the offset `stop`. -/
abbrev FollowsInside {α γ : Type} (c c' x : Cursor) (stop : Nat) (op op' : Scan α) (view : α → γ) :
    Prop :=
  FollowsAt c c' x (HasToken stop x) op op' (fun _ d => HasToken stop d) view

/-- `op` is followed by `op'` where it ends by the offset `stop`. -/
abbrev FollowsUpTo {α : Type} (c c' x : Cursor) (stop : Nat) (op op' : Scan α) : Prop :=
  FollowsAt c c' x (HasToken stop x) op op' (fun _ d => d.pos ≤ stop) (fun _ => ())

namespace FollowsAt

variable {α β γ δ : Type} {c c' x : Cursor} {pre : Prop} {op op' : Scan α}
  {post : α → Cursor → Prop} {view : α → γ}

/-! ## Composition -/

theorem mono {weaker : Prop} {stronger : α → Cursor → Prop}
    (h : FollowsAt c c' x pre op op' post view) (hpre : pre → weaker)
    (hpost : ∀ a d, stronger a d → post a d) : FollowsAt c c' x weaker op op' stronger view := by
  intro hx a d hrun
  obtain ⟨hd, hend⟩ := h hx a d hrun
  refine ⟨hd, fun hstronger => ?_⟩
  obtain ⟨hstart, hcopy⟩ := hend (hpost a d hstronger)
  exact ⟨hpre hstart, hcopy⟩

theorem frame {fact : Prop} (h : FollowsAt c c' x pre op op' post view) :
    FollowsAt c c' x (fact ∧ pre) op op' (fun a d => fact ∧ post a d) view := by
  intro hx a d hrun
  obtain ⟨hd, hend⟩ := h hx a d hrun
  refine ⟨hd, fun hpost => ?_⟩
  obtain ⟨hpre, hcopy⟩ := hend hpost.2
  exact ⟨⟨hpost.1, hpre⟩, hcopy⟩

theorem pure {a a' : α} (hview : view a' = view a) :
    FollowsAt c c' x (post a x) (pure a) (pure a') post view := by
  intro hx b d hrun
  obtain ⟨rfl, rfl⟩ := pure_eq_ok.mp hrun
  exact ⟨hx, fun hpost => ⟨hpost, a', rfl, hview⟩⟩

theorem failHere : FollowsAt c c' x pre (failHere message args) op' post view := by
  intro hx a d hrun
  exact absurd hrun failHere_ne_ok

theorem failHere_bind {next : β → Scan α} :
    FollowsAt c c' x pre (Scan.failHere message args >>= next) op' post view := by
  intro hx a d hrun
  obtain ⟨_, _, hfail, _⟩ := bind_eq_ok.mp hrun
  exact absurd hfail failHere_ne_ok

theorem get {next next' : Cursor → Scan α}
    (h : FollowsAt c c' x pre (next x) (next' (mirror c c' x)) post view) :
    FollowsAt c c' x pre (get >>= next) (get >>= next') post view := h

theorem bind {next next' : α → Scan β} {mid : α → Cursor → Prop} {after : β → Cursor → Prop}
    {look : β → δ} (hop : FollowsAt c c' x pre op op' mid view)
    (hnext : ∀ a a' y, op x = .ok a y → view a' = view a →
      FollowsAt c c' y (mid a y) (next a) (next' a') after look) :
    FollowsAt c c' x pre (op >>= next) (op' >>= next') after look := by
  intro hx b e hrun
  obtain ⟨a, d, hfirst, hrest⟩ := bind_eq_ok.mp hrun
  obtain ⟨hd, hmid⟩ := hop hx a d hfirst
  refine ⟨(hnext a a d hfirst rfl hd b e hrest).1, fun hafter => ?_⟩
  obtain ⟨hpre, a', hfirst', hview⟩ := hmid ((hnext a a d hfirst rfl hd b e hrest).2 hafter).1
  obtain ⟨b', hrest', hlook⟩ := ((hnext a a' d hfirst hview hd b e hrest).2 hafter).2
  exact ⟨hpre, b', bind_eq_ok.mpr ⟨a', _, hfirst', hrest'⟩, hlook⟩

/-- A reading that ends with the piece may also end before its last token. -/
theorem before {stop : Nat} (h : FollowsAt c c' x pre op op' (fun _ d => d.pos ≤ stop) view) :
    FollowsAt c c' x pre op op' (fun _ d => HasToken stop d) view :=
  h.mono id fun _ _ hd => Nat.le_of_lt hd.pos_lt

theorem exchange {other : Scan α} (h : FollowsAt c c' x pre op other post view)
    (hsame : c.Onward x → pre → op' = other) : FollowsAt c c' x pre op op' post view := by
  intro hx a d hrun
  obtain ⟨hd, hend⟩ := h hx a d hrun
  refine ⟨hd, fun hpost => ?_⟩
  obtain ⟨hpre, hcopy⟩ := hend hpost
  rw [hsame hx hpre]
  exact ⟨hpre, hcopy⟩

theorem of_pos (hop : MovesOnward op) (hpost : ∀ a d, post a d → d.pos ≤ stop)
    (h : x.pos ≤ stop → FollowsAt c c' x pre op op' post view) :
    FollowsAt c c' x pre op op' post view := by
  intro hx a d hrun
  have honward := hop hrun
  refine ⟨hx.trans honward, fun hend => ?_⟩
  exact (h (Nat.le_trans honward.pos_le (hpost a d hend)) hx a d hrun).2 hend

theorem test {op op' : Scan Bool} {next next' : Bool → Scan β} {mid : Bool → Cursor → Prop}
    {after : β → Cursor → Prop} {look : β → δ} (hop : FollowsAt c c' x pre op op' mid id)
    (hyes : ∀ y, op x = .ok true y →
      FollowsAt c c' y (mid true y) (next true) (next' true) after look)
    (hno : ∀ y, op x = .ok false y →
      FollowsAt c c' y (mid false y) (next false) (next' false) after look) :
    FollowsAt c c' x pre (op >>= next) (op' >>= next') after look := by
  refine hop.bind fun found found' y hrun hview => ?_
  obtain rfl : found' = found := hview
  cases found' with
  | true => exact hyes y hrun
  | false => exact hno y hrun

theorem peek {f f' : Cursor → α}
    (hsame : c.Onward x → place x → view (f' (mirror c c' x)) = view (f x)) :
    FollowsAt c c' x (place x) (Scan.peek f) (Scan.peek f') (fun _ d => place d) view := by
  intro hx a d hrun
  obtain ⟨rfl, rfl⟩ := peek_eq_ok.mp hrun
  exact ⟨hx, fun hpost => ⟨hpost, _, rfl, hsame hx hpost⟩⟩

theorem classified {stretch : Scan Range}
    (h : FollowsAt c c' x pre stretch stretch (fun _ d => place d) Range.isEmpty) :
    FollowsAt c c' x pre (classified stretch) (classified stretch) (fun _ d => place d)
      (fun _ => ()) := by
  refine .get (.bind h fun range range' y _ hempty => ?_)
  dsimp only
  rw [hempty]
  cases range.isEmpty with
  | true => exact .failHere_bind
  | false => exact .pure rfl

/-- What is read after trivia; where nothing is read, the reading has not moved. -/
theorem afterSpace {op op' : Scan (Option α)}
    (hspace : FollowsInside c c' x stop space space (fun _ => ()))
    (hop : ∀ q, space x = .ok () q →
      FollowsAt c c' q (HasToken stop q) op op' (OptionEnd stop place) Option.isSome)
    (hstay : ∀ q d, op q = .ok none d → d = q) :
    FollowsAt c c' x (HasToken stop x) (Scan.afterSpace op) (Scan.afterSpace op')
      (OptionEnd stop place) Option.isSome := by
  intro hx answer d hrun
  obtain ⟨q, e, hskip, hread, rfl⟩ := afterSpace_eq_ok.mp hrun
  obtain ⟨hq, hmoved⟩ := hspace hx () q hskip
  obtain ⟨he, hcopied⟩ := hop q hskip hq answer e hread
  cases answer with
  | some value =>
    refine ⟨he, fun hend => ?_⟩
    obtain ⟨htoken, answer', hread', hsome⟩ := hcopied hend
    obtain ⟨hpre, _, hskip', _⟩ := hmoved htoken
    refine ⟨hpre, answer', afterSpace_eq_ok.mpr ⟨_, _, hskip', hread', ?_⟩, hsome⟩
    rw [hsome]
    rfl
  | none =>
    refine ⟨hx, fun hend => ⟨hend, ?_⟩⟩
    have hend : HasToken stop x := hend
    cases hstay q e hread
    obtain ⟨htoken, answer', hread', hsome⟩ := hcopied (hend.of_space hskip)
    obtain ⟨_, _, hskip', _⟩ := hmoved htoken
    refine ⟨answer', afterSpace_eq_ok.mpr ⟨_, _, hskip', hread', ?_⟩, hsome⟩
    rw [hsome]
    rfl

end FollowsAt

/-! ## Small readings -/

theorem HasToken.of_byte {rest : List UInt8} (hx : x.after = b :: rest) (hb : startsCode b = true)
    (hlt : x.pos < stop) : HasToken stop x := by
  refine ⟨false, x, trivia_of_clear ?_, hlt⟩
  rw [hx, triviaReach_of_nothing (triviaItem_of_startsCode hb rest)]

/-- A text that is one token or starts with one. -/
structure IsTokenText (text : String) : Prop where
  starts : ∃ b more, bytesOf text = b :: more ∧ startsCode b = true
  line : byte '\n' ∉ bytesOf text

theorem IsTokenText.of_head (hstarts : (bytesOf text).head?.any startsCode = true)
    (hline : byte '\n' ∉ bytesOf text) : IsTokenText text := by
  refine ⟨?_, hline⟩
  cases hbytes : bytesOf text with
  | nil => simp [hbytes] at hstarts
  | cons b more => exact ⟨b, more, rfl, by simpa [hbytes] using hstarts⟩

/-- How long the number at a cursor is: digits, and a point with more digits. -/
def Cursor.numberLength (c : Cursor) : Nat :=
  let whole := (c.after.takeWhile isDigitByte).length
  if (c.advance whole).byte? = some (byte '.') then
    whole + 1 + ((c.advance (whole + 1)).after.takeWhile isDigitByte).length
  else whole

theorem Scan.number_of_digit {c : Cursor} (h : c.byte?.any isDigitByte = true) :
    0 < c.numberLength ∧ c.numberLength ≤ c.after.length ∧
      ∃ a, number c = .ok a (c.advance c.numberLength) := by
  obtain ⟨b, rest, hafter, hb⟩ := exists_cons_of_byte? h
  have hwhole : c.after.takeWhile isDigitByte ≠ [] := by
    rw [hafter, takeWhile_cons_of_pos hb]
    exact cons_ne_nil _ _
  have hfits : (c.after.takeWhile isDigitByte).length ≤ c.after.length :=
    (List.takeWhile_prefix _).length_le
  have hpos := length_pos_iff.mpr hwhole
  have hrest : c.after.dropWhile isDigitByte =
      (c.advance (c.after.takeWhile isDigitByte).length).after := dropWhile_eq_drop _ _
  obtain ⟨e, more, hcons⟩ := exists_cons_of_ne_nil hwhole
  unfold number numberLength byte?
  dsimp only
  rw [hrest]
  generalize hn : (c.after.takeWhile isDigitByte).length = n at *
  by_cases hpoint : (c.advance n).after.head? = some (byte '.')
  · have htail : (c.advance n).after.tail = (c.advance (n + 1)).after := by
      rw [after_advance, after_advance, tail_drop]
    rw [if_pos hpoint, if_pos (beq_iff_eq.mpr hpoint), htail]
    have hmore : ((c.advance (n + 1)).after.takeWhile isDigitByte).length ≤
        (c.advance (n + 1)).after.length := (List.takeWhile_prefix _).length_le
    have hsize : (c.advance (n + 1)).after.length + (n + 1) = c.after.length := by
      have hlt : n < c.after.length := by
        rw [after_advance, head?_drop] at hpoint
        exact (List.getElem?_eq_some_iff.mp hpoint).1
      rw [after_advance, length_drop]
      omega
    refine ⟨by omega, by omega, ?_⟩
    rw [hcons]
    exact ⟨_, rfl⟩
  · rw [if_neg hpoint, if_neg (by simpa using hpoint)]
    refine ⟨hpos, hfits, ?_⟩
    rw [hcons]
    exact ⟨_, rfl⟩

theorem isNameStart_startsCode : isNameStart b = true → startsCode b = true := by
  apply forall_byte _ b
  decide +kernel

theorem isQuote_startsCode : isQuote b = true → startsCode b = true := by
  apply forall_byte _ b
  decide +kernel

theorem isDigitByte_startsCode : isDigitByte b = true → startsCode b = true := by
  apply forall_byte _ b
  decide +kernel

namespace Copied

variable {c c' x : Cursor} {t r r' : List UInt8} (h : Copied c c' t r r')

include h

theorem exists_place (hx : c.Onward x) (hle : x.pos ≤ c.pos + t.length) :
    ∃ k, k ≤ t.length ∧ x = c.advance k ∧ mirror c c' x = c'.advance k ∧ x.pos = c.pos + k := by
  obtain ⟨k, _, hk, hplace, hoffset⟩ := h.exists_offset (k := 0) (Nat.zero_le _)
    (by rwa [advance_zero]) hle
  have hpos := hx.pos_le
  exact ⟨k, hk, hplace, by rw [mirror, hoffset], by omega⟩

theorem space_follows : FollowsInside c c' x (c.pos + t.length) space space (fun _ => ()) := by
  intro hx u d hrun
  obtain ⟨crosses, hspace⟩ := space_eq_ok.mp hrun
  have honward := trivia_onward hspace
  refine ⟨hx.trans honward, fun hend => ?_⟩
  have hlt := hend.pos_lt
  obtain ⟨k, hk, rfl, hmirror, _⟩ := h.exists_place hx
    (Nat.le_of_lt (Nat.lt_of_le_of_lt honward.pos_le hlt))
  obtain ⟨j, _, hj, rfl, hspace'⟩ := h.trivia_follows hk hspace hlt
  refine ⟨⟨crosses, _, hspace, hlt⟩, (), ?_, rfl⟩
  rw [hmirror, mirror, h.pos_here (Nat.le_of_lt hj), Nat.add_sub_cancel_left]
  exact space_eq_ok.mpr ⟨crosses, hspace'⟩

omit h in
theorem hasToken_of_startsWith (htext : IsTokenText text) (hstarts : x.startsWith text = true)
    (hle : (x.advance (bytesOf text).length).pos ≤ stop) : HasToken stop x := by
  obtain ⟨b, more, hbytes, hb⟩ := htext.starts
  obtain ⟨rest, hrest⟩ := isPrefixOf_iff_prefix.mp hstarts
  rw [hbytes] at hrest hle
  refine .of_byte hrest.symm hb ?_
  rw [pos_advance, ← hrest] at hle
  simp only [length_append, length_cons] at hle
  omega

/-- How far the end of an optional token may go: with the piece, or before its last token. -/
def AcceptEnd (stop : Nat) (found : Bool) (d : Cursor) : Prop :=
  if found then d.pos ≤ stop else HasToken stop d

theorem accept_follows (htext : IsTokenText text) :
    FollowsAt c c' x (HasToken (c.pos + t.length) x) (accept text) (accept text)
      (AcceptEnd (c.pos + t.length)) id := by
  intro hx found d hrun
  refine ⟨hx.trans (accept_onward _ hrun), fun hend => ?_⟩
  have hpos := (accept_onward _ hrun).pos_le
  rcases accept_cases hrun with ⟨rfl, hstarts, rfl⟩ | ⟨rfl, hstarts, rfl⟩
  · have htoken := hasToken_of_startsWith htext hstarts hend
    obtain ⟨k, hk, rfl, hmirror, _⟩ := h.exists_place hx (Nat.le_of_lt htoken.pos_lt)
    have hfits : (bytesOf text).length ≤ (c.advance k).after.length :=
      (List.isPrefixOf_iff_prefix.mp hstarts).length_le
    have hle : (c.advance k).pos + (bytesOf text).length ≤ c.pos + t.length := by
      have hend : ((c.advance k).advance (bytesOf text).length).pos ≤ c.pos + t.length := hend
      rwa [pos_advance, Nat.min_eq_left hfits] at hend
    have hcopy := h.startsWith_eq hk htext.line fun _ => by
      rw [h.pos_here hk] at hle
      omega
    refine ⟨htoken, true, ?_, rfl⟩
    rw [hmirror, mirror, h.advance_there hk hfits, accept, hcopy, hstarts, if_pos rfl]
  · have htoken : HasToken (c.pos + t.length) d := hend
    obtain ⟨k, hk, rfl, hmirror, _⟩ := h.exists_place hx (Nat.le_of_lt htoken.pos_lt)
    have hcopy := h.startsWith_eq hk htext.line fun hhere => by
      rw [hstarts] at hhere
      cases hhere
    refine ⟨htoken, false, ?_, rfl⟩
    rw [hmirror, accept, hcopy, hstarts, if_neg Bool.false_ne_true]

theorem accept_before (htext : IsTokenText text) :
    FollowsInside c c' x (c.pos + t.length) (accept text) (accept text) id := by
  refine (h.accept_follows htext).mono id fun found d hd => ?_
  cases found with
  | true => exact Nat.le_of_lt hd.pos_lt
  | false => exact hd

omit h in
theorem accept_pos_lt {y : Cursor} (htext : IsTokenText text) (hrun : accept text x = .ok true y) :
    x.pos < y.pos := by
  rcases accept_cases hrun with ⟨_, hstarts, rfl⟩ | ⟨hfound, _⟩
  · have hfits := (List.isPrefixOf_iff_prefix.mp hstarts).length_le
    obtain ⟨b, more, hbytes, _⟩ := htext.starts
    rw [hbytes] at hfits ⊢
    simp only [length_cons] at hfits
    rw [pos_advance]
    simp only [length_cons]
    omega
  · cases hfound

/-- A word is a text of name bytes. -/
structure IsWord (word : String) : Prop where
  starts : ∃ b more, bytesOf word = b :: more ∧ startsCode b = true
  name : ∀ b ∈ bytesOf word, isNamePart b = true

theorem acceptWord_follows (hword : IsWord word) :
    FollowsAt c c' x (HasToken (c.pos + t.length) x) (acceptWord word) (acceptWord word)
      (AcceptEnd (c.pos + t.length)) id := by
  intro hx found d hrun
  refine ⟨hx.trans (acceptWord_onward _ hrun), fun hend => ?_⟩
  have htext : IsTokenText word := ⟨hword.starts, namePart_ne_line hword.name⟩
  have htoken : HasToken (c.pos + t.length) x := by
    rcases acceptWord_cases hrun with ⟨rfl, hstarts, rfl⟩ | ⟨rfl, _, rfl⟩
    · exact hasToken_of_startsWith htext (startsWith_of_startsWithWord hstarts) hend
    · exact hend
  obtain ⟨k, hk, rfl, hmirror, hplace⟩ := h.exists_place hx (Nat.le_of_lt htoken.pos_lt)
  have hlt := htoken.pos_lt
  have hcopy := h.startsWithWord_eq (by omega : k < t.length) hword.name
  refine ⟨htoken, found, ?_, rfl⟩
  rw [hmirror, mirror, acceptWord, hcopy]
  rcases acceptWord_cases hrun with ⟨rfl, hstarts, rfl⟩ | ⟨rfl, hstarts, rfl⟩
  · have hfits := (List.isPrefixOf_iff_prefix.mp (startsWith_of_startsWithWord hstarts)).length_le
    rw [hstarts, if_pos rfl, h.advance_there hk hfits]
  · rw [hstarts, if_neg Bool.false_ne_true, hplace, Nat.add_sub_cancel_left]

theorem expect_follows (htext : IsTokenText text) :
    FollowsUpTo c c' x (c.pos + t.length) (expect text) (expect text) := by
  exact .test (h.accept_follows htext) (fun y _ => .pure rfl) fun y _ => .failHere

theorem expectWord_follows (hword : IsWord word) :
    FollowsUpTo c c' x (c.pos + t.length) (expectWord word) (expectWord word) := by
  exact .test (h.acceptWord_follows hword) (fun y _ => .pure rfl) fun y _ => .failHere

theorem name_follows : FollowsUpTo c c' x (c.pos + t.length) name name := by
  intro hx a d hrun
  have honward := name_onward hrun
  refine ⟨hx.trans honward, fun hend => ?_⟩
  obtain ⟨k, hk, rfl, hmirror, hplace⟩ := h.exists_place hx (Nat.le_trans honward.pos_le hend)
  unfold name at hrun
  split at hrun
  · rename_i hstart
    cases hrun
    obtain ⟨b, rest, hafter, hb⟩ := exists_cons_of_byte? hstart
    have hpart : isNamePart b = true := by rw [isNamePart, hb, Bool.true_or]
    have hn : ((c.advance k).after.takeWhile isNamePart).length ≤ (c.advance k).after.length :=
      (List.takeWhile_prefix _).length_le
    have hpos : 0 < ((c.advance k).after.takeWhile isNamePart).length := by
      rw [hafter, takeWhile_cons_of_pos hpart]
      exact Nat.succ_pos _
    rw [pos_advance, Nat.min_eq_left hn, hplace] at hend
    have hcopy := h.takeWhile_eq (by decide : isNamePart (byte '\n') = false) hk (by omega)
    refine ⟨.of_byte hafter (isNameStart_startsCode hb) (by omega), ?_⟩
    rw [hmirror, mirror, h.advance_there hk hn]
    unfold name
    rw [h.byte?_eq (by omega), if_pos hstart, hcopy]
    exact ⟨_, rfl, rfl⟩
  · cases hrun

theorem block_follows {opener closer : UInt8} (hopener : startsCode opener = true)
    (hcloser : closer < 128) :
    FollowsUpTo c c' x (c.pos + t.length) (block opener closer) (block opener closer) := by
  intro hx a d hrun
  have honward := block_onward hcloser hrun
  refine ⟨hx.trans honward, fun hend => ?_⟩
  obtain ⟨k, hk, rfl, hmirror, hplace⟩ := h.exists_place hx (Nat.le_trans honward.pos_le hend)
  obtain ⟨n, rfl, hn⟩ := (block_past hrun).reaches
  have hlt : k < t.length := by
    rw [pos_advance, Nat.min_eq_left hn, hplace] at hend
    omega
  obtain ⟨range', hcopy⟩ := h.block_eq hlt hrun hend
  refine ⟨?_, range', by rw [hmirror, hcopy, mirror], rfl⟩
  unfold block at hrun
  split at hrun
  · rename_i hopen
    obtain ⟨b, rest, hafter, hb⟩ :=
      exists_cons_of_byte? (p := (· == opener)) (by rw [beq_iff_eq.mp hopen]; simp)
    rw [← beq_iff_eq.mp hb] at hopener
    exact .of_byte hafter hopener (by omega)
  · cases hrun

theorem quoted_follows : FollowsUpTo c c' x (c.pos + t.length) quoted quoted := by
  intro hx a d hrun
  have honward := quoted_onward hrun
  refine ⟨hx.trans honward, fun hend => ?_⟩
  obtain ⟨k, hk, rfl, hmirror, hplace⟩ := h.exists_place hx (Nat.le_trans honward.pos_le hend)
  obtain ⟨n, hd, hn⟩ := (quoted_past hrun).reaches
  have hlt : k < t.length := by
    rw [hd, pos_advance, Nat.min_eq_left hn, hplace] at hend
    omega
  obtain ⟨b, y, hy, hb, hlength, hhere, hthere⟩ := h.exists_after hlt
  simp only [quoted, hhere] at hrun
  split at hrun
  · rename_i hquote
    split at hrun
    · rename_i length hreach
      cases hrun
      obtain ⟨m, rfl, hget⟩ := quotedReach_eq_closed hreach
      have hfits : 0 + m + 1 + 1 ≤ (c.advance k).after.length := by
        have hm := (List.getElem?_eq_some_iff.mp hget).1
        rw [hhere, length_cons]
        omega
      rw [pos_advance, Nat.min_eq_left hfits, hplace] at hend
      have hcopy : quotedReach b (y ++ r') 0 = .closed (0 + m + 1) :=
        quotedReach_copy hreach (by omega)
      refine ⟨.of_byte hhere (isQuote_startsCode hquote) (by omega), ?_⟩
      rw [hmirror, mirror, h.advance_there hk hfits]
      simp only [quoted, hthere, hquote, if_true, hcopy]
      exact ⟨_, rfl, trivial⟩
    · cases hrun
  · cases hrun

theorem numberLength_eq (hk : k ≤ t.length) (hle : k + (c.advance k).numberLength ≤ t.length) :
    (c'.advance k).numberLength = (c.advance k).numberLength := by
  have hline : isDigitByte (byte '\n') = false := by decide
  have hwhole : ((c.advance k).after.takeWhile isDigitByte).length ≤
    (c.advance k).numberLength := by
    unfold numberLength
    dsimp only
    split <;> omega
  have hcopy := h.takeWhile_eq hline hk (by omega)
  unfold numberLength at hle ⊢
  rw [hcopy]
  simp only [advance_advance] at hle ⊢
  generalize ((c.advance k).after.takeWhile isDigitByte).length = n at hle ⊢
  by_cases hin : k + n < t.length
  · rw [h.byte?_eq hin]
    split
    · rename_i hpoint
      rw [if_pos hpoint] at hle
      rw [h.takeWhile_eq hline (by omega) (by rw [← Nat.add_assoc k n 1] at hle ⊢; omega)]
    · rfl
  · -- The digits end with the piece, and so does the number.
    have hhere : (c.advance (k + n)).byte? ≠ some (byte '.') := by
      intro hpoint
      rw [if_pos hpoint] at hle
      omega
    have hthere : (c'.advance (k + n)).byte? ≠ some (byte '.') := by
      have hfull : k + n = t.length := by
        rw [if_neg hhere] at hle
        omega
      rw [hfull, byte?, h.after_there (Nat.le_refl _), drop_length, nil_append]
      intro hpoint
      exact absurd (h.endsLine _ hpoint) (by decide)
    rw [if_neg hhere, if_neg hthere]

theorem number_follows (hdigit : x.byte?.any isDigitByte = true) :
    FollowsUpTo c c' x (c.pos + t.length) number number := by
  intro hx a d hrun
  have honward := number_onward hrun
  refine ⟨hx.trans honward, fun hend => ?_⟩
  obtain ⟨k, hk, rfl, hmirror, hplace⟩ := h.exists_place hx (Nat.le_trans honward.pos_le hend)
  obtain ⟨hpos, hfits, b, hnumber⟩ := number_of_digit hdigit
  cases hrun.symm.trans hnumber
  rw [pos_advance, Nat.min_eq_left hfits, hplace] at hend
  have hcopy := h.numberLength_eq hk (by omega)
  have hdigit' : (c'.advance k).byte?.any isDigitByte = true := by rwa [h.byte?_eq (by omega)]
  obtain ⟨_, _, b', hnumber'⟩ := number_of_digit hdigit'
  obtain ⟨e, rest, hafter, he⟩ := exists_cons_of_byte? hdigit
  refine ⟨.of_byte hafter (isDigitByte_startsCode he) (by omega), b', ?_, rfl⟩
  rw [hmirror, mirror, h.advance_there hk hfits, hnumber', hcopy]

theorem expression_follows :
    FollowsInside c c' x (c.pos + t.length) expression expression Range.isEmpty := by
  intro hx range d hrun
  obtain ⟨hstretch, rfl⟩ := run_of_stretchFrom hrun
  have honward := hstretch.onward
  refine ⟨hx.trans honward, fun hend => ⟨?_, ?_⟩⟩
  · rcases hstretch.eq_or_passes with rfl | ⟨crosses, q, hspace, hlt⟩
    · exact hend
    · exact ⟨crosses, q, hspace, Nat.lt_trans hlt hend.pos_lt⟩
  · have hle := Nat.le_of_lt hend.pos_lt
    obtain ⟨k, hk, rfl, hmirror, _⟩ := h.exists_place hx (Nat.le_trans honward.pos_le hle)
    rcases h.stretchFrom_follows hstretch (Nat.le_refl k) hk (fun hkind => by cases hkind) hle with
      ⟨j, m, hkj, hj, rfl, hopen, _, hround⟩ | ⟨hkind, _⟩
    · obtain ⟨crosses, q, hspace, hlt⟩ := hend
      obtain ⟨i, _, hi, rfl, hspace'⟩ := h.trivia_follows hj hspace hlt
      obtain ⟨crosses', q', hspace'', hq⟩ := hopen
      cases hspace.symm.trans hspace''
      obtain ⟨b, y, _, _, _, hhere, hthere⟩ := h.exists_after hi
      rcases hq with hnil | ⟨rfl, b', rest, hcons, hb⟩
      · rw [hhere] at hnil
        cases hnil
      · cases hhere.symm.trans hcons
        have hb' := (h.boundary_eq .expression hkj hj crosses b).trans hb
        refine ⟨_, ?_, h.isEmpty_rangeTo hk hj⟩
        rw [hmirror, mirror, h.pos_here hj, Nat.add_sub_cancel_left]
        exact hround.trans (stretchFrom_of_run (.before hspace' hthere hb'))
    · cases hkind

theorem heritage_follows :
    FollowsInside c c' x (c.pos + t.length) heritage heritage Range.isEmpty := by
  intro hx range d hrun
  have honward := heritage_onward hrun
  refine ⟨hx.trans honward, fun hend => ⟨?_, ?_⟩⟩
  · obtain ⟨crosses, q, b, rest, hspace, hq, hround⟩ := heritageFrom_cases hrun
    refine ⟨crosses, q, hspace, Nat.lt_of_le_of_lt ?_ hend.pos_lt⟩
    rcases hround with ⟨_, _, rfl⟩ | ⟨_, depth', e, htoken, hrest⟩
    · exact Nat.le_refl _
    · exact ((headToken_onward _ htoken).trans (heritageFrom_onward hrest)).pos_le
  · obtain ⟨k, hk, rfl, hmirror, _⟩ := h.exists_place hx
      (Nat.le_of_lt (Nat.lt_of_le_of_lt honward.pos_le hend.pos_lt))
    obtain ⟨range', hcopy, hempty⟩ := h.heritageFrom_follows (Nat.le_refl k) hk hrun hend.pos_lt
    exact ⟨range', by rw [hmirror]; exact hcopy, hempty⟩

theorem byte?_mirror (hx : c.Onward x) (hend : HasToken (c.pos + t.length) x) :
    (mirror c c' x).byte? = x.byte? := by
  have hlt := hend.pos_lt
  obtain ⟨k, hk, rfl, hmirror, hplace⟩ := h.exists_place hx (Nat.le_of_lt hlt)
  rw [hmirror, h.byte?_eq (by omega)]

theorem startsWithWord_mirror (hword : IsWord word) (hx : c.Onward x)
    (hend : HasToken (c.pos + t.length) x) :
    (mirror c c' x).startsWithWord word = x.startsWithWord word := by
  have hlt := hend.pos_lt
  obtain ⟨k, hk, rfl, hmirror, hplace⟩ := h.exists_place hx (Nat.le_of_lt hlt)
  rw [hmirror, h.startsWithWord_eq (by omega) hword.name]

theorem atName_follows : FollowsInside c c' x (c.pos + t.length) atName atName id := by
  refine .peek fun hx hend => ?_
  rw [h.byte?_mirror hx hend]

theorem startsWith_mirror (hbytes : (bytesOf text).length = 1) (hline : byte '\n' ∉ bytesOf text)
    (hx : c.Onward x) (hend : HasToken (c.pos + t.length) x) :
    (mirror c c' x).startsWith text = x.startsWith text := by
  have hlt := hend.pos_lt
  obtain ⟨k, hk, rfl, hmirror, hplace⟩ := h.exists_place hx (Nat.le_of_lt hlt)
  rw [hmirror, h.startsWith_eq hk hline fun _ => by omega]

theorem comparison_fits (hk : k < t.length) (hstarts : (c.advance k).startsWith "==" = true) :
    k + (bytesOf "==").length ≤ t.length := by
  obtain ⟨b, y, hy, _, hlength⟩ := exists_drop hk
  rw [startsWith, h.after_here (Nat.le_of_lt hk), hy, isPrefixOf_iff_prefix,
    (by decide : bytesOf "==" = [byte '=', byte '='])] at hstarts
  rw [(by decide : (bytesOf "==").length = 2)]
  cases y with
  | cons d y =>
    rw [length_cons] at hlength
    omega
  | nil =>
    -- The first half of the operator would end the piece.
    obtain ⟨a, ha, hmem⟩ := exists_last hk
    rw [hy] at hmem
    obtain rfl := mem_singleton.mp hmem
    obtain ⟨rest, hrest⟩ := hstarts
    cases r with
    | nil => cases hrest
    | cons d r =>
      cases hrest
      have hseam := h.seam _ _ ha rfl
      exact absurd hseam (by decide)

theorem atAssignment_follows :
    FollowsInside c c' x (c.pos + t.length) atAssignment atAssignment id := by
  refine .peek fun hx hend => ?_
  have hlt := hend.pos_lt
  obtain ⟨k, hk, rfl, hmirror, hplace⟩ := h.exists_place hx (Nat.le_of_lt hlt)
  rw [h.startsWith_mirror (by decide) (by decide) hx hend, hmirror,
    h.startsWith_eq hk (by decide) (h.comparison_fits (by omega))]

theorem length_mirror (hx : c.Onward x) (hle : x.pos ≤ c.pos + t.length) :
    c.pos + t.length - x.pos ≤ (mirror c c' x).after.length := by
  obtain ⟨k, hk, rfl, hmirror, hplace⟩ := h.exists_place hx hle
  rw [hmirror, h.after_there hk, length_append, length_drop]
  omega

end Copied

end ModuleBridge
