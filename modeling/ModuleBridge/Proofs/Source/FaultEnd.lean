import ModuleBridge.Proofs.Source.CopyStretch
import ModuleBridge.Source.Word

/-!
# Where a fault leaves the cursor

An operation that stops with a fault leaves its cursor where it was or before an ASCII byte or at
the end of the text: at the comment that does not end, at the line end that breaks a string, at the
end that a block or template runs into. So it moves onward as one that succeeds does. The fault
itself names what stands at the cursor, or what was opened there or before by an ASCII byte; so its
place lies in the text, between two characters at both ends.
-/

namespace ModuleBridge

open Cursor List Scan

variable {text : String} {c d : Cursor} {b quote : UInt8} {rest bytes before : List UInt8}
  {length n depth : Nat} {fault : Fault} {stack : List Enclosure}

namespace Cursor

/-- `d` lies at or after `c`, at the end of the text or before an ASCII byte. -/
def Stops (c d : Cursor) : Prop :=
  ∃ n, d = c.advance n ∧ (c.after.length ≤ n ∨ ∃ b, c.after[n]? = some b ∧ b < 128)

namespace Stops

variable {c d : Cursor}

theorem onward (h : Stops c d) : c.Onward d := by
  obtain ⟨n, rfl, hend | ⟨b, hget, hb⟩⟩ := h
  · exact .of_advance fun hbound => hbound.advance_end hend
  · exact .of_advance fun hbound => hbound.advance_before hget hb

theorem of_advance (h : Stops (c.advance n) d) : Stops c d := by
  obtain ⟨m, rfl, hstop⟩ := h
  refine ⟨n + m, advance_advance c n m, ?_⟩
  rw [after_advance, length_drop, getElem?_drop] at hstop
  cases hstop with
  | inl hend => exact .inl (by omega)
  | inr hbyte => exact .inr hbyte

theorem of_nil (h : c.after = []) : Stops c c :=
  ⟨0, (advance_zero c).symm, .inl (by simp [h])⟩

end Stops

end Cursor

/-! ## Places of faults -/

/-- The place of a fault starts and ends between two characters of the text. -/
def Fault.LiesIn (fault : Fault) (text : String) : Prop :=
  String.Pos.Raw.IsValid text ⟨fault.range.pos⟩ ∧ String.Pos.Raw.IsValid text ⟨fault.range.stop⟩

/-- An ASCII byte stands at the offset `n` of the text. -/
def AsciiAt (text : String) (n : Nat) : Prop :=
  ∃ b, (bytesOf text)[n]? = some b ∧ b < 128

theorem AsciiAt.isValid (h : AsciiAt text n) :
    String.Pos.Raw.IsValid text ⟨n⟩ ∧ String.Pos.Raw.IsValid text ⟨n + 1⟩ := by
  obtain ⟨b, hget, hb⟩ := h
  have hpos : ∀ k ≤ n + 1, ((ofText text).advance k).pos = k := by
    intro k hk
    have hfits : k ≤ (ofText text).after.length :=
      Nat.le_trans hk (List.getElem?_eq_some_iff.mp hget).1
    rw [pos_advance, Nat.min_eq_left hfits]
    exact Nat.zero_add k
  have hstart := isBoundary_ofText text
  have hbefore := (hstart.advance_before hget hb).isValid (bytes_advance _ _)
  have hpast := (hstart.advance_past hget hb).isValid (bytes_advance _ _)
  rw [hpos _ (Nat.le_succ n)] at hbefore
  rw [hpos _ (Nat.le_refl _)] at hpast
  exact ⟨hbefore, hpast⟩

theorem AsciiAt.of_after {k : Nat} (hbytes : c.bytes = bytesOf text) (hget : c.after[k]? = some b)
    (hb : b < 128) : AsciiAt text (c.pos + k) := by
  refine ⟨b, ?_, hb⟩
  rwa [← hbytes, ← getElem?_drop, c.drop_bytes]

theorem AsciiAt.of_cons (hbytes : c.bytes = bytesOf text) (hc : c.after = b :: rest) (hb : b < 128) :
    AsciiAt text c.pos :=
  .of_after (k := 0) hbytes (by rw [hc]; rfl) hb

theorem Cursor.Stops.isValid (h : c.Stops d) (hbytes : c.bytes = bytesOf text) :
    String.Pos.Raw.IsValid text ⟨d.pos⟩ := by
  have hd : d.bytes = bytesOf text := by rw [h.onward.bytes_eq, hbytes]
  rw [← moveTo_pos hbytes] at h
  exact (h.of_advance.onward.boundary (isBoundary_ofText text)).isValid hd

/-- A fault between two offsets lies in the text if they do. -/
theorem Fault.LiesIn.of_offsets {message : Message} {args : List String} {start stop : Nat}
    (hstart : String.Pos.Raw.IsValid text ⟨start⟩) (hstop : String.Pos.Raw.IsValid text ⟨stop⟩)
    (hle : start ≤ stop) : Fault.LiesIn ⟨message, args, ⟨start, stop - start⟩⟩ text := by
  refine ⟨hstart, ?_⟩
  change String.Pos.Raw.IsValid text ⟨start + (stop - start)⟩
  rwa [Nat.add_sub_cancel' hle]

/-- A fault from `c` leaves the cursor at `d`, onward of `c`, and has its place in the text. -/
structure Cursor.Fails (c : Cursor) (fault : Fault) (d : Cursor) : Prop where
  onward : c.Onward d
  lies : ∀ text, c.bytes = bytesOf text → c.IsBoundary → fault.LiesIn text

namespace Cursor.Fails

variable {c d e : Cursor} {fault : Fault}

theorem trans (hcd : c.Onward d) (hde : d.Fails fault e) : c.Fails fault e :=
  ⟨hcd.trans hde.onward, fun text hbytes hbound =>
    hde.lies text (hcd.bytes_eq.trans hbytes) (hcd.boundary hbound)⟩

theorem here (c : Cursor) (message : Message) (args : List String) :
    c.Fails (c.fault message args) c := by
  refine ⟨.refl c, fun text hbytes hbound => ⟨hbound.isValid hbytes, ?_⟩⟩
  change String.Pos.Raw.IsValid text ⟨c.pos + (c.char?.map Char.utf8Size).getD 0⟩
  cases hchar : c.char? with
  | none => exact hbound.isValid hbytes
  | some ch =>
    have hpast := (hbound.advance_char hchar).isValid ((bytes_advance _ _).trans hbytes)
    obtain ⟨rest, hrest⟩ := exists_of_decodeFirst? hchar
    have hfits : ch.utf8Size ≤ c.after.length := by
      rw [hrest, length_append, String.length_utf8EncodeChar]
      exact Nat.le_add_right _ _
    rwa [pos_advance, Nat.min_eq_left hfits] at hpast

end Cursor.Fails

/-! ## Comments and strings without end -/

/-- After the trivia before it stand the two bytes that open the comment. -/
theorem triviaReach_eq_unclosed (h : triviaReach bytes = .unclosed length) :
    ∃ body, bytes.drop length = byte '/' :: byte '*' :: body := by
  induction hsize : bytes.length using Nat.strongRecOn generalizing bytes length with
  | ind size ih =>
    subst hsize
    cases hitem : triviaItem bytes with
    | nothing =>
      rw [triviaReach_of_nothing hitem] at h
      cases h
    | unclosedComment =>
      rw [triviaReach_of_unclosed hitem] at h
      cases h
      obtain ⟨body, hbody, -⟩ := triviaItem_eq_unclosed.mp hitem
      exact ⟨body, hbody⟩
    | item more breaks =>
      have hne : bytes ≠ [] := by
        intro hnil
        simp [hnil, triviaItem] at hitem
      have hpos := length_pos_iff.mpr hne
      rw [triviaReach_of_item hitem] at h
      cases hrest : triviaReach (bytes.drop (more + 1)) with
      | clear rest crosses =>
        rw [hrest] at h
        cases h
      | unclosed rest =>
        rw [hrest] at h
        cases h
        have hbody := ih _ (by rw [length_drop]; omega) hrest rfl
        rwa [drop_drop] at hbody

theorem fails_of_unclosed (h : triviaReach c.after = .unclosed length) :
    c.Stops (c.advance length) ∧ ∀ text, c.bytes = bytesOf text →
      Fault.LiesIn ⟨.commentEndExpected, [], ⟨(c.advance length).pos, 2⟩⟩ text := by
  obtain ⟨body, hbody⟩ := triviaReach_eq_unclosed h
  have hslash : (c.advance length).after = byte '/' :: byte '*' :: body := hbody
  refine ⟨⟨length, rfl, .inr ⟨byte '/', ?_, by decide⟩⟩, fun text hbytes => ?_⟩
  · rw [← Nat.add_zero length, ← getElem?_drop, hbody]
    rfl
  · have hmoved := (c.bytes_advance length).trans hbytes
    have hstar : AsciiAt text ((c.advance length).pos + 1) :=
      .of_after hmoved (by rw [hslash]; rfl) (by decide)
    exact ⟨(AsciiAt.of_cons hmoved hslash (by decide)).isValid.1, hstar.isValid.2⟩

/-- A string breaks off at the end of the text or at a line end. -/
theorem quotedReach_eq_broken {start : Nat} (h : quotedReach quote bytes start = .broken length) :
    ∃ n, length = start + n ∧
      (bytes.length ≤ n ∨ ∃ b, bytes[n]? = some b ∧ isLineEndByte b = true) := by
  fun_induction quotedReach quote bytes start with
  | case1 start =>
    cases h
    exact ⟨0, rfl, .inl (Nat.le_refl _)⟩
  | case2 b rest start hend =>
    cases h
    exact ⟨0, rfl, .inr ⟨b, rfl, hend⟩⟩
  | case3 =>
    cases h
    exact ⟨1, rfl, .inl (Nat.le_refl _)⟩
  | case4 =>
    cases h
    exact ⟨2, rfl, .inl (Nat.le_refl _)⟩
  | case5 b start _ _ a d tail _ ih =>
    obtain ⟨n, hlength, hstop⟩ := ih h
    refine ⟨n + 3, by omega, ?_⟩
    simpa using hstop
  | case6 b start _ _ a d tail _ ih =>
    obtain ⟨n, hlength, hstop⟩ := ih h
    refine ⟨n + 2, by omega, ?_⟩
    simpa using hstop
  | case7 => cases h
  | case8 b rest start _ _ _ ih =>
    obtain ⟨n, hlength, hstop⟩ := ih h
    refine ⟨n + 1, by omega, ?_⟩
    simpa using hstop

theorem stops_of_broken (hc : c.after = quote :: rest)
    (h : quotedReach quote rest 0 = .broken length) : c.Stops (c.advance (length + 1)) := by
  obtain ⟨n, hlength, hstop⟩ := quotedReach_eq_broken h
  refine ⟨length + 1, rfl, ?_⟩
  rw [hc, hlength, Nat.zero_add, length_cons, getElem?_cons_succ]
  cases hstop with
  | inl hend => exact .inl (by omega)
  | inr hbyte =>
    obtain ⟨b, hget, hb⟩ := hbyte
    exact .inr ⟨b, hget, isLineEndByte_ascii hb⟩

theorem string_lies (hc : c.after = quote :: rest) (hquote : isQuote quote = true)
    (h : quotedReach quote rest 0 = .broken length) (hbytes : c.bytes = bytesOf text) :
    (unterminatedString c (c.advance (length + 1))).LiesIn text :=
  .of_offsets (AsciiAt.of_cons hbytes hc (isQuote_ascii hquote)).isValid.1
    ((stops_of_broken hc h).isValid hbytes) (stops_of_broken hc h).onward.pos_le

theorem literalStart_eq_broken {more : Nat} (h : literalStart before b rest = .broken more) :
    isQuote b = true ∧ quotedReach b rest 0 = .broken more := by
  unfold literalStart at h
  split at h
  · rename_i hquote
    split at h
    · cases h
    · rename_i length hreach
      cases h
      exact ⟨hquote, hreach⟩
  · split at h
    · cases h
    · split at h <;> cases h

theorem literalStart_eq_template (h : literalStart before b rest = .template) :
    b = byte '\x60' := by
  unfold literalStart at h
  split at h
  · split at h <;> cases h
  · split at h
    · rename_i htick
      exact beq_iff_eq.mp htick
    · split at h <;> cases h

/-! ## Enclosures and literals -/

theorem closeEnclosures_stops (h : closeEnclosures stack c = .error fault d) : c.Stops d := by
  fun_induction closeEnclosures stack c with
  | case1 => cases h
  | case2 c start outer hc =>
    cases h
    exact .of_nil hc
  | case3 | case4 | case5 | case6 =>
    rename_i ih
    exact (ih h).of_advance
  | case7 c opener closer depth start outer length hreach =>
    injection h with _ hd
    rw [← hd]
    exact (fails_of_unclosed hreach).1
  | case8 c opener closer depth start outer length crosses hreach q hq =>
    injection h with _ hd
    rw [← hd]
    exact (Cursor.Stops.of_nil hq).of_advance
  | case9 | case11 | case12 =>
    rename_i ih
    exact (ih h).of_advance.of_advance
  | case10 c opener closer depth start outer length crosses hreach q b rest hq more hliteral e =>
    injection h with _ hd
    rw [← hd]
    exact (stops_of_broken hq (literalStart_eq_broken hliteral).2).of_advance

def Enclosure.start : Enclosure → Nat
  | .block _ _ _ start => start
  | .template start => start

/-- If all enclosures were opened by ASCII bytes, a fault lies in the text. -/
theorem closeEnclosures_lies (h : closeEnclosures stack c = .error fault d)
    (hbytes : c.bytes = bytesOf text) (hstack : ∀ enclosure ∈ stack, AsciiAt text enclosure.start) :
    fault.LiesIn text := by
  have hmove : ∀ {c : Cursor} {n : Nat}, c.bytes = bytesOf text →
      (c.advance n).bytes = bytesOf text := (bytes_advance _ _).trans
  fun_induction closeEnclosures stack c with
  | case1 => cases h
  | case2 c start outer hc =>
    injection h with hfault
    rw [← hfault]
    obtain ⟨b, hget, hb⟩ := hstack _ mem_cons_self
    have hlt := (List.getElem?_eq_some_iff.mp hget).1
    have hlength := c.length_bytes
    rw [hc, hbytes, length_nil, Nat.add_zero] at hlength
    exact .of_offsets (AsciiAt.isValid ⟨b, hget, hb⟩).1 ((Cursor.Stops.of_nil hc).isValid hbytes)
      (Nat.le_of_lt (hlength ▸ hlt))
  | case3 | case6 =>
    rename_i ih
    exact ih h (hmove hbytes) hstack
  | case4 =>
    rename_i ih
    exact ih h (hmove hbytes) (forall_mem_cons.mp hstack).2
  | case5 c start outer b rest hc _ _ hopening ih =>
    have hbrace : rest[0]? = some (byte '\x7b') := by
      rw [← head?_eq_getElem?]
      simpa using (Bool.and_eq_true_iff.mp hopening).2
    have hnew : AsciiAt text (c.pos + 1) :=
      .of_after hbytes (by rw [hc, getElem?_cons_succ, hbrace]) (by decide)
    exact ih h (hmove hbytes) (forall_mem_cons.mpr ⟨hnew, hstack⟩)
  | case7 c opener closer depth start outer length hreach =>
    injection h with hfault
    rw [← hfault]
    exact (fails_of_unclosed hreach).2 text hbytes
  | case8 c opener closer depth start outer length crosses hreach q hq =>
    injection h with hfault
    rw [← hfault]
    exact (hstack _ mem_cons_self).isValid
  | case9 =>
    rename_i ih
    exact ih h (hmove (hmove hbytes)) hstack
  | case10 c opener closer depth start outer length crosses hreach q b rest hq more hliteral e =>
    injection h with hfault
    rw [← hfault]
    obtain ⟨hquote, hbroken⟩ := literalStart_eq_broken hliteral
    exact string_lies hq hquote hbroken (hmove hbytes)
  | case11 c opener closer depth start outer length crosses hreach q b rest hq hliteral ih =>
    have hnew : AsciiAt text q.pos :=
      .of_cons (hmove hbytes) hq (by rw [literalStart_eq_template hliteral]; decide)
    exact ih h (hmove (hmove hbytes)) (forall_mem_cons.mpr ⟨hnew, hstack⟩)
  | case12 c opener closer depth start outer length crosses hreach q b rest hq hliteral ih =>
    refine ih h (hmove (hmove hbytes)) ?_
    obtain ⟨hblock, houter⟩ := forall_mem_cons.mp hstack
    rcases blockAfter_cases opener closer depth start outer b with ⟨-, heq⟩ | ⟨more, heq⟩
    · rwa [heq]
    · rw [heq]
      exact forall_mem_cons.mpr ⟨hblock, houter⟩

namespace Scan

open Cursor

variable {α β : Type}

/-- Every run of `op` moves the cursor onward, and a fault that stops it lies in the text. For
readings that are put together from others this is inferred. -/
class StaysInText (op : Scan α) : Prop where
  onward : MovesOnward op
  fails : ∀ ⦃c fault d⦄, op c = .error fault d → c.Fails fault d

theorem bind_eq_error {op : Scan α} {next : α → Scan β} {e : Cursor} :
    (op >>= next) c = .error fault e ↔
      op c = .error fault e ∨ ∃ a d, op c = .ok a d ∧ next a d = .error fault e := by
  change EStateM.bind op next c = .error fault e ↔ _
  unfold EStateM.bind
  cases op c <;> simp [and_assoc]

namespace StaysInText

instance pure (a : α) : StaysInText (pure a) :=
  ⟨.pure a, fun _ _ _ h => by cases h⟩

instance get : StaysInText get :=
  ⟨.get, fun _ _ _ h => by cases h⟩

instance peek (f : Cursor → α) : StaysInText (peek f) :=
  ⟨.peek f, fun _ _ _ h => by cases h⟩

instance failHere (message : Message) (args : List String) :
    StaysInText (failHere message args : Scan α) := by
  refine ⟨.failHere message args, fun c fault d h => ?_⟩
  cases h
  exact .here c message args

instance bind {op : Scan α} {next : α → Scan β} [hop : StaysInText op]
    [hnext : ∀ a, StaysInText (next a)] : StaysInText (op >>= next) := by
  refine ⟨.bind hop.onward fun a => (hnext a).onward, fun c fault e h => ?_⟩
  rcases bind_eq_error.mp h with hfirst | ⟨a, d, hfirst, hrest⟩
  · exact hop.fails hfirst
  · exact .trans (hop.onward hfirst) ((hnext a).fails hrest)

instance ite {p : Prop} [Decidable p] {op other : Scan α} [StaysInText op] [StaysInText other] :
    StaysInText (if p then op else other) := by
  split <;> infer_instance

theorem after {op : Scan α} {next : α → Scan β} [StaysInText op]
    (hnext : ∀ a, StaysInText (next a)) : StaysInText (op >>= next) :=
  inferInstance

end StaysInText

instance trivia_inText : StaysInText trivia := by
  refine ⟨trivia_onward, fun c fault d h => ?_⟩
  unfold trivia at h
  split at h
  · cases h
  · rename_i length hreach
    cases h
    obtain ⟨hstops, hlies⟩ := fails_of_unclosed hreach
    exact ⟨hstops.onward, fun text hbytes _ => hlies text hbytes⟩

instance literal_inText : StaysInText literal := by
  refine ⟨literal_onward, fun c fault d h => ?_⟩
  unfold literal at h
  split at h
  · cases h
  · rename_i b rest hc
    split at h
    · cases h
    · cases h
    · rename_i more hliteral
      cases h
      obtain ⟨hquote, hbroken⟩ := literalStart_eq_broken hliteral
      exact ⟨(stops_of_broken hc hbroken).onward, fun text hbytes _ =>
        string_lies hc hquote hbroken hbytes⟩
    · rename_i hliteral
      split at h
      · cases h
      · rename_i fault' e hclose
        cases h
        refine ⟨(closeEnclosures_stops hclose).of_advance.onward, fun text hbytes _ => ?_⟩
        refine closeEnclosures_lies hclose ((bytes_advance _ _).trans hbytes) ?_
        rw [forall_mem_singleton]
        exact .of_cons hbytes hc (by rw [literalStart_eq_template hliteral]; decide)

instance token_inText (depth : Nat) : StaysInText (token depth) := by
  refine ⟨token_onward depth, fun c fault d h => ?_⟩
  unfold token at h
  split at h
  · cases h
  · split at h
    · rename_i hliteral
      cases h
      exact literal_inText.fails hliteral
    · cases h
    · split at h
      · cases h
      · split at h
        · cases h
        · split at h <;> cases h

instance headToken_inText (depth : Nat) : StaysInText (headToken depth) := by
  refine ⟨headToken_onward depth, fun c fault d h => ?_⟩
  unfold headToken at h
  split at h
  · rename_i hliteral
    cases h
    exact literal_inText.fails hliteral
  · cases h
  · split at h
    · cases h
    · split at h <;> cases h

instance quoted_inText : StaysInText quoted := by
  refine ⟨quoted_onward, fun c fault d h => ?_⟩
  unfold quoted at h
  split at h
  · cases h
    exact .here c _ _
  · rename_i quote rest hc
    split at h
    · rename_i hquote
      split at h
      · cases h
      · rename_i length hreach
        cases h
        exact ⟨(stops_of_broken hc hreach).onward, fun text hbytes _ =>
          string_lies hc hquote hreach hbytes⟩
    · cases h
      exact .here c _ _

theorem block_inText {opener closer : UInt8} (hopener : opener < 128) (hcloser : closer < 128) :
    StaysInText (block opener closer) := by
  refine ⟨block_onward hcloser, fun c fault d h => ?_⟩
  unfold block at h
  split at h
  · rename_i hbyte
    split at h
    · cases h
    · rename_i hclose
      cases h
      refine ⟨(closeEnclosures_stops hclose).of_advance.onward, fun text hbytes _ => ?_⟩
      refine closeEnclosures_lies hclose ((bytes_advance _ _).trans hbytes) ?_
      rw [forall_mem_singleton]
      obtain ⟨rest, hrest⟩ := head?_eq_some_iff.mp (beq_iff_eq.mp hbyte)
      exact .of_cons hbytes hrest hopener
  · cases h
    exact .here c _ _

instance space_inText : StaysInText space := by
  unfold space
  infer_instance

instance accept_inText (text : String) : StaysInText (accept text) := by
  refine ⟨accept_onward text, fun c fault d h => ?_⟩
  unfold accept at h
  split at h <;> cases h

instance acceptWord_inText (word : String) : StaysInText (acceptWord word) := by
  refine ⟨acceptWord_onward word, fun c fault d h => ?_⟩
  unfold acceptWord at h
  split at h <;> cases h

instance expect_inText (text : String) : StaysInText (expect text) := by
  unfold expect
  infer_instance

instance expectWord_inText (word : String) : StaysInText (expectWord word) := by
  unfold expectWord
  infer_instance

theorem skipPast_inText (hb : b < 128) : StaysInText (skipPast b) :=
  ⟨skipPast_onward hb, fun _ _ _ h => by cases h⟩

instance skipShebang_inText : StaysInText skipShebang := by
  refine ⟨fun c u d h => ?_, fun _ _ _ h => by cases h⟩
  cases h
  dsimp only
  split
  · refine .of_advance fun hbound => ?_
    cases takeWhile_stop (!isLineEndByte ·) c.after with
    | inl hend => exact hbound.advance_end (Nat.le_of_eq hend)
    | inr hline =>
      obtain ⟨b, hget, hb⟩ := hline
      exact hbound.advance_before hget (isLineEndByte_ascii (by simpa using hb))
  · exact .refl c

instance name_inText : StaysInText name := by
  refine ⟨name_onward, fun c fault d h => ?_⟩
  unfold name at h
  split at h
  · cases h
  · cases h
    exact .here c _ _

instance number_inText : StaysInText number := by
  refine ⟨number_onward, fun c fault d h => ?_⟩
  unfold number at h
  dsimp only at h
  split at h
  · cases h
    exact .here c _ _
  · cases h

end Scan

/-! ## Stretches and words -/

theorem stretchFrom_fails {kind : StretchKind} {start : Cursor}
    (h : stretchFrom kind start c depth c = .error fault d) : c.Fails fault d := by
  induction hsize : c.after.length using Nat.strongRecOn generalizing c depth with
  | ind size ih =>
    subst hsize
    rw [stretchFrom_eq] at h
    cases htrivia : trivia c with
    | error fault' q =>
      rw [htrivia] at h
      cases h
      exact trivia_inText.fails htrivia
    | ok crosses q =>
      have honward := trivia_onward htrivia
      have hle := honward.length_le
      rw [htrivia] at h
      dsimp only at h
      cases hq : q.after with
      | nil =>
        rw [hq] at h
        cases h
      | cons b rest =>
        rw [hq] at h
        dsimp only at h
        split at h
        · cases h
        · cases h
        · cases htoken : token depth q with
          | error fault' e =>
            rw [htoken] at h
            cases h
            exact .trans honward ((token_inText depth).fails htoken)
          | ok depth' e =>
            have hless := token_lt (by simp [hq]) htoken
            rw [htoken] at h
            dsimp only at h
            split at h
            · cases h
            · have hmore := ih _ (by omega) h rfl
              exact .trans (honward.trans (token_onward depth htoken)) hmore

theorem heritageFrom_fails {start : Cursor} (h : heritageFrom start c depth c = .error fault d) :
    c.Fails fault d := by
  induction hsize : c.after.length using Nat.strongRecOn generalizing c depth with
  | ind size ih =>
    subst hsize
    rw [heritageFrom_eq] at h
    cases htrivia : trivia c with
    | error fault' q =>
      rw [htrivia] at h
      cases h
      exact trivia_inText.fails htrivia
    | ok crosses q =>
      have honward := trivia_onward htrivia
      have hle := honward.length_le
      rw [htrivia] at h
      dsimp only at h
      cases hq : q.after with
      | nil =>
        rw [hq] at h
        cases h
        exact .trans honward (.here _ _ _)
      | cons b rest =>
        rw [hq] at h
        dsimp only at h
        split at h
        · cases h
        · cases htoken : headToken depth q with
          | error fault' e =>
            rw [htoken] at h
            cases h
            exact .trans honward ((headToken_inText depth).fails htoken)
          | ok depth' e =>
            have hpast := headToken_onward depth htoken
            have hless := headToken_pos_lt (by simp [hq]) htoken
            have hsum := hpast.pos_add_length
            rw [htoken] at h
            exact .trans (honward.trans hpast) (ih _ (by omega) h rfl)

/-- One round of the search for a word: trivia, then the end, a literal, a word or a character. -/
theorem nextWordFrom_eq (c : Cursor) :
    nextWordFrom c =
      match trivia c with
      | .error fault q => .error fault q
      | .ok _ q =>
        match q.after with
        | [] => .ok none q
        | b :: rest =>
          match literal q with
          | .error fault e => .error fault e
          | .ok true e => nextWordFrom e
          | .ok false _ =>
            let e := q.advance ((rest.takeWhile isNamePart).length + 1)
            if isNameStart b then .ok (some (q.textUpTo e)) e
            else if isDigitByte b then nextWordFrom e
            else nextWordFrom (q.advance q.stepLength) := by
  rw [nextWordFrom, trivia]
  cases triviaReach c.after with
  | unclosed length => rfl
  | clear length crosses =>
    dsimp only
    split
    · rename_i hq
      rw [hq]
    · rename_i b rest hq
      simp only [hq]
      split <;> rename_i hliteral <;> simp only [hliteral]

/-- A name part and those that follow it are one run. -/
theorem Cursor.advance_nameParts {q : Cursor} (hq : q.after = b :: rest) (hb : isNamePart b = true) :
    q.advance ((rest.takeWhile isNamePart).length + 1) =
      q.advance (q.after.takeWhile isNamePart).length := by
  rw [hq, takeWhile_cons_of_pos hb, length_cons]

/-- The search for a word moves onward, whether it finds one, comes to the end or fails. -/
theorem nextWordFrom_onward :
    (∀ word d, nextWordFrom c = .ok word d → c.Onward d) ∧
      ∀ fault d, nextWordFrom c = .error fault d → c.Fails fault d := by
  induction hsize : c.after.length using Nat.strongRecOn generalizing c with
  | ind size ih =>
    subst hsize
    rw [nextWordFrom_eq]
    cases htrivia : trivia c with
    | error fault' q =>
      have hfails := trivia_inText.fails htrivia
      simp [hfails]
    | ok crosses q =>
      have honward := trivia_onward htrivia
      have hle := honward.length_le
      dsimp only
      cases hq : q.after with
      | nil => simp [honward]
      | cons b rest =>
        -- Each way to go on starts onward of `q`.
        have hnext : ∀ e, q.Onward e → e.after.length < q.after.length →
            (∀ word d, nextWordFrom e = .ok word d → c.Onward d) ∧
              ∀ fault d, nextWordFrom e = .error fault d → c.Fails fault d := by
          intro e he hless
          have hmore := ih _ (by omega) (c := e) rfl
          exact ⟨fun word d h => honward.trans (he.trans (hmore.1 word d h)),
            fun fault d h => .trans (honward.trans he) (hmore.2 fault d h)⟩
        have hword : isNamePart b = true →
            q.Onward (q.advance ((rest.takeWhile isNamePart).length + 1)) := by
          intro hb
          rw [advance_nameParts hq hb]
          exact .takeWhile fun b => isNamePart_ascii
        dsimp only
        cases hliteral : literal q with
        | error fault' e =>
          have hfails := Cursor.Fails.trans honward (literal_inText.fails hliteral)
          simp [hfails]
        | ok found e =>
          cases found with
          | true => exact hnext e (literal_onward hliteral) (literal_lt hliteral)
          | false =>
            dsimp only
            by_cases hstart : isNameStart b = true
            · have hpast := honward.trans (hword (by simp [isNamePart, hstart]))
              simp [hstart, hpast]
            · rw [if_neg hstart]
              by_cases hdigit : isDigitByte b = true
              · rw [if_pos hdigit]
                exact hnext _ (hword (by simp [isNamePart, hdigit]))
                  (advance_lt (Nat.succ_pos _) hq)
              · rw [if_neg hdigit]
                exact hnext _ (.of_advance fun hbound => hbound.advance_stepLength)
                  (advance_lt q.stepLength_pos hq)

namespace Scan

instance expression_inText : StaysInText expression :=
  ⟨expression_onward, fun _ _ _ => stretchFrom_fails⟩

instance statement_inText : StaysInText statement :=
  ⟨statement_onward, fun _ _ _ => stretchFrom_fails⟩

instance heritage_inText : StaysInText heritage :=
  ⟨heritage_onward, fun _ _ _ => heritageFrom_fails⟩

instance nextWord_inText : StaysInText nextWord :=
  ⟨fun _ => nextWordFrom_onward.1, fun _ => nextWordFrom_onward.2⟩

end Scan

end ModuleBridge
