import ModuleBridge.Proofs.Source.CopyStretch

/-!
# Seams between tokens

At a seam no word and no operator goes on: the bytes on its two sides would not be read as one.
There is a seam after every token that is read as a whole, after trivia and before it. A piece of
code between two seams is read in the same way when it stands on lines of its own, if it neither
starts with a slash nor ends with a backslash: `Copied.of_seams`.
-/

namespace ModuleBridge

open Bool Cursor List Option Scan

variable {b : UInt8} {c start d : Cursor} {more : Nat} {breaks : Bool} {kind : StretchKind}
  {mark : String}

/-- Bytes that glue to nothing, on either side. -/
def isLoose (b : UInt8) : Bool :=
  !isNamePart b && b != byte '.' && b != byte '='

theorem isGlued_of_loose_left {a : UInt8} (ha : isLoose a = true) (b : UInt8) :
    isGlued a b = false := by
  simp only [isLoose, bne, and_eq_true, not_eq_true'] at ha
  simp only [isGlued, ha.1.1, ha.1.2, ha.2, Bool.or_self, Bool.and_false, Bool.false_and]

theorem isGlued_of_loose_right (a : UInt8) (hb : isLoose b = true) : isGlued a b = false := by
  simp only [isLoose, bne, and_eq_true, not_eq_true'] at hb
  simp only [isGlued, hb.1.1, hb.2, Bool.false_and, Bool.and_false, Bool.or_self]

theorem isLoose_of_high : ¬b < 128 → isLoose b = true := by
  apply forall_byte _ b
  decide +kernel

theorem isLoose_of_spacing : isBlankByte b = true ∨ isLineEndByte b = true →
    isLoose b = true := by
  apply forall_byte _ b
  decide +kernel

theorem isLoose_of_terminator : isTerminator b = true → isLoose b = true := by
  apply forall_byte _ b
  decide +kernel

namespace Cursor

/-- The bytes on the two sides of the cursor are not read as one. -/
def IsSeam (c : Cursor) : Prop :=
  ∀ a b, c.last? = some a → c.byte? = some b → isGlued a b = false

theorem IsSeam.of_last (h : c.last?.any isLoose = true) : c.IsSeam := by
  intro a b ha _
  rw [ha] at h
  exact isGlued_of_loose_left h b

theorem IsSeam.of_next (h : c.byte?.all isLoose = true) : c.IsSeam := by
  intro a b _ hb
  rw [hb] at h
  exact isGlued_of_loose_right a h

/-! ## Trivia -/

theorem isLoose_of_item {rest : List UInt8} (h : triviaItem (b :: rest) = .item more breaks) :
    isLoose b = true := by
  rcases triviaItem_eq_item h with ⟨_, _, hb, _, hclass⟩ | ⟨_, hb, _⟩ | ⟨_, _, hb, _⟩ |
    ⟨_, _, _, hb, hhigh, _⟩
  · cases hb
    exact isLoose_of_spacing (hclass.imp And.left And.left)
  · cases hb
    decide
  · cases hb
    decide
  · cases hb
    exact isLoose_of_high hhigh

/-- After a trivia item there is a seam; a line comment goes as far as the line. -/
theorem isSeam_item (h : triviaItem c.after = .item more breaks) :
    (c.advance (more + 1)).IsSeam := by
  rcases triviaItem_eq_item h with ⟨b, rest, hc, rfl, hclass⟩ | ⟨body, hc, rfl, _⟩ |
    ⟨body, length, hc, hbody, rfl⟩ | ⟨b, rest, ch, hc, hhigh, hch, rfl, _⟩
  · refine .of_last (Past.of_cons hc ?_).last?
    exact isLoose_of_spacing (hclass.imp And.left And.left)
  · refine .of_next ?_
    rw [byte?, after_advance, hc, Nat.add_comm 1, drop_succ_cons, drop_succ_cons]
    rcases takeWhile_stop (!isLineEndByte ·) body with hend | ⟨b, hget, hb⟩
    · rw [lineLength, ← hend, drop_length]
      rfl
    · rw [head?_drop, lineLength, hget, all_some]
      exact isLoose_of_spacing (.inr (by simpa using hb))
  · obtain ⟨inner, rest, hinner, hlength, _⟩ := commentBody_eq_some hbody
    refine .of_last ?_
    rw [last?_advance_succ (b := byte '/')]
    · decide
    · rw [hc, hinner, hlength]
      simp
  · obtain ⟨tail, htail⟩ := exists_of_decodeFirst? hch
    have hlast : ch.utf8Size - 1 < (String.utf8EncodeChar ch).length := by
      have := ch.utf8Size_pos
      rw [String.length_utf8EncodeChar]
      omega
    have hget : c.after[ch.utf8Size - 1]? = some (String.utf8EncodeChar ch)[ch.utf8Size - 1] := by
      rw [htail, getElem?_append_left hlast, getElem?_eq_getElem hlast]
    refine .of_last ?_
    rw [last?_advance_succ hget, any_some]
    -- The bytes of a character are all in the ASCII range or all above it.
    refine isLoose_of_high fun hlow => hhigh ?_
    have hmem := getElem_mem hlast
    rw [hc, utf8EncodeChar_eq_of_mem hmem hlow] at htail
    cases htail
    exact hlow

/-- Trivia that takes any bytes stands between two seams. -/
theorem isSeam_reach {n : Nat} {crosses : Bool} (h : triviaReach c.after = .clear n crosses) :
    n = 0 ∧ crosses = false ∨ c.byte?.all isLoose = true ∧ (c.advance n).IsSeam := by
  induction hsize : c.after.length using Nat.strongRecOn generalizing c n crosses with
  | ind size ih =>
    subst hsize
    rcases triviaReach_eq_clear h with ⟨_, rfl, rfl⟩ |
      ⟨more, breaks, rest, x, hitem, hrest, rfl, _⟩
    · exact .inl ⟨rfl, rfl⟩
    · obtain ⟨hle, _⟩ := triviaItem_onward hitem
      refine .inr ⟨?_, ?_⟩
      · rw [byte?]
        cases hc : c.after with
        | nil => rfl
        | cons b tail =>
          rw [hc] at hitem
          exact isLoose_of_item hitem
      · have hlength : (c.advance (more + 1)).after.length =
            c.after.length - (more + 1) := by simp
        rw [← advance_advance]
        rcases ih _ (by omega) (c := c.advance (more + 1)) hrest rfl with ⟨rfl, _⟩ | ⟨_, hseam⟩
        · rw [advance_zero]
          exact isSeam_item hitem
        · exact hseam

end Cursor

/-- On the same line only a separator or a closer ends a stretch before it. -/
theorem isLoose_of_before {last : Cursor} (h : kind.boundary start last false b = .before) :
    isLoose b = true := by
  simp only [StretchKind.boundary, Bool.false_and, false_eq_true, if_false] at h
  split at h
  · rename_i hb
    exact isLoose_of_terminator (by rw [isTerminator, hb, Bool.true_or])
  split at h
  · rename_i hb
    rw [beq_iff_eq.mp (and_eq_true_iff.mp hb).1]
    decide
  split at h
  · rename_i hb
    exact isLoose_of_terminator (by rw [isTerminator, hb, Bool.or_true])
  · cases h

theorem isLoose_of_closesStatement : closesStatement b = true → isLoose b = true := by
  apply forall_byte _ b
  decide +kernel

theorem Cursor.IsSeam.of_past {p : UInt8 → Bool} (h : Past p c d)
    (hp : ∀ b, p b = true → isLoose b = true) : d.IsSeam := by
  obtain ⟨n, b, rfl, hget, hb⟩ := h
  exact .of_last (Past.last? ⟨n, b, rfl, hget, hp b hb⟩)

theorem StretchRun.isSeam {depth : Nat} (h : StretchRun kind start c depth d) : d.IsSeam := by
  induction h with
  | atEnd hspace hq =>
    obtain ⟨n, hreach, rfl⟩ := trivia_eq_ok.mp hspace
    rcases isSeam_reach hreach with ⟨rfl, _⟩ | ⟨hloose, _⟩
    · rw [advance_zero] at hq
      exact .of_next (by rw [byte?, hq]; rfl)
    · exact .of_next hloose
  | before hspace hq hb =>
    obtain ⟨n, hreach, rfl⟩ := trivia_eq_ok.mp hspace
    rcases isSeam_reach hreach with ⟨rfl, rfl⟩ | ⟨hloose, _⟩
    · rw [advance_zero] at hq
      exact .of_next (by rw [byte?, hq]; exact isLoose_of_before hb)
    · exact .of_next hloose
  | after _ hq hb => exact .of_past (.of_cons hq (boundary_after hb)) fun _ => isLoose_of_terminator
  | @block c q _ _ _ hq _ =>
    have hlast := pastSemicolon_last? (.of_cons hq (by decide))
    refine .of_last ?_
    cases hend : (q.advance 1).pastSemicolon.last? with
    | none => rw [hend] at hlast; cases hlast
    | some a =>
      rw [hend] at hlast
      exact isLoose_of_closesStatement hlast
  | token _ _ _ _ _ _ ih => exact ih

namespace Scan

open Cursor

variable {α β : Type}

/-! ## The judgements -/

/-- `op` ends at a seam. -/
def Seals (op : Scan α) : Prop :=
  ∀ ⦃c a d⦄, op c = .ok a d → d.IsSeam

/-- From a seam `op` leads to a seam. -/
class KeepsSeam (op : Scan α) : Prop where
  isSeam : ∀ ⦃c a d⦄, c.IsSeam → op c = .ok a d → d.IsSeam

/-- The last byte of a mark glues to nothing. -/
def EndsLoose (text : String) : Prop :=
  (bytesOf text).getLast?.any isLoose = true

instance (text : String) : Decidable (EndsLoose text) :=
  inferInstanceAs (Decidable ((bytesOf text).getLast?.any isLoose = true))

theorem EndsLoose.isSeam {text : String} (hmark : EndsLoose text)
    (hstarts : c.startsWith text = true) : (c.advance (bytesOf text).length).IsSeam := by
  obtain ⟨rest, hrest⟩ := isPrefixOf_iff_prefix.mp hstarts
  refine .of_last ?_
  rw [last?, before_advance, ← hrest, take_left, head?_append, head?_reverse]
  cases hlast : (bytesOf text).getLast? with
  | none => rw [EndsLoose, hlast] at hmark; cases hmark
  | some b =>
    rw [EndsLoose, hlast] at hmark
    exact hmark

namespace KeepsSeam

instance pure (a : α) : KeepsSeam (pure a) :=
  ⟨fun _ _ _ hc hrun => (pure_eq_ok.mp hrun).2 ▸ hc⟩

instance peek (f : Cursor → α) : KeepsSeam (peek f) :=
  ⟨fun _ _ _ hc hrun => (peek_eq_ok.mp hrun).2 ▸ hc⟩

instance bind {op : Scan α} {next : α → Scan β} [hop : KeepsSeam op]
    [hnext : ∀ a, KeepsSeam (next a)] : KeepsSeam (op >>= next) := by
  refine ⟨fun c b e hc hrun => ?_⟩
  obtain ⟨a, d, hfirst, hrest⟩ := bind_eq_ok.mp hrun
  exact (hnext a).isSeam (hop.isSeam hc hfirst) hrest

end KeepsSeam

namespace Seals

theorem failHere (message : Message) (args : List String) :
    Seals (failHere message args : Scan α) := by
  intro c a d hrun
  exact absurd hrun failHere_ne_ok

theorem first {op : Scan α} {next : α → Scan β} (hop : Seals op)
    [hnext : ∀ a, KeepsSeam (next a)] : Seals (op >>= next) := by
  intro c b e hrun
  obtain ⟨a, d, hfirst, hrest⟩ := bind_eq_ok.mp hrun
  exact (hnext a).isSeam (hop hfirst) hrest

theorem rest {op : Scan α} {next : α → Scan β} (hnext : ∀ a, Seals (next a)) :
    Seals (op >>= next) := by
  intro c b e hrun
  obtain ⟨a, d, _, hrest⟩ := bind_eq_ok.mp hrun
  exact hnext a hrest

theorem ite {p : Prop} [Decidable p] {op other : Scan α} (hop : Seals op) (hother : Seals other) :
    Seals (if p then op else other) := by
  split
  · exact hop
  · exact hother

/-- A mark that is taken seals; otherwise the rest does. -/
theorem accept {next : Bool → Scan α} (hmark : EndsLoose mark) (hyes : KeepsSeam (next true))
    (hno : Seals (next false)) : Seals (accept mark >>= next) := by
  intro c b e hrun
  obtain ⟨found, d, haccept, hrest⟩ := bind_eq_ok.mp hrun
  rcases accept_cases haccept with ⟨rfl, hstarts, rfl⟩ | ⟨rfl, _, rfl⟩
  · exact hyes.isSeam (hmark.isSeam hstarts) hrest
  · exact hno hrest

theorem expect (hmark : EndsLoose mark) : Seals (expect mark) := by
  intro c u d hrun
  obtain ⟨hstarts, rfl⟩ := expect_eq_ok.mp hrun
  exact hmark.isSeam hstarts

end Seals

/-! ## Tokens -/

instance space_keepsSeam : KeepsSeam space := by
  refine ⟨fun c u d hc hrun => ?_⟩
  obtain ⟨n, crosses, hreach, rfl⟩ := space_eq_advance.mp hrun
  rcases isSeam_reach hreach with ⟨rfl, _⟩ | ⟨_, hseam⟩
  · rwa [advance_zero]
  · exact hseam

theorem isNamePart_unequal : isNamePart b = true → (b == byte '=') = false := by
  apply forall_byte _ b
  decide +kernel

theorem name_seals : Seals name := by
  intro c a d hrun
  unfold name at hrun
  split at hrun
  · rename_i hstart
    cases hrun
    intro a b ha hb
    have hplain : isNamePart b = false := by
      rw [byte?, after_advance, head?_drop] at hb
      rcases takeWhile_stop isNamePart c.after with hend | ⟨_, hget, hstop⟩
      · rw [← hend, getElem?_eq_none (Nat.le_refl _)] at hb
        cases hb
      · cases hget.symm.trans hb
        exact hstop
    have hname : isNamePart a = true := by
      obtain ⟨b, rest, hc, hb⟩ := exists_cons_of_byte? hstart
      have hpart : isNamePart b = true := by rw [isNamePart, hb, Bool.true_or]
      rw [hc, takeWhile_cons_of_pos hpart, length_cons] at ha
      have hlast : (rest.takeWhile isNamePart).length < (c.after.takeWhile isNamePart).length := by
        rw [hc, takeWhile_cons_of_pos hpart, length_cons]
        omega
      obtain ⟨a', hget, ha'⟩ := takeWhile_inside hlast
      rw [last?_advance_succ hget] at ha
      cases ha
      exact ha'
    simp only [isGlued, hplain, isNamePart_unequal hname, Bool.false_and, Bool.or_self]
  · cases hrun

theorem quoted_seals : Seals quoted := by
  intro c a d hrun
  exact .of_past (quoted_past hrun)
    (forall_byte (P := fun b => isQuote b = true → isLoose b = true) (by decide +kernel))

theorem block_seals {opener closer : UInt8} (hcloser : isLoose closer = true) :
    Seals (block opener closer) := by
  intro c r d hrun
  refine .of_past (block_past hrun) fun b hb => ?_
  rwa [beq_iff_eq.mp hb]

theorem expression_seals : Seals expression := by
  intro c r d hrun
  exact (run_of_stretchFrom hrun).1.isSeam

theorem statement_seals : Seals statement := by
  intro c r d hrun
  exact (run_of_stretchFrom hrun).1.isSeam

end Scan

/-! ## Slashes -/

/-- A run of bytes of one kind takes all of the first part, or ends in it. -/
theorem takeWhile_append_cases (p : UInt8 → Bool) (near far : List UInt8) :
    (∀ b ∈ near, p b = true) ∨ (near ++ far).takeWhile p = near.takeWhile p ∧
      ((near ++ far).dropWhile p).head? = (near.dropWhile p).head? := by
  induction near with
  | nil => exact .inl nofun
  | cons b near ih =>
    by_cases hb : p b = true
    · rw [cons_append, takeWhile_cons_of_pos hb, takeWhile_cons_of_pos hb,
        dropWhile_cons_of_pos hb, dropWhile_cons_of_pos hb]
      rcases ih with hall | ⟨htake, hdrop⟩
      · exact .inl (forall_mem_cons.mpr ⟨hb, hall⟩)
      · exact .inr ⟨by rw [htake], hdrop⟩
    · rw [cons_append, takeWhile_cons_of_neg hb, takeWhile_cons_of_neg hb,
        dropWhile_cons_of_neg hb, dropWhile_cons_of_neg hb]
      exact .inr ⟨rfl, rfl⟩

/-- What a slash means is told by the near bytes, if the last word in them starts there and is no
property name. -/
theorem patternAllowedAfter_append {near far : List UInt8} (hb : near.getLast? = some b)
    (hspacing : isSpacingByte b = false)
    (hapart : isNamePart b = true → far.head?.all (fun a => !isNamePart a && a != byte '.') = true) :
    patternAllowedAfter (near ++ far) = patternAllowedAfter near := by
  cases hnear : near.dropWhile isSpacingByte with
  | nil =>
    obtain ⟨front, rfl⟩ := getLast?_eq_some_iff.mp hb
    rw [dropWhile_append, dropWhile_cons_of_neg (by simp [hspacing])] at hnear
    split at hnear
    · cases hnear
    · exact absurd (append_eq_nil_iff.mp hnear).2 (cons_ne_nil b [])
  | cons last rest =>
    have hboth : (near ++ far).dropWhile isSpacingByte = last :: (rest ++ far) := by
      rw [dropWhile_append, hnear]
      rfl
    obtain ⟨blanks, hblanks⟩ := near.dropWhile_suffix isSpacingByte
    rw [hnear] at hblanks
    rw [← hblanks, getLast?_append, getLast?_cons, some_or,
      ← getLast?_cons] at hb
    simp only [patternAllowedAfter, hnear, hboth]
    cases hname : isNamePart last with
    | false => rfl
    | true =>
      simp only [if_true]
      rcases takeWhile_append_cases isNamePart rest far with hall | ⟨htake, hdrop⟩
      · -- The word starts with the near bytes.
        have hword : ∀ a ∈ last :: rest, isNamePart a = true :=
          forall_mem_cons.mpr ⟨hname, hall⟩
        have hfar := hapart (hword b (mem_of_getLast? hb))
        rw [takeWhile_append_of_pos hall, dropWhile_append_of_pos hall]
        have htake : (rest ++ []).takeWhile isNamePart = rest ++ [].takeWhile isNamePart :=
          takeWhile_append_of_pos hall
        have hdrop : (rest ++ []).dropWhile isNamePart = [].dropWhile isNamePart :=
          dropWhile_append_of_pos hall
        rw [append_nil, takeWhile_nil, append_nil] at htake
        rw [append_nil, dropWhile_nil] at hdrop
        rw [htake, hdrop]
        cases far with
        | nil => simp
        | cons a far =>
          simp only [head?_cons, all_some, and_eq_true, not_eq_true',
            bne_iff_ne] at hfar
          have hnot : ¬isNamePart a = true := eq_false_iff.mp hfar.1
          have hpoint : (some a == some (byte '.')) = false :=
            beq_eq_false_iff_ne.mpr fun heq => hfar.2 (Option.some.inj heq)
          rw [takeWhile_cons_of_neg hnot, dropWhile_cons_of_neg hnot,
            append_nil, head?_cons, hpoint]
          rfl
      · rw [htake, hdrop]
/-- No word and no property name goes on from the line before. -/
theorem EndsLine.apart {before : List UInt8} (h : EndsLine before) :
    before.head?.all (fun a => !isNamePart a && a != byte '.') = true := by
  rcases h.cases with rfl | ⟨more, rfl⟩
  · rfl
  · rw [head?_cons, all_some]
    decide

theorem isSpacingByte_cases :
    isSpacingByte b = true → isBlankByte b = true ∨ isLineEndByte b = true := by
  apply forall_byte _ b
  decide +kernel

theorem isSpacingByte_of_clear {rest : List UInt8} (h : triviaReach (b :: rest) = .clear 0 false) :
    isSpacingByte b = false := by
  refine eq_false_iff.mpr fun hb => ?_
  have hitem : ∃ breaks, triviaItem (b :: rest) = .item 0 breaks := by
    by_cases hblank : isBlankByte b = true
    · exact ⟨false, by simp only [triviaItem, if_pos hblank]⟩
    · have hend := (isSpacingByte_cases hb).resolve_left hblank
      exact ⟨true, by simp only [triviaItem, if_neg hblank, if_pos hend]⟩
  obtain ⟨breaks, hitem⟩ := hitem
  rcases triviaReach_eq_clear h with ⟨hnone, _⟩ | ⟨more, _, _, _, _, _, hlength, _⟩
  · cases hnone.symm.trans hitem
  · omega

namespace Copied

variable {c c' : Cursor} {text : String} {r r' : List UInt8}

/-- Code between two seams may be moved to a line of its own. -/
theorem of_seams (here : c.after = bytesOf text ++ r) (there : c'.after = bytesOf text ++ r')
    (hline : EndsLine r') (hclear : triviaReach c.after = .clear 0 false) (hstart : c.IsSeam)
    (hend : (c.advance (bytesOf text).length).IsSeam) (hopens : EndsLine c'.before)
    (hescape : (bytesOf text).getLast? ≠ some (byte '\\'))
    (hslash : (bytesOf text).head? = some (byte '/') →
      patternAllowedAfter c'.before = patternAllowedAfter c.before) :
    Copied c c' (bytesOf text) r r' where
  here := here
  there := there
  endsLine := hline
  decode k hk := decodeFirst?_drop_append text hk r' r
  seam a b ha hb := by
    refine hend a b ?_ ?_
    · rw [last?, before_advance, here, take_left, head?_append,
        head?_reverse, ha, some_or]
    · rwa [byte?, after_advance, here, drop_left]
  escape := hescape
  slash k hk hbyte := by
    cases htext : bytesOf text with
    | nil => rw [htext] at hk; exact absurd hk (Nat.not_lt_zero k)
    | cons b more =>
      rw [here, htext] at hclear
      have hspacing := isSpacingByte_of_clear hclear
      cases k with
      | zero =>
        rw [← head?_eq_getElem?] at hbyte
        rw [advance_zero, advance_zero, hslash hbyte]
      | succ k =>
        have hlast : ((b :: more).take (k + 1)).reverse.getLast? = some b := by
          rw [getLast?_reverse, take_succ_cons, head?_cons]
        have htake : ∀ rest, (b :: more ++ rest).take (k + 1) = (b :: more).take (k + 1) := by
          intro rest
          rw [← htext] at *
          rw [take_append_of_le_length (Nat.le_of_lt hk)]
        rw [before_advance, before_advance, here, there, htext, htake, htake,
          patternAllowedAfter_append hlast hspacing, patternAllowedAfter_append hlast hspacing]
        · intro hname
          cases hbefore : c.before.head? with
          | none => rfl
          | some a =>
            have hglued := hstart a b hbefore (by rw [byte?, here, htext]; rfl)
            simp only [isGlued, hname, Bool.true_and, or_eq_false_iff] at hglued
            simp only [all_some, bne, hglued.1.1, hglued.1.2, Bool.not_false,
              Bool.and_self]
        · exact fun _ => hopens.apart

end Copied

end ModuleBridge
