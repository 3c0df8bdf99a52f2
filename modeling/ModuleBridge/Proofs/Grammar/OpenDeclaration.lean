import ModuleBridge.Proofs.Grammar.FollowDeclaration
import ModuleBridge.Proofs.Source.OpenEnd

/-!
# Declarations that are left open

A variable declaration without a semicolon is ended by what follows it. After a copy the next line
decides: it may go on with the last value, give the last name a value, add a declarator or bring the
semicolon. `DecidesAt` is the judgement that a reading ends where the piece ends or goes further,
depending on the next line.
-/

namespace ModuleBridge

open Scan Cursor List

variable {q e : Cursor} {v : Expression} {fuel : Nat} {all : List Declarator}

def lineStarts (mark : String) (line : List UInt8) : Bool :=
  (bytesOf mark).isPrefixOf line

/-- Whether a line goes on with a declarator that ends the line before it. -/
def Declarator.takesUp (x : Declarator) (line : List UInt8) : Bool :=
  (if x.value.isSome then line.head?.any StretchKind.expression.goesOn
    else lineStarts "=" line && !lineStarts "==" line) ||
    lineStarts "," line

/-- Whether a line goes on with a variable declaration that ends the line before it. -/
def VariableDeclaration.takesUp (a : VariableDeclaration) (line : List UInt8) : Bool :=
  match a.declarators.getLast? with
  | some last => last.range.stop == a.range.stop && (last.takesUp line || lineStarts ";" line)
  | none => false

/-! ## The judgement -/

namespace Scan

variable {α β : Type} {start mid stop : Cursor} {goesOn more : Bool}

/-- From `start` on `op` ends at `stop`, or further if `goesOn`. -/
def DecidesAt (start stop : Cursor) (goesOn : Bool) (op : Scan α) : Prop :=
  (goesOn = false → ∃ a, op start = .ok a stop) ∧
    (goesOn = true → ∀ a d, op start = .ok a d → stop.pos < d.pos)

namespace DecidesAt

theorem ends_iff {op : Scan α} (h : DecidesAt start stop goesOn op) :
    (∃ a, op start = .ok a stop) ↔ goesOn = false := by
  refine ⟨?_, h.1⟩
  rintro ⟨a, hrun⟩
  cases goesOn with
  | false => rfl
  | true => exact absurd (h.2 rfl a stop hrun) (Nat.lt_irrefl _)

theorem stay {op : Scan α} {a : α} (hrun : op stop = .ok a stop) : DecidesAt stop stop false op :=
  ⟨fun _ => ⟨a, hrun⟩, nofun⟩

theorem get {next : Cursor → Scan α} (h : DecidesAt start stop goesOn (next start)) :
    DecidesAt start stop goesOn (get >>= next) := h

theorem after {op : Scan α} {next : α → Scan β} {a : α} (hop : op start = .ok a mid)
    (hnext : DecidesAt mid stop goesOn (next a)) : DecidesAt start stop goesOn (op >>= next) := by
  refine ⟨fun hgoes => ?_, fun hgoes b d hrun => ?_⟩
  · obtain ⟨b, hrest⟩ := hnext.1 hgoes
    exact ⟨b, bind_eq_ok.mpr ⟨a, mid, hop, hrest⟩⟩
  · obtain ⟨a', mid', hop', hrest⟩ := bind_eq_ok.mp hrun
    cases hop.symm.trans hop'
    exact hnext.2 hgoes b d hrest

theorem passes {op : Scan α} {next : α → Scan β}
    (hop : ∀ a d, op start = .ok a d → stop.pos < d.pos) (honward : ∀ a, MovesOnward (next a)) :
    DecidesAt start stop true (op >>= next) := by
  refine ⟨nofun, fun _ b d hrun => ?_⟩
  obtain ⟨a, e, hfirst, hrest⟩ := bind_eq_ok.mp hrun
  exact Nat.lt_of_lt_of_le (hop a e hfirst) (honward a hrest).pos_le

theorem seq {op : Scan α} {next : α → Scan β} (hop : DecidesAt start stop goesOn op)
    (hnext : ∀ a, DecidesAt stop stop more (next a)) (honward : ∀ a, MovesOnward (next a)) :
    DecidesAt start stop (goesOn || more) (op >>= next) := by
  cases goesOn with
  | false =>
    obtain ⟨a, hrun⟩ := hop.1 rfl
    exact .after hrun (hnext a)
  | true => exact .passes (hop.2 rfl) honward

theorem bind_stay {op : Scan α} {next : α → Scan β} (hop : DecidesAt start stop goesOn op)
    (hnext : ∀ a c, ∃ b, next a c = .ok b c) : DecidesAt start stop goesOn (op >>= next) := by
  have hstay : ∀ a, DecidesAt stop stop false (next a) := by
    intro a
    obtain ⟨b, hb⟩ := hnext a stop
    exact .stay hb
  have honward : ∀ a, MovesOnward (next a) := by
    intro a c b d hrun
    obtain ⟨b', hb'⟩ := hnext a c
    cases hrun.symm.trans hb'
    exact .refl c
  rw [← Bool.or_false goesOn]
  exact hop.seq hstay honward

end DecidesAt

/-- At `q` the reading `op` answers nothing, or something that it moves past if `found`. -/
def AnswersAt (q : Cursor) (found : Bool) (op : Scan (Option α)) : Prop :=
  (found = false → ∃ d, op q = .ok none d) ∧
    (found = true → ∀ answer d, op q = .ok answer d → answer.isSome = true ∧ q.pos < d.pos)

theorem AnswersAt.stays {op : Scan (Option α)} (h : AnswersAt q false op)
    (hspace : space stop = .ok () q) : afterSpace op stop = .ok none stop := by
  obtain ⟨d, hrun⟩ := h.1 rfl
  exact afterSpace_eq_ok.mpr ⟨q, d, hspace, hrun, rfl⟩

theorem AnswersAt.passes {op : Scan (Option α)} (h : AnswersAt q true op)
    (hspace : space stop = .ok () q) {answer : Option α} {d : Cursor}
    (hrun : afterSpace op stop = .ok answer d) : stop.pos < d.pos := by
  obtain ⟨q', e, hspace', hread, rfl⟩ := afterSpace_eq_ok.mp hrun
  cases hspace.symm.trans hspace'
  obtain ⟨hsome, hlt⟩ := h.2 rfl answer e hread
  rw [if_pos hsome]
  exact Nat.lt_of_le_of_lt (space_onward hspace).pos_le hlt

theorem AnswersAt.decides {op : Scan (Option α)} {next : Option α → Scan β} {found : Bool}
    (h : AnswersAt q found op) (hspace : space stop = .ok () q)
    (hnext : DecidesAt stop stop false (next none)) (honward : ∀ answer, MovesOnward (next answer)) :
    DecidesAt stop stop found (afterSpace op >>= next) := by
  cases found with
  | false => exact .after (h.stays hspace) hnext
  | true => exact .passes (fun _ _ hrun => h.passes hspace hrun) honward

theorem mark_answersAt {text : String} (htext : IsTokenText text) (q : Cursor) :
    AnswersAt q (lineStarts text q.after) (mark text) := by
  refine ⟨fun hfound => ⟨q, ?_⟩, fun hfound answer d hrun => ?_⟩
  · have hstarts : q.startsWith text = false := hfound
    rw [mark, bind_eq_ok]
    refine ⟨false, q, ?_, rfl⟩
    rw [accept, hstarts, if_neg Bool.false_ne_true]
  · rcases mark_cases hrun with ⟨rfl, hstarts, rfl⟩ | ⟨_, hstarts, _⟩
    · refine ⟨rfl, Copied.accept_pos_lt htext ?_⟩
      rw [accept, if_pos hstarts]
    · have hstarts : lineStarts text q.after = false := hstarts
      rw [hstarts] at hfound
      cases hfound

theorem initialValue_answersAt (q : Cursor) :
    AnswersAt q (lineStarts "=" q.after && !lineStarts "==" q.after) initialValue := by
  have hpeek : atAssignment q = .ok (lineStarts "=" q.after && !lineStarts "==" q.after) q := rfl
  refine ⟨fun hfound => ⟨q, ?_⟩, fun hfound answer d hrun => ?_⟩
  · rw [hfound] at hpeek
    exact bind_eq_ok.mpr ⟨false, q, hpeek, rfl⟩
  · rw [hfound] at hpeek
    obtain ⟨found, e, hpeek', hrest⟩ := bind_eq_ok.mp hrun
    cases hpeek.symm.trans hpeek'
    obtain ⟨equals, w, haccept, hrest⟩ := bind_eq_ok.mp hrest
    obtain ⟨_, s, hspace, hrest⟩ := bind_eq_ok.mp hrest
    obtain ⟨v, hvalue, rfl⟩ := map_eq_ok.mp hrest
    have hequals : IsTokenText "=" := Copied.isTokenText_mark (by simp)
    have hle := ((space_onward hspace).trans (value_inText.onward hvalue)).pos_le
    rcases accept_cases haccept with ⟨rfl, _⟩ | ⟨_, hstarts, _⟩
    · exact ⟨rfl, Nat.lt_of_lt_of_le (Copied.accept_pos_lt hequals haccept) hle⟩
    · have hstarts : lineStarts "=" q.after = false := hstarts
      rw [hstarts] at hfound
      cases hfound

end Scan

def Scan.declaratorsAfter (fuel : Nat) (first : Declarator) :
    Option Unit → Scan (List Declarator)
  | some () => do return first :: (← declarators fuel)
  | none => return [first]

namespace Copied

variable {c c' x : Cursor} {t r r' : List UInt8} (h : Copied c c' t r r')

include h

theorem space_there (hr : Resumes r r') :
    ∃ q, space (c'.advance t.length) = .ok () q ∧ q.after = r'.drop 1 := by
  rcases h.trivia_there hr with ⟨rfl, hspace⟩ | ⟨b, more, rfl, hspace, hafter⟩
  · refine ⟨_, space_eq_ok.mpr ⟨_, hspace⟩, ?_⟩
    rw [h.after_there (Nat.le_refl _), drop_length]
    rfl
  · exact ⟨_, space_eq_ok.mpr ⟨_, hspace⟩, hafter⟩

theorem mirror_end : mirror c c' (c.advance t.length) = c'.advance t.length := by
  rw [mirror, h.pos_here (Nat.le_refl _), Nat.add_sub_cancel_left]

/-- The trivia after the piece leads neither to a comma nor to a semicolon. -/
def EndsPlain (c : Cursor) : Prop :=
  ∀ crosses q, trivia c = .ok crosses q →
    q.byte? ≠ some (byte ',') ∧ q.byte? ≠ some (byte ';')

section

variable (hr : Resumes r r') (hplain : EndsPlain (c.advance t.length)) (hx : c.Onward x)

include hr hplain hx

theorem value_decides (hrun : value x = .ok v (c.advance t.length)) :
    HasToken (c.pos + t.length) x ∧
      DecidesAt (mirror c c' x) (c'.advance t.length)
        ((r'.drop 1).head?.any StretchKind.expression.goesOn) value := by
  obtain ⟨range, hstretch, hempty, rfl⟩ := classified_eq_ok.mp hrun
  obtain ⟨hwalk, rfl⟩ := run_of_stretchFrom hstretch
  have hend := h.pos_here (Nat.le_refl t.length)
  have hle := hwalk.onward.pos_le
  obtain ⟨k, hk, rfl, hmirror, hplace⟩ := h.exists_place hx (by omega)
  have hlt : k < t.length := by
    rw [Range.isEmpty, beq_eq_false_iff_ne, pos_rangeTo, stop_rangeTo] at hempty
    omega
  have htoken : HasToken (c.pos + t.length) (c.advance k) := by
    rcases hwalk.eq_or_passes with heq | ⟨crosses, q, hspace, hpass⟩
    · have hpos := congrArg pos heq
      omega
    · exact ⟨crosses, q, hspace, by omega⟩
  refine ⟨htoken, ?_⟩
  rcases h.stretchFrom_follows hwalk (Nat.le_refl k) hk (by rintro ⟨⟩) (by omega) with
    ⟨j, m, _, hj, hd, hopen, _, hround⟩ | ⟨hkind, _⟩
  · have hfull : j = t.length := by
      have hpos := congrArg pos hd
      rw [h.pos_here hj] at hpos
      omega
    subst hfull
    have hhead : (r'.drop 1).head? = r'[1]? := by rw [head?_drop]
    rw [hhead, hmirror]
    have hplain' : ∀ crosses q, trivia (c.advance t.length) = .ok crosses q →
        StretchKind.expression = .expression →
          q.byte? ≠ some (byte ',') ∧ q.byte? ≠ some (byte ';') :=
      fun crosses q hspace _ => hplain crosses q hspace
    refine ⟨fun hstop => ?_, fun hgo a d hcopy => ?_⟩
    · refine ⟨_, classified_eq_ok.mpr
        ⟨_, hround.trans (h.stretchFrom_stops hr hlt hopen hplain' hstop),
        ?_, rfl⟩⟩
      rw [h.isEmpty_rangeTo hk (Nat.le_refl _)]
      exact hempty
    · obtain ⟨range', hstretch', _, _⟩ := classified_eq_ok.mp hcopy
      exact h.stretchFrom_passes hr hlt hopen hplain' hgo (hround.symm.trans hstretch')
  · cases hkind

theorem initialValue_decides (hrun : initialValue x = .ok (some v) (c.advance t.length)) :
    HasToken (c.pos + t.length) x ∧
      DecidesAt (mirror c c' x) (c'.advance t.length)
        ((r'.drop 1).head?.any StretchKind.expression.goesOn) initialValue ∧
      ∀ answer d, initialValue (mirror c c' x) = .ok answer d → answer.isSome = true := by
  obtain ⟨found, x', hpeek, hrest⟩ := bind_eq_ok.mp hrun
  obtain ⟨rfl, rfl⟩ := peek_eq_ok.mp hpeek
  cases hfound : x'.startsWith "=" && !x'.startsWith "==" with
  | false =>
    rw [hfound, if_neg Bool.false_ne_true] at hrest
    cases (pure_eq_ok.mp hrest).1
  | true =>
    rw [hfound, if_pos rfl] at hrest
    obtain ⟨equals, w, haccept, hrest⟩ := bind_eq_ok.mp hrest
    obtain ⟨_, s, hspace, hrest⟩ := bind_eq_ok.mp hrest
    obtain ⟨v', hvalue, hv⟩ := map_eq_ok.mp hrest
    have hequals : IsTokenText "=" := isTokenText_mark (by simp)
    have hw := hx.trans (accept_onward _ haccept)
    obtain ⟨htoken, hdecides⟩ := h.value_decides hr hplain (hw.trans (space_onward hspace)) hvalue
    obtain ⟨hnext, _, hspace', _⟩ := (h.space_follows hw () s hspace).2 htoken
    obtain ⟨hhere, equals', haccept', _⟩ := (h.accept_before hequals hx equals w haccept).2 hnext
    obtain ⟨_, found', hpeek', hsame⟩ := (h.atAssignment_follows hx _ _ hpeek).2 hhere
    have hfound' : found' = true := hsame.trans hfound
    subst hfound'
    refine ⟨hhere, .after hpeek' (.after haccept' (.after hspace' ?_)), ?_⟩
    · exact hdecides.bind_stay fun a c => ⟨some a, rfl⟩
    · intro answer d hcopy
      obtain ⟨found, y, hpeek'', hrest⟩ := bind_eq_ok.mp hcopy
      cases hpeek'.symm.trans hpeek''
      obtain ⟨_, _, _, hrest⟩ := bind_eq_ok.mp hrest
      obtain ⟨_, _, _, hrest⟩ := bind_eq_ok.mp hrest
      obtain ⟨_, _, _, hpure⟩ := bind_eq_ok.mp hrest
      obtain ⟨rfl, _⟩ := pure_eq_ok.mp hpure
      rfl

theorem afterSpace_value_decides
    (hrun : afterSpace initialValue x = .ok (some v) (c.advance t.length)) :
    HasToken (c.pos + t.length) x ∧
      DecidesAt (mirror c c' x) (c'.advance t.length)
        ((r'.drop 1).head?.any StretchKind.expression.goesOn) (afterSpace initialValue) := by
  obtain ⟨q, e, hspace, hread, hend⟩ := afterSpace_eq_ok.mp hrun
  rw [if_pos (Option.isSome_some ..)] at hend
  subst hend
  have hq := hx.trans (space_onward hspace)
  obtain ⟨htoken, hdecides, hanswers⟩ := h.initialValue_decides hr hplain hq hread
  obtain ⟨hhere, _, hspace', _⟩ := (h.space_follows hx () q hspace).2 htoken
  refine ⟨hhere, fun hstop => ?_, fun hgo answer d hcopy => ?_⟩
  · obtain ⟨answer, hcopy⟩ := hdecides.1 hstop
    refine ⟨answer, afterSpace_eq_ok.mpr ⟨_, _, hspace', hcopy, ?_⟩⟩
    rw [if_pos (hanswers _ _ hcopy)]
  · obtain ⟨q', e, hspace'', hread', rfl⟩ := afterSpace_eq_ok.mp hcopy
    cases hspace'.symm.trans hspace''
    rw [if_pos (hanswers _ _ hread')]
    exact hdecides.2 hgo answer e hread'

/-- Whether a line goes on with a declarator, before another declarator is looked for. -/
theorem declarator_decides {last : Declarator} (hrun : declarator x = .ok last (c.advance t.length)) :
    HasToken (c.pos + t.length) x ∧
      DecidesAt (mirror c c' x) (c'.advance t.length)
        (if last.value.isSome then (r'.drop 1).head?.any StretchKind.expression.goesOn
          else lineStarts "=" (r'.drop 1) && !lineStarts "==" (r'.drop 1)) declarator := by
  obtain ⟨target, e, value, htarget, hvalue, rfl⟩ := declarator_eq_ok.mp hrun
  have he := hx.trans ((bindingTarget_inText _).onward htarget)
  have hfollow := (h.bindingTarget_follows hx target e htarget).2
  rw [declarator_eq]
  cases value with
  | some v =>
    obtain ⟨htoken, hdecides⟩ := h.afterSpace_value_decides hr hplain he hvalue
    obtain ⟨hhere, target', htarget', _⟩ := hfollow (Nat.le_of_lt htoken.pos_lt)
    refine ⟨hhere, .get <| .after htarget' ?_⟩
    exact hdecides.bind_stay fun a c => ⟨_, rfl⟩
  | none =>
    obtain ⟨q, f, _, _, hend⟩ := afterSpace_eq_ok.mp hvalue
    rw [if_neg (by simp)] at hend
    subst hend
    obtain ⟨hhere, target', htarget', _⟩ := hfollow (Nat.le_of_eq (h.pos_here (Nat.le_refl _)))
    refine ⟨hhere, .get <| .after htarget' ?_⟩
    rw [h.mirror_end]
    obtain ⟨q, hspace, hq⟩ := h.space_there hr
    have hanswers := initialValue_answersAt q
    rw [hq] at hanswers
    exact hanswers.decides hspace (.stay rfl) fun _ => .bind (rangeFrom_onward _) fun _ => .pure _

theorem declarators_decide (hrun : declarators fuel x = .ok all (c.advance t.length)) :
    HasToken (c.pos + t.length) x ∧ ∃ last, all.getLast? = some last ∧
      ∀ fuel', c.pos + t.length - x.pos < fuel' →
        DecidesAt (mirror c c' x) (c'.advance t.length) (last.takesUp (r'.drop 1))
          (declarators fuel') := by
  have hcomma : IsTokenText "," := isTokenText_mark (by simp)
  induction fuel generalizing x all with
  | zero => exact absurd hrun failHere_ne_ok
  | succ fuel ih =>
    obtain ⟨y, first, z, hspace, hfirst, hrest⟩ := declarators_cases hrun
    have hy := hx.trans (space_onward hspace)
    have hz := hy.trans (declarator_inText.onward hfirst)
    rcases hrest with ⟨_, rfl, rfl⟩ | ⟨w, rest, hmark, hmore, rfl⟩
    · obtain ⟨htoken, hdecides⟩ := h.declarator_decides hr hplain hy hfirst
      obtain ⟨hhere, _, hspace', _⟩ := (h.space_follows hx () y hspace).2 htoken
      refine ⟨hhere, first, rfl, fun fuel' hfuel => ?_⟩
      obtain ⟨fuel', rfl⟩ := Nat.exists_eq_succ_of_ne_zero (Nat.ne_zero_of_lt hfuel)
      obtain ⟨q, hline, hq⟩ := h.space_there hr
      have hanswers := mark_answersAt hcomma q
      rw [hq] at hanswers
      have honward : ∀ first' comma, MovesOnward (declaratorsAfter fuel' first' comma) := by
        intro first' comma
        unfold declaratorsAfter
        split
        · exact .bind (declarators_onward _) fun _ => .pure _
        · exact .pure _
      exact .after hspace' <| hdecides.seq (fun first' => hanswers.decides hline (.stay rfl)
        (honward first')) fun first' =>
          .bind (afterSpace_onward (mark_inText _).onward) (honward first')
    · have hw := hz.trans (afterSpace_onward (mark_inText _).onward hmark)
      obtain ⟨htoken, last, hlast, hdecides⟩ := ih hw hmore
      have hwle := Nat.le_of_lt htoken.pos_lt
      obtain ⟨hztoken, comma', hmark', hsome⟩ :=
        (h.afterSpace_mark_follows hcomma hz (some ()) w hmark).2 hwle
      obtain ⟨hytoken, first', hfirst', _⟩ := (h.declarator_follows hy first z hfirst).2 hztoken
      obtain ⟨hhere, _, hspace', _⟩ := (h.space_follows hx () y hspace).2 hytoken
      refine ⟨hhere, last, by simp [getLast?_cons, hlast], fun fuel' hfuel => ?_⟩
      obtain ⟨fuel', rfl⟩ := Nat.exists_eq_succ_of_ne_zero (Nat.ne_zero_of_lt hfuel)
      obtain ⟨u, rfl⟩ := Option.isSome_iff_exists.mp hsome
      have hlt := pos_lt_of_mark hcomma hmark
      have hle := ((space_onward hspace).trans (declarator_inText.onward hfirst)).pos_le
      refine .after hspace' <| .after hfirst' <| .after hmark' ?_
      exact (hdecides fuel' (by omega)).bind_stay fun a c => ⟨_, rfl⟩

end

omit h in
theorem declarators_last {x : Cursor} (hrun : declarators fuel x = .ok all e) :
    ∃ last, all.getLast? = some last ∧ last.range.stop = e.pos ∧
      afterSpace (mark ",") e = .ok none e := by
  induction fuel generalizing x all with
  | zero => exact absurd hrun failHere_ne_ok
  | succ fuel ih =>
    obtain ⟨y, first, z, _, hfirst, hrest⟩ := declarators_cases hrun
    rcases hrest with ⟨hmark, rfl, rfl⟩ | ⟨w, rest, _, hmore, rfl⟩
    · obtain ⟨_, _, _, _, _, rfl⟩ := declarator_eq_ok.mp hfirst
      exact ⟨_, rfl, rfl, hmark⟩
    · obtain ⟨last, hlast, hstop⟩ := ih hmore
      exact ⟨last, by simp [getLast?_cons, hlast], hstop⟩

omit h in
theorem endsPlain_of_marks (hcomma : afterSpace (mark ",") e = .ok none e)
    (hsemicolon : afterSpace (mark ";") e = .ok none e) : EndsPlain e := by
  have hnot : ∀ {text : String} {b : UInt8}, bytesOf text = [b] →
      afterSpace (mark text) e = .ok none e → ∀ crosses q, trivia e = .ok crosses q →
        q.byte? ≠ some b := by
    intro text b hbytes hmark crosses q hspace hbyte
    obtain ⟨q', f, hspace', hread, _⟩ := afterSpace_eq_ok.mp hmark
    cases (space_eq_ok.mpr ⟨crosses, hspace⟩).symm.trans hspace'
    rcases mark_cases hread with ⟨hanswer, _⟩ | ⟨_, hstarts, _⟩
    · cases hanswer
    · obtain ⟨rest, hrest⟩ := head?_eq_some_iff.mp hbyte
      rw [startsWith, hbytes, hrest] at hstarts
      simp at hstarts
  intro crosses q hspace
  exact ⟨hnot (by decide) hcomma crosses q hspace, hnot (by decide) hsemicolon crosses q hspace⟩

omit h in
theorem mirror_start (c c' : Cursor) : mirror c c' c = c' := by
  rw [mirror, Nat.sub_self, advance_zero]

/-- The copy of a variable declaration ends with the piece, unless the next line goes on with it. -/
theorem variableDeclaration_ends_iff (hr : Resumes r r') {kind : VariableKind}
    {a : VariableDeclaration} (hrun : variableDeclaration kind c = .ok a (c.advance t.length)) :
    HasToken (c.pos + t.length) (c.advance (bytesOf kind.keyword.text).length) ∧
      ((∃ a', variableDeclaration kind c' = .ok a' (c'.advance t.length)) ↔
        a.takesUp (r'.drop 1) = false) := by
  have hsemicolon : IsTokenText ";" := .of_head (by decide) (by decide)
  rw [variableDeclaration, get_bind] at hrun
  obtain ⟨_, x, hword, hdeclare⟩ := bind_eq_ok.mp hrun
  rw [get_bind] at hdeclare
  obtain ⟨all, e, hall, hend⟩ := bind_eq_ok.mp hdeclare
  obtain ⟨_, d, hoptional, hrange⟩ := bind_eq_ok.mp hend
  obtain ⟨range, f, hpeek, hpure⟩ := bind_eq_ok.mp hrange
  obtain ⟨rfl, rfl⟩ := peek_eq_ok.mp hpeek
  obtain ⟨rfl, rfl⟩ := pure_eq_ok.mp hpure
  obtain ⟨answer, hanswer⟩ := optionalSemicolon_eq_ok.mp hoptional
  obtain ⟨last, hlast, hstop, hcomma⟩ := declarators_last hall
  have hx : c.Onward x := expectWord_onward _ hword
  have hplace : x = c.advance (bytesOf kind.keyword.text).length := (expectWord_eq_ok.mp hword).2
  have hxle : x.pos ≤ c.pos + t.length := by
    have hle := ((declarators_onward _ hall).trans (optionalSemicolon_onward hoptional)).pos_le
    rwa [h.pos_here (Nat.le_refl _)] at hle
  have hfuel : c.pos + t.length - x.pos < (mirror c c' x).after.length + 1 :=
    Nat.lt_succ_of_le (h.length_mirror hx hxle)
  have hstart : HasToken (c.pos + t.length) x →
      expectWord kind.keyword.text c' = .ok () (mirror c c' x) := by
    intro htoken
    obtain ⟨_, _, hword', _⟩ :=
      (h.expectWord_follows kind.keyword.isWord (.refl c) () x hword).2 (Nat.le_of_lt htoken.pos_lt)
    rwa [mirror_start] at hword'
  have htakes :
      VariableDeclaration.takesUp ⟨kind, all, c.rangeTo (c.advance t.length)⟩ (r'.drop 1) =
      (e.pos == (c.advance t.length).pos &&
        (last.takesUp (r'.drop 1) || lineStarts ";" (r'.drop 1))) := by
    simp only [VariableDeclaration.takesUp, hlast, hstop]
    rfl
  rw [htakes]
  cases answer with
  | none =>
    obtain ⟨_, _, _, _, hstay⟩ := afterSpace_eq_ok.mp hanswer
    rw [if_neg (by simp)] at hstay
    subst hstay
    obtain ⟨htoken, last', hlast', hdecides⟩ :=
      h.declarators_decide hr (endsPlain_of_marks hcomma hanswer) hx hall
    cases hlast.symm.trans hlast'
    rw [beq_self_eq_true, Bool.true_and]
    obtain ⟨q, hline, hq⟩ := h.space_there hr
    have hanswers := mark_answersAt hsemicolon q
    rw [hq] at hanswers
    have hmark : DecidesAt (c'.advance t.length) (c'.advance t.length)
        (lineStarts ";" (r'.drop 1)) optionalSemicolon :=
      hanswers.decides hline (.stay rfl) fun _ => .pure _
    refine ⟨hplace ▸ htoken, DecidesAt.ends_iff (.get <| .after (hstart htoken) <| .get <|
      (hdecides _ hfuel).seq (fun _ => hmark.bind_stay fun _ _ => ⟨_, rfl⟩) fun _ => ?_)⟩
    exact .bind optionalSemicolon_onward fun _ => .bind (rangeFrom_onward _) fun _ => .pure _
  | some u =>
    have hlt := pos_lt_of_mark hsemicolon hanswer
    have hne : (e.pos == (c.advance t.length).pos) = false :=
      beq_eq_false_iff_ne.mpr (Nat.ne_of_lt hlt)
    rw [hne, Bool.false_and]
    have he := hx.trans (declarators_onward _ hall)
    obtain ⟨hetoken, answer', hmark', _⟩ :=
      (h.afterSpace_mark_follows hsemicolon he (some u) _ hanswer).2
        (Nat.le_of_eq (h.pos_here (Nat.le_refl _)))
    obtain ⟨hxtoken, all', hall', _⟩ :=
      (h.declarators_follow _ _ x hfuel hx all e hall).2 hetoken
    rw [h.mirror_end] at hmark'
    refine ⟨hplace ▸ hxtoken, iff_of_true ⟨_, bind_eq_ok.mpr ⟨c', c', rfl, bind_eq_ok.mpr ⟨(), _,
      hstart hxtoken, bind_eq_ok.mpr ⟨_, _, rfl, bind_eq_ok.mpr ⟨all', _, hall',
        bind_eq_ok.mpr ⟨(), _, optionalSemicolon_eq_ok.mpr ⟨answer', hmark'⟩, rfl⟩⟩⟩⟩⟩⟩ rfl⟩

end Copied

end ModuleBridge
