import Mathlib
import ModuleBridge.Proofs.Source.Nesting
import ModuleBridge.Proofs.Source.Walk

/-!
# Matching brackets

Two scans look for the brace that closes a block. The one of `braces` counts braces alone and goes
byte by byte; the one of a statement counts brackets of all kinds alike and goes token by token.
`bracketsUpTo` lists the brackets of a piece of code, outside strings, templates, regular
expressions and comments. Where they are nested by kind, both scans stop at the same brace. Main
statement: `statement_of_braces`.
-/

namespace ModuleBridge

open Scan Cursor List

variable {c d q e : Cursor} {b opener closer : UInt8} {bs rest front back : List UInt8}
  {depth k : Nat} {crosses : Bool}

/-! ## Enclosures one after the other -/

theorem blockAfter_append (opener closer : UInt8) (depth start : Nat)
    (inner outer : List Enclosure) (b : UInt8) :
    blockAfter opener closer depth start (inner ++ outer) b =
      blockAfter opener closer depth start inner b ++ outer := by
  unfold blockAfter
  split
  · rfl
  · split
    · cases depth <;> rfl
    · rfl

/-- The inner constructs of a stack are closed before the outer ones. -/
theorem closeEnclosures_append (inner outer : List Enclosure) (c : Cursor) :
    closeEnclosures (inner ++ outer) c =
      match closeEnclosures inner c with
      | .ok _ e => closeEnclosures outer e
      | .error fault e => .error fault e := by
  have hround {opener closer depth start length crosses b rest} {stack : List Enclosure} {c : Cursor}
      (hreach : triviaReach c.after = .clear length crosses)
      (hd : (c.advance length).after = b :: rest) :=
    @closeEnclosures_round opener closer depth start (stack ++ outer) _ _ _ _ _
      (trivia_eq_ok.mpr ⟨length, hreach, rfl⟩) hd
  fun_induction closeEnclosures inner c with
  | case1 => rfl
  | case2 c start stack hc => rw [cons_append, closeEnclosures_template, hc]
  | case3 c start stack b rest hc hescape ih =>
    rw [cons_append, closeEnclosures_template, hc]
    exact (if_pos hescape).trans ih
  | case4 c start stack b rest hc hescape htick ih =>
    rw [cons_append, closeEnclosures_template, hc]
    exact ((if_neg hescape).trans (if_pos htick)).trans ih
  | case5 c start stack b rest hc hescape htick hopening ih =>
    rw [cons_append, closeEnclosures_template, hc]
    exact ((if_neg hescape).trans ((if_neg htick).trans (if_pos hopening))).trans ih
  | case6 c start stack b rest hc hescape htick hopening ih =>
    rw [cons_append, closeEnclosures_template, hc]
    exact ((if_neg hescape).trans ((if_neg htick).trans (if_neg hopening))).trans ih
  | case7 c opener closer depth start stack length hreach =>
    rw [cons_append, closeEnclosures_block, trivia, hreach]
  | case8 c opener closer depth start stack length crosses hreach d hd =>
    rw [cons_append, closeEnclosures_block, trivia_eq_ok.mpr ⟨length, hreach, rfl⟩]
    dsimp only
    rw [hd]
  | case9 =>
    rename_i hreach _ _ _ hd _ hliteral ih
    rw [cons_append, hround hreach hd, hliteral]
    exact ih
  | case10 =>
    rename_i hreach _ _ _ hd _ hliteral _
    rw [cons_append, hround hreach hd, hliteral]
  | case11 =>
    rename_i hreach _ _ _ hd hliteral ih
    rw [cons_append, hround hreach hd, hliteral]
    exact ih
  | case12 =>
    rename_i hreach _ _ _ hd hliteral ih
    rw [cons_append, hround hreach hd, hliteral, blockAfter_append]
    exact ih

/-- What stands at the cursor inside a block: a literal, which is passed whole, or a single byte. -/
theorem closeEnclosures_literal {start : Nat} {outer : List Enclosure} (hq : q.after = b :: rest)
    (hitem : triviaItem (b :: rest) = .nothing)
    (h : closeEnclosures (.block opener closer depth start :: outer) q = .ok () d) :
    (∃ e, literal q = .ok true e ∧
      closeEnclosures (.block opener closer depth start :: outer) e = .ok () d) ∨
    literal q = .ok false q ∧
      closeEnclosures (blockAfter opener closer depth start outer b) (q.advance 1) = .ok () d := by
  rw [closeEnclosures_round (trivia_of_nothing hq hitem) hq] at h
  unfold literal
  rw [hq]
  dsimp only
  cases hstart : literalStart q.before b rest with
  | none =>
    rw [hstart] at h
    exact .inr ⟨rfl, h⟩
  | span more =>
    rw [hstart] at h
    exact .inl ⟨_, rfl, h⟩
  | broken more =>
    rw [hstart] at h
    cases h
  | template =>
    rw [hstart] at h
    have happend := closeEnclosures_append [.template q.pos]
      (.block opener closer depth start :: outer) (q.advance 1)
    cases htemplate : closeEnclosures [.template q.pos] (q.advance 1) with
    | error fault e =>
      rw [htemplate] at happend
      cases happend.symm.trans h
    | ok u e =>
      rw [htemplate] at happend
      exact .inl ⟨e, rfl, happend.symm.trans h⟩

/-! ## Brackets of a piece of code -/

def isBracket (b : UInt8) : Bool :=
  isOpener b || isCloser b

/-- The brackets among the tokens from `c` up to the place `stop`; none if no token ends there. -/
def bracketsUpTo (c : Cursor) (stop : Nat) : Option (List UInt8) :=
  (tokenStarts c stop).map (filter isBracket)

/-- From `c` to `d`, trivia and tokens hold the brackets `bs`. -/
inductive BracketRun : Cursor → List UInt8 → Cursor → Prop where
  | refl {c : Cursor} : BracketRun c [] c
  | plain {c q e d : Cursor} {crosses : Bool} {b : UInt8} {rest bs : List UInt8}
      (hspace : trivia c = .ok crosses q) (hq : q.after = b :: rest) (hb : isBracket b = false)
      (htoken : ∀ n, token n q = .ok n e) (hrest : BracketRun e bs d) : BracketRun c bs d
  | bracket {c q d : Cursor} {crosses : Bool} {b : UInt8} {rest bs : List UInt8}
      (hspace : trivia c = .ok crosses q) (hq : q.after = b :: rest) (hb : isBracket b = true)
      (hrest : BracketRun (q.advance 1) bs d) : BracketRun c (b :: bs) d

theorem token_opener (hq : q.after = b :: rest) (hb : isOpener b = true) (n : Nat) :
    token n q = .ok (n + 1) (q.advance 1) := by
  simp [token, hq, literal_of_plain hq (isOpener_plain hb).1, hb]

theorem exists_token_bracket (hq : q.after = b :: rest) (hb : isBracket b = true) (n : Nat) :
    ∃ k, token n q = .ok k (q.advance 1) := by
  rcases Bool.or_eq_true_iff.mp hb with hopen | hclose
  · exact ⟨_, token_opener hq hopen n⟩
  · exact ⟨_, token_closer hq hclose n⟩

theorem bracketsUpTo_step {stop : Nat} (hspace : trivia c = .ok crosses q)
    (hq : q.after = b :: rest) (htoken : token 0 q = .ok k e) (hne : c.pos ≠ stop) :
    bracketsUpTo c stop = (bracketsUpTo e stop).map ([b].filter isBracket ++ ·) := by
  rw [bracketsUpTo, tokenStarts_step hspace hq htoken hne, bracketsUpTo, Option.map_map,
    Option.map_map]
  congr 1
  exact funext fun starts => filter_append [b] starts

theorem BracketRun.onward (h : BracketRun c bs d) : c.Onward d := by
  induction h with
  | refl => exact .refl _
  | plain hspace _ _ htoken _ ih =>
    exact (trivia_onward hspace).trans ((token_onward 0 (htoken 0)).trans ih)
  | bracket hspace hq hb _ ih =>
    obtain ⟨k, htoken⟩ := exists_token_bracket hq hb 0
    exact (trivia_onward hspace).trans ((token_onward 0 htoken).trans ih)

theorem BracketRun.append (hfront : BracketRun c front e) (hback : BracketRun e back d) :
    BracketRun c (front ++ back) d := by
  induction hfront with
  | refl => exact hback
  | plain hspace hq hb htoken _ ih => exact .plain hspace hq hb htoken (ih hback)
  | bracket hspace hq hb _ ih => exact .bracket hspace hq hb (ih hback)

theorem BracketRun.bracketsUpTo (h : BracketRun c bs d) : bracketsUpTo c d.pos = some bs := by
  have hmoves : ∀ {c q e d : Cursor} {crosses : Bool} {b : UInt8} {rest : List UInt8} {k : Nat},
      trivia c = .ok crosses q → q.after = b :: rest → token 0 q = .ok k e → e.Onward d →
      c.pos ≠ d.pos := by
    intro c q e d crosses b rest k hspace hq htoken hrest
    have hle := (trivia_onward hspace).pos_le
    have hlt := token_pos_lt (by simp [hq]) htoken
    have hed := hrest.pos_le
    omega
  induction h with
  | refl =>
    rw [ModuleBridge.bracketsUpTo, tokenStarts_self]
    rfl
  | plain hspace hq hb htoken hrest ih =>
    rw [bracketsUpTo_step hspace hq (htoken 0) (hmoves hspace hq (htoken 0) hrest.onward), ih]
    simp [hb]
  | bracket hspace hq hb hrest ih =>
    obtain ⟨k, htoken⟩ := exists_token_bracket hq hb 0
    rw [bracketsUpTo_step hspace hq htoken (hmoves hspace hq htoken hrest.onward), ih]
    simp [hb]

/-! ## The scan that counts braces -/

/-- How many braces are open inside the first one after the brackets `bs`, when `depth` were open
before; none if the first one is closed on the way. -/
def braceDepth : Nat → List UInt8 → Option Nat
  | depth, [] => some depth
  | depth, b :: bs =>
    if b = byte '\x7b' then braceDepth (depth + 1) bs
    else if b = byte '\x7d' then
      match depth with
      | 0 => none
      | less + 1 => braceDepth less bs
    else braceDepth depth bs

theorem braceDepth_opener (depth : Nat) (bs : List UInt8) :
    braceDepth depth (byte '\x7b' :: bs) = braceDepth (depth + 1) bs := by
  rw [braceDepth.eq_def]
  exact if_pos rfl

theorem braceDepth_lastCloser (bs : List UInt8) : braceDepth 0 (byte '\x7d' :: bs) = none := rfl

theorem braceDepth_closer (depth : Nat) (bs : List UInt8) :
    braceDepth (depth + 1) (byte '\x7d' :: bs) = braceDepth depth bs := rfl

theorem braceDepth_other (hopener : b ≠ byte '\x7b') (hcloser : b ≠ byte '\x7d') (depth : Nat)
    (bs : List UInt8) : braceDepth depth (b :: bs) = braceDepth depth bs := by
  rw [braceDepth.eq_def]
  dsimp only
  rw [if_neg hopener, if_neg hcloser]

section Block

variable {depth start : Nat} {outer : List Enclosure} {c q d : Cursor} {b : UInt8}
  {rest : List UInt8}

theorem closeEnclosures_trivia (hspace : trivia c = .ok crosses q) :
    closeEnclosures (.braces depth start :: outer) c =
      closeEnclosures (.braces depth start :: outer) q := by
  obtain ⟨length, hreach, hadvance⟩ := trivia_eq_ok.mp hspace
  have hclear : trivia q = .ok false q := by
    refine trivia_of_clear ?_
    rw [hadvance, after_advance]
    exact triviaReach_drop hreach
  rw [closeEnclosures_block, closeEnclosures_block, hspace, hclear]

theorem keeps_word {bytes : List UInt8} (h : ∀ b ∈ bytes, isNamePart b = true) :
    Keeps (.braces depth start :: outer) bytes := by
  induction bytes with
  | nil => exact .nil
  | cons b bytes ih =>
    obtain ⟨hb, hbytes⟩ := forall_mem_cons.mp h
    have hplain : startsCode b = true ∧ isAnyOf delimiters b = false := by
      revert hb
      apply forall_byte _ b
      decide +kernel
    refine @Keeps.append [b] _ bytes ?_ (ih hbytes)
    intro c rest hc
    exact closeEnclosures_plain hc (triviaItem_of_startsCode hplain.1 _) hplain.2

theorem closeEnclosures_plainToken (hq : q.after = b :: rest)
    (hitem : triviaItem (b :: rest) = .nothing) (hb : isBracket b = false)
    (h : closeEnclosures (.braces depth start :: outer) q = .ok () d) :
    ∃ e, (∀ n, token n q = .ok n e) ∧
      closeEnclosures (.braces depth start :: outer) e = .ok () d := by
  obtain ⟨hopen, hclose⟩ := Bool.or_eq_false_iff.mp hb
  rcases closeEnclosures_literal hq hitem h with ⟨e, hliteral, hrest⟩ | ⟨hliteral, hrest⟩
  · exact ⟨e, fun n => by simp [token, hq, hliteral], hrest⟩
  · have hstay : blockAfter (byte '\x7b') (byte '\x7d') depth start outer b =
        .braces depth start :: outer := by
      obtain ⟨hopener, hcloser⟩ :
          (b == byte '\x7b') = false ∧ (b == byte '\x7d') = false := by
        revert hb
        apply forall_byte _ b
        decide +kernel
      simp only [blockAfter, hopener, hcloser, Bool.false_eq_true, if_false]
    rw [hstay] at hrest
    cases hname : isNamePart b with
    | true =>
      refine ⟨q.advance (q.after.takeWhile isNamePart).length, fun n => ?_, ?_⟩
      · simp [token, hq, hliteral, hopen, hclose, hname]
      · have hword := @keeps_word depth start outer _
          fun x hx => all_eq_true.mp (all_takeWhile (l := q.after)) x hx
        rw [← hword (takeWhile_append_dropWhile).symm]
        exact h
    | false =>
      refine ⟨q.advance q.stepLength, fun n => ?_, ?_⟩
      · simp [token, hq, hliteral, hopen, hclose, hname]
      · cases hchar : q.char? with
        | none =>
          rw [stepLength, hchar]
          exact hrest
        | some ch =>
          obtain ⟨more, hmore⟩ := exists_of_decodeFirst? hchar
          rw [stepLength, hchar]
          dsimp only
          rw [← String.length_utf8EncodeChar]
          by_cases hmem : ch ∈ delimiters
          · rw [utf8EncodeChar_of_mem_delimiters hmem]
            exact hrest
          · rw [← PlainChar.keeps ⟨ch, hmem⟩ hmore]
            exact h

end Block

/-- The brackets `bs` after `c` leave the first brace open, and then it is closed by one that ends
at `d`. -/
def ClosesAfter (depth : Nat) (c : Cursor) (bs : List UInt8) (d : Cursor) : Prop :=
  braceDepth depth bs = some 0 ∧ ∃ p q crosses rest, BracketRun c bs p ∧
    trivia p = .ok crosses q ∧ q.after = byte '\x7d' :: rest ∧ d = q.advance 1

theorem ClosesAfter.bracket {b : UInt8} {bs : List UInt8} (hspace : trivia c = .ok crosses q)
    (hq : q.after = b :: rest) (hb : isBracket b = true)
    (hdepth : braceDepth depth (b :: bs) = braceDepth k bs) (h : ClosesAfter k (q.advance 1) bs d) :
    ClosesAfter depth c (b :: bs) d := by
  obtain ⟨hzero, p, q', x, more, hrun, hend⟩ := h
  exact ⟨hdepth.trans hzero, p, q', x, more, .bracket hspace hq hb hrun, hend⟩

theorem closeEnclosures_closesAfter {start : Nat}
    (h : closeEnclosures [.braces depth start] c = .ok () d) : ∃ bs, ClosesAfter depth c bs d := by
  induction hsize : c.after.length using Nat.strongRecOn generalizing c depth with
  | ind size ih =>
    subst hsize
    cases hspace : trivia c with
    | error fault q =>
      rw [closeEnclosures_block, hspace] at h
      cases h
    | ok crosses q =>
      have hle := (trivia_onward hspace).length_le
      have hnothing : triviaItem q.after = .nothing := by
        obtain ⟨length, hreach, rfl⟩ := trivia_eq_ok.mp hspace
        exact triviaItem_after_reach hreach
      cases hq : q.after with
      | nil =>
        rw [closeEnclosures_block, hspace] at h
        simp only [hq] at h
        cases h
      | cons b rest =>
        rw [hq] at hnothing
        rw [closeEnclosures_trivia hspace] at h
        have hone := Nat.lt_of_lt_of_le (advance_lt Nat.one_pos hq) hle
        cases hb : isBracket b with
        | false =>
          obtain ⟨e, htoken, hgoes⟩ := closeEnclosures_plainToken hq hnothing hb h
          have hlt := token_lt (by simp [hq]) (htoken 0)
          obtain ⟨bs, hdepth, p, q', x, more, hrun, hend⟩ := ih _ (by omega) hgoes rfl
          exact ⟨bs, hdepth, p, q', x, more, .plain hspace hq hb htoken hrun, hend⟩
        | true =>
          by_cases hopener : b = byte '\x7b'
          · subst hopener
            rw [closeEnclosures_opener hq] at h
            obtain ⟨bs, hcloses⟩ := ih _ hone h rfl
            exact ⟨_, .bracket hspace hq hb (braceDepth_opener depth bs) hcloses⟩
          by_cases hcloser : b = byte '\x7d'
          · subst hcloser
            cases depth with
            | zero =>
              rw [closeEnclosures_lastCloser hq, closeEnclosures] at h
              cases h
              exact ⟨[], rfl, c, q, crosses, rest, .refl, hspace, hq, rfl⟩
            | succ depth =>
              rw [closeEnclosures_closer hq] at h
              obtain ⟨bs, hcloses⟩ := ih _ hone h rfl
              exact ⟨_, .bracket hspace hq hb (braceDepth_closer depth bs) hcloses⟩
          · have hplain : isAnyOf delimiters b = false := by
              revert hb hopener hcloser
              apply forall_byte _ b
              decide +kernel
            rw [closeEnclosures_plain hq hnothing hplain] at h
            obtain ⟨bs, hcloses⟩ := ih _ hone h rfl
            have hdepth := braceDepth_other hopener hcloser depth bs
            exact ⟨_, .bracket hspace hq hb hdepth hcloses⟩

/-- The bracket `closer` closes what `opener` opens. -/
inductive ClosedBy : UInt8 → UInt8 → Prop where
  | parentheses : ClosedBy (byte '(') (byte ')')
  | brackets : ClosedBy (byte '[') (byte ']')
  | braces : ClosedBy (byte '\x7b') (byte '\x7d')

/-- Every opening bracket is closed by the bracket of its own kind, in the right order. -/
inductive WellNested : List UInt8 → Prop where
  | nil : WellNested []
  | group {opener closer : UInt8} {inner rest : List UInt8} (hkind : ClosedBy opener closer)
      (hinner : WellNested inner) (hrest : WellNested rest) :
      WellNested (opener :: (inner ++ closer :: rest))

theorem ClosedBy.classes (h : ClosedBy opener closer) :
    isOpener opener = true ∧ isCloser closer = true := by
  cases h <;> decide

/-- Well nested brackets leave open what was open before them. -/
theorem WellNested.braceDepth_append (h : WellNested bs) (depth : Nat) (more : List UInt8) :
    braceDepth depth (bs ++ more) = braceDepth depth more := by
  induction h generalizing depth more with
  | nil => rfl
  | group hkind _ _ hinner hrest =>
    rw [cons_append, append_assoc, cons_append]
    cases hkind with
    | parentheses | brackets =>
      rw [braceDepth_other (by decide) (by decide), hinner,
        braceDepth_other (by decide) (by decide), hrest]
    | braces => rw [braceDepth_opener, hinner, braceDepth_closer, hrest]

/-- What stands between two braces is well nested when the whole is and the first brace is closed by
the last one. -/
theorem WellNested.inner (h : WellNested (byte '\x7b' :: (bs ++ [byte '\x7d'])))
    (hdepth : braceDepth 0 bs = some 0) : WellNested bs := by
  generalize hall : byte '\x7b' :: (bs ++ [byte '\x7d']) = all at h
  cases h with
  | nil => cases hall
  | @group opener closer inner rest hkind hinner hrest =>
    obtain ⟨hopener, hlist⟩ := List.cons.inj hall
    obtain rfl : closer = byte '\x7d' := by
      subst hopener
      cases hkind
      rfl
    rcases eq_nil_or_concat rest with rfl | ⟨more, last, rfl⟩
    · rw [(append_inj' hlist rfl).1]
      exact hinner
    · -- The first brace would be closed before the last one.
      rw [concat_eq_append, ← cons_append, ← append_assoc] at hlist
      rw [(append_inj' hlist rfl).1, hinner.braceDepth_append,
        braceDepth_lastCloser] at hdepth
      cases hdepth

/-! ## The scan that counts all brackets -/

/-- A run can be cut wherever its brackets can. -/
theorem BracketRun.split (h : BracketRun c (front ++ back) d) :
    ∃ e, BracketRun c front e ∧ BracketRun e back d := by
  generalize hall : front ++ back = all at h
  induction h generalizing front with
  | @refl c =>
    obtain ⟨rfl, rfl⟩ := append_eq_nil_iff.mp hall
    exact ⟨c, .refl, .refl⟩
  | plain hspace hq hb htoken _ ih =>
    obtain ⟨e, hfront, hback⟩ := ih hall
    exact ⟨e, .plain hspace hq hb htoken hfront, hback⟩
  | @bracket c q d crosses b rest bs hspace hq hb hrest ih =>
    cases front with
    | nil =>
      rw [nil_append] at hall
      exact ⟨c, .refl, hall ▸ .bracket hspace hq hb hrest⟩
    | cons a front =>
      obtain ⟨rfl, hmore⟩ := List.cons.inj hall
      obtain ⟨e, hfront, hback⟩ := ih hmore
      exact ⟨e, .bracket hspace hq hb hfront, hback⟩

section Statement

variable {start c e d : Cursor} {n : Nat}

/-- Inside a bracket, tokens that are no brackets are passed. -/
theorem StretchRun.of_plain (hrun : BracketRun c [] e)
    (h : StretchRun .statement start e (n + 1) d) : StretchRun .statement start c (n + 1) d := by
  generalize hall : ([] : List UInt8) = bs at hrun
  induction hrun with
  | refl => exact h
  | plain hspace hq hb htoken _ ih =>
    refine .token hspace hq (fun hn => absurd hn (Nat.succ_ne_zero n)) ?_ (htoken _) (ih h hall)
    rintro ⟨_, rfl, _⟩
    exact absurd hb (by decide)
  | bracket => cases hall

/-- Inside a bracket, a bracket changes the depth, unless it is the brace that closes a block. -/
theorem StretchRun.of_bracket (hrun : BracketRun c [b] e) (hopen : ¬(n + 1 = 1 ∧ b = byte '\x7d'))
    (htoken : ∀ {q : Cursor} {rest : List UInt8}, q.after = b :: rest →
      Scan.token (n + 1) q = .ok (k + 1) (q.advance 1))
    (h : StretchRun .statement start e (k + 1) d) : StretchRun .statement start c (n + 1) d := by
  have hinside : ∀ {P : Prop}, n + 1 = 0 → P := fun hn => absurd hn (Nat.succ_ne_zero n)
  generalize hall : [b] = bs at hrun
  induction hrun with
  | refl => cases hall
  | plain hspace hq hb hplain _ ih =>
    refine .token hspace hq hinside ?_ (hplain _) (ih h hall)
    rintro ⟨_, rfl, _⟩
    exact absurd hb (by decide)
  | bracket hspace hq hb hrest =>
    cases hall
    exact .token hspace hq hinside (fun hclose => hopen ⟨hclose.1, hclose.2.1⟩) (htoken hq)
      (.of_plain hrest h)

/-- Inside a bracket, well nested brackets are passed and leave the depth as it was. -/
theorem StretchRun.of_wellNested (hbs : WellNested bs) (hrun : BracketRun c bs e)
    (h : StretchRun .statement start e (n + 1) d) : StretchRun .statement start c (n + 1) d := by
  induction hbs generalizing c e n with
  | nil => exact .of_plain hrun h
  | @group opener closer inner rest hkind _ _ hinner hrest =>
    obtain ⟨hopener, hcloser⟩ := hkind.classes
    have hparts : opener :: (inner ++ closer :: rest) =
        [opener] ++ (inner ++ ([closer] ++ rest)) :=
      rfl
    rw [hparts] at hrun
    obtain ⟨p, hfirst, hrun⟩ := hrun.split
    obtain ⟨q, hmiddle, hrun⟩ := hrun.split
    obtain ⟨r, hlast, hrun⟩ := hrun.split
    refine .of_bracket hfirst ?_ (fun hq => token_opener hq hopener (n + 1)) (hinner hmiddle
      (.of_bracket hlast ?_ (fun hq => token_closer hq hcloser (n + 1 + 1)) (hrest hrun h)))
    · rintro ⟨_, rfl⟩
      exact absurd hopener (by decide)
    · rintro ⟨hdepth, _⟩
      omega

end Statement

/-! ## Main statement -/

/-- A `;` follows after the spaces and tabs `blanks`. -/
def Cursor.SemicolonAfter (c : Cursor) (blanks : List UInt8) : Prop :=
  (∀ b ∈ blanks, b = byte ' ' ∨ b = byte '\t') ∧ ∃ rest, c.after = blanks ++ byte ';' :: rest

theorem Cursor.pastSemicolon_spec (c : Cursor) :
    (∃ blanks, c.SemicolonAfter blanks ∧ c.pastSemicolon = c.advance (blanks.length + 1)) ∨
      (∀ blanks, ¬c.SemicolonAfter blanks) ∧ c.pastSemicolon = c := by
  let isGap : UInt8 → Bool := fun b => b == byte ' ' || b == byte '\t'
  have hgap : ∀ b, isGap b = true ↔ b = byte ' ' ∨ b = byte '\t' := by simp [isGap]
  unfold pastSemicolon
  dsimp only
  split
  · rename_i hhead
    left
    refine ⟨c.after.takeWhile isGap, ⟨fun b hb => ?_, ?_⟩, rfl⟩
    · exact (hgap b).mp (all_eq_true.mp all_takeWhile b hb)
    · obtain ⟨rest, hrest⟩ := head?_eq_some_iff.mp (beq_iff_eq.mp hhead)
      refine ⟨rest, ?_⟩
      rw [← hrest, ← dropWhile_eq_drop, takeWhile_append_dropWhile]
  · rename_i hhead
    refine .inr ⟨?_, rfl⟩
    rintro blanks ⟨hblanks, rest, hafter⟩
    have htake : c.after.takeWhile isGap = blanks := by
      rw [hafter, takeWhile_append_of_pos fun b hb => (hgap b).mpr (hblanks b hb),
        takeWhile_cons_of_neg (by decide), append_nil]
    refine hhead ?_
    change ((c.after.drop (c.after.takeWhile isGap).length).head? == some (byte ';')) = true
    rw [htake, hafter, drop_left]
    rfl

theorem boundary_opener (start : Cursor) (crosses : Bool) :
    StretchKind.statement.boundary start start crosses (byte '\x7b') = .inside := by
  simp only [StretchKind.boundary, Nat.lt_irrefl, decide_false, Bool.and_false, Bool.false_and,
    Bool.false_eq_true, if_false]
  rfl

/-- The two scans from a brace on. -/
theorem Scan.statement_of_block {r : Range} (hblock : braces c = .ok r d) :
    r = c.rangeTo d ∧ ∃ bs, bracketsUpTo c d.pos = some bs ∧
      (WellNested bs → statement c = .ok (c.rangeTo d.pastSemicolon) d.pastSemicolon) := by
  obtain ⟨hbyte, hclose, hr⟩ : c.byte? = some (byte '\x7b') ∧
      closeEnclosures [.braces 0 c.pos] (c.advance 1) = .ok () d ∧ r = c.rangeTo d := by
    unfold braces block at hblock
    split at hblock
    · rename_i hbyte
      split at hblock
      · rename_i hclose
        cases hblock
        exact ⟨beq_iff_eq.mp hbyte, hclose, rfl⟩
      · cases hblock
    · cases hblock
  obtain ⟨more, hc⟩ := head?_eq_some_iff.mp hbyte
  have hspace : trivia c = .ok false c :=
    trivia_of_nothing hc (triviaItem_of_startsCode (by decide) _)
  obtain ⟨bs, hdepth, p, q, crosses, rest, hrun, hlast, hq, rfl⟩ :=
    closeEnclosures_closesAfter hclose
  refine ⟨hr, byte '\x7b' :: (bs ++ [byte '\x7d']), ?_, fun hnested => ?_⟩
  · exact (BracketRun.bracket hspace hc (by decide)
      (hrun.append (.bracket hlast hq (by decide) .refl))).bracketsUpTo
  · refine stretchFrom_of_run (.token hspace hc (fun _ => boundary_opener c false) ?_
      (token_opener hc (by decide) 0) (.of_wellNested (hnested.inner hdepth) hrun
        (.block hlast hq rfl)))
    rintro ⟨hzero, _⟩
    cases hzero

/-- Where a block in braces is passed and the brackets in it are nested by kind, a statement that
starts with the block ends with it, or with the `;` that follows it on the same line. -/
theorem statement_of_braces {text : String} {pos stop : Nat} {d : Cursor}
    (hblock : braces ((ofText text).moveTo pos) = .ok ⟨pos, stop⟩ d) :
    ∃ bs, bracketsUpTo ((ofText text).moveTo pos) stop = some bs ∧
      (WellNested bs → ∃ last,
        statement ((ofText text).moveTo pos) =
          .ok ⟨pos, last⟩ ((ofText text).moveTo last) ∧
        ((∃ blanks, ((ofText text).moveTo stop).SemicolonAfter blanks ∧
            last = stop + blanks.length + 1) ∨
          (∀ blanks, ¬((ofText text).moveTo stop).SemicolonAfter blanks) ∧
            last = stop)) := by
  obtain ⟨hr, bs, hbs, hstatement⟩ := statement_of_block hblock
  have hpos : pos = ((ofText text).moveTo pos).pos := congrArg Range.pos hr
  obtain rfl : stop = d.pos := congrArg Range.stop hr
  have hbytes : d.bytes = bytesOf text :=
    (block_onward (by decide) hblock).bytes_eq.trans (bytes_advance _ _)
  have hlast : d.pastSemicolon.bytes = bytesOf text :=
    (pastSemicolon_onward d).bytes_eq.trans hbytes
  refine ⟨bs, hbs, fun hnested => ⟨d.pastSemicolon.pos, ?_, ?_⟩⟩
  · rw [hstatement hnested, moveTo_pos hlast, rangeTo, ← hpos]
  · rw [moveTo_pos hbytes]
    rcases d.pastSemicolon_spec with ⟨blanks, hafter, hpast⟩ | ⟨hnone, hpast⟩
    · refine .inl ⟨blanks, hafter, ?_⟩
      obtain ⟨_, rest, hd⟩ := hafter
      rw [hpast, pos_advance, hd]
      simp only [length_append, length_cons]
      omega
    · exact .inr ⟨hnone, by rw [hpast]⟩

def blockWithLiterals : Cursor :=
  .ofText "\x7b f([/\x7d/, '(']) \x7d  ;"

theorem blockWithLiterals_agree :
    ∃ d bs last, braces (blockWithLiterals.moveTo 0) = .ok ⟨0, 17⟩ d ∧
      bracketsUpTo (blockWithLiterals.moveTo 0) 17 = some bs ∧ WellNested bs ∧
      statement (blockWithLiterals.moveTo 0) = .ok ⟨0, last⟩ (blockWithLiterals.moveTo last) ∧
      ∃ blanks, (blockWithLiterals.moveTo 17).SemicolonAfter blanks ∧
        last = 17 + blanks.length + 1 := by
  have hblock : braces (blockWithLiterals.moveTo 0) =
      .ok ⟨0, 17⟩ (blockWithLiterals.moveTo 17) := by cbv
  have hlisted : bracketsUpTo (blockWithLiterals.moveTo 0) 17 =
      some [byte '\x7b', byte '(', byte '[', byte ']', byte ')', byte '\x7d'] := by cbv
  have hnested : WellNested [byte '\x7b', byte '(', byte '[', byte ']', byte ')', byte '\x7d'] :=
    @WellNested.group _ _ [byte '(', byte '[', byte ']', byte ')'] [] .braces
      (@WellNested.group _ _ [byte '[', byte ']'] [] .parentheses
        (@WellNested.group _ _ [] [] .brackets .nil .nil) .nil) .nil
  have hblanks : (blockWithLiterals.moveTo 17).SemicolonAfter [byte ' ', byte ' '] :=
    ⟨by simp, [], by cbv⟩
  obtain ⟨bs, hbs, hagree⟩ := statement_of_braces hblock
  obtain rfl := Option.some.inj (hbs.symm.trans hlisted)
  obtain ⟨last, hstatement, hlast⟩ := hagree hnested
  refine ⟨_, _, last, hblock, hbs, hnested, hstatement, ?_⟩
  exact hlast.resolve_right fun hnone => hnone.1 _ hblanks

end ModuleBridge
