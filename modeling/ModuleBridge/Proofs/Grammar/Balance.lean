import Mathlib
import ModuleBridge.Proofs.Grammar.Stretches
import ModuleBridge.Proofs.Source.CopyStretch

/-!
# Brackets of stretches

Every token adds one to the bracket depth, takes one away or leaves it as it is. `bracketSigns` lists
what the tokens of a stretch do, outside strings, templates, regular expressions and comments. The
depth of a stretch never falls below zero, and it ends at zero unless the text itself ends first: a
bracket that is never closed takes everything to the end of the text along. Main statement:
`stretches_balance`.
-/

namespace ModuleBridge

open Scan Cursor List

variable {b : UInt8} {c e q : Cursor} {k n : Nat} {rest : List UInt8}

/-! ## Signs of tokens -/

/-- What a token that starts with the byte `b` adds to the bracket depth. -/
def bracketSign (b : UInt8) : Int :=
  if isOpener b then 1 else if isCloser b then -1 else 0

theorem bracketSign_opener (h : isOpener b = true) : bracketSign b = 1 := by
  simp [bracketSign, h]

theorem bracketSign_closer (h : isCloser b = true) : bracketSign b = -1 := by
  simp [bracketSign, h, (isCloser_plain h).2]

theorem bracketSign_other (hopen : isOpener b = false) (hclose : isCloser b = false) :
    bracketSign b = 0 := by
  simp [bracketSign, hopen, hclose]

theorem Scan.token_sign (hq : q.after = b :: rest) (h : token n q = .ok k e)
    (hpos : isCloser b = true → 0 < n) : (k : Int) = n + bracketSign b := by
  rcases token_cases hq h with ⟨hlit, rfl⟩ | ⟨_, ⟨hopen, rfl, _⟩ | ⟨_, hclose, rfl, _⟩ |
    ⟨hopen, hclose, rfl, _⟩⟩
  · -- A literal starts with no bracket.
    have hopen : isOpener b = false := Bool.eq_false_iff.mpr fun hb => by
      rw [literal_of_plain hq (isOpener_plain hb).1] at hlit
      cases hlit
    have hclose : isCloser b = false := Bool.eq_false_iff.mpr fun hb => by
      rw [literal_of_plain hq (isCloser_plain hb).1] at hlit
      cases hlit
    rw [bracketSign_other hopen hclose, Int.add_zero]
  · rw [bracketSign_opener hopen]
    rfl
  · have := hpos hclose
    rw [bracketSign_closer hclose]
    omega
  · rw [bracketSign_other hopen hclose, Int.add_zero]

/-! ## Signs of a stretch -/

/-- What the tokens from `c` up to the place `stop` add to the bracket depth, one after the other;
none if no token ends at that place. -/
def bracketSigns (c : Cursor) (stop : Nat) : Option (List Int) :=
  (tokenStarts c stop).map (map bracketSign)

theorem bracketSigns_self (c : Cursor) : bracketSigns c c.pos = some [] := by
  rw [bracketSigns, tokenStarts_self]
  rfl

theorem bracketSigns_step {crosses : Bool} {stop : Nat} (hspace : trivia c = .ok crosses q)
    (hq : q.after = b :: rest) (htoken : token n q = .ok k e) (hne : c.pos ≠ stop) :
    bracketSigns c stop = (bracketSigns e stop).map (bracketSign b :: ·) := by
  rw [bracketSigns, tokenStarts_step hspace hq htoken hne, bracketSigns, Option.map_map,
    Option.map_map]
  rfl

/-- From depth `n` on, the depth never falls below zero. -/
def SteadyFrom (n : Int) (signs : List Int) : Prop :=
  ∀ front, front <+: signs → 0 ≤ n + front.sum

theorem SteadyFrom.nil {n : Int} (hn : 0 ≤ n) : SteadyFrom n [] := by
  intro front hfront
  rw [prefix_nil.mp hfront, sum_nil, Int.add_zero]
  exact hn

theorem SteadyFrom.cons {n sign : Int} {signs : List Int} (hn : 0 ≤ n)
    (h : SteadyFrom (n + sign) signs) : SteadyFrom n (sign :: signs) := by
  intro front hfront
  rcases prefix_cons_iff.mp hfront with rfl | ⟨more, rfl, hmore⟩
  · rwa [sum_nil, Int.add_zero]
  · rw [sum_cons, ← Int.add_assoc]
    exact h more hmore

/-- Every closing bracket closes one that is open, and in the end none is open. -/
structure Balanced (signs : List Int) : Prop where
  steady : SteadyFrom 0 signs
  closed : signs.sum = 0

/-- Only trivia follows up to the end of the text. -/
def Cursor.EndsText (c : Cursor) : Prop :=
  ∃ crosses q, trivia c = .ok crosses q ∧ q.after = []

theorem token_semicolon (hq : q.after = byte ';' :: rest) : token 0 q = .ok 0 (q.advance 1) := by
  have hread : decodeFirst? (byte ';' :: rest) = some ';' := decodeFirst?_utf8EncodeChar ';' rest
  have hstep : q.stepLength = 1 := by
    rw [stepLength, char?, hq, hread]
    rfl
  have hopen : isOpener (byte ';') = false := by decide
  have hclose : isCloser (byte ';') = false := by decide
  have hname : isNamePart (byte ';') = false := by decide
  simp only [token, hq, literal_of_plain hq (by decide : startsLiteral (byte ';') = false), hopen,
    hclose, hname, hstep, Bool.false_eq_true, if_false]

theorem bracketSigns_token {crosses : Bool} (hspace : trivia c = .ok crosses q)
    (hq : q.after = b :: rest) (htoken : token n q = .ok k e) :
    bracketSigns c e.pos = some [bracketSign b] := by
  have hle := (trivia_onward hspace).pos_le
  have hlt := token_pos_lt (by simp [hq]) htoken
  rw [bracketSigns_step hspace hq htoken (by omega), bracketSigns_self]
  rfl

/-- How a run from `c` with `n` open brackets ends: at depth zero, at the end of the text with
brackets open, or as a closing bracket of its own. -/
inductive RunEnd (kind : StretchKind) (start c d : Cursor) (n : Nat) (signs : List Int) : Prop where
  | closed (hsteady : SteadyFrom n signs) (hsum : n + signs.sum = 0)
  | atEnd (hsteady : SteadyFrom n signs) (hsum : 0 < n + signs.sum) (hend : d.EndsText)
  | stray {crosses : Bool} {q : Cursor} (hkind : kind = .statement) (hstart : c.pos = start.pos)
      (hspace : trivia c = .ok crosses q) (hstop : d.pos = q.pos + 1) (hsigns : signs = [-1])

theorem StretchRun.runEnd {kind : StretchKind} {start d : Cursor} (h : StretchRun kind start c n d)
    (hstart : start.pos ≤ c.pos) :
    ∃ signs, bracketSigns c d.pos = some signs ∧ RunEnd kind start c d n signs := by
  induction h with
  | @atEnd c q n crosses hspace hq =>
    refine ⟨[], bracketSigns_self c, ?_⟩
    have hsteady : SteadyFrom n [] := .nil (Int.natCast_nonneg n)
    rcases Nat.eq_zero_or_pos n with rfl | hpos
    · exact .closed hsteady rfl
    · refine .atEnd hsteady ?_ ⟨crosses, q, hspace, hq⟩
      rw [sum_nil, Int.add_zero]
      exact_mod_cast hpos
  | before => exact ⟨[], bracketSigns_self _, .closed (.nil (Int.le_refl 0)) rfl⟩
  | @after c q crosses b rest hspace hq hb =>
    rcases boundary_after_cases hb with rfl | ⟨hclose, hpos⟩
    · refine ⟨[0], bracketSigns_token hspace hq (token_semicolon hq), .closed ?_ rfl⟩
      exact .cons (Int.le_refl 0) (.nil (Int.le_refl 0))
    · refine ⟨[-1], ?_, .stray (boundary_after_kind hb) hpos hspace (by simp [hq]) rfl⟩
      rw [bracketSigns_token hspace hq (token_closer hq hclose 0), bracketSign_closer hclose]
  | @block c q crosses rest hspace hq hkind =>
    have htoken : Scan.token 1 q = .ok 0 (q.advance 1) := token_closer hq (by decide) 1
    have hbrace : bracketSign (byte '\x7d') = -1 := rfl
    rcases pastSemicolon_cases (q.advance 1) with hstay |
      ⟨q', rest', hblank, hsemicolon, hpast⟩
    · refine ⟨[-1], ?_, .closed ?_ rfl⟩
      · rw [hstay, bracketSigns_token hspace hq htoken, hbrace]
      · exact .cons (by decide) (.nil (by decide))
    · refine ⟨[-1, 0], ?_, .closed ?_ rfl⟩
      · have hle := (trivia_onward hspace).pos_le
        have hlt := token_pos_lt (by simp [hq]) htoken
        have hle' := (trivia_onward hblank).pos_le
        have hlt' := token_pos_lt (by simp [hsemicolon]) (token_semicolon hsemicolon)
        rw [hpast, bracketSigns_step hspace hq htoken (by omega),
          bracketSigns_token hblank hsemicolon (token_semicolon hsemicolon), hbrace]
        rfl
      · exact .cons (by decide) (.cons (by decide) (.nil (by decide)))
  | @token c q e d n k crosses b rest hspace hq hb hopen htoken hrest ih =>
    have hle := (trivia_onward hspace).pos_le
    have hlt := token_pos_lt (by simp [hq]) htoken
    have hed := hrest.onward.pos_le
    obtain ⟨signs, hsigns, hend⟩ := ih (by omega)
    have hsign : (k : Int) = n + bracketSign b := by
      refine token_sign hq htoken fun hclose => Nat.pos_of_ne_zero ?_
      rintro rfl
      have hplain := boundary_inside (hb rfl)
      rw [isTerminator, hclose, Bool.or_true] at hplain
      cases hplain
    refine ⟨bracketSign b :: signs, ?_, ?_⟩
    · rw [bracketSigns_step hspace hq htoken (by omega), hsigns]
      rfl
    · cases hend with
      | closed hsteady hsum =>
        rw [hsign] at hsteady hsum
        refine .closed (.cons (Int.natCast_nonneg n) hsteady) ?_
        rw [sum_cons, ← Int.add_assoc, hsum]
      | atEnd hsteady hsum hend =>
        rw [hsign] at hsteady hsum
        refine .atEnd (.cons (Int.natCast_nonneg n) hsteady) ?_ hend
        rwa [sum_cons, ← Int.add_assoc]
      | stray _ hpos => omega

/-! ## Stretches of complete code -/

theorem exists_run_of_tokens (kind : StretchKind) (start : Cursor) {stop : Nat}
    {starts : List UInt8} (h : tokenStarts c stop = some starts)
    (hend : (c.moveTo stop).EndsText) (n : Nat) : ∃ d, StretchRun kind start c n d := by
  fun_induction tokenStarts c stop generalizing starts n with
  | case1 c hpos =>
    subst hpos
    rw [moveTo, ← eq_moveTo] at hend
    obtain ⟨crosses, q, hspace, hq⟩ := hend
    exact ⟨c, .atEnd hspace hq⟩
  | case2 | case3 | case4 => cases h
  | case5 c hpos length crosses hreach b rest hq k e htoken ih =>
    have hspace : trivia c = .ok crosses (c.advance length) :=
      trivia_eq_ok.mpr ⟨length, hreach, rfl⟩
    obtain ⟨more, hmore, _⟩ := Option.map_eq_some_iff.mp h
    obtain ⟨l, htoken⟩ := token_end htoken n
    have hbytes : e.bytes = c.bytes :=
      ((trivia_onward hspace).trans (token_onward _ htoken)).bytes_eq
    rw [moveTo, ← hbytes] at hend
    have hgoes : (n = 0 → kind.boundary start c crosses b = .inside) →
        ∃ d, StretchRun kind start c n d := by
      intro hinside
      by_cases hblock : n = 1 ∧ b = byte '\x7d' ∧ kind = .statement
      · obtain ⟨rfl, rfl, hkind⟩ := hblock
        exact ⟨_, .block hspace hq hkind⟩
      · obtain ⟨d, hrun⟩ := ih hmore hend l
        exact ⟨d, .token hspace hq hinside hblock htoken hrun⟩
    by_cases hn : n = 0
    · subst hn
      cases hb : kind.boundary start c crosses b with
      | before => exact ⟨_, .before hspace hq hb⟩
      | after => exact ⟨_, .after hspace hq hb⟩
      | inside => exact hgoes fun _ => hb
    · exact hgoes fun h => absurd h hn

theorem IsStretchOf.balance {kind : StretchKind} {text : String} {r : Range}
    (h : IsStretchOf kind text r) :
    ∃ signs, bracketSigns ((ofText text).moveTo r.pos) r.stop = some signs ∧
      (Balanced signs ∨
        (SteadyFrom 0 signs ∧ 0 < signs.sum ∧ ((ofText text).moveTo r.stop).EndsText) ∨
        (signs = [-1] ∧ r.stop = r.pos + 1 ∧ kind = .statement)) := by
  obtain ⟨c, d, hbytes, rfl, hrun, hclear⟩ := h
  obtain ⟨signs, hsigns, hend⟩ := hrun.runEnd (Nat.le_refl _)
  have hd : d.bytes = bytesOf text := hrun.onward.bytes_eq.trans hbytes
  rw [pos_rangeTo, stop_rangeTo, moveTo_pos hbytes, moveTo_pos hd]
  refine ⟨signs, hsigns, ?_⟩
  cases hend with
  | closed hsteady hsum => exact .inl ⟨hsteady, by simpa using hsum⟩
  | atEnd hsteady hsum hend => exact .inr (.inl ⟨hsteady, by simpa using hsum, hend⟩)
  | stray hkind _ hspace hstop hone =>
    cases (trivia_of_clear hclear).symm.trans hspace
    exact .inr (.inr ⟨hone, hstop, hkind⟩)

theorem Statement.eq_verbatim {s : Statement} {r : Range} (hr : r ∈ s.stretches)
    (hkind : s.stretchKind = .statement) : ∃ code, s = .verbatim code r := by
  cases s with
  | verbatim code range =>
    obtain rfl := mem_singleton.mp hr
    exact ⟨code, rfl⟩
  | _ => cases hkind

/-- The stretches of a text. Where it was read as a module they keep their depth above zero and end
at zero, with two exceptions: a closing bracket that is a statement of its own, and a last stretch
whose brackets are still open where the text ends. For no open bracket is a stretch refused: it is
passed wherever tokens lead to the end of the text. -/
theorem stretches_balance (text : String) :
    (∀ {m : Module}, parseModule text = .ok m → ∀ s ∈ m.body, ∀ r ∈ s.stretches,
      ∃ signs, bracketSigns ((ofText text).moveTo r.pos) r.stop = some signs ∧
        (Balanced signs ∨
          (SteadyFrom 0 signs ∧ 0 < signs.sum ∧ ((ofText text).moveTo r.stop).EndsText) ∨
          (signs = [-1] ∧ r.stop = r.pos + 1 ∧ ∃ code, s = .verbatim code r))) ∧
    ∀ {pos stop : Nat} {signs : List Int},
      bracketSigns ((ofText text).moveTo pos) stop = some signs →
      ((ofText text).moveTo stop).EndsText →
        (∃ r d, statement ((ofText text).moveTo pos) = .ok r d) ∧
          ∃ r d, expression ((ofText text).moveTo pos) = .ok r d := by
  constructor
  · intro m hread s hs r hr
    obtain ⟨signs, hsigns, hcases⟩ := (parseModule_stretchesOf hread s hs r hr).balance
    refine ⟨signs, hsigns, ?_⟩
    rcases hcases with hbalanced | hopen | ⟨hone, hstop, hkind⟩
    · exact .inl hbalanced
    · exact .inr (.inl hopen)
    · exact .inr (.inr ⟨hone, hstop, Statement.eq_verbatim hr hkind⟩)
  · intro pos stop signs hsigns hend
    have hbytes : ((ofText text).moveTo pos).bytes = (ofText text).bytes :=
      bytes_advance _ _
    rw [moveTo, ← hbytes] at hend
    obtain ⟨starts, hstarts, _⟩ := Option.map_eq_some_iff.mp hsigns
    obtain ⟨d, hstatement⟩ := exists_run_of_tokens .statement _ hstarts hend 0
    obtain ⟨e, hexpression⟩ := exists_run_of_tokens .expression _ hstarts hend 0
    exact ⟨⟨_, _, stretchFrom_of_run hstatement⟩, _, _, stretchFrom_of_run hexpression⟩

/-- A call without its closing parenthesis is read as a statement that ends with the text. -/
theorem unclosed_call_read :
    ∃ m s signs, parseModule "f(1" = .ok m ∧ m.body = [s] ∧ s.stretches = [⟨0, 3⟩] ∧
      bracketSigns ((ofText "f(1").moveTo 0) 3 = some signs ∧ SteadyFrom 0 signs ∧
      0 < signs.sum ∧ ((ofText "f(1").moveTo 3).EndsText ∧
      ∃ r d, expression ((ofText "f(1").moveTo 0) = .ok r d := by
  obtain ⟨m, s, hread, hbody, hs⟩ : ∃ m s, parseModule "f(1" = .ok m ∧ m.body = [s] ∧
      s.stretches = [⟨0, 3⟩] := by
    refine ⟨_, _, by cbv, rfl, rfl⟩
  obtain ⟨hbalance, hpasses⟩ := stretches_balance "f(1"
  obtain ⟨signs, hsigns, hcases⟩ := hbalance hread s (by simp [hbody]) ⟨0, 3⟩ (by simp [hs])
  have hcomputed : bracketSigns ((ofText "f(1").moveTo 0) 3 = some [0, 1, 0] := by cbv
  obtain rfl := Option.some.inj (hsigns.symm.trans hcomputed)
  rcases hcases with ⟨_, hclosed⟩ | ⟨hsteady, hsum, hend⟩ | ⟨hstray, _⟩
  · cases hclosed
  · exact ⟨m, s, _, hread, hbody, hs, hsigns, hsteady, hsum, hend, (hpasses hsigns hend).2⟩
  · cases hstray

end ModuleBridge
