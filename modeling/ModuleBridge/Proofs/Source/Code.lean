import ModuleBridge.Proofs.Source.Onward

/-!
# Code, token by token

A stretch is passed as trivia and tokens in turn. `Scan.token` is one such token, with the bracket
depth it leaves, and `StretchRun` lists how a stretch goes on or ends; a stretch succeeds exactly
when there is such a run, so what is said of stretches is proved along runs.
-/

namespace ModuleBridge

open Cursor List

variable {b : UInt8} {rest : List UInt8} {c d start last : Cursor} {depth depth' : Nat}
  {kind : StretchKind} {r : Range}

theorem isOpener_ascii : isOpener b = true → b < 128 := by
  apply forall_byte _ b
  decide +kernel

theorem isCloser_ascii : isCloser b = true → b < 128 := by
  apply forall_byte _ b
  decide +kernel

/-- The bytes that may start a literal: quotes, the backtick and the slash. -/
def startsLiteral (b : UInt8) : Bool :=
  isQuote b || b == byte '\x60' || b == byte '/'

theorem literalStart_of_plain {before : List UInt8} (h : startsLiteral b = false) :
    literalStart before b rest = .none := by
  simp only [startsLiteral, Bool.or_eq_false_iff] at h
  simp only [literalStart, h, Bool.false_eq_true, Bool.false_and, if_false]

theorem isOpener_plain : isOpener b = true → startsLiteral b = false ∧ isCloser b = false := by
  apply forall_byte _ b
  decide +kernel

theorem isCloser_plain : isCloser b = true → startsLiteral b = false ∧ isOpener b = false := by
  apply forall_byte _ b
  decide +kernel

namespace Scan

theorem literal_of_plain (hc : c.after = b :: rest) (hb : startsLiteral b = false) :
    literal c = .ok false c := by
  simp only [literal, hc, literalStart_of_plain hb]

/-! ## Tokens -/

/-- Pass one token of code where no trivia stands, and answer the bracket depth after it. -/
def token (depth : Nat) : Scan Nat := fun c =>
  match c.after with
  | [] => .ok depth c
  | b :: rest =>
    match literal c with
    | .error fault d => .error fault d
    | .ok true d => .ok depth d
    | .ok false _ =>
      if isOpener b then .ok (depth + 1) (c.advance 1)
      else if isCloser b then .ok (depth - 1) (c.advance 1)
      else if isNamePart b then .ok depth (c.advance ((rest.takeWhile isNamePart).length + 1))
      else .ok depth (c.advance c.stepLength)

theorem token_closer (hc : c.after = b :: rest) (hb : isCloser b = true) (depth : Nat) :
    token depth c = .ok (depth - 1) (c.advance 1) := by
  obtain ⟨hplain, hopen⟩ := isCloser_plain hb
  simp [token, hc, literal_of_plain hc hplain, hopen, hb]

theorem token_cases (hc : c.after = b :: rest) (h : token depth c = .ok depth' d) :
    (literal c = .ok true d ∧ depth' = depth) ∨
    (literal c = .ok false c ∧
      ((isOpener b = true ∧ depth' = depth + 1 ∧ d = c.advance 1) ∨
       (isOpener b = false ∧ isCloser b = true ∧ depth' = depth - 1 ∧ d = c.advance 1) ∨
       (isOpener b = false ∧ isCloser b = false ∧ depth' = depth ∧
        ((isNamePart b = true ∧ d = c.advance (c.after.takeWhile isNamePart).length) ∨
         (isNamePart b = false ∧ d = c.advance c.stepLength))))) := by
  unfold token at h
  rw [hc] at h
  dsimp only at h
  split at h
  · cases h
  · rename_i e hlit
    cases h
    exact .inl ⟨hlit, rfl⟩
  · rename_i e hlit
    cases literal_eq_false hlit
    refine .inr ⟨hlit, ?_⟩
    split at h
    · rename_i hopen
      cases h
      exact .inl ⟨hopen, rfl, rfl⟩
    · rename_i hopen
      split at h
      · rename_i hclose
        cases h
        exact .inr (.inl ⟨by simpa using hopen, hclose, rfl, rfl⟩)
      · rename_i hclose
        refine .inr (.inr ⟨by simpa using hopen, by simpa using hclose, ?_⟩)
        split at h
        · rename_i hname
          cases h
          exact ⟨rfl, .inl ⟨hname, by rw [hc, takeWhile_cons_of_pos hname]; rfl⟩⟩
        · rename_i hname
          cases h
          exact ⟨rfl, .inr ⟨by simpa using hname, rfl⟩⟩

theorem token_onward (depth : Nat) : MovesOnward (token depth) := by
  intro c depth' d h
  cases hc : c.after with
  | nil =>
    simp only [token, hc] at h
    cases h
    exact .refl c
  | cons b rest =>
    rcases token_cases hc h with ⟨hlit, _⟩ | ⟨_, ⟨hopen, _, rfl⟩ | ⟨_, hclose, _, rfl⟩ |
      ⟨_, _, _, ⟨_, rfl⟩ | ⟨_, rfl⟩⟩⟩
    · exact literal_onward hlit
    · exact (Cursor.Past.of_cons hc hopen).onward fun b => isOpener_ascii
    · exact (Cursor.Past.of_cons hc hclose).onward fun b => isCloser_ascii
    · exact .takeWhile fun b => isNamePart_ascii
    · exact .of_advance fun hbound => hbound.advance_stepLength

theorem token_lt (hne : c.after ≠ []) (h : token depth c = .ok depth' d) :
    d.after.length < c.after.length := by
  obtain ⟨b, rest, hc⟩ := exists_cons_of_ne_nil hne
  rcases token_cases hc h with ⟨hlit, _⟩ | ⟨_, ⟨_, _, rfl⟩ | ⟨_, _, _, rfl⟩ |
    ⟨_, _, _, ⟨hname, rfl⟩ | ⟨_, rfl⟩⟩⟩
  · exact literal_lt hlit
  · exact advance_lt Nat.one_pos hc
  · exact advance_lt Nat.one_pos hc
  · refine advance_lt ?_ hc
    rw [hc, takeWhile_cons_of_pos hname]
    exact Nat.succ_pos _
  · exact advance_lt c.stepLength_pos hc

end Scan

/-! ## Stretches -/

open Scan

/-- How a stretch that began at `start` goes on from the end of a token, with `depth` brackets
open, to its end. -/
inductive StretchRun (kind : StretchKind) (start : Cursor) : Cursor → Nat → Cursor → Prop where
  | atEnd {c q : Cursor} {depth : Nat} {crosses : Bool} (hspace : trivia c = .ok crosses q)
      (hq : q.after = []) : StretchRun kind start c depth c
  | before {c q : Cursor} {crosses : Bool} {b : UInt8} {rest : List UInt8}
      (hspace : trivia c = .ok crosses q) (hq : q.after = b :: rest)
      (hb : kind.boundary start c crosses b = .before) : StretchRun kind start c 0 c
  | after {c q : Cursor} {crosses : Bool} {b : UInt8} {rest : List UInt8}
      (hspace : trivia c = .ok crosses q) (hq : q.after = b :: rest)
      (hb : kind.boundary start c crosses b = .after) : StretchRun kind start c 0 (q.advance 1)
  /-- A statement ends with the brace that closes its block. -/
  | block {c q : Cursor} {crosses : Bool} {rest : List UInt8}
      (hspace : trivia c = .ok crosses q) (hq : q.after = byte '\x7d' :: rest)
      (hkind : kind = .statement) : StretchRun kind start c 1 (q.advance 1).pastSemicolon
  | token {c q e d : Cursor} {depth depth' : Nat} {crosses : Bool} {b : UInt8} {rest : List UInt8}
      (hspace : trivia c = .ok crosses q) (hq : q.after = b :: rest)
      (hb : depth = 0 → kind.boundary start c crosses b = .inside)
      (hopen : ¬(depth = 1 ∧ b = byte '\x7d' ∧ kind = .statement))
      (htoken : Scan.token depth q = .ok depth' e) (hrest : StretchRun kind start e depth' d) :
      StretchRun kind start c depth d

theorem stretchFrom_eq (kind : StretchKind) (start c : Cursor) (depth : Nat) :
    stretchFrom kind start c depth c =
      match trivia c with
      | .error fault q => .error fault q
      | .ok crosses q =>
        match q.after with
        | [] => .ok (start.rangeTo c) c
        | b :: _ =>
          match if depth = 0 then kind.boundary start c crosses b else .inside with
          | .before => .ok (start.rangeTo c) c
          | .after => .ok (start.rangeTo (q.advance 1)) (q.advance 1)
          | .inside =>
            match token depth q with
            | .error fault e => .error fault e
            | .ok depth' e =>
              if depth = 1 ∧ b = byte '\x7d' ∧ kind = .statement then
                .ok (start.rangeTo e.pastSemicolon) e.pastSemicolon
              else stretchFrom kind start e depth' e := by
  rw [stretchFrom, trivia]
  cases triviaReach c.after with
  | unclosed length => rfl
  | clear length crosses =>
    dsimp only
    split
    · rename_i hq
      rw [hq]
    · rename_i b rest hq
      simp only [hq]
      cases (if depth = 0 then kind.boundary start c crosses b else .inside) with
      | before => rfl
      | after => rfl
      | inside =>
        simp only [token, hq]
        cases hlit : literal (c.advance length) with
        | error fault e => rfl
        | ok found e =>
          cases found with
          | true =>
            have hplain : ¬(depth = 1 ∧ b = byte '\x7d' ∧ kind = .statement) := by
              rintro ⟨_, rfl, _⟩
              rw [literal_of_plain hq (by decide)] at hlit
              cases hlit
            simp only [if_neg hplain]
          | false =>
            have hplain : isCloser b = false →
                ¬(depth = 1 ∧ b = byte '\x7d' ∧ kind = .statement) := by
              rintro hclose ⟨_, rfl, _⟩
              exact absurd hclose (by decide)
            cases hopen : isOpener b with
            | true =>
              simp only [if_true, if_neg (hplain (isOpener_plain hopen).2)]
            | false =>
              cases hclose : isCloser b with
              | true =>
                simp only [Bool.false_eq_true, if_false, if_true, Bool.and_eq_true,
                  decide_eq_true_eq, beq_iff_eq, and_assoc]
              | false =>
                simp only [Bool.false_eq_true, if_false, if_neg (hplain hclose)]
                cases isNamePart b <;> rfl

theorem stretchFrom_of_run (h : StretchRun kind start c depth d) :
    stretchFrom kind start c depth c = .ok (start.rangeTo d) d := by
  induction h with
  | atEnd hspace hq => rw [stretchFrom_eq, hspace]; simp only [hq]
  | before hspace hq hb => rw [stretchFrom_eq, hspace]; simp only [hq, hb, if_true]
  | after hspace hq hb => rw [stretchFrom_eq, hspace]; simp only [hq, hb, if_true]
  | block hspace hq hkind =>
    rw [stretchFrom_eq, hspace]
    simp only [hq, Nat.one_ne_zero, if_false, token_closer hq (by decide), hkind, and_self, if_true]
  | token hspace hq hb hopen htoken _ ih =>
    rename_i c q e d depth depth' crosses b rest _
    have hinside :
        (if depth = 0 then kind.boundary start c crosses b else .inside) = .inside := by
      split
      · rename_i hdepth
        exact hb hdepth
      · rfl
    rw [stretchFrom_eq, hspace]
    simp only [hq, hinside, htoken, if_neg hopen, ih]

theorem run_of_stretchFrom (h : stretchFrom kind start c depth c = .ok r d) :
    StretchRun kind start c depth d ∧ r = start.rangeTo d := by
  induction hsize : c.after.length using Nat.strongRecOn generalizing c depth with
  | ind size ih =>
    subst hsize
    rw [stretchFrom_eq] at h
    cases hspace : trivia c with
    | error fault q => rw [hspace] at h; cases h
    | ok crosses q =>
      rw [hspace] at h
      dsimp only at h
      cases hq : q.after with
      | nil =>
        rw [hq] at h
        cases h
        exact ⟨.atEnd hspace hq, rfl⟩
      | cons b rest =>
        rw [hq] at h
        dsimp only at h
        split at h
        · rename_i hb
          split at hb
          · rename_i hdepth
            subst hdepth
            cases h
            exact ⟨.before hspace hq hb, rfl⟩
          · cases hb
        · rename_i hb
          split at hb
          · rename_i hdepth
            subst hdepth
            cases h
            exact ⟨.after hspace hq hb, rfl⟩
          · cases hb
        · rename_i hb
          have hinside : depth = 0 → kind.boundary start c crosses b = .inside := by
            intro hdepth
            rwa [if_pos hdepth] at hb
          cases htoken : token depth q with
          | error fault e => rw [htoken] at h; cases h
          | ok depth' e =>
            rw [htoken] at h
            dsimp only at h
            split at h
            · rename_i hclose
              obtain ⟨rfl, rfl, hkind⟩ := hclose
              rw [token_closer hq (by decide)] at htoken
              cases htoken
              cases h
              exact ⟨.block hspace hq hkind, rfl⟩
            · rename_i hopen
              have hlt := token_lt (by simp [hq]) htoken
              have hle := (trivia_onward hspace).length_le
              obtain ⟨hrun, hr⟩ := ih _ (by omega) h rfl
              exact ⟨.token hspace hq hinside hopen htoken hrun, hr⟩

/-! ## Stretches move onward -/

/-- The byte that ends a statement for good: a semicolon or a closing bracket. -/
def isTerminator (b : UInt8) : Bool :=
  b == byte ';' || isCloser b

theorem isTerminator_ascii (b : UInt8) : isTerminator b = true → b < 128 := by
  apply forall_byte _ b
  decide +kernel

theorem Cursor.pastSemicolon_onward (c : Cursor) : c.Onward c.pastSemicolon := by
  unfold Cursor.pastSemicolon
  dsimp only
  split
  · rename_i hsemicolon
    rw [beq_iff_eq, head?_drop] at hsemicolon
    have hpast : Cursor.Past isTerminator c (c.advance (_ + 1)) :=
      ⟨_, _, rfl, hsemicolon, by decide⟩
    exact hpast.onward isTerminator_ascii
  · exact .refl c

theorem boundary_after {crosses : Bool} (h : kind.boundary start last crosses b = .after) :
    isTerminator b = true := by
  unfold StretchKind.boundary at h
  split at h
  · cases h
  · split at h
    · rename_i hsemicolon
      simp only [isTerminator, hsemicolon, Bool.true_or]
    · split at h
      · cases h
      · split at h
        · rename_i hclose
          simp only [isTerminator, hclose, Bool.or_true]
        · cases h

theorem StretchRun.onward (h : StretchRun kind start c depth d) : c.Onward d := by
  induction h with
  | atEnd | before => exact .refl _
  | after hspace hq hb =>
    exact (trivia_onward hspace).trans
      ((Cursor.Past.of_cons hq (boundary_after hb)).onward isTerminator_ascii)
  | block hspace hq _ =>
    have hbrace : isTerminator (byte '\x7d') = true := by decide
    exact (trivia_onward hspace).trans
      (((Cursor.Past.of_cons hq hbrace).onward isTerminator_ascii).trans
        (pastSemicolon_onward _))
  | token hspace _ _ _ htoken _ ih =>
    exact (trivia_onward hspace).trans ((token_onward _ htoken).trans ih)

namespace Scan

theorem expression_onward : MovesOnward expression := by
  intro c r d h
  exact (run_of_stretchFrom h).1.onward

theorem statement_onward : MovesOnward statement := by
  intro c r d h
  exact (run_of_stretchFrom h).1.onward

theorem heritageFrom_onward (h : heritageFrom start last depth c = .ok r d) : c.Onward d := by
  fun_induction heritageFrom start last depth c with
  | case1 | case2 | case4 => cases h
  | case3 last depth c length crosses hreach q =>
    injection h with _ hd
    rw [← hd]
    exact (triviaReach_onward hreach).2
  | case5 last depth c length crosses hreach q b rest hq _ e hlit ih =>
    exact (triviaReach_onward hreach).2.trans ((literal_onward hlit).trans (ih h))
  | case6 | case7 | case8 =>
    rename_i ih
    refine (triviaReach_onward ‹_›).2.trans (.trans ?_ (ih h))
    exact .of_advance fun hbound => hbound.advance_stepLength

theorem heritage_onward : MovesOnward heritage := by
  intro c r d h
  exact heritageFrom_onward h

end Scan

end ModuleBridge
