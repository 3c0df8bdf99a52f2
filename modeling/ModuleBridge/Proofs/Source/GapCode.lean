import ModuleBridge.Proofs.Source.Gap
import ModuleBridge.Proofs.Source.Seam

/-!
# Blocks over a gap

`Agree` compares two runs. Blocks are scanned alike over a comment and over blanks, with one
exception: a slash after the gap looks back over blanks, but not over a comment. `Gap.turnsSlash`
says when that changes what the slash is.
-/

namespace ModuleBridge

open Scan Cursor List

variable {depth start pos : Nat} {outer stack : List Enclosure} {closer opener a : UInt8}
  {c d : Cursor} {rest : List UInt8}

/-! ## Two runs -/

section Agree

variable {α β γ δ : Type} {A B : Cursor → Cursor → Prop} {R : α → β → Prop} {S : γ → δ → Prop}

/-- Both runs succeed, with answers related by `R` and at cursors related by `A`, or both stop with
the same fault. -/
inductive Agree (A : Cursor → Cursor → Prop) (R : α → β → Prop) :
    EStateM.Result Fault Cursor α → EStateM.Result Fault Cursor β → Prop where
  | ok {a : α} {b : β} {c d : Cursor} (hanswer : R a b) (hend : A c d) :
      Agree A R (.ok a c) (.ok b d)
  | error {fault : Fault} {c d : Cursor} : Agree A R (.error fault c) (.error fault d)

section

variable {r : EStateM.Result Fault Cursor α} {r' : EStateM.Result Fault Cursor β}
  (h : Agree A R r r')

include h

theorem Agree.mono (hA : ∀ c d, A c d → B c d) : Agree B R r r' := by
  cases h with
  | ok hanswer hend => exact .ok hanswer (hA _ _ hend)
  | error => exact .error

theorem Agree.answers {Q : α → β → Prop} (hR : ∀ a b, R a b → Q a b) : Agree A Q r r' := by
  cases h with
  | ok hanswer hend => exact .ok (hR _ _ hanswer) hend
  | error => exact .error

theorem Agree.elim :
    (∃ fault c d, r = .error fault c ∧ r' = .error fault d) ∨
      ∃ a b c d, r = .ok a c ∧ r' = .ok b d ∧ R a b ∧ A c d := by
  cases h with
  | ok hanswer hend => exact .inr ⟨_, _, _, _, rfl, rfl, hanswer, hend⟩
  | error => exact .inl ⟨_, _, _, rfl, rfl⟩

end

theorem Agree.bind {op : Scan α} {op' : Scan β} {next : α → Scan γ} {next' : β → Scan δ}
    (h : Agree A R (op c) (op' d))
    (hnext : ∀ a b x y, op c = .ok a x → R a b → A x y → Agree B S (next a x) (next' b y)) :
    Agree B S ((op >>= next) c) ((op' >>= next') d) := by
  change Agree B S (EStateM.bind op next c) (EStateM.bind op' next' d)
  unfold EStateM.bind
  rcases h.elim with ⟨fault, x, y, here, there⟩ | ⟨a, b, x, y, here, there, hanswer, hend⟩
  · rw [here, there]
    exact .error
  · rw [here, there]
    exact hnext a b x y here hanswer hend

theorem Agree.map {op : Scan α} {op' : Scan β} {f : α → γ} {f' : β → δ}
    (h : Agree A R (op c) (op' d)) (hanswer : ∀ a b, R a b → S (f a) (f' b)) :
    Agree A S ((f <$> op) c) ((f' <$> op') d) := by
  change Agree A S (EStateM.map f op c) (EStateM.map f' op' d)
  unfold EStateM.map
  rcases h.elim with ⟨fault, x, y, here, there⟩ | ⟨a, b, x, y, here, there, hab, hend⟩
  · rw [here, there]
    exact .error
  · rw [here, there]
    exact .ok (hanswer a b hab) hend

end Agree

namespace Gap

variable {g : Gap} {c d : Cursor} {x y : List UInt8} {b : UInt8}

theorem Aligned.trivia (h : g.Aligned c d) : Agree g.Settled Eq (trivia c) (trivia d) := by
  cases h.triviaEnd with
  | clear here there hend =>
    simp only [Scan.trivia, here, there]
    exact .ok rfl hend
  | @unclosed length here there =>
    have hpos : (d.advance length).pos = (c.advance length).pos := by
      rw [pos_advance, pos_advance, h.pos_eq, h.length_eq]
    simp only [Scan.trivia, here, there, hpos]
    exact .error

/-- Trivia is passed alike, and no trivia is left at its end. -/
theorem Aligned.trivia_cases (h : g.Aligned c d) :
    (∃ fault q q', Scan.trivia c = .error fault q ∧ Scan.trivia d = .error fault q') ∨
      ∃ crosses q q', Scan.trivia c = .ok crosses q ∧ Scan.trivia d = .ok crosses q' ∧
        g.Settled q q' ∧ triviaItem q.after = .nothing := by
  rcases h.trivia.elim with hfault | ⟨crosses, _, q, q', here, there, rfl, hq⟩
  · exact .inl hfault
  · obtain ⟨length, hreach, rfl⟩ := trivia_eq_ok.mp here
    exact .inr ⟨crosses, _, q', here, there, hq, triviaItem_after_reach hreach⟩

/-! ## Slashes after the gap -/

/-- A slash that opens no comment follows the gap, with at most spacing between. With blanks in the
gap it opens a regular expression, because of what stands before the gap; after the comment it is a
division. -/
def turnsSlash (g : Gap) : Bool :=
  match (bytesOf g.back).dropWhile isSpacingByte with
  | [] => false
  | b :: rest =>
    b == byte '/' && triviaItem (b :: rest) == .nothing &&
      patternAllowedAfter (bytesOf g.front).reverse && (patternReach false rest 0).isSome

theorem patternAllowedAfter_spacing {spacing : List UInt8} (h : ∀ a ∈ spacing, isSpacingByte a = true)
    (rest : List UInt8) : patternAllowedAfter (spacing ++ rest) = patternAllowedAfter rest := by
  rw [patternAllowedAfter, patternAllowedAfter, dropWhile_append_of_pos h]

theorem isSpacing_apart : isSpacingByte a = true → (!isNamePart a && a != byte '.') = true := by
  apply forall_byte _ a
  decide +kernel

/-- A byte after the gap that is no spacing hides the gap from the slash. -/
theorem patternAllowedAfter_hidden {far : List UInt8}
    (hfar : (!isNamePart a && a != byte '.') = true) (hx : ¬∀ b ∈ x, isSpacingByte b = true) :
    patternAllowedAfter (x.reverse ++ a :: far) =
      patternAllowedAfter (x.dropWhile isSpacingByte).reverse := by
  have hsplit := takeWhile_append_dropWhile (p := isSpacingByte) (l := x)
  have hspacing : ∀ b ∈ x.takeWhile isSpacingByte, isSpacingByte b = true :=
    all_eq_true.mp all_takeWhile
  generalize x.takeWhile isSpacingByte = spacing at hsplit hspacing
  cases hrest : x.dropWhile isSpacingByte with
  | nil =>
    rw [hrest, append_nil] at hsplit
    rw [hsplit] at hspacing
    exact absurd hspacing hx
  | cons b rest =>
    have hb : isSpacingByte b = false := by
      have hhead := head?_dropWhile_not isSpacingByte x
      rw [hrest] at hhead
      simpa using hhead
    rw [hrest] at hsplit
    have hbytes : x.reverse ++ a :: far = (b :: rest).reverse ++ (spacing.reverse ++ a :: far) := by
      rw [← hsplit, reverse_append, append_assoc]
    rw [hbytes]
    refine patternAllowedAfter_append (by simp) hb fun _ => ?_
    cases hlast : spacing.reverse with
    | nil => simpa using hfar
    | cons e more =>
      have he : e ∈ spacing := mem_reverse.mp (by rw [hlast]; exact mem_cons_self)
      simpa using isSpacing_apart (hspacing e he)

theorem reverse_comment (g : Gap) : ∃ more, (bytesOf g.comment).reverse = byte '/' :: more := by
  rw [bytes_comment, reverse_cons, reverse_cons, reverse_append]
  exact ⟨_, rfl⟩

theorem reverse_blanks (g : Gap) : ∃ more, (bytesOf g.blanks).reverse = byte ' ' :: more := by
  obtain ⟨n, hn⟩ := Nat.exists_eq_succ_of_ne_zero (Nat.pos_iff_ne_zero.mp g.width_pos)
  rw [bytes_blanks, reverse_replicate, hn, replicate_succ]
  exact ⟨_, rfl⟩

theorem Beyond.patternAllowedAfter_of_spacing (h : g.Beyond c d x y)
    (hx : ∀ a ∈ x, isSpacingByte a = true) :
    patternAllowedAfter c.before = false ∧
      patternAllowedAfter d.before = patternAllowedAfter (bytesOf g.front).reverse := by
  have hreverse : ∀ a ∈ x.reverse, isSpacingByte a = true := fun a ha => hx a (mem_reverse.mp ha)
  rw [h.before_here, h.before_there, patternAllowedAfter_spacing hreverse,
    patternAllowedAfter_spacing hreverse]
  constructor
  · obtain ⟨more, hmore⟩ := g.reverse_comment
    rw [hmore]
    rfl
  · refine patternAllowedAfter_spacing ?_ _
    rw [bytes_blanks, reverse_replicate]
    intro a ha
    rw [eq_of_mem_replicate ha]
    decide

theorem Beyond.patternAllowedAfter_eq (h : g.Beyond c d x y)
    (hx : ¬∀ a ∈ x, isSpacingByte a = true) :
    patternAllowedAfter c.before = patternAllowedAfter d.before := by
  obtain ⟨more, hmore⟩ := g.reverse_comment
  obtain ⟨more', hmore'⟩ := g.reverse_blanks
  rw [h.before_here, h.before_there, hmore, hmore', cons_append, cons_append,
    patternAllowedAfter_hidden (by decide) hx, patternAllowedAfter_hidden (by decide) hx]

/-- The slash that comes first after the gap has one meaning, or it is passed alone as one byte. -/
theorem Beyond.slash_cases (hslash : g.turnsSlash = false) (h : g.Beyond c d x (byte '/' :: rest))
    (hclear : triviaItem (byte '/' :: rest) = .nothing) :
    patternAllowedAfter c.before = patternAllowedAfter d.before ∨
      patternAllowedAfter c.before = false ∧ patternReach false rest 0 = none := by
  by_cases hx : ∀ a ∈ x, isSpacingByte a = true
  · obtain ⟨here, there⟩ := h.patternAllowedAfter_of_spacing hx
    have hback : (bytesOf g.back).dropWhile isSpacingByte = byte '/' :: rest := by
      rw [h.split, dropWhile_append_of_pos hx]
      rfl
    have hturn : (patternAllowedAfter (bytesOf g.front).reverse &&
        (patternReach false rest 0).isSome) = false := by
      simp only [turnsSlash, hback, hclear, beq_self_eq_true, Bool.true_and] at hslash
      exact hslash
    rw [Bool.and_eq_false_iff] at hturn
    cases hturn with
    | inl hfront => exact .inl (by rw [here, there, hfront])
    | inr hreach => exact .inr ⟨here, by simpa using hreach⟩
  · exact .inl (h.patternAllowedAfter_eq hx)

/-- After the gap the same literal starts, or a slash that is passed alone either way. -/
theorem Beyond.literalStart_cases (hslash : g.turnsSlash = false) (h : g.Beyond c d x (b :: rest))
    (hclear : triviaItem (b :: rest) = .nothing) :
    literalStart c.before b rest = literalStart d.before b rest ∨
      b = byte '/' ∧ literalStart c.before b rest = .none ∧
        literalStart d.before b rest = .span 0 := by
  by_cases hb : b = byte '/'
  · subst hb
    have hstart : ∀ before, literalStart before (byte '/') rest =
        if patternAllowedAfter before then .span ((patternReach false rest 0).getD 0) else .none := by
      intro before
      rfl
    rw [hstart, hstart]
    cases h.slash_cases hslash hclear with
    | inl hsame => exact .inl (by rw [hsame])
    | inr hlone =>
      rw [hlone.1, hlone.2]
      cases patternAllowedAfter d.before with
      | false => exact .inl rfl
      | true => exact .inr ⟨rfl, rfl, rfl⟩
  · left
    simp only [literalStart, beq_eq_false_iff_ne.mpr hb, Bool.false_and, Bool.false_eq_true,
      if_false]

theorem Before.plain (h : g.Before c d x (b :: y)) : startsLiteral b = false :=
  g.plain b (by rw [h.split]; simp)

/-! ## Enclosures -/

def stop (g : Gap) : Nat :=
  (bytesOf g.front).length + g.width

theorem Aligned.exists_beyond (h : g.Aligned c d) (hle : g.stop ≤ c.pos) :
    ∃ x y, g.Beyond c d x y := by
  cases h with
  | before h =>
    have hpos := h.pos_here
    have hlength := h.length_front
    have hwidth := g.width_pos
    rw [stop] at hle
    omega
  | beyond h => exact ⟨_, _, h⟩

/-- What may be open at the offset `pos`: a block with other brackets than slashes anywhere, a
template only after the gap. -/
def MayHold (g : Gap) (pos : Nat) : Enclosure → Prop
  | .block opener closer _ _ => opener ≠ byte '/' ∧ closer ≠ byte '/'
  | .template _ => g.stop ≤ pos

theorem MayHold.mono {pos' : Nat} (hle : pos ≤ pos') {e : Enclosure} (h : g.MayHold pos e) :
    g.MayHold pos' e := by
  cases e with
  | block => exact h
  | template => exact Nat.le_trans h hle

theorem mayHold_advance (h : ∀ e ∈ stack, g.MayHold c.pos e) (n : Nat) :
    ∀ e ∈ stack, g.MayHold (c.advance n).pos e := by
  intro e he
  refine (h e he).mono ?_
  rw [pos_advance]
  omega

/-- Enclosures end alike from all aligned cursors with fewer than `size` bytes after them. -/
def ClosesAlike (g : Gap) (size : Nat) : Prop :=
  ∀ ⦃stack c d⦄, c.after.length < size → (∀ e ∈ stack, g.MayHold c.pos e) → g.Aligned c d →
    Agree g.Aligned Eq (closeEnclosures stack c) (closeEnclosures stack d)

theorem closesAlike_template (ih : g.ClosesAlike c.after.length)
    (hstack : ∀ e ∈ .template start :: outer, g.MayHold c.pos e) (h : g.Aligned c d) :
    Agree g.Aligned Eq (closeEnclosures (.template start :: outer) c)
      (closeEnclosures (.template start :: outer) d) := by
  have houter : ∀ e ∈ outer, g.MayHold c.pos e := fun e he => hstack e (mem_cons_of_mem _ he)
  obtain ⟨x, y, h⟩ := h.exists_beyond (hstack _ mem_cons_self)
  have hpos := (Aligned.beyond h).pos_eq
  rw [closeEnclosures_template start outer c, closeEnclosures_template start outer d, h.after_here,
    h.after_there, hpos]
  cases y with
  | nil => exact .error
  | cons b rest =>
    have hnext : ∀ {stack : List Enclosure} {n : Nat}, 0 < n →
        (∀ e ∈ stack, g.MayHold c.pos e) →
        Agree g.Aligned Eq (closeEnclosures stack (c.advance n))
          (closeEnclosures stack (d.advance n)) := by
      intro stack n hn hheld
      exact ih (advance_lt hn h.after_here) (mayHold_advance hheld n)
        (.beyond (h.advance n))
    dsimp only
    split
    · exact hnext (by omega) hstack
    · split
      · exact hnext Nat.one_pos houter
      · split
        · refine hnext (by omega) ?_
          rw [forall_mem_cons]
          exact ⟨⟨by decide, by decide⟩, hstack⟩
        · exact hnext Nat.one_pos hstack

theorem Settled.cases_after (h : g.Settled c d) :
    (c.after = [] ∧ d.after = []) ∨
      ∃ b rest rest', c.after = b :: rest ∧ d.after = b :: rest' ∧
        (startsLiteral b = false ∨ rest = rest' ∧ ∃ x, g.Beyond c d x (b :: rest)) := by
  cases h with
  | before h =>
    exact .inr ⟨_, _, _, h.after_here, h.after_there, .inl h.plain⟩
  | @beyond x y h =>
    cases y with
    | nil => exact .inl ⟨h.after_here, h.after_there⟩
    | cons b rest =>
      exact .inr ⟨b, rest, rest, h.after_here, h.after_there, .inr ⟨rfl, x, h⟩⟩

theorem mayHold_blockAfter (h : ∀ e ∈ .block opener closer depth start :: outer, g.MayHold pos e)
    (b : UInt8) : ∀ e ∈ blockAfter opener closer depth start outer b, g.MayHold pos e := by
  obtain ⟨hblock, houter⟩ := forall_mem_cons.mp h
  rcases blockAfter_cases opener closer depth start outer b with ⟨-, heq⟩ | ⟨more, heq⟩
  · rwa [heq]
  · rw [heq]
    exact forall_mem_cons.mpr ⟨hblock, houter⟩

theorem blockAfter_slash (hopener : opener ≠ byte '/') (hcloser : closer ≠ byte '/') :
    blockAfter opener closer depth start outer (byte '/') =
      .block opener closer depth start :: outer := by
  unfold blockAfter
  rw [if_neg (by simpa using hopener.symm), if_neg (by simpa using hcloser.symm)]

theorem unterminatedString_eq {c' d' : Cursor} (h : g.Aligned c d) (h' : g.Aligned c' d') :
    unterminatedString c c' = unterminatedString d d' := by
  rw [unterminatedString, unterminatedString, h.rangeTo_eq h']

theorem closesAlike_block (hslash : g.turnsSlash = false) (ih : g.ClosesAlike c.after.length)
    (hstack : ∀ e ∈ .block opener closer depth start :: outer, g.MayHold c.pos e)
    (h : g.Aligned c d) :
    Agree g.Aligned Eq (closeEnclosures (.block opener closer depth start :: outer) c)
      (closeEnclosures (.block opener closer depth start :: outer) d) := by
  rcases h.trivia_cases with ⟨fault, q, q', here, there⟩ | ⟨crosses, q, q', here, there, hq, hclear⟩
  · rw [closeEnclosures_block, closeEnclosures_block _ _ _ _ _ d, here, there]
    exact .error
  have honward := trivia_onward here
  have hheld : ∀ e ∈ .block opener closer depth start :: outer, g.MayHold q.pos e :=
    fun e he => (hstack e he).mono honward.pos_le
  rcases hq.cases_after with ⟨hnil, hnil'⟩ | ⟨b, rest, rest', hafter, hafter', hkind⟩
  · rw [closeEnclosures_block, closeEnclosures_block _ _ _ _ _ d, here, there]
    simp only [hnil, hnil']
    exact .error
  rw [closeEnclosures_round here hafter, closeEnclosures_round there hafter']
  -- Each way on passes at least one byte after the trivia.
  have hnext : ∀ {stack : List Enclosure} {n : Nat}, 0 < n → (∀ e ∈ stack, g.MayHold q.pos e) →
      g.Aligned (q.advance n) (q'.advance n) →
      Agree g.Aligned Eq (closeEnclosures stack (q.advance n))
        (closeEnclosures stack (q'.advance n)) := by
    intro stack n hn hholds hend
    exact ih (Nat.lt_of_lt_of_le (advance_lt hn hafter) honward.length_le)
      (mayHold_advance hholds n) hend
  have hcode := hnext Nat.one_pos (mayHold_blockAfter hheld b) hq.advance_one
  cases hkind with
  | inl hplain =>
    rw [literalStart_of_plain hplain, literalStart_of_plain hplain]
    exact hcode
  | inr hbeyond =>
    obtain ⟨rfl, x, hbeyond⟩ := hbeyond
    rw [hafter] at hclear
    rcases hbeyond.literalStart_cases hslash hclear with hsame | ⟨rfl, hnone, hspan⟩
    · rw [hsame]
      cases literalStart q'.before b rest with
      | none => exact hcode
      | span more => exact hnext (Nat.succ_pos _) hheld (.beyond (hbeyond.advance _))
      | broken more =>
        dsimp only
        rw [unterminatedString_eq hq.aligned (.beyond (hbeyond.advance (more + 1)))]
        exact .error
      | template =>
        dsimp only
        rw [hq.aligned.pos_eq]
        refine hnext Nat.one_pos (forall_mem_cons.mpr ⟨?_, hheld⟩) hq.advance_one
        rw [MayHold, stop, hbeyond.pos_here]
        omega
    · have hbrackets : opener ≠ byte '/' ∧ closer ≠ byte '/' := hstack _ mem_cons_self
      rw [hnone, hspan]
      rw [blockAfter_slash hbrackets.1 hbrackets.2] at hcode ⊢
      exact hcode

/-- Enclosures end alike over a comment and over blanks. -/
theorem Aligned.closes (hslash : g.turnsSlash = false) (hstack : ∀ e ∈ stack, g.MayHold c.pos e)
    (h : g.Aligned c d) :
    Agree g.Aligned Eq (closeEnclosures stack c) (closeEnclosures stack d) := by
  induction hsize : c.after.length using Nat.strongRecOn generalizing stack c d with
  | ind size ih =>
    subst hsize
    have halike : g.ClosesAlike c.after.length := fun _ _ _ hlt hheld h => ih _ hlt hheld h rfl
    cases stack with
    | nil =>
      rw [closeEnclosures, closeEnclosures]
      exact .ok rfl h
    | cons e outer =>
      cases e with
      | template start => exact closesAlike_template halike hstack h
      | block opener closer depth start => exact closesAlike_block hslash halike hstack h

theorem Aligned.block (hslash : g.turnsSlash = false) {opener closer : UInt8}
    (hopener : isMark opener = true) (hcloser : isMark closer = true) (h : g.Aligned c d) :
    Agree g.Aligned Eq (block opener closer c) (block opener closer d) := by
  unfold Scan.block
  rw [← h.byte?_beq hopener, h.pos_eq]
  split
  · rename_i hc
    have hone := (h.settled_of_byte hopener hc).advance_one
    simp only [isMark, Bool.and_eq_true, bne_iff_ne] at hopener hcloser
    have hstack : ∀ e ∈ [Enclosure.block opener closer 0 c.pos], g.MayHold (c.advance 1).pos e := by
      rw [forall_mem_singleton]
      exact ⟨hopener.1, hcloser.1⟩
    rcases (hone.closes hslash hstack).elim with
      ⟨fault, e, e', here, there⟩ | ⟨_, _, e, e', here, there, _, hend⟩
    · rw [here, there]
      exact .error
    · rw [here, there]
      exact .ok (h.rangeTo_eq hend) hend
  · rw [h.fault_eq]
    exact .error

end Gap

end ModuleBridge
