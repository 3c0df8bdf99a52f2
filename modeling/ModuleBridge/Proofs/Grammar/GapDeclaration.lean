import ModuleBridge.Proofs.Grammar.GapReading

/-!
# Declarations over a gap

Declarations are read alike over a comment and over blanks. The one exception is a parameter list
that cannot be passed as a block: it ends at the next closing parenthesis, and that one may stand in
the comment. `Gap.CutsParameters` says when.
-/

namespace ModuleBridge

open Cursor List Scan VariableDeclaration

namespace Gap

variable {α β : Type} {g : Gap} {c d : Cursor} {x y : List UInt8} {b : UInt8}

/-! ## Variables and classes -/

theorem Alike.set {S : β → β → Prop} {next next' : PUnit → Scan β} (h : g.Aligned c d)
    (hnext : g.Alike S (next ⟨⟩) (next' ⟨⟩)) : g.Alike S (set c >>= next) (set d >>= next') := by
  intro _ _ _
  exact hnext h

theorem alike_afterSpace {R : Option α → Option α → Prop} {op op' : Scan (Option α)}
    (hop : g.Alike R op op') (hfound : ∀ a b, R a b → a.isSome = b.isSome) :
    g.Alike R (afterSpace op) (afterSpace op') := by
  refine .get fun c d hstart => alike_space.seq fun _ => hop.bind fun a b hanswer => ?_
  have hsome := hfound a b hanswer
  cases a with
  | some a =>
    cases b with
    | some b => exact .pure hanswer
    | none => cases hsome
  | none =>
    cases b with
    | some b => cases hsome
    | none => exact .set hstart (.pure hanswer)

theorem alike_mark {text : String} (htext : (bytesOf text).all isMark = true) :
    g.Alike Eq (mark text) (mark text) :=
  (alike_accept htext).seq fun _ => .pure rfl

theorem alike_afterSpace_eq {op : Scan (Option α)} (hop : g.Alike Eq op op) :
    g.Alike Eq (afterSpace op) (afterSpace op) :=
  alike_afterSpace hop fun _ _ heq => by rw [heq]

theorem alike_optionalSemicolon : g.Alike Eq optionalSemicolon optionalSemicolon :=
  (alike_afterSpace_eq (alike_mark (by decide))).seq fun _ => .pure rfl

theorem alike_atAsyncFunction : g.Alike Eq atAsyncFunction atAsyncFunction := by
  refine .peek fun c d h => ?_
  have hword : (bytesOf "async").all isNamePart = true := by decide
  have hnext : (bytesOf "function").all isNamePart = true := by decide
  rcases (alike_acceptWord hword h).elim with
    ⟨fault, e, e', here, there⟩ | ⟨found, _, e, e', here, there, rfl, hend⟩
  · rw [here, there]
  · rw [here, there]
    cases found with
    | false => rfl
    | true =>
      rcases (alike_trivia hend).elim with
        ⟨fault, f, f', here, there⟩ | ⟨crosses, _, f, f', here, there, rfl, hf⟩
      · simp only [here, there]
      · simp only [here, there]
        cases crosses with
        | true => rfl
        | false => exact hf.startsWithWord_eq hnext

section

variable (hslash : g.turnsSlash = false)

include hslash

theorem alike_initialValue :
    g.Alike (InvImage Eq (Option.map Expression.withoutText)) initialValue initialValue := by
  refine alike_atAssignment.seq fun _ => .ite ?_ (.pure rfl)
  refine (alike_accept (by decide)).seq fun _ => alike_space.seq fun _ =>
    (alike_value hslash).bind fun a b hvalue => .pure ?_
  exact congrArg some hvalue

theorem alike_bindingTarget (h : g.Aligned c d) :
    g.Alike Eq (bindingTarget c) (bindingTarget d) := by
  have hbrace : (bytesOf "\x7b").all isMark = true := by decide
  have hbracket : (bytesOf "[").all isMark = true := by decide
  unfold bindingTarget
  rw [h.startsWith_eq hbrace, h.startsWith_eq hbracket]
  exact .ite ((alike_boundNames hslash).seq fun _ => (alike_rangeFrom h).seq fun _ => .pure rfl)
    (alike_name.seq fun _ => .pure rfl)

theorem alike_declarator : g.Alike (InvImage Eq Declarator.withoutText) declarator declarator := by
  rw [declarator_eq]
  refine .get fun c d h => (alike_bindingTarget hslash h).seq fun target => ?_
  have hvalue := alike_afterSpace (alike_initialValue hslash) fun a b hab => by
    have hsome := congrArg Option.isSome hab
    rwa [Option.isSome_map, Option.isSome_map] at hsome
  refine hvalue.bind fun a b hab => (alike_rangeFrom h).seq fun range => .pure ?_
  change Declarator.withoutText _ = Declarator.withoutText _
  change a.map Expression.withoutText = b.map Expression.withoutText at hab
  rw [Declarator.withoutText, Declarator.withoutText, hab]

theorem alike_declarators (fuel : Nat) :
    g.Alike (InvImage Eq (List.map Declarator.withoutText)) (declarators fuel)
      (declarators fuel) := by
  induction fuel with
  | zero => exact .failHere _ _
  | succ fuel ih =>
    refine alike_space.seq fun _ => (alike_declarator hslash).bind fun a b hfirst => ?_
    refine (alike_afterSpace_eq (alike_mark (by decide))).seq fun comma => ?_
    change a.withoutText = b.withoutText at hfirst
    cases comma with
    | none =>
      refine .pure ?_
      change [a].map _ = [b].map _
      rw [map_singleton, map_singleton, hfirst]
    | some u =>
      refine ih.bind fun rest rest' hrest => .pure ?_
      change (a :: rest).map _ = (b :: rest').map _
      change rest.map _ = rest'.map _ at hrest
      rw [map_cons, map_cons, hfirst, hrest]

theorem alike_variableDeclaration (kind : VariableKind) :
    g.Alike (InvImage Eq withoutText) (variableDeclaration kind)
      (variableDeclaration kind) := by
  have hword : (bytesOf kind.keyword.text).all isNamePart = true := by cases kind <;> decide
  refine .get fun c d h => (alike_expectWord hword).seq fun _ => .get fun e e' hend => ?_
  rw [hend.length_eq]
  refine (alike_declarators hslash _).bind fun all all' hall =>
    alike_optionalSemicolon.seq fun _ => (alike_rangeFrom h).seq fun range => .pure ?_
  change withoutText _ = withoutText _
  change all.map _ = all'.map _ at hall
  rw [withoutText, withoutText, hall]

omit hslash in
theorem alike_declaredName (present required : Bool) :
    g.Alike Eq (declaredName present required) (declaredName present required) :=
  .ite (alike_name.seq fun _ => .pure rfl) (.ite (.failHere _ _) (.pure rfl))

omit hslash in
theorem alike_peekWord {word : String} (hword : (bytesOf word).all isNamePart = true) :
    g.Alike Eq (peek (·.startsWithWord word)) (peek (·.startsWithWord word)) :=
  .peek fun _ _ h => h.startsWithWord_eq hword

omit hslash in
theorem alike_peekText {text : String} (htext : (bytesOf text).all isMark = true) :
    g.Alike Eq (peek (·.startsWith text)) (peek (·.startsWith text)) :=
  .peek fun _ _ h => h.startsWith_eq htext

theorem alike_heritageClause :
    g.Alike (InvImage Eq (Option.map Expression.withoutText)) heritageClause heritageClause :=
  (alike_acceptWord (by decide)).seq fun _ => .ite (alike_space.seq fun _ =>
    (alike_superclass hslash).bind fun _ _ hview => .pure (congrArg some hview)) (.pure rfl)

theorem alike_classDeclaration (nameRequired : Bool) :
    g.Alike (InvImage Eq ClassDeclaration.withoutText) (classDeclaration nameRequired)
      (classDeclaration nameRequired) := by
  rw [classDeclaration_eq]
  refine .get fun c d h => (alike_expectWord (by decide)).seq fun _ => alike_space.seq fun _ =>
    alike_atName.seq fun _ => (alike_peekWord (by decide)).seq fun _ =>
    (alike_declaredName _ _).seq fun name => alike_space.seq fun _ =>
    (alike_heritageClause hslash).bind fun a b hview => alike_space.seq fun _ =>
    (alike_braces hslash).seq fun _ => (alike_rangeFrom h).seq fun range => .pure ?_
  exact congrArg (ClassDeclaration.mk name · range) hview

end

/-! ## Heads of functions -/

/-- If the cursor stands before the gap, the word `function` stands before the cursor, and no
parenthesis opens between the two. -/
def AfterFunction (g : Gap) (c : Cursor) : Prop :=
  c.pos ≤ (bytesOf g.front).length →
    ∃ head name, c.before.reverse = head ++ bytesOf "function" ++ name ∧ byte '(' ∉ name

theorem AfterFunction.advance {n : Nat} (h : g.AfterFunction c)
    (hplain : (c.advance n).pos ≤ (bytesOf g.front).length → byte '(' ∉ c.after.take n) :
    g.AfterFunction (c.advance n) := by
  intro hle
  have hbefore : c.pos ≤ (bytesOf g.front).length := by
    rw [pos_advance] at hle
    omega
  obtain ⟨head, name, hname, hnone⟩ := h hbefore
  refine ⟨head, name ++ c.after.take n, ?_, ?_⟩
  · rw [before_advance, reverse_append, reverse_reverse, hname, append_assoc]
  · rw [mem_append, not_or]
    exact ⟨hnone, hplain hle⟩

theorem Before.triviaItem_plain {more : Nat} {breaks : Bool} (h : g.Before c d x (b :: y))
    (hitem : triviaItem c.after = .item more breaks) : byte '(' ∉ c.after.take (more + 1) := by
  have hafter : c.after = b :: (y ++ g.filled) := h.after_here
  have hslash : b ≠ byte '/' := by
    intro heq
    have hplain := h.plain
    rw [heq] at hplain
    exact absurd hplain (by decide)
  rcases triviaItem_eq_item hitem with ⟨a, rest, ha, rfl, hclass⟩ | ⟨body, hbody, _⟩ |
    ⟨body, length, hbody, _⟩ | ⟨a, rest, ch, ha, hhigh, hread, rfl, _⟩
  · rw [ha, Nat.zero_add, take_succ_cons, take_zero, mem_singleton]
    intro heq
    rw [← heq] at hclass
    cases hclass with
    | inl hblank => exact absurd hblank.1 (by decide)
    | inr hend => exact absurd hend.1 (by decide)
  · exact absurd (List.cons.inj (hafter.symm.trans hbody)).1 hslash
  · exact absurd (List.cons.inj (hafter.symm.trans hbody)).1 hslash
  · obtain ⟨tail, htail⟩ := exists_of_decodeFirst? hread
    have hsize : ch.utf8Size - 1 + 1 = (String.utf8EncodeChar ch).length := by
      rw [String.length_utf8EncodeChar]
      exact Nat.sub_add_cancel ch.utf8Size_pos
    rw [hsize, htail, take_left]
    intro hmem
    rw [utf8EncodeChar_eq_of_mem hmem (by decide), ha] at htail
    rw [(List.cons.inj htail).1] at hhigh
    exact hhigh (by decide)

theorem Before.trivia_plain {length : Nat} {crosses : Bool} (h : g.Before c d x y)
    (hreach : triviaReach c.after = .clear length crosses) (hle : length ≤ y.length) :
    byte '(' ∉ c.after.take length := by
  induction hsize : y.length using Nat.strongRecOn generalizing c d x y length crosses with
  | ind size ih =>
    subst hsize
    rcases triviaReach_eq_clear hreach with ⟨_, rfl, _⟩ |
      ⟨more, breaks, rest, crosses', hitem, hrest, rfl, _⟩
    · exact not_mem_nil
    · cases y with
      | nil => simp at hle
      | cons b y =>
        have hstep := h.advance (n := more + 1) (by omega)
        have hlength : ((b :: y).drop (more + 1)).length = (b :: y).length - (more + 1) :=
          length_drop
        rw [← after_advance] at hrest
        have hmore := ih _ (by omega) hstep hrest (by omega) rfl
        rw [take_add, mem_append, not_or]
        exact ⟨h.triviaItem_plain hitem, hmore⟩

/-- Readings between the word and the parenthesis. -/
def KeepsFunction (g : Gap) (op : Scan α) : Prop :=
  ∀ ⦃c d a e⦄, g.Aligned c d → op c = .ok a e → g.AfterFunction c → g.AfterFunction e

theorem keepsFunction_space : g.KeepsFunction space := by
  intro c d u e haligned hrun h
  obtain ⟨length, crosses, hreach, rfl⟩ := space_eq_advance.mp hrun
  refine h.advance fun hle => ?_
  have hfits := (triviaReach_onward hreach).1
  rw [pos_advance, Nat.min_eq_left hfits] at hle
  cases haligned with
  | before haligned =>
    have hpos := haligned.pos_here
    have hlength := haligned.length_front
    exact haligned.trivia_plain hreach (by omega)
  | beyond haligned =>
    have hpos := haligned.pos_here
    have hwidth := g.width_pos
    omega

theorem keepsFunction_accept {text : String} (htext : byte '(' ∉ bytesOf text) :
    g.KeepsFunction (accept text) := by
  intro c d found e haligned hrun h
  rcases accept_cases hrun with ⟨_, hstarts, rfl⟩ | ⟨_, _, rfl⟩
  · refine h.advance fun _ => ?_
    rwa [← prefix_iff_eq_take.mp (List.isPrefixOf_iff_prefix.mp hstarts)]
  · exact h

theorem keepsFunction_declaredName (present required : Bool) :
    g.KeepsFunction (declaredName present required) := by
  intro c d found e haligned hrun h
  unfold declaredName at hrun
  cases present with
  | true =>
    obtain ⟨a, hname, -⟩ := map_eq_ok.mp hrun
    unfold name at hname
    split at hname
    · cases hname
      refine h.advance fun _ => ?_
      rw [take_takeWhile]
      intro hmem
      exact absurd (all_eq_true.mp all_takeWhile _ hmem) (by decide)
    · cases hname
  | false =>
    cases required with
    | true => exact absurd hrun failHere_ne_ok
    | false =>
      obtain ⟨_, rfl⟩ := pure_eq_ok.mp hrun
      exact h

/-! ## Parameter lists -/

/-- The parameter list of a function is open at the gap and is not passed as a block, and a
parenthesis closes in the comment. -/
def CutsParameters (g : Gap) : Prop :=
  ∃ head name params, bytesOf g.front = head ++ bytesOf "function" ++ name ++ byte '(' :: params ∧
    byte '(' ∉ name ∧ byte ')' ∉ params ∧ byte ')' ∈ bytesOf g.body ∧
    ∃ fault d, parentheses ((ofText g.commented).advance
      (head ++ bytesOf "function" ++ name).length) = .error fault d

theorem Before.eq_advance (h : g.Before c d x y) :
    c = (ofText g.commented).advance x.length := by
  have hbytes : c.bytes = bytesOf g.commented := by
    rw [Cursor.bytes, h.before_here, h.after_here, reverse_reverse, ← append_assoc,
      ← h.split, filled, commented, bytesOf_append, bytesOf_append, append_assoc]
  rw [← h.pos_here]
  exact (moveTo_pos hbytes).symm.trans (by rw [moveTo, ofText]; rfl)

/-- The place just past the next `b`, or the end of the text. -/
def pastNext (b : UInt8) (c : Cursor) : Cursor :=
  c.advance ((c.after.takeWhile (· != b)).length + 1)

theorem all_ne_iff {bytes : List UInt8} : bytes.all (· != b) = true ↔ b ∉ bytes := by
  rw [all_eq_true]
  constructor
  · intro hall hmem
    exact absurd rfl (bne_iff_ne.mp (hall b hmem))
  · intro hmem a ha
    rw [bne_iff_ne]
    intro heq
    exact hmem (heq ▸ ha)

theorem Before.pastNext (h : g.Before c d x y) (hb : isMark b = true)
    (hsafe : b ∈ y ∨ b ∉ bytesOf g.comment) : g.Aligned (pastNext b c) (pastNext b d) := by
  simp only [isMark, Bool.and_eq_true] at hb
  have hblank : (byte ' ' != b) = true := by rw [bne_comm, hb.2]
  obtain ⟨n, here, there, hn⟩ := h.run_over hblank fun hy => by
    rw [← all_eq_true, all_ne_iff]
    cases hsafe with
    | inl hmem => exact absurd hmem (all_ne_iff.mp hy)
    | inr hnone => exact hnone
  unfold Gap.pastNext
  rw [here, there]
  exact (h.advance_over hn).2

theorem Beyond.pastNext (h : g.Beyond c d x y) (b : UInt8) :
    g.Aligned (pastNext b c) (pastNext b d) := by
  unfold Gap.pastNext
  rw [h.after_here, h.after_there]
  exact .beyond (h.advance _)

theorem byte_mem_comment (hmem : byte ')' ∈ bytesOf g.comment) : byte ')' ∈ bytesOf g.body := by
  rw [bytes_comment, mem_cons, mem_cons, mem_append] at hmem
  rcases hmem with hslash | hstar | hbody | hclose
  · exact absurd hslash (by decide)
  · exact absurd hstar (by decide)
  · exact hbody
  · exact absurd hclose (by decide)

/-- After the parenthesis of a parameter list that is not passed as a block. -/
theorem Aligned.pastParameters (hparams : ¬g.CutsParameters) (h : g.Aligned c d)
    (hafter : g.AfterFunction c) (hstarts : c.startsWith "(" = true)
    (hfails : ∃ fault e, parentheses c = .error fault e) :
    g.Aligned (Gap.pastNext (byte ')') (c.advance 1)) (Gap.pastNext (byte ')') (d.advance 1)) := by
  have hmark : (bytesOf "(").all isMark = true := by decide
  cases h with
  | @before x y h =>
    have hpos := h.pos_here
    have hlength := h.length_front
    obtain ⟨head, name, hhead, hnone⟩ := hafter (by omega)
    rw [h.before_here, reverse_reverse] at hhead
    obtain ⟨rest, hrest⟩ := g.head_filled
    rw [startsWith, h.after_here, hrest, isPrefixOf_gap (not_mem_of_marks hmark).1,
      isPrefixOf_iff_prefix] at hstarts
    obtain ⟨params, rfl⟩ := hstarts
    have hone := h.advance (n := 1) (by rw [length_append]; exact Nat.le_add_right 1 _)
    refine hone.pastNext (by decide) ?_
    by_cases hmem : byte ')' ∈ params
    · exact .inl hmem
    · right
      intro hcomment
      refine hparams ⟨head, name, params, ?_, hnone, hmem, byte_mem_comment hcomment, ?_⟩
      · rw [h.split, hhead]
        rfl
      · rwa [← hhead, ← h.eq_advance]
  | beyond h => exact (h.advance 1).pastNext _

theorem parameters_eq (c : Cursor) :
    parameters c =
      if c.startsWith "(" then
        match parentheses c with
        | .ok _ e => .ok (c.rangeTo e) e
        | .error _ _ =>
          .ok (c.rangeTo (pastNext (byte ')') (c.advance 1))) (pastNext (byte ')') (c.advance 1))
      else .error (c.fault .expected ["("]) c := by
  rw [parameters, get_bind]
  dsimp only
  cases c.startsWith "(" with
  | false => rfl
  | true =>
    rw [if_pos rfl, if_pos rfl]
    cases parentheses c <;> rfl

theorem Aligned.parameters (hslash : g.turnsSlash = false) (hparams : ¬g.CutsParameters)
    (h : g.Aligned c d) (hafter : g.AfterFunction c) :
    Agree g.Aligned Eq (parameters c) (parameters d) := by
  have hmark : (bytesOf "(").all isMark = true := by decide
  rw [parameters_eq, parameters_eq, ← h.startsWith_eq hmark]
  split
  · rename_i hstarts
    rcases (alike_parentheses hslash h).elim with
      ⟨fault, e, e', here, there⟩ | ⟨_, _, e, e', here, there, _, hend⟩
    · rw [here, there]
      have hend := h.pastParameters hparams hafter hstarts ⟨fault, e, here⟩
      exact .ok (h.rangeTo_eq hend) hend
    · rw [here, there]
      exact .ok (h.rangeTo_eq hend) hend
  · rw [h.fault_eq]
    exact .error

/-! ## Functions -/

/-- Alike from where the word `function` has been read. -/
def AlikeAfter (g : Gap) (R : α → α → Prop) (op op' : Scan α) : Prop :=
  ∀ ⦃c d⦄, g.Aligned c d → g.AfterFunction c → Agree g.Aligned R (op c) (op' d)

theorem Alike.seqAfter {S : β → β → Prop} {next next' : Unit → Scan β}
    (hnext : ∀ u, g.AlikeAfter S (next u) (next' u)) :
    g.Alike S (expectWord "function" >>= next) (expectWord "function" >>= next') := by
  intro c d h
  have hword : (bytesOf "function").all isNamePart = true := by decide
  refine (alike_expectWord hword h).bind fun u u' e e' hrun _ hend => hnext u hend ?_
  obtain ⟨hstarts, rfl⟩ := expectWord_eq_ok.mp hrun
  have hfront := prefix_iff_eq_take.mp
    (List.isPrefixOf_iff_prefix.mp (startsWith_of_startsWithWord hstarts))
  intro _
  refine ⟨c.before.reverse, [], ?_, not_mem_nil⟩
  rw [before_advance, reverse_append, reverse_reverse, ← hfront, append_nil]

theorem AlikeAfter.seq {S : β → β → Prop} {op : Scan α} {next next' : α → Scan β}
    (hop : g.Alike Eq op op) (hkeeps : g.KeepsFunction op)
    (hnext : ∀ a, g.AlikeAfter S (next a) (next' a)) :
    g.AlikeAfter S (op >>= next) (op >>= next') := by
  intro c d h hafter
  refine (hop h).bind fun a b e e' hrun heq hend => ?_
  subst heq
  exact hnext a hend (hkeeps h hrun hafter)

theorem AlikeAfter.ite {R : α → α → Prop} {p : Prop} [Decidable p] {op op' other other' : Scan α}
    (hop : g.AlikeAfter R op op') (hother : g.AlikeAfter R other other') :
    g.AlikeAfter R (if p then op else other) (if p then op' else other') := by
  split
  · exact hop
  · exact hother

theorem keepsFunction_atName : g.KeepsFunction atName := by
  intro c d found e _ hrun h
  obtain ⟨_, rfl⟩ := peek_eq_ok.mp hrun
  exact h

theorem alike_functionDeclaration (hslash : g.turnsSlash = false) (hparams : ¬g.CutsParameters)
    (nameRequired : Bool) :
    g.Alike Eq (functionDeclaration nameRequired) (functionDeclaration nameRequired) := by
  refine .get fun c d h => (alike_acceptWord (by decide)).seq fun isAsync => ?_
  extract_lets afterAsync afterAsync'
  have hasync : ∀ u, g.Alike Eq (afterAsync u) (afterAsync' u) := by
    intro u
    refine .seqAfter fun _ => .seq alike_space keepsFunction_space fun _ =>
      .seq (alike_accept (by decide)) (keepsFunction_accept (by decide)) fun isGenerator => ?_
    extract_lets afterStar afterStar'
    have hstar : ∀ u, g.AlikeAfter Eq (afterStar u) (afterStar' u) := by
      intro u
      refine .seq alike_atName keepsFunction_atName fun _ =>
        .seq (alike_declaredName _ _) (keepsFunction_declaredName _ _) fun name =>
        .seq alike_space keepsFunction_space fun _ => ?_
      intro e e' hend hafter
      refine (hend.parameters hslash hparams hafter).bind fun params _ f f' _ heq hf => ?_
      subst heq
      exact (alike_space.seq fun _ => (alike_braces hslash).seq fun _ =>
        (alike_rangeFrom h).seq fun _ => .pure rfl) hf
    exact .ite (.seq alike_space keepsFunction_space hstar) (hstar ())
  exact .ite (alike_space.seq hasync) (hasync ())

end Gap

end ModuleBridge
