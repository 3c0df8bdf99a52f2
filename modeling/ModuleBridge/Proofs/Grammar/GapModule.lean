import ModuleBridge.Proofs.Grammar.FollowStatement
import ModuleBridge.Proofs.Grammar.GapDeclaration

/-!
# Modules over a gap

A module is read alike over a comment and over blanks, statement by statement. Where a block closes
before the gap and a semicolon follows it, the semicolon belongs to the statement of the block in the
text with blanks, and is a statement of its own in the text with the comment. After it the two
readings go on side by side.
-/

namespace ModuleBridge

open Scan Cursor List

variable {fuel fuel' : Nat} {body body' rest rest' : List Statement}

theorem Keyword.text_nameParts (word : Keyword) : (bytesOf word.text).all isNamePart = true := by
  cases word <;> decide

namespace Scan

variable {c : Cursor}

/-! ## One statement -/

theorem verbatimStatement_eq (c : Cursor) :
    verbatimStatement c =
      match statement c with
      | .ok range e => .ok (.verbatim (c.textUpTo e) range) e
      | .error fault e => .error fault e := by
  unfold verbatimStatement
  rw [get_bind]
  change EStateM.bind statement _ c = _
  unfold EStateM.bind
  cases statement c <;> rfl

theorem topLevelStatement_of_form {form : Option StatementForm}
    (hform : statementForm? c = .ok form c) : topLevelStatement c = statementOf form c := by
  have hread : topLevelStatement = statementForm? >>= statementOf := by
    unfold topLevelStatement
    congr 1
  rw [hread]
  change EStateM.bind statementForm? statementOf c = _
  rw [EStateM.bind, hform]

section

variable {tail : List UInt8} (h : c.after = byte ';' :: tail)

include h

theorem startsWithWord_semicolon {word : String}
    (hword : (bytesOf word).all isNamePart = true) (hne : bytesOf word ≠ []) :
    c.startsWithWord word = false := by
  rw [all_eq_true] at hword
  cases hstarts : c.startsWithWord word with
  | false => rfl
  | true =>
    rw [startsWithWord_iff hword, h, takeWhile_cons_of_neg (by decide)] at hstarts
    exact absurd hstarts.symm hne

theorem statementForm?_semicolon : statementForm? c = .ok none c := by
  have hasync : c.startsWithWord "async" = false :=
    startsWithWord_semicolon h (by decide) (by decide)
  have hfind : Keyword.statementWords.find? (c.startsWithWord ·.text) = none := by
    refine find?_eq_none.mpr fun word _ => ?_
    rw [startsWithWord_semicolon h (Keyword.text_nameParts word) (by cases word <;> decide)]
    exact Bool.false_ne_true
  rw [statementForm?_of_words (atAsyncFunction_of_not hasync), hfind]
  rfl

theorem topLevelStatement_semicolon :
    topLevelStatement c = .ok (.verbatim ";" ⟨c.pos, c.pos + 1⟩) (c.advance 1) := by
  have hclear : trivia c = .ok false c := by
    refine trivia_of_clear (triviaReach_of_nothing ?_)
    rw [h]
    rfl
  have hrun : statement c = .ok (c.rangeTo (c.advance 1)) (c.advance 1) := by
    refine stretchFrom_of_run (.after hclear h ?_)
    unfold StretchKind.boundary
    simp only [Bool.false_and, Bool.false_eq_true, if_false, beq_self_eq_true, if_true]
  have htext : c.textUpTo (c.advance 1) = ";" := by
    rw [textUpTo_advance, h, take_succ_cons, take_zero]
    decide
  have hpos : (c.advance 1).pos = c.pos + 1 := by
    rw [pos_advance, h, length_cons]
    omega
  rw [topLevelStatement_of_form (statementForm?_semicolon h)]
  change verbatimStatement c = _
  rw [verbatimStatement_eq, hrun]
  dsimp only
  rw [htext, rangeTo, hpos]

end

def laterStatements (fuel : Nat) : Scan (List Statement) := do
  space
  statements fuel

theorem laterStatements_eq (fuel : Nat) (c : Cursor) :
    laterStatements fuel c =
      match trivia c with
      | .ok _ q => statements fuel q
      | .error fault q => .error fault q := by
  change EStateM.bind (EStateM.bind trivia _) _ c = _
  unfold EStateM.bind
  cases trivia c <;> rfl

theorem statements_succ (hmore : c.after ≠ []) :
    statements (fuel + 1) c =
      match topLevelStatement c with
      | .ok s e => (List.cons s <$> laterStatements fuel) e
      | .error fault e => .error fault e := by
  have hend : ¬c.isAtEnd = true := fun hnil => hmore (List.isEmpty_iff.mp hnil)
  rw [statements, get_bind, if_neg hend]
  change EStateM.bind topLevelStatement _ c = _
  unfold EStateM.bind
  cases topLevelStatement c with
  | error fault e => rfl
  | ok s e =>
    change _ = EStateM.map (List.cons s) (laterStatements fuel) e
    rw [EStateM.map, laterStatements_eq]
    change EStateM.bind (EStateM.bind trivia _) _ e = _
    unfold EStateM.bind
    cases trivia e with
    | error fault q => rfl
    | ok crosses q =>
      change EStateM.bind (statements fuel) _ q = _
      unfold EStateM.bind
      dsimp only
      cases statements fuel q <;> rfl

theorem statements_end (fuel : Nat) (hend : c.after = []) : statements (fuel + 1) c = .ok [] c := by
  have hend : c.isAtEnd = true := List.isEmpty_iff.mpr hend
  rw [statements, get_bind, if_pos hend]
  rfl

end Scan

namespace Gap

variable {g : Gap} {c d : Cursor}

/-! ## Imports and exports -/

theorem Aligned.isAt_eq (h : g.Aligned c d) (form : StatementForm) (word : Keyword) :
    form.isAt word c = form.isAt word d := by
  have hparen : (bytesOf "(").all isMark = true := by decide
  have hpoint : (bytesOf ".").all isMark = true := by decide
  have hbrace : (bytesOf "\x7b").all isMark = true := by decide
  have hbracket : (bytesOf "[").all isMark = true := by decide
  unfold StatementForm.isAt
  rcases (alike_acceptWord (Keyword.text_nameParts word) h).elim with
    ⟨fault, e, e', here, there⟩ | ⟨found, _, e, e', here, there, rfl, hend⟩
  · rw [here, there]
  · rw [here, there]
    cases found with
    | false => rfl
    | true =>
      rcases (alike_space hend).elim with
        ⟨fault, f, f', here, there⟩ | ⟨_, _, f, f', here, there, _, hf⟩
      · simp only [here, there]
      · simp only [here, there]
        cases form with
        | importing => simp only [hf.startsWith_eq hparen, hf.startsWith_eq hpoint]
        | «variable» kind =>
          simp only [hf.startsWith_eq hbrace, hf.startsWith_eq hbracket,
            hf.byte?_any_eq endsAtGap_nameStart]
        | exporting => rfl
        | function => rfl
        | classOf => rfl

theorem alike_statementForm? : g.Alike Eq statementForm? statementForm? := by
  refine alike_atAsyncFunction.seq fun _ => .ite (.pure rfl) (.get fun c d h => ?_)
  have hfind : (fun word : Keyword => c.startsWithWord word.text) =
      fun word => d.startsWithWord word.text := by
    funext word
    exact h.startsWithWord_eq (Keyword.text_nameParts word)
  have hform : ∀ word : Keyword, word.form?.filter (·.isAt word c) =
      word.form?.filter (·.isAt word d) := by
    intro word
    cases word.form? with
    | none => rfl
    | some form => rw [Option.filter_some, Option.filter_some, h.isAt_eq]
  rw [hfind]
  cases Keyword.statementWords.find? fun word => d.startsWithWord word.text with
  | none => exact .pure rfl
  | some word => exact .pure (hform word)

theorem alike_secondName (first : Name) : g.Alike Eq (secondName first) (secondName first) :=
  (alike_acceptWord (by decide)).seq fun _ => .ite (alike_space.seq fun _ => alike_name) (.pure rfl)

theorem alike_namePairs (fuel : Nat) : g.Alike Eq (namePairs fuel) (namePairs fuel) := by
  induction fuel with
  | zero => exact .failHere _ _
  | succ fuel ih =>
    rw [namePairs_succ]
    exact alike_space.seq fun _ => (alike_accept (by decide)).seq fun _ => .ite (.pure rfl) <|
      alike_name.seq fun _ => alike_space.seq fun _ => (alike_secondName _).seq fun _ =>
      alike_space.seq fun _ => (alike_accept (by decide)).seq fun _ =>
        .ite (ih.seq fun _ => .pure rfl) ((alike_expect (by decide)).seq fun _ => .pure rfl)

theorem alike_bracedPairs : g.Alike Eq bracedPairs bracedPairs := by
  refine (alike_expect (by decide)).seq fun _ => .get fun c d h => ?_
  rw [h.length_eq]
  exact alike_namePairs _

theorem alike_fromClause : g.Alike Eq fromClause fromClause :=
  (alike_expectWord (by decide)).seq fun _ => alike_space.seq fun _ => alike_quoted

theorem alike_importBindings : g.Alike Eq importBindings importBindings := by
  rw [importBindings_eq]
  exact (alike_accept (by decide)).seq fun _ => .ite (alike_space.seq fun _ =>
    (alike_expectWord (by decide)).seq fun _ => alike_space.seq fun _ =>
      alike_name.seq fun _ => .pure rfl) <|
    (alike_peekText (by decide)).seq fun _ =>
      .ite (alike_bracedPairs.seq fun _ => .pure rfl) (.failHere _ _)

theorem alike_importClause : g.Alike Eq importClause importClause :=
  alike_atName.seq fun _ => .ite (alike_name.seq fun _ => alike_space.seq fun _ =>
    Alike.seq ((alike_accept (by decide)).seq fun _ =>
      .ite (alike_space.seq fun _ => alike_importBindings) (.pure rfl)) fun _ => .pure rfl)
    alike_importBindings

theorem alike_importStatement : g.Alike Eq importStatement importStatement := by
  rw [importStatement_eq]
  refine .get fun c d h => (alike_expectWord (by decide)).seq fun _ => alike_space.seq fun _ =>
    .get fun e e' hend => ?_
  rw [hend.byte?_any_eq endsAtGap_quote]
  exact .ite (alike_quoted.seq fun _ => alike_optionalSemicolon.seq fun _ =>
      (alike_rangeFrom h).seq fun _ => .pure rfl)
    (alike_importClause.seq fun _ => alike_space.seq fun _ => alike_fromClause.seq fun _ =>
      alike_optionalSemicolon.seq fun _ => (alike_rangeFrom h).seq fun _ => .pure rfl)

section Statements

variable (hslash : g.turnsSlash = false) (hparams : ¬g.CutsParameters)

include hslash hparams

theorem alike_defaultExport :
    g.Alike (InvImage Eq DefaultExport.withoutText) defaultExport defaultExport := by
  have hfunction : (bytesOf "function").all isNamePart = true := by decide
  have hclass : (bytesOf "class").all isNamePart = true := by decide
  refine .get fun c d h => alike_atAsyncFunction.seq fun isAsync => ?_
  rw [h.startsWithWord_eq hfunction, h.startsWithWord_eq hclass]
  refine .ite ?_ (.ite ?_ ?_)
  · exact (alike_functionDeclaration hslash hparams _).seq fun _ => .pure rfl
  · exact (alike_classDeclaration hslash _).bind fun _ _ hview =>
      .pure (congrArg DefaultExport.classOf hview)
  · exact (alike_value hslash).bind fun _ _ hview => alike_optionalSemicolon.seq fun _ =>
      .pure (congrArg DefaultExport.expression hview)

theorem alike_declarationOf (form : Option StatementForm) :
    g.Alike (InvImage Eq Declaration.withoutText) (declarationOf form) (declarationOf form) := by
  unfold declarationOf
  split
  · exact (alike_variableDeclaration hslash _).bind fun _ _ hview =>
      .pure (congrArg Declaration.variable hview)
  · exact (alike_functionDeclaration hslash hparams _).seq fun _ => .pure rfl
  · exact (alike_classDeclaration hslash _).bind fun _ _ hview =>
      .pure (congrArg Declaration.classOf hview)
  · exact .failHere _ _

theorem alike_exportStatement :
    g.Alike (InvImage Eq Statement.withoutText) exportStatement exportStatement := by
  rw [exportStatement_eq]
  refine .get fun c d h => (alike_expectWord (by decide)).seq fun _ => alike_space.seq fun _ =>
    (alike_acceptWord (by decide)).seq fun _ => .ite ?_ <|
    (alike_accept (by decide)).seq fun _ => .ite ?_ <|
    (alike_peekText (by decide)).seq fun _ => .ite ?_ <| alike_statementForm?.seq fun form => ?_
  · refine alike_space.seq fun _ => (alike_defaultExport hslash hparams).bind fun a b hview =>
      (alike_rangeFrom h).seq fun range => .pure ?_
    exact congrArg (Statement.exportDefault · range) hview
  · refine alike_space.seq fun _ => Alike.seq ?_ fun _ => alike_fromClause.seq fun _ =>
      alike_optionalSemicolon.seq fun _ => (alike_rangeFrom h).seq fun _ => .pure rfl
    exact (alike_acceptWord (by decide)).seq fun _ => .ite (alike_space.seq fun _ =>
      alike_name.seq fun _ => alike_space.seq fun _ => .pure rfl) (.pure rfl)
  · refine alike_bracedPairs.seq fun pairs => (alike_afterSpace_eq ?_).seq fun _ =>
      alike_optionalSemicolon.seq fun _ => (alike_rangeFrom h).seq fun _ => .pure rfl
    exact (alike_peekWord (by decide)).seq fun _ =>
      .ite (alike_fromClause.seq fun _ => .pure rfl) (.pure rfl)
  · refine (alike_declarationOf hslash hparams form).bind fun a b hview =>
      (alike_rangeFrom h).seq fun range => .pure ?_
    exact congrArg (Statement.exportDeclaration · range) hview

end Statements

/-- The statements at `c` and `d` end alike, or one ends with its brace and the other with the
semicolon behind the gap. -/
def StatementEnds (g : Gap) (c d : Cursor)
    (r r' : EStateM.Result Fault Cursor Statement) : Prop :=
  Agree g.Aligned (InvImage Eq Statement.withoutText) r r' ∨
    ∃ text text' e e', r = .ok (.verbatim text (c.rangeTo e)) e ∧
      r' = .ok (.verbatim text' (d.rangeTo e')) e' ∧ g.Parted e e'

theorem Aligned.verbatimStatement (hslash : g.turnsSlash = false) (h : g.Aligned c d) :
    g.StatementEnds c d (verbatimStatement c) (verbatimStatement d) := by
  have hlast : c.pos < c.pos → c.last? = d.last? := fun hlt => absurd hlt (Nat.lt_irrefl _)
  rw [verbatimStatement_eq, verbatimStatement_eq]
  rcases Aligned.stretchFrom hslash h.pos_eq h hlast with hagree | ⟨_, e, e', here, there, hparted⟩
  · left
    rcases hagree.elim with ⟨fault, e, e', here, there⟩ | ⟨range, _, e, e', here, there, rfl, hend⟩
    · rw [statement, statement, here, there]
      exact .error
    · rw [statement, statement, here, there]
      exact .ok rfl hend
  · rw [statement, statement, here, there]
    exact .inr ⟨_, _, e, e', rfl, rfl, hparted⟩

theorem alike_statementOf (hslash : g.turnsSlash = false) (hparams : ¬g.CutsParameters)
    (form : StatementForm) :
    g.Alike (InvImage Eq Statement.withoutText) (statementOf (some form))
      (statementOf (some form)) := by
  cases form with
  | importing => exact alike_importStatement.mono fun _ _ heq => congrArg Statement.withoutText heq
  | exporting => exact alike_exportStatement hslash hparams
  | «variable» kind =>
    exact (alike_variableDeclaration hslash kind).bind fun _ _ hview =>
      .pure (congrArg (Statement.declaration ∘ Declaration.variable) hview)
  | function =>
    exact (alike_functionDeclaration hslash hparams true).seq fun _ => .pure rfl
  | classOf =>
    exact (alike_classDeclaration hslash true).bind fun _ _ hview =>
      .pure (congrArg (Statement.declaration ∘ Declaration.classOf) hview)

theorem Aligned.topLevelStatement (hslash : g.turnsSlash = false) (hparams : ¬g.CutsParameters)
    (h : g.Aligned c d) : g.StatementEnds c d (topLevelStatement c) (topLevelStatement d) := by
  obtain ⟨form, hform⟩ := statementForm?_eq c
  have hform' : statementForm? d = .ok form d := by
    obtain ⟨form', hform'⟩ := statementForm?_eq d
    have hagree := alike_statementForm? h
    rw [hform, hform'] at hagree
    cases hagree with
    | ok heq _ => rw [hform', heq]
  rw [topLevelStatement_of_form hform, topLevelStatement_of_form hform']
  cases form with
  | none => exact h.verbatimStatement hslash
  | some form => exact .inl (alike_statementOf hslash hparams form h)

/-! ## All statements -/

/-- The statements of the two texts, when the semicolon behind the gap is a statement of its own in
the first text and closes the statement of a block in the second. -/
inductive SemicolonApart (g : Gap) : List Statement → List Statement → Prop where
  | here {block block' : String} {start brace semicolon : Nat} {rest rest' : List Statement}
      (hat : g.PartedAt brace semicolon)
      (hrest : rest.map Statement.withoutText = rest'.map Statement.withoutText) :
      SemicolonApart g
        (.verbatim block ⟨start, brace⟩ :: .verbatim ";" ⟨semicolon, semicolon + 1⟩ :: rest)
        (.verbatim block' ⟨start, semicolon + 1⟩ :: rest')
  | there {first first' : Statement} {rest rest' : List Statement}
      (hfirst : first.withoutText = first'.withoutText) (hrest : SemicolonApart g rest rest') :
      SemicolonApart g (first :: rest) (first' :: rest')

theorem SemicolonApart.parted (h : g.SemicolonApart body body') :
    ∃ brace semicolon, g.PartedAt brace semicolon := by
  induction h with
  | here hat _ => exact ⟨_, _, hat⟩
  | there _ _ ih => exact ih

/-- The statements read from `c` on are the same, or a semicolon behind the gap sets them apart. -/
def BodiesAlike (g : Gap) (c : Cursor) (body body' : List Statement) : Prop :=
  body.map Statement.withoutText = body'.map Statement.withoutText ∨
    c.pos < g.stop ∧ g.SemicolonApart body body'

theorem BodiesAlike.cons {s s' : Statement} (h : g.BodiesAlike c rest rest')
    (hfirst : s.withoutText = s'.withoutText) : g.BodiesAlike c (s :: rest) (s' :: rest') := by
  cases h with
  | inl hsame => exact .inl (by rw [map_cons, map_cons, hfirst, hsame])
  | inr hapart => exact .inr ⟨hapart.1, .there hfirst hapart.2⟩

theorem BodiesAlike.mono {e : Cursor} (h : g.BodiesAlike e body body') (hle : c.pos ≤ e.pos) :
    g.BodiesAlike c body body' := by
  cases h with
  | inl hsame => exact .inl hsame
  | inr hapart => exact .inr ⟨Nat.lt_of_le_of_lt hle hapart.1, hapart.2⟩

/-- Behind the gap no second semicolon can be set apart. -/
theorem BodiesAlike.of_stop_le (h : g.BodiesAlike c rest rest') (hle : g.stop ≤ c.pos) :
    rest.map Statement.withoutText = rest'.map Statement.withoutText := by
  cases h with
  | inl hsame => exact hsame
  | inr hapart => exact absurd hapart.1 (Nat.not_lt_of_le hle)

theorem PartedAt.brace_lt {brace semicolon : Nat} (h : g.PartedAt brace semicolon) :
    brace < g.stop := by
  obtain ⟨head, blanks, hfront, _, rfl⟩ := h.front
  have hwidth := g.width_pos
  rw [stop, hfront, length_append, length_cons]
  omega

/-- The readings of all statements that follow `c` and `d`, whatever fuel suffices for each. -/
def LaterAlike (g : Gap) (c d : Cursor) : Prop :=
  ∀ {fuel fuel' : Nat}, c.after.length < fuel → d.after.length < fuel' →
    Agree (fun _ _ => True) (g.BodiesAlike c) (laterStatements fuel c) (laterStatements fuel' d)

/-- The first list has the semicolon behind the gap as a statement more, where the second ended the
statement of the brace with it. -/
def SemicolonFirst (g : Gap) (brace stop : Nat) (rest rest' : List Statement) : Prop :=
  ∃ semicolon more, g.PartedAt brace semicolon ∧ stop = semicolon + 1 ∧
    rest = .verbatim ";" ⟨semicolon, semicolon + 1⟩ :: more ∧
    more.map Statement.withoutText = rest'.map Statement.withoutText

theorem Parted.laterStatements (h : g.Parted c d)
    (hlater : ∀ q q', g.Aligned q q' → q.after.length < c.after.length → g.LaterAlike q q')
    (hfuel : c.after.length ≤ fuel) (hfuel' : c.after.length ≤ fuel') :
    Agree (fun _ _ => True) (g.SemicolonFirst c.pos d.pos) (laterStatements (fuel + 1) c)
      (laterStatements fuel' d) := by
  cases h with
  | @intro q q' x tail hat hspace hbeyond hd =>
    have hmore : q.after ≠ [] := by
      rw [hbeyond.after_here]
      exact cons_ne_nil _ _
    have hnext : g.Aligned (q.advance 1) d := by
      rw [hd]
      exact .beyond (hbeyond.advance 1)
    have hpos : (q.advance 1).pos = q.pos + 1 := by
      rw [pos_advance, hbeyond.after_here, length_cons]
      omega
    have hlt : (q.advance 1).after.length < c.after.length := by
      have hlength := (trivia_onward hspace).length_le
      rw [hbeyond.after_here, length_cons] at hlength
      rw [after_advance, hbeyond.after_here, drop_succ_cons, drop_zero]
      omega
    have hlength := hnext.length_eq
    have hstop : g.stop ≤ (q.advance 1).pos := by
      obtain ⟨_, _, _, _, hsemicolon⟩ := hat.back
      omega
    have hend : d.pos = q.pos + 1 := by rw [hnext.pos_eq, hpos]
    rw [laterStatements_eq, hspace, ← id_map (Scan.laterStatements fuel')]
    dsimp only
    rw [statements_succ hmore, topLevelStatement_semicolon hbeyond.after_here]
    refine (hlater _ d hnext hlt (Nat.lt_of_lt_of_le hlt hfuel) (by omega)).map
      fun rest rest' hbodies => ?_
    exact ⟨q.pos, rest, hat, hend, rfl, hbodies.of_stop_le hstop⟩

theorem Settled.statements (hslash : g.turnsSlash = false) (hparams : ¬g.CutsParameters)
    (h : g.Settled c d) (hclear : triviaItem c.after = .nothing)
    (hlater : ∀ q q', g.Aligned q q' → q.after.length < c.after.length → g.LaterAlike q q')
    (hfuel : c.after.length < fuel) (hfuel' : d.after.length < fuel') :
    Agree (fun _ _ => True) (g.BodiesAlike c) (statements fuel c) (statements fuel' d) := by
  have hlength := h.aligned.length_eq
  obtain ⟨fuel, rfl⟩ := Nat.exists_eq_succ_of_ne_zero (Nat.ne_zero_of_lt hfuel)
  obtain ⟨fuel', rfl⟩ := Nat.exists_eq_succ_of_ne_zero (Nat.ne_zero_of_lt hfuel')
  by_cases hend : c.after = []
  · have hend' : d.after = [] := eq_nil_of_length_eq_zero (by rw [hlength, hend]; rfl)
    rw [statements_end fuel hend, statements_end fuel' hend']
    exact .ok (.inl rfl) trivial
  · have hend' : d.after ≠ [] := by
      intro hnil
      rw [hnil] at hlength
      exact hend (eq_nil_of_length_eq_zero hlength.symm)
    rw [statements_succ hend, statements_succ hend']
    rcases h.aligned.topLevelStatement hslash hparams with
      hagree | ⟨text, text', e, e', here, there, hparted⟩
    · rcases hagree.elim with ⟨fault, e, e', here, there⟩ | ⟨s, s', e, e', here, there, hview, hnext⟩
      · rw [here, there]
        exact .error
      · rw [here, there]
        obtain ⟨_, honward, hlt⟩ := topLevelStatement_spec hend (triviaReach_of_nothing hclear) here
        have hadd := honward.pos_add_length
        have hlength' := hnext.length_eq
        refine (hlater e e' hnext (by omega) (by omega) (by omega)).map fun rest rest' hrest => ?_
        exact (hrest.mono honward.pos_le).cons hview
    · rw [here, there]
      obtain ⟨_, honward, hlt⟩ := topLevelStatement_spec hend (triviaReach_of_nothing hclear) here
      have hadd := honward.pos_add_length
      obtain ⟨fuel, rfl⟩ : ∃ n, fuel = n + 1 := ⟨fuel - 1, by omega⟩
      refine (hparted.laterStatements (fun q q' hq hlt' => hlater q q' hq (by omega)) (by omega)
        (by omega)).map fun rest rest' hrest => ?_
      obtain ⟨semicolon, more, hat, hstop, rfl, hviews⟩ := hrest
      rw [rangeTo, rangeTo, h.aligned.pos_eq, hstop]
      exact .inr ⟨Nat.lt_of_le_of_lt honward.pos_le hat.brace_lt, .here hat hviews⟩

/-- All statements that follow, by induction on the text that is left. -/
theorem Aligned.laterAlike (hslash : g.turnsSlash = false) (hparams : ¬g.CutsParameters)
    (h : g.Aligned c d) : g.LaterAlike c d := by
  induction hn : c.after.length using Nat.strongRecOn generalizing c d with
  | ind n ih =>
    intro fuel fuel' hfuel hfuel'
    have hlength := h.length_eq
    rw [laterStatements_eq, laterStatements_eq]
    rcases h.trivia_cases with
      ⟨fault, q, q', here, there⟩ | ⟨crosses, q, q', here, there, hq, hclear⟩
    · rw [here, there]
      exact .error
    · rw [here, there]
      have honward := trivia_onward here
      have hle := honward.length_le
      have hlength' := hq.aligned.length_eq
      refine (hq.statements hslash hparams hclear ?_ (by omega) (by omega)).answers
        fun _ _ hbodies => hbodies.mono honward.pos_le
      exact fun e e' he hlt => ih e.after.length (by omega) he rfl

end Gap

end ModuleBridge
