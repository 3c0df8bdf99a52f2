import ModuleBridge.Proofs.Grammar.OpenDeclaration
import ModuleBridge.Proofs.Grammar.Statements

/-!
# Statements that are moved to another place

The first word of a statement selects how it is read, sometimes with a look at what follows the
word. On a copy of a statement that is no import or export the same form is selected: either a token
of the statement follows the word, or the statement is the word alone, and then the next line starts
as it did before. So the copy is read in the same way, and ends with the piece unless the next line
takes the statement up: `Copied.topLevelStatement_ends_iff`.
-/

namespace ModuleBridge

open Bool Cursor Keyword List Scan StatementForm

variable {b : UInt8} {c d next start : Cursor} {crosses : Bool} {s : Statement} {range : Range}
  {text : String}

/-- Whether a line goes on with a statement that ends the line before it. -/
def Statement.takesUp (s : Statement) (line : List UInt8) : Bool :=
  match s with
  | .verbatim code _ => endsOpen (bytesOf code) && line.head?.any continuesExpression
  | .declaration (.variable a) => a.takesUp line
  | _ => false

/-- The parameters of a function are passed as a block. -/
def Statement.ParametersClose (c : Cursor) : Statement → Prop
  | .declaration (.function a) => Copied.ClosesAt c a.parameters
  | _ => True

namespace Scan

theorem importStatement_isModuleDeclaration :
    RunsTo c (fun s _ => s.isModuleDeclaration = true) importStatement := by
  intro s d hrun
  obtain ⟨_, _, rfl⟩ := importStatement_run hrun
  rfl

theorem exportStatement_isModuleDeclaration :
    RunsTo c (fun s _ => s.isModuleDeclaration = true) exportStatement := by
  intro s d hrun
  cases exportStatement_run hrun <;> rfl

end Scan

theorem isNamePart_plain : isNamePart b = true → startsLiteral b = false ∧
    isOpener b = false ∧ isTerminator b = false := by
  apply forall_byte _ b
  decide +kernel

theorem Scan.token_name {rest : List UInt8} (hc : c.after = b :: rest) (hb : isNamePart b = true)
    (depth : Nat) :
    token depth c = .ok depth (c.advance (c.after.takeWhile isNamePart).length) := by
  obtain ⟨hplain, hopen, hclose⟩ := isNamePart_plain hb
  have hcloser : isCloser b = false := by
    rw [isTerminator, or_eq_false_iff] at hclose
    exact hclose.2
  rw [hc, takeWhile_cons_of_pos hb]
  simp [token, hc, literal_of_plain hc hplain, hopen, hcloser, hb]

theorem Scan.statement_pastWord {word : String} (hword : Copied.IsWord word)
    (hclear : triviaReach c.after = .clear 0 false) (hstarts : c.startsWithWord word = true)
    (hrun : statement c = .ok range d) :
    StretchRun .statement c (c.advance (bytesOf word).length) 0 d := by
  have hspace := trivia_of_clear hclear
  have htake := (startsWithWord_iff hword.name).mp hstarts
  obtain ⟨b, more, hbytes, _⟩ := hword.starts
  obtain ⟨rest, hc⟩ := c.exists_cons_of_startsWithWord hbytes hstarts
  have hb : isNamePart b = true := hword.name b (by rw [hbytes]; exact mem_cons_self)
  obtain ⟨hrun, _⟩ := run_of_stretchFrom hrun
  cases hrun with
  | atEnd hspace' hq =>
    cases hspace.symm.trans hspace'
    cases hc.symm.trans hq
  | before _ _ hbound => exact absurd hbound (boundary_start_ne_before c _ _)
  | after hspace' hq hbound =>
    cases hspace.symm.trans hspace'
    cases hc.symm.trans hq
    have hterminator := boundary_after hbound
    rw [(isNamePart_plain hb).2.2] at hterminator
    cases hterminator
  | token hspace' hq _ _ htoken hrest =>
    cases hspace.symm.trans hspace'
    rw [token_name hc hb, htake] at htoken
    cases htoken
    exact hrest

theorem StretchRun.exists_trivia {kind : StretchKind} {depth : Nat}
    (h : StretchRun kind start c depth d) : ∃ crosses q, trivia c = .ok crosses q := by
  cases h with
  | atEnd hspace => exact ⟨_, _, hspace⟩
  | before hspace => exact ⟨_, _, hspace⟩
  | after hspace => exact ⟨_, _, hspace⟩
  | block hspace => exact ⟨_, _, hspace⟩
  | token hspace => exact ⟨_, _, hspace⟩

/-! ## What follows the first word -/

/-- Whether what follows the word of a form fits it. -/
def StatementForm.admits (form : StatementForm) (next : Cursor) : Bool :=
  match form with
  | .importing => !next.startsWith "(" && !next.startsWith "."
  | .variable _ => next.byte?.any isNameStart || next.startsWith "\x7b" || next.startsWith "["
  | _ => true

theorem StatementForm.isAt_eq (form : StatementForm) {word : Keyword}
    (hstarts : c.startsWithWord word.text = true)
    (hspace : space (c.advance (bytesOf word.text).length) = .ok () next) :
    form.isAt word c = form.admits next := by
  have haccept : acceptWord word.text c = .ok true (c.advance (bytesOf word.text).length) := by
    rw [acceptWord, hstarts, if_pos rfl]
  unfold isAt
  rw [haccept]
  dsimp only
  rw [hspace]
  cases form <;> rfl

theorem Cursor.startsWith_byte (hbytes : bytesOf text = [b]) :
    c.startsWith text = c.byte?.any (· == b) := by
  rw [startsWith, hbytes, byte?]
  cases c.after with
  | nil => rfl
  | cons a rest => simp [List.isPrefixOf, beq_comm]

/-- Only the next byte tells whether a variable declaration goes on. -/
theorem StatementForm.admits_variable (kind : VariableKind) (next : Cursor) :
    (StatementForm.variable kind).admits next =
      next.byte?.any fun b => isNameStart b || b == byte '\x7b' || b == byte '[' := by
  rw [admits, startsWith_byte (by decide : bytesOf "\x7b" = [byte '\x7b']),
    startsWith_byte (by decide : bytesOf "[" = [byte '['])]
  cases next.byte? <;> rfl

theorem Scan.atAsyncFunction_of_word (hstarts : c.startsWithWord "async" = true)
    (hspace : trivia (c.advance (bytesOf "async").length) = .ok crosses next) :
    atAsyncFunction c = .ok (!crosses && next.startsWithWord "function") c := by
  have haccept : acceptWord "async" c = .ok true (c.advance (bytesOf "async").length) := by
    rw [acceptWord, hstarts, if_pos rfl]
  refine peek_eq_ok.mpr ⟨?_, rfl⟩
  rw [haccept]
  dsimp only
  rw [hspace]
  cases crosses <;> rfl

theorem Scan.atAsyncFunction_of_not (hstarts : c.startsWithWord "async" = false) :
    atAsyncFunction c = .ok false c := by
  have haccept : acceptWord "async" c = .ok false c := by rw [acceptWord, hstarts]; rfl
  refine peek_eq_ok.mpr ⟨?_, rfl⟩
  rw [haccept]

theorem Scan.atAsyncFunction_eq_true (h : atAsyncFunction c = .ok true c) :
    c.startsWithWord "async" = true ∧ ∃ next,
      trivia (c.advance (bytesOf "async").length) = .ok false next ∧
      next.startsWithWord "function" = true := by
  have hstarts : c.startsWithWord "async" = true := by
    refine not_eq_false _ ▸ fun hno => ?_
    cases h.symm.trans (atAsyncFunction_of_not hno)
  refine ⟨hstarts, ?_⟩
  cases hspace : trivia (c.advance (bytesOf "async").length) with
  | error fault d =>
    have haccept : acceptWord "async" c = .ok true (c.advance (bytesOf "async").length) := by
      rw [acceptWord, hstarts, if_pos rfl]
    obtain ⟨hanswer, _⟩ := peek_eq_ok.mp h
    rw [haccept] at hanswer
    dsimp only at hanswer
    rw [hspace] at hanswer
    cases hanswer
  | ok crosses next =>
    have hanswer := (h.symm.trans (atAsyncFunction_of_word hstarts hspace))
    injection hanswer with hanswer
    rw [eq_comm, and_eq_true, not_eq_true'] at hanswer
    obtain ⟨rfl, hfunction⟩ := hanswer
    exact ⟨next, rfl, hfunction⟩

theorem Scan.find?_of_async (hstarts : c.startsWithWord "async" = true) :
    statementWords.find? (c.startsWithWord ·.text) = none := by
  have hother : ∀ word ∈ statementWords, bytesOf word.text ≠ bytesOf "async" := by decide
  refine find?_eq_none.mpr fun word hmem hword => hother word hmem ?_
  rw [← (startsWithWord_iff word.isWord.name).mp hword]
  exact (startsWithWord_iff asyncWord.isWord.name).mp hstarts

theorem Scan.statementForm?_of_words (hasync : atAsyncFunction c = .ok false c) :
    statementForm? c = .ok ((statementWords.find? (c.startsWithWord ·.text)).bind
      fun word => word.form?.filter (·.isAt word c)) c := by
  refine bind_eq_ok.mpr ⟨false, c, hasync, ?_⟩
  rw [if_neg Bool.false_ne_true, get_bind]
  cases statementWords.find? (c.startsWithWord ·.text) <;> rfl

theorem boundary_continues {last : Cursor} (hb : continuesExpression b = true) :
    StretchKind.statement.boundary start last crosses b = .inside := by
  have hopen := continuesExpression_open hb
  rw [isTerminator, or_eq_false_iff] at hopen
  have hkind : (StretchKind.statement == StretchKind.expression) = false := rfl
  simp only [StretchKind.boundary, endsAtLineBreak, hb, hopen.1, hopen.2, hkind, Bool.not_true,
    Bool.and_false, false_eq_true, if_false]

/-! ## The form of a copy -/

namespace Copied

variable {c c' : Cursor} {t r r' : List UInt8} {word : String} (h : Copied c c' t r r')

include h

theorem admits_eq (form : StatementForm) {k : Nat} (hk : k < t.length) :
    form.admits (c'.advance k) = form.admits (c.advance k) := by
  have hbyte := h.byte?_eq hk
  cases form with
  | importing =>
    have hparen : bytesOf "(" = [byte '('] := by decide
    have hpoint : bytesOf "." = [byte '.'] := by decide
    simp only [admits, startsWith_byte hparen, startsWith_byte hpoint,
      hbyte]
  | «variable» kind => rw [admits_variable, admits_variable, hbyte]
  | exporting => rfl
  | function => rfl
  | classOf => rfl

theorem startsWithWord_copy (hne : t ≠ []) (hword : IsWord word) :
    c'.startsWithWord word = c.startsWithWord word := by
  have hsame := h.startsWithWord_eq (length_pos_iff.mpr hne) hword.name
  rwa [advance_zero, advance_zero] at hsame

theorem word_length_le (hne : t ≠ []) (hword : IsWord word)
    (hstarts : c.startsWithWord word = true) : (bytesOf word).length ≤ t.length := by
  have hfits := h.word_fits (length_pos_iff.mpr hne) hword.name (by
    rw [advance_zero]
    exact startsWith_of_startsWithWord hstarts)
  omega

theorem isAt_eq (form : StatementForm) {word : Keyword} (hne : t ≠ [])
    (hstarts : c.startsWithWord word.text = true)
    (hnext : HasToken (c.pos + t.length) (c.advance (bytesOf word.text).length)) :
    form.isAt word c' = form.isAt word c := by
  have hstarts' := (h.startsWithWord_copy hne word.isWord).trans hstarts
  obtain ⟨crosses, q, hspace, hq⟩ := hnext
  obtain ⟨j, _, hj, rfl, hspace'⟩ :=
    h.trivia_follows (h.word_length_le hne word.isWord hstarts) hspace hq
  rw [form.isAt_eq hstarts (space_eq_ok.mpr ⟨_, hspace⟩),
    form.isAt_eq hstarts' (space_eq_ok.mpr ⟨_, hspace'⟩), h.admits_eq form hj]

/-- After the first word of a statement that is kept verbatim comes a token of the statement, or the
word is all of it. -/
theorem hasToken_or_word (hword : IsWord word) (hclear : triviaReach c.after = .clear 0 false)
    (hstarts : c.startsWithWord word = true) (hrun : statement c = .ok range (c.advance t.length)) :
    HasToken (c.pos + t.length) (c.advance (bytesOf word).length) ∨
      t.length = (bytesOf word).length := by
  have hend := h.pos_here (Nat.le_refl t.length)
  rcases (statement_pastWord hword hclear hstarts hrun).eq_or_passes with heq |
    ⟨crosses, q, hspace, hq⟩
  · refine .inr ?_
    have hfits := (List.isPrefixOf_iff_prefix.mp (startsWith_of_startsWithWord hstarts)).length_le
    have hpos := congrArg pos heq
    rw [hend, pos_advance, Nat.min_eq_left hfits] at hpos
    omega
  · rw [hend] at hq
    exact .inl ⟨crosses, q, hspace, hq⟩

theorem atAsyncFunction_follows (hne : t ≠ []) {a : FunctionDeclaration}
    (hasync : atAsyncFunction c = .ok true c) (hclose : ClosesAt c a.parameters)
    (hrun : functionDeclaration true c = .ok a (c.advance t.length)) :
    atAsyncFunction c' = .ok true c' := by
  obtain ⟨hstarts, q, hspace, hfunction⟩ := atAsyncFunction_eq_true hasync
  have hhead : functionHead c true true q = .ok a (c.advance t.length) := by
    have haccept : acceptWord "async" c = .ok true (c.advance (bytesOf "async").length) := by
      rw [acceptWord, hstarts, if_pos rfl]
    have hspaced : spaced (acceptWord "async") c = .ok true q :=
      bind_eq_ok.mpr ⟨true, _, haccept, bind_eq_ok.mpr ⟨(), q, space_eq_ok.mpr ⟨_, hspace⟩, rfl⟩⟩
    rw [functionDeclaration_eq, get_bind] at hrun
    obtain ⟨_, _, hspaced', hhead⟩ := bind_eq_ok.mp hrun
    cases hspaced.symm.trans hspaced'
    exact hhead
  have honward : c.Onward q :=
    (Cursor.Onward.startsWith (startsWith_of_startsWithWord hstarts)).trans (trivia_onward hspace)
  obtain ⟨_, hfollow⟩ := h.functionHead_follows c c' true true true honward a _ hhead
  have hq : q.pos < c.pos + t.length :=
    (hfollow ⟨hclose, Nat.le_of_eq (h.pos_here (Nat.le_refl t.length))⟩).1.pos_lt
  have hword := asyncWord.isWord
  have hstarts' := (h.startsWithWord_copy hne hword).trans hstarts
  obtain ⟨j, _, hj, rfl, hspace'⟩ :=
    h.trivia_follows (h.word_length_le hne hword hstarts) hspace hq
  have hfunction' : (c'.advance j).startsWithWord "function" = true :=
    (h.startsWithWord_eq hj functionWord.isWord.name).trans hfunction
  rw [atAsyncFunction_of_word hstarts' hspace', hfunction']
  rfl

theorem atAsyncFunction_stays (hr : Resumes r r') (hne : t ≠ [])
    (hclear : triviaReach c.after = .clear 0 false) (hasync : atAsyncFunction c = .ok false c)
    (hverbatim : c.startsWithWord "async" = true →
      ∃ range, statement c = .ok range (c.advance t.length)) :
    atAsyncFunction c' = .ok false c' := by
  have hword : IsWord "async" := asyncWord.isWord
  have hsame := h.startsWithWord_copy hne hword
  cases hstarts : c.startsWithWord "async" with
  | false => exact atAsyncFunction_of_not (hsame.trans hstarts)
  | true =>
    have hstarts' := hsame.trans hstarts
    obtain ⟨range, hrun⟩ := hverbatim hstarts
    rcases h.hasToken_or_word hword hclear hstarts hrun with ⟨crosses, q, hspace, hq⟩ | hlength
    · obtain ⟨j, _, hj, rfl, hspace'⟩ :=
        h.trivia_follows (h.word_length_le hne hword hstarts) hspace hq
      have hfunction : (c'.advance j).startsWithWord "function" =
          (c.advance j).startsWithWord "function" :=
        h.startsWithWord_eq hj functionWord.isWord.name
      rw [atAsyncFunction_of_word hstarts hspace] at hasync
      rw [atAsyncFunction_of_word hstarts' hspace', hfunction]
      injection hasync with hanswer
      rw [hanswer]
    · -- The line ends after the word, or the text does.
      rcases h.trivia_there hr with ⟨rfl, hspace⟩ | ⟨b, more, _, hspace, _⟩
      · have hafter : (c'.advance t.length).after = [] := by
          rw [h.after_there (Nat.le_refl _), drop_length, nil_append]
        rw [hlength] at hspace hafter
        rw [atAsyncFunction_of_word hstarts' hspace, startsWithWord,
          startsWith, hafter]
        rfl
      · rw [hlength] at hspace
        rw [atAsyncFunction_of_word hstarts' hspace]
        rfl

omit h in
theorem admits_importing_of_word (hrun : StretchRun .statement start d 0 d)
    (hspace : trivia d = .ok crosses next) : importing.admits next = true := by
  have hparen : bytesOf "(" = [byte '('] := by decide
  have hpoint : bytesOf "." = [byte '.'] := by decide
  rw [admits, startsWith_byte hparen, startsWith_byte hpoint,
    byte?]
  cases hnext : next.after with
  | nil => rfl
  | cons b rest =>
    have hb : continuesExpression b = false := by
      refine eq_false_iff.mpr fun hb => ?_
      have hlt := hrun.pos_lt_of_inside hspace hnext (boundary_continues hb)
      omega
    have hplain := fun a (ha : continuesExpression a = true) (hba : (b == a) = true) =>
      Bool.false_ne_true (hb.symm.trans (eq_of_beq hba ▸ ha))
    have hnoParen := eq_false_iff.mpr (hplain (byte '(') (by decide))
    have hnoPoint := eq_false_iff.mpr (hplain (byte '.') (by decide))
    simp only [head?_cons, Option.any_some, hnoParen, hnoPoint, Bool.not_false,
      Bool.and_self]

/-- Where the word of a variable declaration is the whole statement, the next line starts as the
code after it did, and no declaration with it. -/
theorem isAt_variable_of_word (hr : Resumes r r') (kind : VariableKind) {word : Keyword}
    (hne : t ≠ []) (hstarts : c.startsWithWord word.text = true)
    (hlength : t.length = (bytesOf word.text).length) {q : Cursor}
    (hspace : trivia (c.advance t.length) = .ok crosses q)
    (hno : (StatementForm.variable kind).isAt word c = false) :
    (StatementForm.variable kind).isAt word c' = false := by
  have hstarts' := (h.startsWithWord_copy hne word.isWord).trans hstarts
  obtain ⟨n, hreach, hq⟩ := h.trivia_here hspace
  obtain ⟨q', hspace', hq'⟩ := h.space_there hr
  rw [hlength] at hspace hspace'
  rw [StatementForm.isAt_eq _ hstarts (space_eq_ok.mpr ⟨_, hspace⟩), StatementForm.admits_variable,
    byte?, hq] at hno
  rw [StatementForm.isAt_eq _ hstarts' hspace', StatementForm.admits_variable, byte?, hq']
  cases hrest : r.drop n with
  | nil => rw [hr.atEnd n crosses hreach hrest]; rfl
  | cons b rest =>
    rw [hrest] at hno
    have hb : isNameStart b = false := by
      simp only [head?_cons, Option.any_some, or_eq_false_iff] at hno
      exact hno.1.1
    obtain ⟨more, rfl⟩ := hr.same n crosses b rest hreach hrest hb
    exact hno

end Copied

theorem Scan.exists_answer_iff {α β : Type} {op : Scan α} {f : α → β} :
    (∃ b, (op >>= fun a => pure (f a)) c = .ok b d) ↔ ∃ a, op c = .ok a d := by
  constructor
  · rintro ⟨b, hrun⟩
    obtain ⟨a, hop, -⟩ := map_eq_ok.mp hrun
    exact ⟨a, hop⟩
  · rintro ⟨a, hop⟩
    exact ⟨f a, bind_eq_ok.mpr ⟨a, d, hop, rfl⟩⟩

theorem Keyword.eq_of_form? {word : Keyword} {kind : VariableKind}
    (h : word.form? = some (.variable kind)) : word = kind.keyword := by
  cases word <;> cases h <;> rfl

namespace Copied

variable {c c' : Cursor} {t r r' : List UInt8} (h : Copied c c' t r r')

include h

variable (hr : Resumes r r') (hne : t ≠ []) (hclear : triviaReach c.after = .clear 0 false)

include hr hne hclear

theorem isAt_copy {word : Keyword} {form : StatementForm} (hform : word.form? = some form)
    (hstarts : c.startsWithWord word.text = true)
    (hread : statementOf ((some form).filter (·.isAt word c)) c = .ok s (c.advance t.length))
    (hplain : s.isModuleDeclaration = false) : form.isAt word c' = form.isAt word c := by
  cases hat : form.isAt word c with
  | true =>
    have hsome : (some form).filter (·.isAt word c) = some form := Option.filter_some_pos hat
    rw [hsome] at hread
    cases form with
    | importing => exact absurd (importStatement_isModuleDeclaration hread) (by simp [hplain])
    | «variable» kind =>
      obtain ⟨a, hrun, rfl⟩ := map_eq_ok.mp hread
      have hnext := (h.variableDeclaration_ends_iff hr hrun).1
      rw [← eq_of_form? hform] at hnext
      rw [h.isAt_eq _ hne hstarts hnext, hat]
    | exporting => rfl
    | function => rfl
    | classOf => rfl
  | false =>
    have hnone : (some form).filter (·.isAt word c) = none :=
      Option.filter_some_neg hat
    rw [hnone] at hread
    obtain ⟨range, hrun, rfl⟩ := verbatimStatement_eq_ok.mp hread
    rcases h.hasToken_or_word word.isWord hclear hstarts hrun with hnext | hlength
    · rw [h.isAt_eq _ hne hstarts hnext, hat]
    · have hpast := statement_pastWord word.isWord hclear hstarts hrun
      rw [← hlength] at hpast
      obtain ⟨crosses, q, hspace⟩ := hpast.exists_trivia
      cases form with
      | importing =>
        have hadmits := admits_importing_of_word hpast hspace
        rw [hlength] at hspace
        rw [StatementForm.isAt_eq _ hstarts (space_eq_ok.mpr ⟨_, hspace⟩), hadmits] at hat
        cases hat
      | «variable» kind => exact h.isAt_variable_of_word hr kind hne hstarts hlength hspace hat
      | exporting => cases hat
      | function => cases hat
      | classOf => cases hat

/-- The copy of a statement that is no import or export has the form of the statement. -/
theorem statementForm?_copy {form : Option StatementForm} (hform : statementForm? c = .ok form c)
    (hread : statementOf form c = .ok s (c.advance t.length))
    (hplain : s.isModuleDeclaration = false) (hclose : s.ParametersClose c) :
    statementForm? c' = .ok form c' := by
  obtain ⟨isAsync, hasync⟩ : ∃ isAsync, atAsyncFunction c = .ok isAsync c := ⟨_, rfl⟩
  cases isAsync with
  | true =>
    have hfunction : statementForm? c = .ok (some .function) c :=
      bind_eq_ok.mpr ⟨true, c, hasync, rfl⟩
    cases hform.symm.trans hfunction
    obtain ⟨a, hrun, rfl⟩ := map_eq_ok.mp hread
    exact bind_eq_ok.mpr ⟨true, c', h.atAsyncFunction_follows hne hasync hclose hrun, rfl⟩
  | false =>
    cases hform.symm.trans (statementForm?_of_words hasync)
    have hwords : statementWords.find? (c'.startsWithWord ·.text) =
        statementWords.find? (c.startsWithWord ·.text) := by
      congr 1
      funext word
      exact h.startsWithWord_copy hne word.isWord
    have hasync' : atAsyncFunction c' = .ok false c' := by
      refine h.atAsyncFunction_stays hr hne hclear hasync fun hstarts => ?_
      rw [find?_of_async hstarts] at hread
      obtain ⟨range, hrun, _⟩ := verbatimStatement_eq_ok.mp hread
      exact ⟨range, hrun⟩
    rw [statementForm?_of_words hasync', hwords]
    cases hfind : statementWords.find? (c.startsWithWord ·.text) with
    | none => rfl
    | some word =>
      rw [hfind] at hread
      cases hselect : word.form? with
      | none => simp only [Option.bind_some, hselect, Option.filter_none]
      | some form =>
        simp only [Option.bind_some, hselect] at hread ⊢
        have hstarts : c.startsWithWord word.text = true :=
          find?_some (p := fun word : Keyword => c.startsWithWord word.text) hfind
        have hat := h.isAt_copy hr hne hclear hselect hstarts hread hplain
        rw [Option.filter_some, Option.filter_some, hat]

/-- The copy of a statement that is no import or export ends with the piece, unless the next line
goes on with the statement. -/
theorem topLevelStatement_ends_iff (htext : t = bytesOf text)
    (hrun : topLevelStatement c = .ok s (c.advance t.length))
    (hplain : s.isModuleDeclaration = false) (hclose : s.ParametersClose c) :
    (∃ s', topLevelStatement c' = .ok s' (c'.advance t.length)) ↔
      s.takesUp (r'.drop 1) = false := by
  obtain ⟨form, hform, hread⟩ := topLevelStatement_eq_ok.mp hrun
  have hform' := h.statementForm?_copy hr hne hclear hform hread hplain hclose
  have hsame : (∃ s', topLevelStatement c' = .ok s' (c'.advance t.length)) ↔
      ∃ s', statementOf form c' = .ok s' (c'.advance t.length) := by
    refine exists_congr fun s' =>
      topLevelStatement_eq_ok.trans ⟨?_, fun hread' => ⟨_, hform', hread'⟩⟩
    rintro ⟨_, hother, hread'⟩
    cases hform'.symm.trans hother
    exact hread'
  have hend := h.mirror_end
  have hstop := Nat.le_of_eq (h.pos_here (Nat.le_refl t.length))
  rw [hsame]
  cases form with
  | none =>
    obtain ⟨range, hstatement, rfl⟩ := verbatimStatement_eq_ok.mp hread
    have hcode : bytesOf (c.textUpTo (c.advance t.length)) = t := by
      rw [textUpTo_advance, h.here, take_left, htext, textOf_bytesOf]
    rw [Statement.takesUp, hcode, head?_drop,
      ← h.statement_stops_iff hr hne hclear hstatement]
    constructor
    · rintro ⟨s', hread'⟩
      obtain ⟨range', hstatement', _⟩ := verbatimStatement_eq_ok.mp hread'
      exact ⟨range', hstatement'⟩
    · rintro ⟨range', hstatement'⟩
      exact ⟨_, verbatimStatement_eq_ok.mpr ⟨range', hstatement', rfl⟩⟩
  | some form =>
    cases form with
    | importing => exact absurd (importStatement_isModuleDeclaration hread) (by simp [hplain])
    | exporting => exact absurd (exportStatement_isModuleDeclaration hread) (by simp [hplain])
    | «variable» kind =>
      obtain ⟨a, hdeclaration, rfl⟩ := map_eq_ok.mp hread
      exact exists_answer_iff.trans (h.variableDeclaration_ends_iff hr hdeclaration).2
    | function =>
      obtain ⟨a, hdeclaration, rfl⟩ := map_eq_ok.mp hread
      obtain ⟨_, hfollow⟩ := h.functionDeclaration_follows true (.refl c) _ _ hdeclaration
      obtain ⟨_, a', hdeclaration', _⟩ := hfollow ⟨hclose, hstop⟩
      rw [mirror_start, hend] at hdeclaration'
      exact iff_of_true (exists_answer_iff.mpr ⟨a', hdeclaration'⟩) rfl
    | classOf =>
      obtain ⟨a, hdeclaration, rfl⟩ := map_eq_ok.mp hread
      obtain ⟨_, hfollow⟩ := h.classDeclaration_follows true (.refl c) _ _ hdeclaration
      obtain ⟨_, a', hdeclaration', _⟩ := hfollow hstop
      rw [mirror_start, hend] at hdeclaration'
      exact iff_of_true (exists_answer_iff.mpr ⟨a', hdeclaration'⟩) rfl

end Copied

end ModuleBridge
