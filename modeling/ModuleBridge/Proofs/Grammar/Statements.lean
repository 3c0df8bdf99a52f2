import ModuleBridge.Proofs.Grammar.Onward

/-!
# Runs of the statement loop

A module is read statement by statement. Each statement covers the range from the cursor where it is
read to the cursor it leaves behind, and takes at least one byte. `ModuleRun` lists the statements
of a run with the cursors between them; reading a module succeeds exactly when there is such a run,
whatever fuel the loop is given.
-/

namespace ModuleBridge

open Scan

variable {c d e : Cursor} {s : Statement} {nameRequired : Bool} {body : List Statement}

namespace Scan

open Cursor

/-! ## Runs of declarations, imports and exports -/

theorem variableDeclaration_run {kind : VariableKind} :
    RunsTo c (fun a d => a.range = c.rangeTo d ∧ c.startsWithWord a.kind.keyword.text = true)
      (variableDeclaration kind) :=
  .get <| .bind fun _ _ hword => .get <| .bind fun _ _ _ => .bind fun _ _ _ => .peek <|
    .pure ⟨rfl, (expectWord_eq_ok.mp hword).1⟩

theorem functionDeclaration_run :
    RunsTo c (fun a d => a.range = c.rangeTo d ∧
      c.startsWithWord (if a.isAsync then "async" else "function") = true ∧
      ∃ q body, braces q = .ok body d) (functionDeclaration nameRequired) := by
  rw [functionDeclaration_eq]
  refine .get <| .bind fun isAsync e hasync => .bind fun _ f hword => ?_
  have hstarts : c.startsWithWord (if isAsync then "async" else "function") = true := by
    obtain ⟨found, g, hfound, hrest⟩ := bind_eq_ok.mp hasync
    rcases acceptWord_cases hfound with ⟨rfl, hstarts, -⟩ | ⟨rfl, -, rfl⟩
    · obtain ⟨_, _, rfl⟩ := map_eq_ok.mp hrest
      exact hstarts
    · obtain ⟨rfl, rfl⟩ := pure_eq_ok.mp hrest
      exact (expectWord_eq_ok.mp hword).1
  exact .bind fun _ _ _ => .bind fun _ _ _ => .peek <| .bind fun _ _ _ => .bind fun _ _ _ =>
    .bind fun _ _ _ => .bind fun _ q _ => .bind fun body _ hbody => .peek <|
      .pure ⟨rfl, hstarts, q, body, hbody⟩

theorem classDeclaration_run :
    RunsTo c (fun a d => a.range = c.rangeTo d ∧ c.startsWithWord "class" = true ∧
      ∃ q body, braces q = .ok body d) (classDeclaration nameRequired) := by
  rw [classDeclaration_eq]
  exact .get <| .bind fun _ _ hword => .bind fun _ _ _ => .peek <| .peek <| .bind fun _ _ _ =>
    .bind fun _ _ _ => .bind fun _ _ _ => .bind fun _ q _ => .bind fun body _ hbody => .peek <|
      .pure ⟨rfl, (expectWord_eq_ok.mp hword).1, q, body, hbody⟩

/-- The declarations with a name. -/
inductive DeclarationRun (c : Cursor) : Declaration → Cursor → Prop where
  | variable {kind : VariableKind} {a : VariableDeclaration} {d : Cursor}
      (hread : variableDeclaration kind c = .ok a d) : DeclarationRun c (.variable a) d
  | function {a : FunctionDeclaration} {d : Cursor}
      (hread : functionDeclaration true c = .ok a d) : DeclarationRun c (.function a) d
  | classOf {a : ClassDeclaration} {d : Cursor}
      (hread : classDeclaration true c = .ok a d) : DeclarationRun c (.classOf a) d

theorem declarationOf_run (form : Option StatementForm) :
    RunsTo c (DeclarationRun c) (declarationOf form) := by
  unfold declarationOf
  split
  · exact .bind fun _ _ hread => .pure (.variable hread)
  · exact .bind fun _ _ hread => .pure (.function hread)
  · exact .bind fun _ _ hread => .pure (.classOf hread)
  · exact fun _ _ hfail => absurd hfail failHere_ne_ok

theorem importStatement_run :
    RunsTo c (fun s d => ∃ bindings source, s = .importFrom bindings source (c.rangeTo d))
      importStatement := by
  rw [importStatement_eq]
  exact .get <| .bind fun _ _ _ => .bind fun _ _ _ => .get <| .ite
    (fun _ => .bind fun _ _ _ => .bind fun _ _ _ => .peek <| .pure ⟨_, _, rfl⟩) fun _ =>
    .bind fun _ _ _ => .bind fun _ _ _ => .bind fun _ _ _ => .bind fun _ _ _ =>
      .peek <| .pure ⟨_, _, rfl⟩

/-- What can be exported by default. -/
inductive DefaultRun (c : Cursor) : DefaultExport → Cursor → Prop where
  | function {a : FunctionDeclaration} {d : Cursor}
      (hread : functionDeclaration false c = .ok a d) : DefaultRun c (.function a) d
  | classOf {a : ClassDeclaration} {d : Cursor}
      (hread : classDeclaration false c = .ok a d) : DefaultRun c (.classOf a) d
  | expression {x : Expression} {e d : Cursor} (hread : value c = .ok x e)
      (hend : optionalSemicolon e = .ok () d) : DefaultRun c (.expression x) d

theorem defaultExport_run : RunsTo c (DefaultRun c) defaultExport :=
  .get <| .peek <| .ite (fun _ => .bind fun _ _ hread => .pure (.function hread)) fun _ =>
    .ite (fun _ => .bind fun _ _ hread => .pure (.classOf hread)) fun _ =>
      .bind fun _ _ hread => .bind fun _ _ hend => .pure (.expression hread hend)

/-- The exports, with the readings of a value or a declaration. -/
inductive ExportRun (c : Cursor) : Statement → Cursor → Prop where
  | default {x y d : Cursor} {v : DefaultExport} (hx : c.Onward x) (hspace : space x = .ok () y)
      (hread : DefaultRun y v d) : ExportRun c (.exportDefault v (c.rangeTo d)) d
  | all {source : Quoted} {d : Cursor} : ExportRun c (.exportAll source (c.rangeTo d)) d
  | namespace {exported : Name} {source : Quoted} {d : Cursor} :
      ExportRun c (.exportNamespace exported source (c.rangeTo d)) d
  | list {entries : List ExportEntry} {source : Option Quoted} {d : Cursor} :
      ExportRun c (.exportList entries source (c.rangeTo d)) d
  | declaration {q d : Cursor} {a : Declaration} (hq : c.Onward q)
      (hread : DeclarationRun q a d) : ExportRun c (.exportDeclaration a (c.rangeTo d)) d

theorem exportStatement_run : RunsTo c (ExportRun c) exportStatement := by
  rw [exportStatement_eq]
  refine .get <| .bind fun _ x hword => .bind fun _ y hspace => .bind fun _ z hdefault => ?_
  have hz := ((expectWord_onward _ hword).trans (space_onward hspace)).trans
    (acceptWord_onward _ hdefault)
  refine .ite (fun _ => ?_) fun _ => .bind fun _ w hstar => .ite (fun _ => ?_) fun _ =>
    .peek <| .ite (fun _ => ?_) fun _ => .bind fun form q hform => ?_
  · exact .bind fun _ _ hspace => .bind fun _ _ hread =>
      .peek <| .pure (.default hz hspace (defaultExport_run hread))
  · refine .bind fun _ _ _ => .bind fun exported _ _ => .bind fun _ _ _ => .bind fun _ _ _ =>
      .peek <| .pure ?_
    cases exported with
    | some exported => exact .namespace
    | none => exact .all
  · exact .bind fun _ _ _ => .bind fun _ _ _ => .bind fun _ _ _ => .peek <| .pure .list
  · have hq := (hz.trans (accept_onward _ hstar)).trans (statementForm?_inText.onward hform)
    exact .bind fun _ _ hread => .peek <| .pure (.declaration hq (declarationOf_run _ hread))

/-! ## Single statements -/

theorem statementForm?_eq (c : Cursor) : ∃ form, statementForm? c = .ok form c := by
  obtain ⟨isAsync, hasync⟩ : ∃ isAsync, atAsyncFunction c = .ok isAsync c := ⟨_, rfl⟩
  cases isAsync with
  | true => exact ⟨_, bind_eq_ok.mpr ⟨true, c, hasync, rfl⟩⟩
  | false =>
    cases hfind : Keyword.statementWords.find? (c.startsWithWord ·.text) with
    | none =>
      refine ⟨none, bind_eq_ok.mpr ⟨false, c, hasync, ?_⟩⟩
      rw [if_neg Bool.false_ne_true, get_bind, hfind]
      rfl
    | some word =>
      refine ⟨word.form?.filter (·.isAt word c), bind_eq_ok.mpr ⟨false, c, hasync, ?_⟩⟩
      rw [if_neg Bool.false_ne_true, get_bind, hfind]
      rfl

def statementOf : Option StatementForm → Scan Statement
  | some .importing => importStatement
  | some .exporting => exportStatement
  | some (.variable kind) => do return .declaration (.variable (← variableDeclaration kind))
  | some .function => do return .declaration (.function (← functionDeclaration true))
  | some .classOf => do return .declaration (.classOf (← classDeclaration true))
  | none => verbatimStatement

theorem topLevelStatement_eq_ok :
    topLevelStatement c = .ok s d ↔
      ∃ form, statementForm? c = .ok form c ∧ statementOf form c = .ok s d := by
  have hread : topLevelStatement = statementForm? >>= statementOf := by
    unfold topLevelStatement
    congr 1
  rw [hread, bind_eq_ok]
  constructor
  · rintro ⟨form, e, hform, hof⟩
    obtain ⟨form', hform'⟩ := statementForm?_eq c
    cases hform.symm.trans hform'
    exact ⟨form, hform, hof⟩
  · rintro ⟨form, hform, hof⟩
    exact ⟨form, c, hform, hof⟩

theorem verbatimStatement_eq_ok :
    verbatimStatement c = .ok s d ↔
      ∃ range, statement c = .ok range d ∧ s = .verbatim (c.textUpTo d) range := by
  unfold verbatimStatement
  rw [get_bind, bind_eq_ok]
  constructor
  · rintro ⟨range, e, hrun, hrest⟩
    rw [get_bind] at hrest
    obtain ⟨rfl, rfl⟩ := pure_eq_ok.mp hrest
    exact ⟨range, hrun, rfl⟩
  · rintro ⟨range, hrun, rfl⟩
    exact ⟨range, d, hrun, rfl⟩

/-- A statement is an import, an export, a declaration or a piece of code. -/
inductive StatementRun (c : Cursor) : Statement → Cursor → Prop where
  | importing {s : Statement} {d : Cursor} (hread : importStatement c = .ok s d) :
      StatementRun c s d
  | exporting {s : Statement} {d : Cursor} (hread : exportStatement c = .ok s d) :
      StatementRun c s d
  | declaration {a : Declaration} {d : Cursor} (hread : DeclarationRun c a d) :
      StatementRun c (.declaration a) d
  | verbatim {r : Range} {d : Cursor} (hread : statement c = .ok r d) :
      StatementRun c (.verbatim (c.textUpTo d) r) d

theorem topLevelStatement_run (h : topLevelStatement c = .ok s d) : StatementRun c s d := by
  obtain ⟨form, _, h⟩ := topLevelStatement_eq_ok.mp h
  unfold statementOf at h
  split at h
  · exact .importing h
  · exact .exporting h
  · obtain ⟨_, hread, rfl⟩ := map_eq_ok.mp h
    exact .declaration (.variable hread)
  · obtain ⟨_, hread, rfl⟩ := map_eq_ok.mp h
    exact .declaration (.function hread)
  · obtain ⟨_, hread, rfl⟩ := map_eq_ok.mp h
    exact .declaration (.classOf hread)
  · obtain ⟨_, hread, rfl⟩ := verbatimStatement_eq_ok.mp h
    exact .verbatim hread

/-- A statement does not end before it has begun. -/
theorem boundary_start_ne_before (start : Cursor) (crosses : Bool) (b : UInt8) :
    StretchKind.statement.boundary start start crosses b ≠ .before := by
  unfold StretchKind.boundary
  simp only [Nat.lt_irrefl, decide_false, Bool.and_false, Bool.false_and, Bool.false_eq_true,
    if_false, beq_self_eq_true, Bool.and_self, if_true]
  split
  · simp
  · rw [if_neg (by simp)]
    split <;> simp

theorem statement_pos_lt {r : Range} (hne : c.after ≠ [])
    (hclear : triviaReach c.after = .clear 0 false) (h : statement c = .ok r d) :
    c.pos < d.pos := by
  have hspace := trivia_of_clear hclear
  obtain ⟨hrun, _⟩ := run_of_stretchFrom h
  cases hrun with
  | atEnd hspace' hq =>
    cases hspace.symm.trans hspace'
    exact absurd hq hne
  | before _ _ hb => exact absurd hb (boundary_start_ne_before c _ _)
  | after hspace' hq _ =>
    cases hspace.symm.trans hspace'
    simp [hq]
  | token hspace' hq _ _ htoken hrest =>
    cases hspace.symm.trans hspace'
    have hlt := token_lt hne htoken
    have hpos := (token_onward _ htoken).pos_add_length
    have hle := hrest.onward.pos_le
    omega

theorem DeclarationRun.spec {a : Declaration} (h : DeclarationRun c a d) :
    a.range = c.rangeTo d ∧ c.Onward d ∧ c.pos < d.pos := by
  cases h with
  | «variable» h =>
    exact ⟨(variableDeclaration_run h).1, (variableDeclaration_progresses _).advances h⟩
  | function h =>
    exact ⟨(functionDeclaration_run h).1, (functionDeclaration_progresses _).advances h⟩
  | classOf h => exact ⟨(classDeclaration_run h).1, (classDeclaration_progresses _).advances h⟩

/-- A statement covers what it was read from, and at least one byte. -/
theorem topLevelStatement_spec (hne : c.after ≠ []) (hclear : triviaReach c.after = .clear 0 false)
    (h : topLevelStatement c = .ok s d) : s.range = c.rangeTo d ∧ c.Onward d ∧ c.pos < d.pos := by
  cases topLevelStatement_run h with
  | importing hread =>
    refine ⟨?_, importStatement_progresses.advances hread⟩
    obtain ⟨_, _, rfl⟩ := importStatement_run hread
    rfl
  | exporting hread =>
    refine ⟨?_, exportStatement_progresses.advances hread⟩
    cases exportStatement_run hread <;> rfl
  | declaration hread => exact hread.spec
  | verbatim hread =>
    exact ⟨(run_of_stretchFrom hread).2, statement_onward hread, statement_pos_lt hne hclear hread⟩

/-! ## All statements -/

/-- The statements from `c` to the end of the text at `e`, each read after the trivia before it. -/
inductive ModuleRun : Cursor → List Statement → Cursor → Prop where
  | nil {c q : Cursor} (hspace : space c = .ok () q) (hend : q.after = []) : ModuleRun c [] q
  | cons {c q d e : Cursor} {s : Statement} {rest : List Statement} (hspace : space c = .ok () q)
      (hmore : q.after ≠ []) (hread : topLevelStatement q = .ok s d) (hrest : ModuleRun d rest e) :
      ModuleRun c (s :: rest) e

/-- Each statement was read where no trivia stands. -/
theorem ModuleRun.exists_read (h : ModuleRun c body e) (hs : s ∈ body) :
    ∃ q d, c.Onward q ∧ triviaReach q.after = .clear 0 false ∧ topLevelStatement q = .ok s d := by
  induction h with
  | nil => cases hs
  | @cons c q d e first rest hspace hmore hread _ ih =>
    have hq := space_onward hspace
    have hclear := clear_of_space hspace
    rcases List.mem_cons.mp hs with rfl | hs
    · exact ⟨q, d, hq, hclear, hread⟩
    · obtain ⟨q', d', honward, hmore'⟩ := ih hs
      exact ⟨q', d', (hq.trans (topLevelStatement_spec hmore hclear hread).2.1).trans honward, hmore'⟩

theorem run_of_statements {fuel : Nat} {q : Cursor} (hspace : space c = .ok () q)
    (h : statements fuel q = .ok body e) : ModuleRun c body e := by
  induction fuel generalizing c q body with
  | zero => exact absurd h failHere_ne_ok
  | succ fuel ih =>
    rw [statements, get_bind] at h
    cases hq : q.isAtEnd with
    | true =>
      rw [hq, if_pos rfl] at h
      obtain ⟨rfl, rfl⟩ := pure_eq_ok.mp h
      exact .nil hspace (List.isEmpty_iff.mp hq)
    | false =>
      rw [hq, if_neg Bool.false_ne_true] at h
      obtain ⟨s, d, hread, hspaced⟩ := bind_eq_ok.mp h
      obtain ⟨_, q', hspace', hloop⟩ := bind_eq_ok.mp hspaced
      obtain ⟨rest, hrest, rfl⟩ := map_eq_ok.mp hloop
      have hmore : q.after ≠ [] := by
        intro hnil
        rw [isAtEnd, hnil] at hq
        cases hq
      exact .cons hspace hmore hread (ih hspace' hrest)

/-- The loop needs no more rounds than there are bytes. -/
theorem statements_of_run (h : ModuleRun c body e) :
    ∃ q, space c = .ok () q ∧ ∀ fuel, q.after.length < fuel → statements fuel q = .ok body e := by
  induction h with
  | @nil c q hspace hend =>
    refine ⟨q, hspace, fun fuel hfuel => ?_⟩
    obtain ⟨fuel, rfl⟩ := Nat.exists_eq_succ_of_ne_zero (Nat.ne_zero_of_lt hfuel)
    rw [statements, get_bind, isAtEnd, hend]
    rfl
  | @cons c q d e s rest hspace hmore hread hrest ih =>
    obtain ⟨q', hspace', hloop⟩ := ih
    refine ⟨q, hspace, fun fuel hfuel => ?_⟩
    obtain ⟨fuel, rfl⟩ := Nat.exists_eq_succ_of_ne_zero (Nat.ne_zero_of_lt hfuel)
    obtain ⟨_, honward, hlt⟩ := topLevelStatement_spec hmore (clear_of_space hspace) hread
    have hpos := honward.pos_add_length
    have hle := (space_onward hspace').length_le
    have hmore : ¬q.isAtEnd = true := fun hnil => hmore (List.isEmpty_iff.mp hnil)
    rw [statements, get_bind, if_neg hmore]
    refine bind_eq_ok.mpr ⟨s, d, hread, bind_eq_ok.mpr ⟨(), q', hspace', ?_⟩⟩
    exact bind_eq_ok.mpr ⟨rest, e, hloop fuel (by omega), rfl⟩

end Scan

/-- How many bytes a first line that starts with `#!` takes. -/
def shebangLength (text : String) : Nat :=
  if (Cursor.ofText text).startsWith "#!" then lineLength (bytesOf text) else 0

/-- Where the statements of a text start: after a first line that starts with `#!`. -/
def Cursor.pastShebang (text : String) : Cursor :=
  (ofText text).advance (shebangLength text)

theorem Cursor.isBoundary_pastShebang (text : String) : (pastShebang text).IsBoundary := by
  have hstart := isBoundary_ofText text
  unfold pastShebang shebangLength
  split
  · rcases takeWhile_stop (!isLineEndByte ·) (bytesOf text) with hend | ⟨b, hget, hb⟩
    · exact hstart.advance_end (Nat.le_of_eq hend)
    · exact hstart.advance_before hget (isLineEndByte_ascii (by simpa using hb))
  · rwa [advance_zero]

theorem Cursor.pos_pastShebang (text : String) : (pastShebang text).pos = shebangLength text := by
  have hle : shebangLength text ≤ (ofText text).after.length := by
    unfold shebangLength
    split
    · exact (List.takeWhile_sublist _).length_le
    · exact Nat.zero_le _
  rw [pastShebang, pos_advance, Nat.min_eq_left hle]
  exact Nat.zero_add _

theorem skipShebang_eq (text : String) :
    skipShebang (.ofText text) = .ok () (.pastShebang text) := by
  unfold Cursor.pastShebang shebangLength
  change EStateM.Result.ok () (if (Cursor.ofText text).pos == 0 && _ then _ else _) = _
  cases (Cursor.ofText text).startsWith "#!" with
  | true => rfl
  | false => simp

theorem parseModule_eq_ok {text : String} {m : Module} :
    parseModule text = .ok m ↔ ∃ e, ModuleRun (.pastShebang text) m.body e := by
  have hwhole : parseModule text = .ok m ↔ ∃ e, wholeModule (.ofText text) = .ok m e := by
    unfold parseModule
    cases wholeModule (.ofText text) <;> simp
  rw [hwhole]
  constructor
  · rintro ⟨e, h⟩
    obtain ⟨_, c, hshebang, hrest⟩ := bind_eq_ok.mp h
    cases (skipShebang_eq text).symm.trans hshebang
    obtain ⟨_, q, hspace, hbody⟩ := bind_eq_ok.mp hrest
    rw [get_bind] at hbody
    obtain ⟨body, hloop, rfl⟩ := map_eq_ok.mp hbody
    exact ⟨e, run_of_statements hspace hloop⟩
  · rintro ⟨e, hrun⟩
    obtain ⟨q, hspace, hloop⟩ := statements_of_run hrun
    refine ⟨e, bind_eq_ok.mpr ⟨(), _, skipShebang_eq text, ?_⟩⟩
    refine bind_eq_ok.mpr ⟨(), q, hspace, ?_⟩
    rw [get_bind]
    exact bind_eq_ok.mpr ⟨m.body, e, hloop _ (Nat.lt_succ_self _), rfl⟩

end ModuleBridge
