import ModuleBridge.Proofs.Emit.Sections
import ModuleBridge.Proofs.Grammar.FollowStatement
import ModuleBridge.Proofs.Grammar.Layout
import ModuleBridge.Proofs.Grammar.Sealed
import ModuleBridge.Proofs.Grammar.Tiling

/-!
# Statements joined again

A conversion takes the imports and exports out of a module and keeps the texts of all other
statements, joined by line feeds. When the joined text is read, the statements are the same as
before exactly if no line takes up the statement of the line before it: an import or export that
stood between two statements may be all that kept them apart. Main statement:
`parseModule_rejoin_iff`.
-/

namespace ModuleBridge

open Scan Cursor List

variable {c d e q q' : Cursor} {before line r : List UInt8} {s : Statement} {body : List Statement}

/-! ## Texts of statements -/

def plainStatements (body : List Statement) : List Statement :=
  body.filter (!·.isModuleDeclaration)

def rejoin (text : String) (statements : List Statement) : String :=
  "\n".intercalate (statements.map (·.range.slice text))

theorem plainStatements_nil : plainStatements [] = [] := rfl

theorem rejoin_nil (text : String) : rejoin text [] = "" :=
  String.intercalate_nil

def nextLines (lines : List String) : List UInt8 :=
  lines.flatMap fun line => byte '\n' :: bytesOf line

theorem nextLines_cons (line : String) (lines : List String) :
    nextLines (line :: lines) = byte '\n' :: (bytesOf line ++ nextLines lines) := by
  simp [nextLines]

theorem endsLine_nextLines (lines : List String) : EndsLine (nextLines lines) := by
  cases lines with
  | nil => exact nofun
  | cons line lines =>
    intro b hb
    rw [nextLines_cons] at hb
    exact (Option.some.inj hb).symm

theorem bytesOf_intercalate (line : String) (lines : List String) :
    bytesOf ("\n".intercalate (line :: lines)) = bytesOf line ++ nextLines lines := by
  have hfeed : bytesOf "\n" = [byte '\n'] := by decide
  induction lines generalizing line with
  | nil => simp [nextLines]
  | cons next lines ih =>
    rw [String.intercalate_cons_cons, bytesOf_append, bytesOf_append, ih, nextLines_cons, hfeed,
      append_assoc, singleton_append]

theorem bytesOf_rejoin_cons (text : String) (s : Statement) (rest : List Statement) :
    bytesOf (rejoin text (s :: rest)) =
      bytesOf (s.range.slice text) ++ nextLines (rest.map (·.range.slice text)) := by
  rw [rejoin, map_cons, bytesOf_intercalate]

theorem nextLines_rejoin (text : String) (s : Statement) (rest : List Statement) :
    nextLines ((s :: rest).map (·.range.slice text)) =
      byte '\n' :: bytesOf (rejoin text (s :: rest)) := by
  rw [map_cons, nextLines_cons, bytesOf_rejoin_cons]

theorem Cursor.IsIn.bytesOf_slice {text : String} (hq : q.IsIn text) (h : q.Onward d) :
    q.after = bytesOf ((q.rangeTo d).slice text) ++ d.after ∧
      d = q.advance (bytesOf ((q.rangeTo d).slice text)).length := by
  obtain ⟨front, hfront⟩ := hq.2.1
  obtain ⟨whole, hwhole⟩ := (h.boundary hq.2).1
  have hslice := h.slice_eq hq.1
  obtain ⟨n, rfl⟩ := h.reaches
  rw [before_advance, reverse_append, reverse_reverse, hfront] at hwhole
  obtain ⟨between, hbetween⟩ := exists_rest hwhole.symm
  rw [textUpTo_advance, hbetween, textOf_bytesOf] at hslice
  rw [hslice, after_advance, ← hbetween, take_append_drop]
  refine ⟨rfl, ?_⟩
  rw [length_take, advance_min]

/-! ## What follows a statement -/

theorem triviaItem_nothing_copy {text : String} {r' : List UInt8} (hne : bytesOf text ≠ [])
    (hr' : EndsLine r') (h : triviaItem (bytesOf text ++ r) = .nothing) :
    triviaItem (bytesOf text ++ r') = .nothing := by
  have hdecode := decodeFirst?_drop_append text (length_pos_iff.mpr hne) r' r
  rw [drop_zero] at hdecode
  obtain ⟨b, more, hb⟩ := exists_cons_of_ne_nil hne
  rw [hb, cons_append, cons_append] at hdecode
  rw [hb, cons_append] at h ⊢
  simp only [triviaItem, hdecode] at h ⊢
  split at h
  · cases h
  rename_i hblank
  rw [if_neg hblank]
  split at h
  · cases h
  rename_i hend
  rw [if_neg hend]
  split at h
  · rename_i hslash
    rw [if_pos hslash]
    cases more with
    | nil =>
      rcases hr'.cases with rfl | ⟨lines, rfl⟩
      · rfl
      · rfl
    | cons d body =>
      simp only [cons_append] at h ⊢
      split at h
      · cases h
      rename_i hline
      rw [if_neg hline]
      split at h
      · split at h
        · cases h
        · cases h
      · rename_i hstar
        rw [if_neg hstar]
  · rename_i hslash
    rw [if_neg hslash]
    exact h

theorem Cursor.byte?_of_startsWithWord (word : Keyword)
    (hstarts : q.startsWithWord word.text = true) : q.byte?.any isNameStart = true := by
  have hfirst : ∃ b more, bytesOf word.text = b :: more ∧ isNameStart b = true := by
    cases word <;> exact ⟨_, _, rfl, by decide⟩
  obtain ⟨b, more, hbytes, hb⟩ := hfirst
  obtain ⟨rest, hafter⟩ := q.exists_cons_of_startsWithWord hbytes hstarts
  rwa [Cursor.byte?, hafter, head?_cons, Option.any_some]

theorem Scan.byte?_of_isModuleDeclaration (hread : topLevelStatement q = .ok s d)
    (hmodule : s.isModuleDeclaration = true) : q.byte?.any isNameStart = true := by
  cases topLevelStatement_run hread with
  | importing hread =>
    rw [importStatement, get_bind] at hread
    obtain ⟨_, _, hword, _⟩ := bind_eq_ok.mp hread
    exact byte?_of_startsWithWord .importWord (expectWord_eq_ok.mp hword).1
  | exporting hread =>
    rw [exportStatement, get_bind] at hread
    obtain ⟨_, _, hword, _⟩ := bind_eq_ok.mp hread
    exact byte?_of_startsWithWord .exportWord (expectWord_eq_ok.mp hword).1
  | declaration => cases hmodule
  | verbatim => cases hmodule

theorem plainStatements_of_module (h : s.isModuleDeclaration = true) (rest : List Statement) :
    plainStatements (s :: rest) = plainStatements rest :=
  filter_cons_of_neg (by simp [h])

theorem plainStatements_of_plain (h : s.isModuleDeclaration = false) (rest : List Statement) :
    plainStatements (s :: rest) = s :: plainStatements rest :=
  filter_cons_of_pos (by simp [h])

namespace Scan

variable {text : String}

/-- The text of a statement is not empty, and the statement stands between it and what follows. -/
theorem topLevelStatement_text (hq : q.IsIn text) (hmore : q.after ≠ [])
    (hclear : triviaReach q.after = .clear 0 false) (hread : topLevelStatement q = .ok s d) :
    bytesOf (s.range.slice text) ≠ [] ∧ q.after = bytesOf (s.range.slice text) ++ d.after ∧
      d = q.advance (bytesOf (s.range.slice text)).length := by
  obtain ⟨hrange, honward, hlt⟩ := topLevelStatement_spec hmore hclear hread
  obtain ⟨htext, hd⟩ := hq.bytesOf_slice honward
  rw [← hrange] at htext hd
  refine ⟨fun hnil => ?_, htext, hd⟩
  rw [hd, hnil, length_nil, advance_zero] at hlt
  exact Nat.lt_irrefl _ hlt

/-- What follows a statement in the joined text is what followed it before, without the imports and
exports. -/
theorem ModuleRun.resumes (hrun : ModuleRun c body e) (hc : c.IsIn text) :
    Resumes c.after (nextLines ((plainStatements body).map (·.range.slice text))) := by
  induction hrun with
  | @nil c q hspace hend =>
    obtain ⟨n, _, hreach, rfl⟩ := space_eq_advance.mp hspace
    refine ⟨.inl rfl, fun _ _ _ _ => rfl, fun m _ b rest hreach' hdrop => ?_⟩
    cases hreach.symm.trans hreach'
    rw [after_advance, hdrop] at hend
    cases hend
  | @cons c q d e s rest hspace hmore hread hrest ih =>
    have hclear := clear_of_space hspace
    have hq := (space_onward hspace).isIn hc
    have hd := (topLevelStatement_spec hmore hclear hread).2.1.isIn hq
    obtain ⟨n, _, hreach, rfl⟩ := space_eq_advance.mp hspace
    have hafter : c.after.drop n = (c.advance n).after := (after_advance c n).symm
    have hatEnd : ∀ r' m crosses, triviaReach c.after = .clear m crosses →
        c.after.drop m = [] → r' = ([] : List UInt8) := by
      intro r' m crosses hreach' hnil
      cases hreach.symm.trans hreach'
      exact absurd (hafter.symm.trans hnil) hmore
    cases hmodule : s.isModuleDeclaration with
    | true =>
      rw [plainStatements_of_module hmodule]
      refine ⟨(ih hd).next, hatEnd _, ?_⟩
      intro m crosses b more hreach' hdrop hb
      cases hreach.symm.trans hreach'
      have hstart := byte?_of_isModuleDeclaration hread hmodule
      rw [Cursor.byte?, ← hafter, hdrop, head?_cons, Option.any_some, hb] at hstart
      cases hstart
    | false =>
      obtain ⟨hne, htext, _⟩ := topLevelStatement_text hq hmore hclear hread
      obtain ⟨b, more, hb⟩ := exists_cons_of_ne_nil hne
      have hitem : triviaItem (bytesOf (s.range.slice text) ++ d.after) = .nothing := by
        rw [← htext, ← hafter]
        exact triviaItem_after_reach hreach
      have hnext := triviaItem_nothing_copy hne
        (endsLine_nextLines ((plainStatements rest).map (·.range.slice text))) hitem
      rw [plainStatements_of_plain hmodule, map_cons, nextLines_cons, hb, cons_append]
      rw [hb, cons_append] at htext hnext
      refine ⟨.inr ⟨b, _, rfl, hnext⟩, hatEnd _, ?_⟩
      intro m crosses b' more' hreach' hdrop _
      cases hreach.symm.trans hreach'
      rw [hafter, htext] at hdrop
      cases hdrop
      exact ⟨_, rfl⟩

theorem ModuleRun.of_nil (hc : c.after = []) : ModuleRun c [] c := by
  have hclear : triviaReach c.after = .clear 0 false := by rw [hc, triviaReach_nil]
  exact .nil (space_of_clear hclear) hc

theorem ModuleRun.space_iff (hspace : space c = .ok () q) :
    ModuleRun c body e ↔ ModuleRun q body e := by
  have hstay := space_of_clear (clear_of_space hspace)
  constructor
  · intro hrun
    cases hrun with
    | nil hspace' hend =>
      cases hspace.symm.trans hspace'
      exact .nil hstay hend
    | cons hspace' hmore hread hrest =>
      cases hspace.symm.trans hspace'
      exact .cons hstay hmore hread hrest
  · intro hrun
    cases hrun with
    | nil hspace' hend =>
      cases hstay.symm.trans hspace'
      exact .nil hspace hend
    | cons hspace' hmore hread hrest =>
      cases hstay.symm.trans hspace'
      exact .cons hspace hmore hread hrest

/-- A run whose first statement has the text `line` is a statement that ends with it, and a run from
there. -/
theorem ModuleRun.texts_cons_iff {line : String} {lines : List String} (hq : q.IsIn text)
    (hafter : q.after = bytesOf line ++ r) (hmore : q.after ≠ [])
    (hclear : triviaReach q.after = .clear 0 false) :
    (∃ body e, ModuleRun q body e ∧ body.map (·.range.slice text) = line :: lines) ↔
      (∃ s, topLevelStatement q = .ok s (q.advance (bytesOf line).length)) ∧
        ∃ body e, ModuleRun (q.advance (bytesOf line).length) body e ∧
          body.map (·.range.slice text) = lines := by
  have hstay := space_of_clear hclear
  constructor
  · rintro ⟨body, e, hrun, htexts⟩
    cases hrun with
    | nil => cases htexts
    | @cons _ _ d _ s rest hspace hmore hread hrest =>
      cases hstay.symm.trans hspace
      obtain ⟨hrange, honward, _⟩ := topLevelStatement_spec hmore hclear hread
      obtain ⟨rfl, hrestTexts⟩ := List.cons.inj htexts
      have hd := (hq.bytesOf_slice honward).2
      rw [← hrange] at hd
      rw [hd] at hread hrest
      exact ⟨⟨s, hread⟩, rest, e, hrest, hrestTexts⟩
  · rintro ⟨⟨s, hread⟩, body, e, hrest, htexts⟩
    obtain ⟨hrange, honward, _⟩ := topLevelStatement_spec hmore hclear hread
    refine ⟨s :: body, e, .cons hstay hmore hread hrest, ?_⟩
    rw [map_cons, htexts, hrange, honward.slice_eq hq.1, textUpTo_advance, hafter,
      take_left, textOf_bytesOf]

end Scan

theorem lineStarts_append {mark : String} (hmark : byte '\n' ∉ bytesOf mark) (hr : EndsLine r) :
    lineStarts mark (line ++ r) = lineStarts mark line := by
  rw [lineStarts, lineStarts, Bool.eq_iff_iff, isPrefixOf_iff_prefix,
    isPrefixOf_iff_prefix]
  exact ⟨prefix_copy hmark hr, fun h => h.trans (prefix_append _ _)⟩

theorem head?_any_append {p : UInt8 → Bool} (hp : p (byte '\n') = false) (hr : EndsLine r) :
    (line ++ r).head?.any p = line.head?.any p := by
  cases line with
  | nil =>
    rcases hr.cases with rfl | ⟨more, rfl⟩
    · rfl
    · exact hp
  | cons b line => rfl

/-- Whether a line takes up the statement before it is told by the line alone. -/
theorem Statement.takesUp_append (s : Statement) (hr : EndsLine r) :
    s.takesUp (line ++ r) = s.takesUp line := by
  have hmark : ∀ mark ∈ ["=", "==", ",", ";"],
      lineStarts mark (line ++ r) = lineStarts mark line := fun mark hmem =>
    lineStarts_append (by revert mark; decide) hr
  cases s with
  | declaration d =>
    cases d with
    | «variable» a =>
      have hgoesOn : StretchKind.expression.goesOn (byte '\n') = false := by decide
      simp only [takesUp, VariableDeclaration.takesUp, Declarator.takesUp,
        head?_any_append hgoesOn hr, hmark "=" (by simp), hmark "==" (by simp),
        hmark "," (by simp), hmark ";" (by simp)]
    | _ => rfl
  | verbatim code range =>
    have hgoesOn : continuesExpression (byte '\n') = false := by decide
    simp only [takesUp, head?_any_append hgoesOn hr]
  | _ => rfl

theorem Statement.takesUp_nil (s : Statement) : s.takesUp [] = false := by
  have hmark : ∀ mark ∈ ["=", ",", ";"], lineStarts mark [] = false := by decide
  cases s with
  | declaration d =>
    cases d with
    | «variable» a =>
      simp only [takesUp, VariableDeclaration.takesUp, Declarator.takesUp, hmark "=" (by simp),
        hmark "," (by simp), hmark ";" (by simp), head?_nil, Option.any_none,
        Bool.false_and, ite_self, Bool.or_self, Bool.and_false]
      split <;> rfl
    | _ => rfl
  | verbatim code range => simp [takesUp]
  | _ => rfl

/-! ## Statements that may be moved -/

/-- After the bytes `before`, nearest first, a slash at the start of the statement means what it
means in `text`. -/
def Statement.SlashKept (text : String) (before : List UInt8) (s : Statement) : Prop :=
  (bytesOf (s.range.slice text)).head? = some (byte '/') →
    patternAllowedAfter before = patternAllowedAfter ((bytesOf text).take s.range.pos).reverse

/-- Each slash at the start of a statement means after the statement before it what it means in
`text`; the first statement comes after the bytes `before`. -/
def SlashesKept (text : String) : List UInt8 → List Statement → Prop
  | _, [] => True
  | before, s :: rest =>
    s.SlashKept text before ∧ SlashesKept text (bytesOf (s.range.slice text)).reverse rest

/-- No statement of the list depends on what is around it in `text`, its end apart. -/
structure Movable (text : String) (statements : List Statement) : Prop where
  /-- Joined they do not start with a line that is passed over. -/
  shebang : shebangLength (rejoin text statements) = 0
  /-- None escapes the line end that comes after it. -/
  escape : ∀ s ∈ statements, (bytesOf (s.range.slice text)).getLast? ≠ some (byte '\\')
  /-- The parameters of a function are passed as a block, not up to the next parenthesis. -/
  parameters : ∀ s ∈ statements, s.ParametersClose (.ofText text)
  /-- A slash at the start of a statement goes on to open a regular expression, or not to. -/
  slashes : SlashesKept text [] statements

theorem Statement.ParametersClose.of_bytes_eq (h : s.ParametersClose c) (hbytes : d.bytes = c.bytes) :
    s.ParametersClose d := by
  unfold ParametersClose Copied.ClosesAt at h ⊢
  rwa [hbytes]

/-- At the start of a line the code of the line before it tells what a slash means. -/
theorem patternAllowedAfter_line (hne : line ≠ [])
    (hclear : triviaReach (line ++ r) = .clear 0 false) (hbefore : EndsLine before) :
    patternAllowedAfter (byte '\n' :: (line.reverse ++ before)) =
      patternAllowedAfter line.reverse := by
  obtain ⟨b, more, rfl⟩ := exists_cons_of_ne_nil hne
  have hlast : (b :: more).reverse.getLast? = some b := getLast?_reverse
  rw [← patternAllowedAfter_append hlast (isSpacingByte_of_clear hclear) fun _ => hbefore.apart,
    patternAllowedAfter, dropWhile_cons_of_pos (by decide), patternAllowedAfter]

namespace Scan

variable {text joined : String}

theorem copied_of_statement {r' : List UInt8} (hq : q.IsIn text) (hseam : q.IsSeam)
    (hmore : q.after ≠ []) (hclear : triviaReach q.after = .clear 0 false)
    (hread : topLevelStatement q = .ok s d) (there : q'.after = bytesOf (s.range.slice text) ++ r')
    (hline : EndsLine r') (hopens : EndsLine q'.before)
    (hescape : (bytesOf (s.range.slice text)).getLast? ≠ some (byte '\\'))
    (hbefore : patternAllowedAfter q'.before = patternAllowedAfter before)
    (hslash : s.SlashKept text before) : Copied q q' (bytesOf (s.range.slice text)) d.after r' := by
  obtain ⟨_, htext, hd⟩ := topLevelStatement_text hq hmore hclear hread
  have hend := topLevelStatement_seals hread
  rw [hd] at hend
  refine .of_seams htext there hline hclear hseam hend hopens hescape fun hhead => ?_
  rw [hbefore, hslash hhead, (topLevelStatement_spec hmore hclear hread).1, pos_rangeTo,
    ← hq.1, take_bytes, reverse_reverse]

theorem nextLine {line more : String} (hq' : q'.IsIn joined)
    (hafter : q'.after = bytesOf line ++ byte '\n' :: bytesOf more) :
    (q'.advance ((bytesOf line).length + 1)).IsIn joined ∧
      (q'.advance ((bytesOf line).length + 1)).after = bytesOf more ∧
      (q'.advance ((bytesOf line).length + 1)).before =
        byte '\n' :: ((bytesOf line).reverse ++ q'.before) := by
  have hfeed : bytesOf (line ++ "\n") = bytesOf line ++ [byte '\n'] := by
    rw [bytesOf_append]
    rfl
  have hlength : (bytesOf line).length + 1 = (bytesOf (line ++ "\n")).length := by
    rw [hfeed, length_append, length_singleton]
  have hsplit : q'.after = bytesOf (line ++ "\n") ++ bytesOf more := by
    rw [hafter, hfeed, append_assoc, singleton_append]
  have htake : q'.after.take ((bytesOf line).length + 1) = bytesOf (line ++ "\n") := by
    rw [hsplit, hlength, take_left]
  have hdrop : q'.after.drop ((bytesOf line).length + 1) = bytesOf more := by
    rw [hsplit, hlength, drop_left]
  refine ⟨⟨(bytes_advance _ _).trans hq'.1, hq'.2.of_cut _ _ htake hdrop⟩, ?_, ?_⟩
  · rw [after_advance, hdrop]
  · rw [before_advance, htake, hfeed, reverse_append]
    rfl

/-- A run over the copy of a statement reads the statement, unless the next line takes it up, and
goes on from there. -/
theorem ModuleRun.copy_cons_iff {lines : List String}
    (hcopied : Copied q q' (bytesOf (s.range.slice text)) d.after (nextLines lines))
    (hresumes : Resumes d.after (nextLines lines)) (hq : q.IsIn text) (hmore : q.after ≠ [])
    (hclear : triviaReach q.after = .clear 0 false) (hread : topLevelStatement q = .ok s d)
    (hplain : s.isModuleDeclaration = false) (hclose : s.ParametersClose q) (hq' : q'.IsIn joined) :
    (∃ body e, ModuleRun q' body e ∧
      body.map (·.range.slice joined) = s.range.slice text :: lines) ↔
      s.takesUp ((nextLines lines).drop 1) = false ∧
        ∃ body e, ModuleRun (q'.advance (bytesOf (s.range.slice text)).length) body e ∧
          body.map (·.range.slice joined) = lines := by
  obtain ⟨hne, htext, hend⟩ := topLevelStatement_text hq hmore hclear hread
  have hmore' : q'.after ≠ [] := by
    rw [hcopied.there]
    exact append_ne_nil_of_left_ne_nil hne _
  have hclear' : triviaReach q'.after = .clear 0 false := by
    have hitem := triviaItem_after_reach hclear
    rw [drop_zero, htext] at hitem
    rw [hcopied.there]
    exact triviaReach_of_nothing (triviaItem_nothing_copy hne (endsLine_nextLines _) hitem)
  rw [hend] at hread
  rw [ModuleRun.texts_cons_iff hq' hcopied.there hmore' hclear',
    hcopied.topLevelStatement_ends_iff hresumes hne hclear rfl hread hplain hclose]

/-- From the cursor on, `joined` holds the texts of the statements, each on lines of its own; the
line before them ends with the bytes `before`, nearest first. -/
structure Rejoined (text joined : String) (before : List UInt8) (statements : List Statement)
    (q : Cursor) : Prop where
  isIn : q.IsIn joined
  after : q.after = bytesOf (rejoin text statements)
  opens : EndsLine q.before
  slash : patternAllowedAfter q.before = patternAllowedAfter before

theorem Rejoined.next {next : Statement} {others : List Statement}
    (h : Rejoined text joined before (s :: next :: others) q')
    (hne : bytesOf (s.range.slice text) ≠ [])
    (hclear : triviaReach (bytesOf (s.range.slice text) ++ r) = .clear 0 false) :
    Rejoined text joined (bytesOf (s.range.slice text)).reverse (next :: others)
      (q'.advance ((bytesOf (s.range.slice text)).length + 1)) := by
  have hafter := h.after
  rw [bytesOf_rejoin_cons, nextLines_rejoin] at hafter
  obtain ⟨hq'', hafter'', hbefore''⟩ := nextLine h.isIn hafter
  refine ⟨hq'', hafter'', ?_, ?_⟩
  · rw [hbefore'']
    exact fun b hb => (Option.some.inj hb).symm
  · rw [hbefore'']
    exact patternAllowedAfter_line hne hclear h.opens

/-- Along a run of statements, the copies of those that are no imports or exports are read again as
long as no line takes up the one before it. -/
theorem ModuleRun.rejoin_iff (hrun : ModuleRun c body e) (hc : c.IsIn text) (hseam : c.IsSeam)
    (hescape : ∀ s ∈ plainStatements body, (bytesOf (s.range.slice text)).getLast? ≠ some (byte '\\'))
    (hclose : ∀ s ∈ plainStatements body, s.ParametersClose (.ofText text))
    (hjoined : Rejoined text joined before (plainStatements body) q')
    (hslashes : SlashesKept text before (plainStatements body)) :
    (∃ body' e', ModuleRun q' body' e' ∧ body'.map (·.range.slice joined) =
      (plainStatements body).map (·.range.slice text)) ↔
      (plainStatements body).IsChain fun s next =>
        s.takesUp (bytesOf (next.range.slice text)) = false := by
  induction hrun generalizing q' before with
  | nil hspace hend =>
    have hafter := hjoined.after
    rw [plainStatements_nil, rejoin_nil, bytesOf_empty] at hafter
    rw [plainStatements_nil, map_nil]
    exact iff_of_true ⟨[], q', .of_nil hafter, map_nil⟩ isChain_nil
  | @cons c q d e s rest hspace hmore hread hrest ih =>
    have hclear := clear_of_space hspace
    have hq := (space_onward hspace).isIn hc
    have hd := (topLevelStatement_spec hmore hclear hread).2.1.isIn hq
    have hend := topLevelStatement_seals hread
    cases hmodule : s.isModuleDeclaration with
    | true =>
      rw [plainStatements_of_module hmodule] at hescape hclose hjoined hslashes ⊢
      exact ih hd hend hescape hclose hjoined hslashes
    | false =>
      rw [plainStatements_of_plain hmodule] at hescape hclose hjoined hslashes ⊢
      have hcopied := copied_of_statement hq (space_keepsSeam.isSeam hseam hspace) hmore hclear hread
        (hjoined.after.trans (bytesOf_rejoin_cons ..)) (endsLine_nextLines _) hjoined.opens
        (hescape s mem_cons_self) hjoined.slash hslashes.1
      have hresumes := hrest.resumes hd
      rw [map_cons, ModuleRun.copy_cons_iff hcopied hresumes hq hmore hclear hread hmodule
        ((hclose s mem_cons_self).of_bytes_eq hq.1) hjoined.isIn]
      cases hplain : plainStatements rest with
      | nil =>
        have hnil : (q'.advance (bytesOf (s.range.slice text)).length).after = [] := by
          rw [hcopied.after_there (Nat.le_refl _), hplain, drop_length]
          rfl
        exact iff_of_true ⟨s.takesUp_nil, [], _, .of_nil hnil, map_nil⟩
          (isChain_singleton s)
      | cons next others =>
        rw [hplain] at hescape hclose hjoined hslashes ih
        rw [hplain, nextLines_rejoin] at hcopied hresumes
        have hfeed : space (q'.advance (bytesOf (s.range.slice text)).length) =
            .ok () (q'.advance ((bytesOf (s.range.slice text)).length + 1)) := by
          rcases hcopied.trivia_there hresumes with ⟨hnil, _⟩ | ⟨_, _, _, htrivia, _⟩
          · cases hnil
          · exact space_eq_ok.mpr ⟨true, htrivia⟩
        rw [nextLines_rejoin, drop_one, tail_cons, isChain_cons_cons]
        refine and_congr ?_ ?_
        · rw [bytesOf_rejoin_cons, s.takesUp_append (endsLine_nextLines _)]
        · obtain ⟨hne, htext, _⟩ := topLevelStatement_text hq hmore hclear hread
          simp only [ModuleRun.space_iff hfeed]
          exact ih hd hend (fun s' hs' => hescape s' (mem_cons_of_mem s hs'))
            (fun s' hs' => hclose s' (mem_cons_of_mem s hs'))
            (hjoined.next hne (htext ▸ hclear)) hslashes.2

end Scan

/-- The statements that a conversion keeps are those that are no imports or exports. -/
theorem renderLines_statements {setting : Setting} (body : List Statement) :
    renderLines (convertStatements setting body).sections.statements =
      rejoin setting.source (plainStatements body) := by
  have hadds : ∀ s : Statement, (s.adds setting).statements.map OutputLine.render =
      if s.isModuleDeclaration then [] else [s.range.slice setting.source] := by
    intro s
    cases s with
    | exportList entries source range => cases source <;> rfl
    | _ => rfl
  rw [convertStatements_section Sections.statements rfl fun _ _ => rfl, renderLines, rejoin]
  congr 1
  induction body with
  | nil => rfl
  | cons s rest ih =>
    rw [flatMap_cons, map_append, hadds, ih]
    cases hmodule : s.isModuleDeclaration with
    | true => rw [plainStatements_of_module hmodule]; rfl
    | false => rw [plainStatements_of_plain hmodule]; rfl

theorem Cursor.isSeam_pastShebang (text : String) : (Cursor.pastShebang text).IsSeam := by
  unfold pastShebang shebangLength
  split
  · refine .of_next ?_
    rw [byte?, after_advance, head?_drop]
    rcases takeWhile_stop (!isLineEndByte ·) (bytesOf text) with hend | ⟨b, hget, hb⟩
    · rw [lineLength, ← hend]
      exact (getElem?_eq_none (Nat.le_refl _)) ▸ rfl
    · have hget : (ofText text).after[lineLength (bytesOf text)]? = some b := hget
      rw [hget, Option.all_some]
      exact isLoose_of_spacing (.inr (by simpa using hb))
  · intro a b ha
    rw [advance_zero] at ha
    cases ha

/-- The text can be read, and its statements have the texts `lines`. -/
def HasStatements (text : String) (lines : List String) : Prop :=
  ∃ m, parseModule text = .ok m ∧ m.body.map (·.range.slice text) = lines

/-- A conversion joins the statements of a module that are no imports or exports by line feeds. They
are read again as they were exactly if no line takes up the statement of the line before it. -/
theorem parseModule_rejoin_iff {text : String} {m : Module} (h : parseModule text = .ok m)
    (hmovable : Movable text (plainStatements m.body)) :
    (∀ setting : Setting, setting.source = text →
      renderLines (convertStatements setting m.body).sections.statements =
        rejoin text (plainStatements m.body)) ∧
    (HasStatements (rejoin text (plainStatements m.body))
      ((plainStatements m.body).map (·.range.slice text)) ↔
      (plainStatements m.body).IsChain fun s next =>
        s.takesUp (bytesOf (next.range.slice text)) = false) := by
  refine ⟨fun setting hsource => hsource ▸ renderLines_statements m.body, ?_⟩
  obtain ⟨e, hrun⟩ := parseModule_eq_ok.mp h
  have hiff := hrun.rejoin_iff (isIn_pastShebang text) (isSeam_pastShebang text) hmovable.escape
    hmovable.parameters ⟨⟨rfl, isBoundary_ofText _⟩, rfl, nofun, rfl⟩ hmovable.slashes
  rw [← hiff]
  have hstart : Cursor.pastShebang (rejoin text (plainStatements m.body)) =
      .ofText (rejoin text (plainStatements m.body)) := by
    rw [Cursor.pastShebang, hmovable.shebang, Cursor.advance_zero]
  constructor
  · rintro ⟨m', hread, htexts⟩
    obtain ⟨e', hrun'⟩ := parseModule_eq_ok.mp hread
    rw [hstart] at hrun'
    exact ⟨m'.body, e', hrun', htexts⟩
  · rintro ⟨body', e', hrun', htexts⟩
    rw [← hstart] at hrun'
    exact ⟨⟨body'⟩, parseModule_eq_ok.mpr ⟨e', hrun'⟩, htexts⟩

def splitByImport : String :=
  "var a = c\nimport 'x'\n(b)"

def closedLines : String :=
  "function f(a) \x7b\x7d\nimport 'x';\n/r/.test(b);\nexport \x7bf\x7d\n(c)"

theorem splitByImport_movable :
    ∃ m, parseModule splitByImport = .ok m ∧ Movable splitByImport (plainStatements m.body) ∧
      (plainStatements m.body).map (·.range.slice splitByImport) = ["var a = c", "(b)"] ∧
      ¬(plainStatements m.body).IsChain fun s next =>
        s.takesUp (bytesOf (next.range.slice splitByImport)) = false := by
  have hfirst : (⟨0, 9⟩ : Range).slice splitByImport = "var a = c" := by cbv
  have hsecond : (⟨21, 24⟩ : Range).slice splitByImport = "(b)" := by cbv
  obtain ⟨m, hread, hplain⟩ : ∃ m, parseModule splitByImport = .ok m ∧
      plainStatements m.body = [.declaration (.variable ⟨.var, [⟨.name ⟨"a", ⟨4, 5⟩⟩,
        some (.name ⟨"c", ⟨8, 9⟩⟩), ⟨4, 9⟩⟩], ⟨0, 9⟩⟩), .verbatim "(b)" ⟨21, 24⟩] :=
    ⟨_, by cbv, rfl⟩
  refine ⟨m, hread, ?_⟩
  rw [hplain]
  refine ⟨⟨?_, ?_, ?_, ?_, ?_, trivial⟩, ?_, ?_⟩
  · simp only [rejoin, map_cons, map_nil, Statement.range, Declaration.range, hfirst,
      hsecond]
    decide
  · simp only [forall_mem_cons, Statement.range, Declaration.range, hfirst, hsecond]
    decide
  · refine forall_mem_cons.mpr ⟨trivial, ?_⟩
    exact forall_mem_cons.mpr ⟨trivial, forall_mem_nil _⟩
  · simp only [Statement.SlashKept, Statement.range, Declaration.range, hfirst]
    decide
  · simp only [Statement.SlashKept, Statement.range, hsecond]
    decide
  · simp only [map_cons, map_nil, Statement.range, Declaration.range, hfirst, hsecond]
  · simp only [isChain_cons_cons, Statement.range, hsecond]
    decide

theorem closedLines_movable :
    ∃ m, parseModule closedLines = .ok m ∧ Movable closedLines (plainStatements m.body) ∧
      (plainStatements m.body).map (·.range.slice closedLines) =
        ["function f(a) \x7b\x7d", "/r/.test(b);", "(c)"] ∧
      (plainStatements m.body).IsChain fun s next =>
        s.takesUp (bytesOf (next.range.slice closedLines)) = false := by
  have hfirst : (⟨0, 16⟩ : Range).slice closedLines = "function f(a) \x7b\x7d" := by cbv
  have hsecond : (⟨29, 41⟩ : Range).slice closedLines = "/r/.test(b);" := by cbv
  have hthird : (⟨53, 56⟩ : Range).slice closedLines = "(c)" := by cbv
  obtain ⟨m, hread, hplain⟩ : ∃ m, parseModule closedLines = .ok m ∧
      plainStatements m.body = [.declaration (.function ⟨some ⟨"f", ⟨9, 10⟩⟩, false, false,
        ⟨10, 13⟩, ⟨0, 16⟩⟩), .verbatim "/r/.test(b);" ⟨29, 41⟩, .verbatim "(c)" ⟨53, 56⟩] :=
    ⟨_, by cbv, rfl⟩
  refine ⟨m, hread, ?_⟩
  rw [hplain]
  refine ⟨⟨?_, ?_, ?_, ?_, ?_, ?_, trivial⟩, ?_, ?_⟩
  · simp only [rejoin, map_cons, map_nil, Statement.range, Declaration.range, hfirst,
      hsecond, hthird]
    decide
  · simp only [forall_mem_cons, Statement.range, Declaration.range, hfirst, hsecond, hthird]
    decide
  · refine forall_mem_cons.mpr ⟨⟨_, _, by cbv⟩, ?_⟩
    refine forall_mem_cons.mpr ⟨trivial, ?_⟩
    exact forall_mem_cons.mpr ⟨trivial, forall_mem_nil _⟩
  · simp only [Statement.SlashKept, Statement.range, Declaration.range, hfirst]
    decide
  · simp only [Statement.SlashKept, Statement.range, Declaration.range, hfirst, hsecond]
    decide
  · simp only [Statement.SlashKept, Statement.range, hsecond, hthird]
    decide
  · simp only [map_cons, map_nil, Statement.range, Declaration.range, hfirst, hsecond,
      hthird]
  · simp only [isChain_cons_cons, isChain_singleton, Statement.range, hsecond, hthird]
    decide

/-- Without the import the parenthesis calls what the declaration ends with. A function and a
statement with a semicolon stay apart from what comes after them. -/
theorem import_keeps_statements_apart :
    (∃ m, parseModule splitByImport = .ok m ∧ Movable splitByImport (plainStatements m.body) ∧
      rejoin splitByImport (plainStatements m.body) = "var a = c\n(b)" ∧
      ¬HasStatements "var a = c\n(b)" ["var a = c", "(b)"]) ∧
    ∃ m, parseModule closedLines = .ok m ∧ Movable closedLines (plainStatements m.body) ∧
      rejoin closedLines (plainStatements m.body) =
        "function f(a) \x7b\x7d\n/r/.test(b);\n(c)" ∧
      HasStatements "function f(a) \x7b\x7d\n/r/.test(b);\n(c)"
        ["function f(a) \x7b\x7d", "/r/.test(b);", "(c)"] := by
  constructor
  · obtain ⟨m, hread, hmovable, hlines, hchain⟩ := splitByImport_movable
    have hjoined : rejoin splitByImport (plainStatements m.body) = "var a = c\n(b)" := by
      rw [rejoin, hlines]
      decide
    refine ⟨m, hread, hmovable, hjoined, ?_⟩
    rwa [← (parseModule_rejoin_iff hread hmovable).2, hjoined, hlines] at hchain
  · obtain ⟨m, hread, hmovable, hlines, hchain⟩ := closedLines_movable
    have hjoined : rejoin closedLines (plainStatements m.body) =
        "function f(a) \x7b\x7d\n/r/.test(b);\n(c)" := by
      rw [rejoin, hlines]
      decide
    refine ⟨m, hread, hmovable, hjoined, ?_⟩
    rwa [← (parseModule_rejoin_iff hread hmovable).2, hjoined, hlines] at hchain

end ModuleBridge
