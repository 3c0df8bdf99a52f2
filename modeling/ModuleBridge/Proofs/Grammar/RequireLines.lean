import ModuleBridge.Proofs.Grammar.PatternText
import ModuleBridge.Proofs.Grammar.ReadBack
import ModuleBridge.Proofs.Grammar.Rejoin
import ModuleBridge.Proofs.Source.Matching

/-!
# Lines that bind a required module

A line `const target = require(source);`, perhaps with `.default` after the call, is read as one
declaration of the names of its target, whatever literal the source is and whatever follows the
line. Such lines with line feeds between them are read one after the other.
-/

namespace ModuleBridge

open Scan Cursor List

variable {n : Identifier} {start : Cursor}

/-! ## Tokens of an expression -/

section Tokens

variable {start c d e : Cursor} {depth depth' : Nat} {b : UInt8} {rest : List UInt8}

theorem boundary_expression_inside {last : Cursor} (hend : isTerminator b = false)
    (hcomma : b ≠ byte ',') : StretchKind.expression.boundary start last false b = .inside := by
  rw [isTerminator, Bool.or_eq_false_iff] at hend
  simp only [StretchKind.boundary, hend, beq_eq_false_iff_ne.mpr hcomma, Bool.false_and,
    Bool.false_eq_true, if_false]

theorem StretchRun.of_token (hc : c.after = b :: rest) (hcode : startsCode b = true)
    (hinside : depth = 0 → isTerminator b = false ∧ b ≠ byte ',')
    (htoken : Scan.token depth c = .ok depth' e) (hrest : StretchRun .expression start e depth' d) :
    StretchRun .expression start c depth d := by
  refine .token (trivia_of_nothing hc (triviaItem_of_startsCode hcode _)) hc (fun hdepth => ?_)
    (fun hblock => by cases hblock.2.2) htoken hrest
  exact boundary_expression_inside (hinside hdepth).1 (hinside hdepth).2

theorem StretchRun.of_semicolon (hc : c.after = byte ';' :: rest) :
    StretchRun .expression start c 0 c :=
  .before (trivia_of_nothing hc (triviaItem_of_startsCode (by decide) _)) hc rfl

theorem past_mark {mark : String} (hmark : bytesOf mark = [b]) : c.past mark = c.advance 1 := by
  rw [past, hmark, length_singleton]

theorem token_name (hc : c.after = bytesOf n.text ++ rest) (hrest : StopsToken rest) :
    token depth c = .ok depth (c.past n.text) := by
  obtain ⟨first, more, hname, hfirst⟩ := n.exists_cons
  have hword := n.takeWhile_bytes hrest
  obtain ⟨hplain, hopen, hclose, hpart⟩ : startsLiteral first = false ∧ isOpener first = false ∧
      isCloser first = false ∧ isNamePart first = true :=
    forall_byte (P := fun b => isNameStart b = true → startsLiteral b = false ∧
      isOpener b = false ∧ isCloser b = false ∧ isNamePart b = true)
    (by decide +kernel) first hfirst
  rw [hname, cons_append] at hc
  rw [hname, cons_append, takeWhile_cons_of_pos hpart] at hword
  have hlength : (bytesOf n.text).length = ((more ++ rest).takeWhile isNamePart).length + 1 := by
    rw [hname, ← hword, length_cons]
  simp only [token, hc, literal_of_plain hc hplain, hopen, hclose, hpart, Bool.false_eq_true,
    if_false, if_true]
  rw [past, hlength]

theorem token_string {mark : QuoteMark} {items : List (StringItem mark)}
    (hc : c.after = bytesOf (stringText mark items) ++ rest) :
    token depth c = .ok depth (c.past (stringText mark items)) := by
  have hmark : isQuote (byte mark.char) = true := by cases mark <;> decide
  rw [bytesOf_stringText, cons_append, append_assoc, singleton_append] at hc
  have hliteral : literal c = .ok true (c.past (stringText mark items)) := by
    simp only [literal, hc, literalStart, hmark, if_true, quotedReach_items, Nat.zero_add]
    rw [past, bytesOf_stringText, length_cons, length_append,
      length_singleton]
  simp only [token, hc, hliteral]

theorem token_point (hc : c.after = bytesOf "." ++ rest) :
    token depth c = .ok depth (c.past ".") := by
  have hpoint : bytesOf "." = [byte '.'] := by decide
  rw [hpoint, singleton_append] at hc
  have hstep : c.stepLength = 1 := by
    have hchar : c.char? = some '.' := by
      rw [char?, hc]
      exact decodeFirst?_utf8EncodeChar '.' rest
    rw [stepLength, hchar]
    rfl
  have hkind : isOpener (byte '.') = false ∧ isCloser (byte '.') = false ∧
      isNamePart (byte '.') = false := by decide
  simp only [token, hc, literal_of_plain hc (by decide), hkind, Bool.false_eq_true, if_false, hstep]
  rw [past_mark hpoint]

theorem mark_past {text : String} (hc : c.after = bytesOf text ++ rest) :
    mark text c = .ok (some ()) (c.past text) := by
  rw [mark, bind_of_ok (accept_past hc)]
  rfl

theorem mark_other {text : String} {more : List UInt8} (htext : bytesOf text = b :: more)
    (hc : c.after.head? ≠ some b) : mark text c = .ok none c := by
  rw [mark, bind_of_ok (accept_other htext hc)]
  rfl

theorem startsWithWord_past (hc : c.after = bytesOf n.text ++ rest) (hrest : StopsToken rest) :
    c.startsWithWord n.text = true := by
  rw [startsWithWord_iff n.bytes, hc, n.takeWhile_bytes hrest]

theorem startsWithWord_other {other : Identifier} (hc : c.after = bytesOf n.text ++ rest)
    (hrest : StopsToken rest) (hne : other.text ≠ n.text) :
    c.startsWithWord other.text = false := by
  refine Bool.eq_false_iff.mpr fun hstarts => hne ?_
  rw [startsWithWord_iff other.bytes, hc, n.takeWhile_bytes hrest] at hstarts
  exact (bytesOf_inj.mp hstarts).symm

end Tokens

/-! ## The lines -/

/-- A pattern starts with a byte that tells a declaration from other code. -/
theorem BindingPattern.opens (p : BindingPattern) {c : Cursor} {rest : List UInt8}
    (hc : c.after = bytesOf p.text ++ rest) :
    (c.byte?.any isNameStart || c.startsWith "\x7b" || c.startsWith "[") = true := by
  cases p with
  | name n =>
    obtain ⟨first, more, hname, hfirst⟩ := n.exists_cons
    rw [text, hname] at hc
    rw [byte?, hc, cons_append, head?_cons, Option.any_some, hfirst]
    rfl
  | object properties =>
    rw [text, bytesOf_append, append_assoc] at hc
    rw [startsWith_past hc, Bool.or_true, Bool.true_or]
  | array elements =>
    rw [text, bytesOf_append, append_assoc] at hc
    rw [startsWith_past hc, Bool.or_true]

/-- A line that binds the names of a pattern to parts of a required module. -/
structure RequireLine where
  target : BindingPattern
  mark : QuoteMark
  source : List (StringItem mark)
  /-- Whether the default export is bound. -/
  isDefault : Bool
  reads : target.reads = true
  fits : ∀ c, target.Fits c

namespace RequireLine

variable {c : Cursor} {rest : List UInt8}

def member (line : RequireLine) : String :=
  if line.isDefault then "." ++ "default" else ""

def code (line : RequireLine) : String :=
  "require" ++ ("(" ++ (stringText line.mark line.source ++ (")" ++ line.member)))

def declared (line : RequireLine) : String :=
  line.target.text ++ (" " ++ ("=" ++ (" " ++ line.code)))

def text (line : RequireLine) : String :=
  "const" ++ (" " ++ (line.declared ++ ";"))

section

variable (line : RequireLine)

theorem text_eq :
    line.text = "const " ++ line.target.text ++ " = require(" ++ stringText line.mark line.source ++
      if line.isDefault then ").default;" else ");" := by
  refine String.toList_inj.mp ?_
  rw [text, declared, code, member]
  generalize stringText line.mark line.source = source
  cases line.isDefault <;> simp

theorem run_member (hc : c.after = bytesOf line.member ++ byte ';' :: rest) :
    StretchRun .expression start c 0 (c.past line.member) := by
  rw [member] at hc ⊢
  split at hc
  · rename_i hdefault
    have hpoint : bytesOf "." = [byte '.'] := by decide
    let word : Identifier := ⟨"default", by decide +kernel⟩
    rw [if_pos hdefault, past_append]
    rw [bytesOf_append, append_assoc] at hc
    have hword : (c.past ".").after = bytesOf word.text ++ byte ';' :: rest := after_past hc
    have hend : StretchRun .expression start ((c.past ".").past word.text) 0
        ((c.past ".").past word.text) := .of_semicolon (after_past hword)
    have hrun : StretchRun .expression start (c.past ".") 0 ((c.past ".").past word.text) :=
      .of_token hword (by decide) (fun _ => by decide)
        (token_name hword (stopsToken_cons (by decide))) hend
    exact .of_token hc (by decide) (fun _ => by decide) (token_point hc) hrun
  · rename_i hplain
    rw [if_neg hplain, past_empty]
    exact .of_semicolon hc

theorem run_code (hc : c.after = bytesOf line.code ++ byte ';' :: rest) :
    StretchRun .expression start c 0 (c.past line.code) := by
  let word : Identifier := ⟨"require", by decide +kernel⟩
  have hopen : bytesOf "(" = [byte '('] := by decide
  have hclose : bytesOf ")" = [byte ')'] := by decide
  simp only [code, bytesOf_append, append_assoc, past_append] at hc ⊢
  have hcall := after_past hc
  have hsource := after_past hcall
  have hclosed := after_past hsource
  have hmember := after_past hclosed
  have hstring := bytesOf_stringText line.mark line.source
  have hquote : startsCode (byte line.mark.char) = true := by cases line.mark <;> decide
  rw [hopen, singleton_append] at hcall
  rw [hclose, singleton_append] at hclosed
  have hfirst := hsource
  rw [hstring, cons_append] at hfirst
  have hname : token 0 c = .ok 0 (c.past "require") := by
    refine token_name (n := word) hc ?_
    rw [hopen]
    exact stopsToken_cons (by decide)
  refine .of_token hc (by decide) (fun _ => by decide) hname ?_
  refine .of_token hcall (by decide) (fun _ => by decide) (token_opener hcall (by decide) 0) ?_
  rw [← past_mark hopen]
  refine .of_token hfirst hquote (fun h => by cases h) (token_string hsource) ?_
  refine .of_token hclosed (by decide) (fun h => by cases h) (token_closer hclosed (by decide) 1) ?_
  rw [← past_mark hclose]
  exact line.run_member hmember

theorem value_past (hc : c.after = bytesOf line.code ++ byte ';' :: rest) :
    ∃ v, value c = .ok v (c.past line.code) := by
  have hrun : expression c = .ok (c.rangeTo (c.past line.code)) (c.past line.code) :=
    stretchFrom_of_run (line.run_code hc)
  have hempty : (c.rangeTo (c.past line.code)).isEmpty = false := by
    have hpos := pos_past hc
    have hlength : 0 < (bytesOf line.code).length := by
      rw [code, bytesOf_append, length_append]
      exact Nat.add_pos_left (by decide) _
    change (c.pos == (c.past line.code).pos) = false
    rw [beq_eq_false_iff_ne]
    omega
  exact ⟨_, classified_eq_ok.mpr ⟨_, hrun, hempty, rfl⟩⟩

theorem bindingTarget_past (hc : c.after = bytesOf line.target.text ++ rest)
    (hrest : StopsToken rest) :
    ∃ target, bindingTarget c c = .ok target (c.past line.target.text) ∧
      target.names.map Name.text = line.target.names := by
  have hread := boundNames_collects hc (fun _ _ => hrest) (line.fits c)
  rw [line.reads, Collects, if_pos rfl] at hread
  obtain ⟨names, hrun, hnames⟩ := hread
  have hstarts : ∀ {mark more : String}, line.target.text = mark ++ more →
      c.startsWith mark = true := by
    intro mark more htext
    rw [htext, bytesOf_append, append_assoc] at hc
    exact startsWith_past hc
  have hpattern : (c.startsWith "\x7b" || c.startsWith "[") = true →
      ∃ target, bindingTarget c c = .ok target (c.past line.target.text) ∧
        target.names.map Name.text = line.target.names := by
    intro hopen
    rw [bindingTarget, if_pos hopen, bind_of_ok hrun]
    exact ⟨_, rfl, hnames⟩
  cases htarget : line.target with
  | object properties => exact htarget ▸ hpattern (by rw [hstarts (by rw [htarget]; rfl)]; rfl)
  | array elements =>
    refine htarget ▸ hpattern ?_
    rw [Bool.or_eq_true]
    exact .inr (hstarts (by rw [htarget]; rfl))
  | name n =>
    rw [htarget, BindingPattern.text] at hc
    obtain ⟨first, more, hname, hfirst⟩ := n.exists_cons
    obtain ⟨-, -, -, hbracket, hbrace, -⟩ := startsEntry_of_name hfirst
    have hhead : c.after.head? = some first := by
      rw [hc, hname, cons_append, head?_cons]
    have hnoBrace : c.startsWith "\x7b" = false :=
      startsWith_other (by decide : bytesOf "\x7b" = [byte '\x7b'])
        (by rw [hhead]; exact fun heq => hbrace (Option.some.inj heq))
    have hnoBracket : c.startsWith "[" = false :=
      startsWith_other (by decide : bytesOf "[" = [byte '['])
        (by rw [hhead]; exact fun heq => hbracket (Option.some.inj heq))
    rw [bindingTarget, hnoBrace, hnoBracket, Bool.or_self, if_neg Bool.false_ne_true,
      bind_of_ok (name_past hc hrest)]
    exact ⟨_, rfl, rfl⟩

theorem declarator_past (hc : c.after = bytesOf line.declared ++ byte ';' :: rest) :
    ∃ x, declarator c = .ok x (c.past line.declared) ∧
      x.target.names.map Name.text = line.target.names := by
  have hequals : bytesOf "=" = [byte '='] := by decide
  have hblank : bytesOf " " = [byte ' '] := by decide
  simp only [declared, bytesOf_append, append_assoc, past_append] at hc ⊢
  have hgap := after_past hc
  have hassign := after_past hgap
  have hbefore := after_past hassign
  have hcode := after_past hbefore
  obtain ⟨target, htarget, hnames⟩ := line.bindingTarget_past hc
    (by rw [hblank]; exact stopsToken_cons (by decide))
  obtain ⟨v, hvalue⟩ := line.value_past hcode
  have hspace := space_past .blank hgap
    (by rw [hequals]; exact triviaItem_of_startsCode (by decide) _)
  have hclear : triviaItem (bytesOf line.code ++ byte ';' :: rest) = .nothing := by
    have hword : bytesOf "require" = byte 'r' :: bytesOf "equire" := by decide
    rw [code, bytesOf_append, hword]
    exact triviaItem_of_startsCode (by decide) _
  have hvalueSpace := space_past .blank hbefore hclear
  have hinitial : initialValue ((c.past line.target.text).past " ") = .ok (some v)
      (((((c.past line.target.text).past " ").past "=").past " ").past line.code) := by
    have htest := hassign
    rw [hequals, hblank, singleton_append, singleton_append] at htest
    have hsingle := atAssignment_single htest fun heq => absurd (Option.some.inj heq) (by decide)
    rw [initialValue, bind_of_ok hsingle, if_pos rfl, bind_of_ok (accept_past hassign),
      bind_of_ok hvalueSpace]
    exact bind_eq_ok.mpr ⟨v, _, hvalue, rfl⟩
  refine ⟨⟨target, some v, _⟩, declarator_eq_ok.mpr ⟨target, _, some v, htarget, ?_, rfl⟩, hnames⟩
  exact afterSpace_eq_ok.mpr ⟨_, _, hspace, hinitial, rfl⟩

theorem after_text (hc : c.after = bytesOf line.text ++ rest) :
    c.after = bytesOf Keyword.constWord.text ++
      (bytesOf " " ++ (bytesOf line.declared ++ byte ';' :: rest)) := by
  have hsemicolon : bytesOf ";" = [byte ';'] := by decide
  rw [hc, text, bytesOf_append, bytesOf_append, bytesOf_append, hsemicolon]
  simp only [append_assoc, singleton_append]
  rfl

theorem space_target (hc : c.after = bytesOf " " ++ (bytesOf line.declared ++ rest)) :
    space c = .ok () (c.past " ") := by
  obtain ⟨b, more, htarget, hentry, -⟩ := line.target.exists_cons
  refine space_past .blank hc ?_
  rw [declared, bytesOf_append, htarget]
  exact triviaItem_of_startsCode (startsEntry_code hentry).1 _

theorem startsWithWord_text (hc : c.after = bytesOf line.text ++ rest) (k : Keyword) :
    c.startsWithWord k.text = decide (k = .constWord) := by
  have hconst := line.after_text hc
  have hstop : StopsToken (bytesOf " " ++ (bytesOf line.declared ++ byte ';' :: rest)) := by
    have hblank : bytesOf " " = [byte ' '] := by decide
    rw [hblank]
    exact stopsToken_cons (by decide)
  by_cases hk : k = .constWord
  · rw [hk, decide_eq_true rfl]
    exact startsWithWord_past (n := Keyword.constWord.identifier) hconst hstop
  · rw [decide_eq_false hk]
    have hne : k.text ≠ Keyword.constWord.text := by
      cases k <;> first | exact absurd rfl hk | decide
    have hother : c.startsWithWord k.identifier.text = false :=
      startsWithWord_other (n := Keyword.constWord.identifier) hconst hstop hne
    exact hother

theorem variableDeclaration_past (hc : c.after = bytesOf line.text ++ rest) :
    ∃ d, variableDeclaration .const c = .ok d (c.past line.text) ∧ d.kind = .const ∧
      d.names.map Name.text = line.target.names := by
  have hsemicolon : bytesOf ";" = [byte ';'] := by decide
  have hcomma : bytesOf "," = [byte ','] := by decide
  have hgap := after_past (line.after_text hc)
  have hdeclared := after_past hgap
  have hend := after_past hdeclared
  have hword : expectWord VariableKind.const.keyword.text c =
      .ok () (c.past Keyword.constWord.text) :=
    expectWord_eq_ok.mpr ⟨line.startsWithWord_text hc .constWord, rfl⟩
  obtain ⟨x, hx, hnames⟩ := line.declarator_past hdeclared
  have hclear := space_of_nothing (by rw [hend]; exact triviaItem_of_startsCode (by decide) rest)
  have hmiss := mark_other hcomma
    (by rw [hend]; exact fun heq => absurd (Option.some.inj heq) (by decide))
  have hlast := mark_past (by rw [hend, hsemicolon, singleton_append])
  have hall : ∀ fuel, declarators (fuel + 1) (c.past Keyword.constWord.text) =
      .ok [x] (((c.past Keyword.constWord.text).past " ").past line.declared) := by
    intro fuel
    have hnone := afterSpace_eq_ok.mpr ⟨_, _, hclear, hmiss, rfl⟩
    exact bind_eq_ok.mpr ⟨(), _, line.space_target hgap, bind_eq_ok.mpr ⟨x, _, hx,
      bind_eq_ok.mpr ⟨none, _, hnone, rfl⟩⟩⟩
  refine ⟨⟨.const, [x], c.rangeTo (c.past line.text)⟩, ?_, rfl, ?_⟩
  · have hclosed : optionalSemicolon (((c.past Keyword.constWord.text).past " ").past
        line.declared) = .ok () (c.past line.text) := by
      rw [text, past_append, past_append, past_append]
      exact optionalSemicolon_eq_ok.mpr ⟨some (), afterSpace_eq_ok.mpr ⟨_, _, hclear, hlast, rfl⟩⟩
    rw [variableDeclaration, get_bind, bind_of_ok hword, get_bind, bind_of_ok (hall _),
      bind_of_ok hclosed]
    rfl
  · rw [← hnames]
    exact congrArg (List.map Name.text) (flatMap_singleton ..)

theorem statementForm?_text (hc : c.after = bytesOf line.text ++ rest) :
    statementForm? c = .ok (some (.variable .const)) c := by
  have hwords := line.startsWithWord_text hc
  have hgap := after_past (line.after_text hc)
  have hfind : Keyword.statementWords.find? (c.startsWithWord ·.text) = some .constWord := by
    simp only [Keyword.statementWords, List.find?, hwords]
    rfl
  have hat : (StatementForm.variable .const).isAt .constWord c = true := by
    have haccept :
        acceptWord Keyword.constWord.text c = .ok true (c.past Keyword.constWord.text) := by
      rw [acceptWord, hwords, if_pos (decide_eq_true rfl), past]
    simp only [StatementForm.isAt, haccept, line.space_target hgap]
    have htarget := after_past hgap
    rw [declared, bytesOf_append, append_assoc] at htarget
    exact line.target.opens htarget
  rw [statementForm?_of_find (hwords .asyncWord) hfind]
  exact congrArg (EStateM.Result.ok · c) (Option.filter_some_pos hat)

theorem topLevelStatement_past (hc : c.after = bytesOf line.text ++ rest) :
    ∃ d, topLevelStatement c = .ok (.declaration (.variable d)) (c.past line.text) ∧
      d.kind = .const ∧ d.names.map Name.text = line.target.names := by
  obtain ⟨d, hd, hkind, hnames⟩ := line.variableDeclaration_past hc
  refine ⟨d, topLevelStatement_eq_ok.mpr ⟨_, line.statementForm?_text hc, ?_⟩, hkind, hnames⟩
  exact bind_eq_ok.mpr ⟨d, _, hd, rfl⟩

end

theorem moduleRun (lines : List RequireLine) (gap : Spacing)
    (hc : c.after = bytesOf gap.text ++ bytesOf ("\n".intercalate (lines.map text))) :
    ∃ (declared : List VariableDeclaration) (e : Cursor),
      ModuleRun c (declared.map fun d => .declaration (.variable d)) e ∧
      (∀ d ∈ declared, d.kind = .const) ∧
      (declared.flatMap fun d => d.names.map Name.text) = lines.flatMap (·.target.names) := by
  induction lines generalizing c gap with
  | nil =>
    have hnone : c.after = bytesOf gap.text ++ [] := hc
    have hend := after_past hnone
    exact ⟨[], _, .nil (space_past gap hnone rfl) hend,
      fun d hd => absurd hd not_mem_nil, rfl⟩
  | cons line lines ih =>
    rw [map_cons, bytesOf_intercalate] at hc
    have hline := after_past hc
    have hconst := line.after_text hline
    have hfirst : bytesOf Keyword.constWord.text = byte 'c' :: bytesOf "onst" := by decide
    rw [hfirst] at hconst
    have hspace : space c = .ok () (c.past gap.text) := by
      refine space_past gap hc ?_
      rw [← hline, hconst]
      exact triviaItem_of_startsCode (by decide) _
    obtain ⟨d, hread, hkind, hnames⟩ := line.topLevelStatement_past hline
    have hrest : ∃ next : Spacing, ((c.past gap.text).past line.text).after =
        bytesOf next.text ++ bytesOf ("\n".intercalate (lines.map text)) := by
      rw [after_past hline]
      cases lines with
      | nil => exact ⟨.none, rfl⟩
      | cons next lines =>
        refine ⟨.feed, ?_⟩
        rw [map_cons, nextLines_cons, bytesOf_intercalate]
        rfl
    obtain ⟨next, hnext⟩ := hrest
    obtain ⟨declared, e, hrun, hkinds, hall⟩ := ih next hnext
    have hmore : (c.past gap.text).after ≠ [] := by
      rw [hconst]
      exact cons_ne_nil _ _
    refine ⟨d :: declared, e, .cons hspace hmore hread hrun, ?_, ?_⟩
    · intro x hx
      rcases mem_cons.mp hx with rfl | hx
      · exact hkind
      · exact hkinds x hx
    · rw [flatMap_cons, flatMap_cons, hnames, hall]

theorem head?_ne (lines : List RequireLine) :
    (bytesOf ("\n".intercalate (lines.map text))).head? ≠ some (byte '#') := by
  cases lines with
  | nil => exact fun hnone => by cases hnone
  | cons line lines =>
    have hfirst : bytesOf "const" = byte 'c' :: bytesOf "onst" := by decide
    rw [map_cons, bytesOf_intercalate, text, bytesOf_append, hfirst]
    exact fun heq => absurd (Option.some.inj heq) (by decide)

/-- A text of such lines is a module of constants, with the names of all targets in order. -/
theorem parseModule_lines (lines : List RequireLine) :
    ∃ declared : List VariableDeclaration, parseModule ("\n".intercalate (lines.map text)) =
        .ok ⟨declared.map fun d => .declaration (.variable d)⟩ ∧
      (∀ d ∈ declared, d.kind = .const) ∧
      (declared.flatMap fun d => d.names.map Name.text) = lines.flatMap (·.target.names) := by
  obtain ⟨declared, e, hrun, hkinds, hnames⟩ :=
    moduleRun lines .none (c := .ofText ("\n".intercalate (lines.map text))) rfl
  refine ⟨declared, parseModule_eq_ok.mpr ⟨e, ?_⟩, hkinds, hnames⟩
  have hshebang : (ofText ("\n".intercalate (lines.map text))).startsWith "#!" = false :=
    startsWith_other (by decide : bytesOf "#!" = byte '#' :: bytesOf "!") (head?_ne lines)
  rw [pastShebang, shebangLength, hshebang, if_neg Bool.false_ne_true, advance_zero]
  exact hrun

end RequireLine

end ModuleBridge
