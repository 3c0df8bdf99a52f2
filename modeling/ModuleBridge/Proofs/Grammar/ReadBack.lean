import ModuleBridge.Proofs.Grammar.Printed

/-!
# Reading back module declarations

Imports and exports as the tokens they are written with. Whatever trivia stands between the tokens
and whether or not a `;` ends them, the module read from them is the declaration alone: one
statement of the same form, with the same names in the same order and the same source.
-/

namespace ModuleBridge

open Cursor ImportBinding Keyword List

variable {source : Literal} {semicolon : Bool} {text : String}

theorem Keyword.isIdentifier (k : Keyword) : IsIdentifier k.text := by
  cases k <;> decide +kernel

def Keyword.identifier (k : Keyword) : Identifier :=
  ⟨k.text, k.isIdentifier⟩

def Keyword.token (k : Keyword) : Token :=
  .name k.identifier

theorem Keyword.bytes (k : Keyword) : ∀ b ∈ bytesOf k.text, isNamePart b = true :=
  k.identifier.bytes

/-! ## Declarations and their tokens -/

def asTokens : Option Identifier → List Token
  | none => []
  | some renamed => [asWord.token, .name renamed]

/-- A name of a list in braces, with the name after its `as`. -/
structure Entry where
  name : Identifier
  rename : Option Identifier

namespace Entry

def tokens (e : Entry) : List Token :=
  .name e.name :: asTokens e.rename

def names (e : Entry) : String × String :=
  (e.name.text, (e.rename.getD e.name).text)

end Entry

/-- A list in braces; `trailing` puts a comma after its last entry. -/
structure EntryList where
  entries : List Entry
  trailing : Bool

open EntryList

namespace EntryList

def separator (comma : Bool) : List Token :=
  if comma then [.mark .comma] else []

def inner (trailing : Bool) : List Entry → List Token
  | [] => [.mark .closeBrace]
  | e :: rest => e.tokens ++ separator (trailing || !rest.isEmpty) ++ inner trailing rest

def afterEntry (trailing : Bool) (rest : List Entry) : List Token :=
  separator (trailing || !rest.isEmpty) ++ inner trailing rest

theorem afterEntry_cases (trailing : Bool) (rest : List Entry) :
    afterEntry trailing rest = .mark .comma :: inner trailing rest ∨
      rest = [] ∧ afterEntry trailing rest = [.mark .closeBrace] := by
  cases trailing with
  | true => exact .inl rfl
  | false =>
    cases rest with
    | nil => exact .inr ⟨rfl, rfl⟩
    | cons e rest => exact .inl rfl

theorem length_le_inner (trailing : Bool) (entries : List Entry) :
    entries.length ≤ (inner trailing entries).length := by
  induction entries with
  | nil => exact Nat.zero_le _
  | cons e rest ih =>
    simp only [inner, Entry.tokens, length_append, length_cons]
    omega

def tokens (l : EntryList) : List Token :=
  .mark .openBrace :: inner l.trailing l.entries

def names (l : EntryList) : List (String × String) :=
  l.entries.map Entry.names

end EntryList

/-- What an import binds, by its names alone. -/
inductive PlainBinding where
  | default (localName : String)
  | namespace (localName : String)
  | named (imported localName : String)
deriving DecidableEq

def ImportBinding.plain : ImportBinding → PlainBinding
  | default localName => .default localName.text
  | «namespace» localName => .namespace localName.text
  | named imported localName => .named imported.text localName.text

/-- What may follow a default binding, or stand alone. -/
inductive Bindings where
  | namespace (localName : Identifier)
  | named (list : EntryList)

namespace Bindings

def tokens : Bindings → List Token
  | «namespace» localName => [.mark .star, asWord.token, .name localName]
  | named list => list.tokens

def plain : Bindings → List PlainBinding
  | «namespace» localName => [.namespace localName.text]
  | named list => list.names.map fun (imported, localName) => .named imported localName

end Bindings

inductive ImportClause where
  | default (localName : Identifier)
  | bindings (bindings : Bindings)
  | both (localName : Identifier) (bindings : Bindings)

namespace ImportClause

def tokens : ImportClause → List Token
  | default localName => [.name localName]
  | bindings more => more.tokens
  | both localName more => .name localName :: .mark .comma :: more.tokens

def hasDefault : ImportClause → Bool
  | bindings _ => false
  | _ => true

def plain : ImportClause → List PlainBinding
  | default localName => [.default localName.text]
  | bindings more => more.plain
  | both localName more => .default localName.text :: more.plain

end ImportClause

/-- An import, or an export that declares nothing. -/
inductive ModuleDeclaration where
  /-- An import that only runs the module. -/
  | importOnly (source : Literal)
  | importFrom (clause : ImportClause) (source : Literal)
  | exportList (list : EntryList) (source : Option Literal)
  /-- All exports of a module, under their own names or under one name. -/
  | exportAll (exported : Option Identifier) (source : Literal)

open ModuleDeclaration

namespace ModuleDeclaration

def fromTokens (source : Literal) : List Token :=
  [fromWord.token, .string source]

def tokens : ModuleDeclaration → List Token
  | importOnly source => [importWord.token, .string source]
  | importFrom clause source => importWord.token :: clause.tokens ++ fromTokens source
  | exportList list source =>
    exportWord.token :: list.tokens ++ (source.map fromTokens).getD []
  | exportAll exported source =>
    exportWord.token :: .mark .star :: asTokens exported ++ fromTokens source

/-- The statement has the form of the declaration, its names in order and its source. -/
def Reads : ModuleDeclaration → Statement → Prop
  | importOnly source, .importFrom bindings read _ => bindings = [] ∧ read.value = source.value
  | importFrom clause source, .importFrom bindings read _ =>
    bindings.map plain = clause.plain ∧ read.value = source.value
  | exportList list source, .exportList entries read _ =>
    entries.map (fun e => (e.localName.text, e.exported.text)) = list.names ∧
      read.map Quoted.value = source.map Literal.value
  | exportAll none source, .exportAll read _ => read.value = source.value
  | exportAll (some exported) source, .exportNamespace name read _ =>
    name.text = exported.text ∧ read.value = source.value
  | _, _ => False

end ModuleDeclaration

/-! ## Reading the parts -/

theorem firstByte_name_ne {n : Identifier} {tokens : List Token} {p : Punctuation} :
    firstByte (.name n :: tokens) ≠ some (Token.mark p).first := by
  obtain ⟨first, rest, hbytes, hfirst⟩ := n.exists_cons
  rw [firstByte, Token.first, hbytes, headD_cons]
  intro heq
  rw [Option.some.inj heq] at hfirst
  revert hfirst
  cases p <;> decide

theorem firstByte_mark_ne {tokens : List Token} {p q : Punctuation}
    (h : (Token.mark p).first ≠ (Token.mark q).first) :
    firstByte (.mark p :: tokens) ≠ some (Token.mark q).first := by
  intro heq
  exact h (Option.some.inj heq)

namespace Scan

variable {tokens : List Token}

theorem fromClause_takes :
    Takes (At (fromTokens source ++ tokens)) (Before tokens)
      (fun q => q.value = source.value) fromClause :=
  .bind (expectWord_takes rfl) fun _ _ => .bind space_takes fun _ _ => quoted_takes

def pairNames (pairs : List (Name × Name)) : List (String × String) :=
  pairs.map fun p => (p.1.text, p.2.text)

theorem afterEntry_takes {trailing : Bool} {rest : List Entry} {first second : Name}
    {next : Scan (List (Name × Name))}
    (hnext : Takes (Before (inner trailing rest ++ tokens)) (Before tokens)
      (fun pairs => pairNames pairs = rest.map Entry.names) next) :
    Takes (Before (afterEntry trailing rest ++ tokens)) (Before tokens)
      (fun pairs => pairNames pairs = (first.text, second.text) :: rest.map Entry.names) do
        space
        if ← accept "," then return (first, second) :: (← next)
        expect "\x7d"
        return [(first, second)] := by
  refine .bind space_takes fun _ _ => ?_
  rcases afterEntry_cases trailing rest with hcomma | ⟨rfl, hclose⟩
  · rw [hcomma]
    refine .bind (accept_takes (p := .comma)) ?_
    rintro found rfl
    refine .bind hnext fun pairs hpairs => .pure ?_
    rw [pairNames, map_cons, ← hpairs, pairNames]
  · rw [hclose]
    refine .bind (accept_misses (p := .comma) (firstByte_mark_ne (by decide))) ?_
    rintro found rfl
    exact .bind (expect_takes (p := .closeBrace)) fun _ _ => .pure rfl

theorem namePairs_takes {trailing : Bool} {entries : List Entry} {fuel : Nat}
    (hfuel : entries.length < fuel) :
    Takes (Before (EntryList.inner trailing entries ++ tokens)) (Before tokens)
      (fun pairs => pairNames pairs = entries.map Entry.names) (namePairs fuel) := by
  induction entries generalizing fuel with
  | nil =>
    obtain ⟨fuel, rfl⟩ := Nat.exists_eq_succ_of_ne_zero (Nat.ne_zero_of_lt hfuel)
    refine .bind space_takes fun _ _ => .bind (accept_takes (p := .closeBrace)) ?_
    rintro found rfl
    exact .pure rfl
  | cons e rest ih =>
    obtain ⟨fuel, rfl⟩ := Nat.exists_eq_succ_of_ne_zero (Nat.ne_zero_of_lt hfuel)
    have hloop := ih (Nat.lt_of_succ_lt_succ hfuel)
    let after := EntryList.afterEntry trailing rest ++ tokens
    have hinner : EntryList.inner trailing (e :: rest) ++ tokens = e.tokens ++ after := by
      simp only [EntryList.inner, EntryList.afterEntry, append_assoc, after]
    have hword : firstWord after ≠ bytesOf "as" := by
      have hempty : [] ≠ bytesOf "as" := by decide
      rcases EntryList.afterEntry_cases trailing rest with hcomma | ⟨_, hclose⟩
      · simp only [after, hcomma]
        exact hempty
      · simp only [after, hclose]
        exact hempty
    rw [hinner]
    obtain ⟨n, rename⟩ := e
    refine .bind space_takes fun _ _ => .bind (accept_misses (p := .closeBrace) ?_) ?_
    · exact firstByte_name_ne
    rintro found rfl
    refine .bind name_takes fun first hfirst => .bind space_takes fun _ _ => ?_
    extract_lets finish
    have hfinish : ∀ second : Name, second.text = (rename.getD n).text →
        Takes (Before after) (Before tokens)
          (fun pairs => pairNames pairs = (⟨n, rename⟩ :: rest : List Entry).map Entry.names)
          (finish second) := by
      intro second hsecond
      rw [map_cons, Entry.names, ← hfirst, ← hsecond]
      exact afterEntry_takes hloop
    cases rename with
    | none =>
      refine .bind (acceptWord_misses asWord.bytes hword) ?_
      rintro found rfl
      refine .bind (.pure (P := fun second => second = first) rfl) ?_
      rintro second rfl
      exact (hfinish second hfirst).weaken fun _ => At.before
    | some renamed =>
      refine .bind (acceptWord_takes rfl) ?_
      rintro found rfl
      exact .bind space_takes fun _ _ => .bind name_takes hfinish

theorem bracedPairs_takes {list : EntryList} :
    Takes (At (list.tokens ++ tokens)) (Before tokens) (fun pairs => pairNames pairs = list.names)
      bracedPairs := by
  refine .bind (expect_takes (p := .openBrace)) fun _ _ => .bind .get ?_
  rintro c ⟨text, hc, hbefore⟩
  refine namePairs_takes (Nat.lt_succ_of_le ?_)
  calc list.entries.length ≤ (inner list.trailing list.entries ++ tokens).length := by
        rw [length_append]
        exact Nat.le_add_right_of_le (length_le_inner _ _)
    _ ≤ c.after.length := by
        rw [hc]
        exact hbefore.length_le

theorem importBindings_takes {more : Bindings} :
    Takes (At (more.tokens ++ tokens)) (Before tokens)
      (fun read => read.map plain = more.plain) importBindings := by
  cases more with
  | «namespace» localName =>
    refine .bind (accept_takes (p := .star)) ?_
    rintro found rfl
    refine .bind space_takes fun _ _ => .bind (expectWord_takes rfl) fun _ _ =>
      .bind space_takes fun _ _ => .bind name_takes fun a ha => .pure ?_
    rw [map_singleton, plain, ha, Bindings.plain]
  | named list =>
    refine .bind (accept_misses (p := .star) (firstByte_mark_ne (by decide))) ?_
    rintro found rfl
    refine .bind (.peek (P := (· = true)) fun c text hc hat => ?_) ?_
    · exact (startsWith_mark hc hat .openBrace).mpr rfl
    rintro found rfl
    refine .bind bracedPairs_takes fun pairs hpairs => .pure ?_
    rw [Bindings.plain, ← hpairs, pairNames, map_map, map_map]
    rfl

section

variable (hend : semicolon = false → tokens = [])

include hend

theorem importStatement_takes_source :
    Takes (At ((importOnly source).tokens ++ (ending semicolon ++ tokens)))
      (Before tokens) (importOnly source).Reads importStatement := by
  refine .bind .get fun start _ => .bind (expectWord_takes rfl) fun _ _ =>
    .bind space_takes fun _ _ => .bind .get ?_
  rintro c ⟨text, hc, hat⟩
  have hquote : c.byte?.any isQuote = true := by
    rw [byte?, hc, hat.head?]
    exact source.isQuote_mark
  rw [if_pos hquote]
  exact .bind quoted_takes fun q hq => .bind (optionalSemicolon_takes hend) fun _ _ =>
    .bind (.peek fun _ _ _ _ => trivial) fun _ (_ : True) => .pure ⟨rfl, hq⟩

omit hend in
/-- A clause opens with a name when it has a default binding, and with punctuation else. -/
theorem firstByte_clause (clause : ImportClause) (tokens : List Token) :
    (firstByte (clause.tokens ++ tokens)).any isQuote = false ∧
      (firstByte (clause.tokens ++ tokens)).any isNameStart = clause.hasDefault := by
  have hname : ∀ (n : Identifier) (more : List Token),
      (firstByte (.name n :: more)).any isQuote = false ∧
        (firstByte (.name n :: more)).any isNameStart = true := by
    intro n more
    obtain ⟨first, rest, hbytes, hfirst⟩ := n.exists_cons
    have hquote : isNameStart first = true → isQuote first = false := by
      apply forall_byte _ first
      decide +kernel
    rw [firstByte, Token.first, hbytes, headD_cons]
    exact ⟨hquote hfirst, hfirst⟩
  cases clause with
  | default localName => exact hname localName _
  | both localName more => exact hname localName _
  | bindings more =>
    cases more with
    | «namespace» localName => exact ⟨rfl, rfl⟩
    | named list => exact ⟨rfl, rfl⟩

theorem importStatement_takes_clause {clause : ImportClause} :
    Takes (At ((ModuleDeclaration.importFrom clause source).tokens ++ (ending semicolon ++ tokens)))
      (Before tokens) (ModuleDeclaration.importFrom clause source).Reads importStatement := by
  let after := ModuleDeclaration.fromTokens source ++ (ending semicolon ++ tokens)
  have htokens : (ModuleDeclaration.importFrom clause source).tokens ++
      (ending semicolon ++ tokens) = importWord.token :: (clause.tokens ++ after) := by
    simp only [ModuleDeclaration.tokens, cons_append, append_assoc, after]
  rw [htokens]
  refine .bind .get fun start _ => .bind (expectWord_takes rfl) fun _ _ =>
    .bind space_takes fun _ _ => .bind .get ?_
  rintro c ⟨text, hc, hat⟩
  obtain ⟨hquote, hname⟩ := firstByte_clause clause after
  rw [← hat.head?, ← hc] at hquote
  rw [byte?, hquote, if_neg Bool.false_ne_true]
  refine .bind (.peek (P := (· = clause.hasDefault)) fun d text hd hat => ?_) ?_
  · rw [byte?, hd, hat.head?, hname]
  rintro named rfl
  extract_lets finish
  have hfinish : ∀ read, read.map plain = clause.plain →
      Takes (Before after) (Before tokens) (ModuleDeclaration.importFrom clause source).Reads
        (finish read) := by
    intro read hread
    exact .bind space_takes fun _ _ => .bind fromClause_takes fun q hq =>
      .bind (optionalSemicolon_takes hend) fun _ _ =>
        .bind (.peek fun _ _ _ _ => trivial) fun _ (_ : True) => .pure ⟨hread, hq⟩
  cases clause with
  | bindings more => exact .bind importBindings_takes hfinish
  | default localName =>
    refine .bind name_takes fun first hfirst => .bind space_takes fun _ _ =>
      .bind (accept_misses (p := .comma) firstByte_name_ne) ?_
    rintro comma rfl
    have hread : [default first].map plain =
        (ImportClause.default localName).plain := by
      rw [map_singleton, plain, hfirst, ImportClause.plain]
    exact (hfinish _ hread).weaken fun _ => At.before
  | both localName more =>
    refine .bind name_takes fun first hfirst => .bind space_takes fun _ _ =>
      .bind (accept_takes (p := .comma)) ?_
    rintro comma rfl
    refine .bind space_takes fun _ _ => .bind importBindings_takes fun read hread => hfinish _ ?_
    rw [map_cons, plain, hfirst, hread, ImportClause.plain]

omit hend in
/-- After `export` stands punctuation, so that neither `default` nor a declaration is read. -/
theorem acceptDefault_misses {p : Punctuation} :
    Takes (At (.mark p :: tokens)) (At (.mark p :: tokens)) (· = false) (acceptWord "default") := by
  have hempty : [] ≠ bytesOf "default" := by decide
  exact acceptWord_misses defaultWord.bytes hempty

theorem exportStatement_takes_all {exported : Option Identifier} :
    Takes (At ((ModuleDeclaration.exportAll exported source).tokens ++ (ending semicolon ++ tokens)))
      (Before tokens) (ModuleDeclaration.exportAll exported source).Reads exportStatement := by
  let after := ModuleDeclaration.fromTokens source ++ (ending semicolon ++ tokens)
  have htokens : (ModuleDeclaration.exportAll exported source).tokens ++
      (ending semicolon ++ tokens) =
        exportWord.token :: .mark .star :: (asTokens exported ++ after) := by
    simp only [ModuleDeclaration.tokens, cons_append, append_assoc, after]
  rw [htokens]
  refine .bind .get fun start _ => .bind (expectWord_takes rfl) fun _ _ =>
    .bind space_takes fun _ _ => .bind acceptDefault_misses ?_
  rintro isDefault rfl
  refine .bind (accept_takes (p := .star)) ?_
  rintro star rfl
  refine .bind space_takes fun _ _ => ?_
  cases exported with
  | none =>
    have hmiss : firstWord after ≠ bytesOf "as" := by
      change bytesOf "from" ≠ bytesOf "as"
      decide
    refine .bind (acceptWord_misses asWord.bytes hmiss) ?_
    rintro named rfl
    refine .bind (.pure (P := (· = none)) rfl) ?_
    rintro read rfl
    exact .bind fromClause_takes fun q hq => .bind (optionalSemicolon_takes hend) fun _ _ =>
      .bind (.peek fun _ _ _ _ => trivial) fun _ (_ : True) => .pure hq
  | some exported =>
    refine .bind (acceptWord_takes rfl) ?_
    rintro named rfl
    refine .bind space_takes fun _ _ => .bind name_takes fun n hn => .bind space_takes fun _ _ =>
      .bind (.pure (P := (· = some n)) rfl) ?_
    rintro read rfl
    exact .bind fromClause_takes fun q hq => .bind (optionalSemicolon_takes hend) fun _ _ =>
      .bind (.peek fun _ _ _ _ => trivial) fun _ (_ : True) => .pure ⟨hn, hq⟩

theorem fromPart_takes {source : Option Literal} :
    Takes
      (Before ((source.map fromTokens).getD [] ++ (ending semicolon ++ tokens)))
      (Before (ending semicolon ++ tokens))
      (fun read => read.map Quoted.value = source.map Literal.value)
      (afterSpace do
        if ← peek (·.startsWithWord "from") then return some (← fromClause) else return none) := by
  cases source with
  | none =>
    refine (afterSpace_misses (.bind (.peek (P := (· = false)) fun c text hc hat => ?_) ?_)).mono
      ?_
    · refine startsWithWord_eq_false fromWord.bytes ?_ hc hat
      have hempty : [] ≠ bytesOf "from" := by decide
      cases semicolon with
      | true => exact hempty
      | false =>
        rw [hend rfl]
        exact hempty
    · rintro found rfl
      exact .pure rfl
    · rintro answer rfl
      rfl
  | some source =>
    refine (afterSpace_takes (P := fun q => q.value = source.value)
      (.bind (.peek (P := (· = true)) fun c text hc hat => ?_) ?_)).mono ?_
    · exact startsWithWord_eq_true rfl hc hat
    · rintro found rfl
      exact .bind fromClause_takes fun q hq => .pure ⟨q, rfl, hq⟩
    · rintro answer ⟨q, rfl, hq⟩
      rw [Option.map_some, Option.map_some, hq]

theorem exportStatement_takes_list {list : EntryList} {source : Option Literal} :
    Takes (At ((ModuleDeclaration.exportList list source).tokens ++ (ending semicolon ++ tokens)))
      (Before tokens) (ModuleDeclaration.exportList list source).Reads exportStatement := by
  let after := (source.map ModuleDeclaration.fromTokens).getD [] ++ (ending semicolon ++ tokens)
  have htokens : (ModuleDeclaration.exportList list source).tokens ++
      (ending semicolon ++ tokens) = exportWord.token :: (list.tokens ++ after) := by
    simp only [ModuleDeclaration.tokens, cons_append, append_assoc, after]
  rw [htokens]
  refine .bind .get fun start _ => .bind (expectWord_takes rfl) fun _ _ =>
    .bind space_takes fun _ _ => .bind acceptDefault_misses ?_
  rintro isDefault rfl
  refine .bind (accept_misses (p := .star) (firstByte_mark_ne (by decide))) ?_
  rintro star rfl
  refine .bind (.peek (P := (· = true)) fun c text hc hat => ?_) ?_
  · exact (startsWith_mark hc hat .openBrace).mpr rfl
  rintro atBrace rfl
  refine .bind bracedPairs_takes fun pairs hpairs => ?_
  refine .bind (fromPart_takes hend) fun read hread =>
    .bind (optionalSemicolon_takes hend) fun _ _ =>
    .bind (.peek fun _ _ _ _ => trivial) fun _ (_ : True) => .pure ⟨?_, hread⟩
  rw [← hpairs, pairNames, map_map]
  rfl

end

/-! ## Reading declarations -/

/-- The first word of a statement other than `async` decides its form. -/
theorem statementForm?_of_find {c : Cursor} {word : Keyword}
    (hasync : c.startsWithWord "async" = false)
    (hfind : statementWords.find? (c.startsWithWord ·.text) = some word) :
    statementForm? c = .ok (word.form?.filter (·.isAt word c)) c := by
  have hnot : atAsyncFunction c = .ok false c := by
    have haccept : acceptWord "async" c = .ok false c := by rw [acceptWord, hasync]; rfl
    refine peek_eq_ok.mpr ⟨?_, rfl⟩
    rw [haccept]
  refine bind_eq_ok.mpr ⟨false, c, hnot, ?_⟩
  rw [if_neg Bool.false_ne_true, get_bind, hfind]
  rfl

theorem startsWith_eq_false_of_token {c : Cursor} {t : Token} {word : String} {b : UInt8}
    (hc : c.after = bytesOf text) (hat : At (t :: tokens) text) (hword : bytesOf word = [b])
    (hb : startsToken b = false) : c.startsWith word = false := by
  refine Bool.eq_false_iff.mpr fun hstarts => ?_
  obtain ⟨rest, hafter⟩ := isPrefixOf_iff_prefix.mp hstarts
  obtain ⟨_, _, hfirst⟩ := t.exists_text
  have hhead := hat.head?
  rw [← hc, ← hafter, hword, cons_append, head?_cons, firstByte] at hhead
  rw [Option.some.inj hhead, hfirst] at hb
  cases hb

theorem isAt_importing {c : Cursor} {t : Token} (hc : c.after = bytesOf text)
    (hat : At (importWord.token :: t :: tokens) text) :
    StatementForm.importing.isAt .importWord c = true := by
  obtain ⟨_, d, mid, haccept, hd, hbefore, rfl⟩ := acceptWord_takes rfl hc hat
  obtain ⟨_, e, rest, hspace, he, hnext, _⟩ := space_takes hd hbefore
  have hparen : e.startsWith "(" = false :=
    startsWith_eq_false_of_token he hnext (by decide : bytesOf "(" = [byte '(']) (by decide)
  have hpoint : e.startsWith "." = false :=
    startsWith_eq_false_of_token he hnext (by decide : bytesOf "." = [byte '.']) (by decide)
  have hword : acceptWord importWord.text c = .ok true d := haccept
  simp only [StatementForm.isAt, hword, hspace, hparen, hpoint, Bool.not_false, Bool.and_self]

theorem statementForm?_importing (hmore : tokens ≠ []) :
    Takes (At (importWord.token :: tokens)) (At (importWord.token :: tokens))
      (· = some .importing) statementForm? := by
  obtain ⟨t, tokens, rfl⟩ := exists_cons_of_ne_nil hmore
  intro c text hc hat
  have hasync : c.startsWithWord "async" = false :=
    startsWithWord_eq_false asyncWord.bytes (by change bytesOf "import" ≠ _; decide) hc hat
  have himport : c.startsWithWord importWord.text = true :=
    startsWithWord_eq_true rfl hc hat
  have hfind : statementWords.find? (c.startsWithWord ·.text) = some .importWord :=
    find?_cons_of_pos himport
  refine ⟨_, c, text, statementForm?_of_find hasync hfind, hc, hat, ?_⟩
  exact Option.filter_some_pos (isAt_importing hc hat)

theorem statementForm?_exporting :
    Takes (At (exportWord.token :: tokens)) (At (exportWord.token :: tokens))
      (· = some .exporting) statementForm? := by
  intro c text hc hat
  have hasync : c.startsWithWord "async" = false :=
    startsWithWord_eq_false asyncWord.bytes (by change bytesOf "export" ≠ _; decide) hc hat
  have himport : c.startsWithWord importWord.text = false :=
    startsWithWord_eq_false importWord.bytes (by change bytesOf "export" ≠ _; decide) hc hat
  have hexport : c.startsWithWord exportWord.text = true :=
    startsWithWord_eq_true rfl hc hat
  have hfind : statementWords.find? (c.startsWithWord ·.text) = some .exportWord := by
    rw [statementWords, find?_cons_of_neg (by simp [himport])]
    exact find?_cons_of_pos hexport
  exact ⟨_, c, text, statementForm?_of_find hasync hfind, hc, hat, rfl⟩

/-- A declaration is read up to its end, whatever follows its `;`. -/
theorem topLevelStatement_takes_before (declaration : ModuleDeclaration)
    (hend : semicolon = false → tokens = []) :
    Takes (At (declaration.tokens ++ (ending semicolon ++ tokens))) (Before tokens)
      declaration.Reads topLevelStatement := by
  cases declaration with
  | importOnly source =>
    refine .bind (statementForm?_importing (by simp)) ?_
    rintro form rfl
    exact importStatement_takes_source hend
  | importFrom clause source =>
    refine .bind (statementForm?_importing (by simp [fromTokens])) ?_
    rintro form rfl
    exact importStatement_takes_clause hend
  | exportList list source =>
    refine .bind statementForm?_exporting ?_
    rintro form rfl
    exact exportStatement_takes_list hend
  | exportAll exported source =>
    refine .bind statementForm?_exporting ?_
    rintro form rfl
    exact exportStatement_takes_all hend

theorem topLevelStatement_takes (declaration : ModuleDeclaration) (semicolon : Bool) :
    Takes (At (declaration.tokens ++ ending semicolon)) (Before []) declaration.Reads
      topLevelStatement := by
  have htakes : Takes (At (declaration.tokens ++ (ending semicolon ++ []))) (Before [])
      declaration.Reads topLevelStatement := topLevelStatement_takes_before declaration fun _ => rfl
  rwa [append_nil] at htakes

end Scan

theorem Before.head?_ne {tokens : List Token} (h : Before tokens text) :
    (bytesOf text).head? ≠ some (byte '#') := by
  obtain ⟨gap, rest, rfl, hgap, hat⟩ := h
  rw [bytesOf_append, head?_append]
  cases hbytes : (bytesOf gap).head? with
  | some b =>
    rw [Option.some_or, ← hbytes]
    exact hgap.head?_ne fun _ => rfl
  | none =>
    rw [Option.none_or, hat.head?]
    cases tokens with
    | nil => simp [firstByte]
    | cons t tokens =>
      obtain ⟨_, _, hstarts⟩ := t.exists_text
      rw [firstByte]
      intro heq
      rw [Option.some.inj heq] at hstarts
      revert hstarts
      decide

theorem pastShebang_of_before {tokens : List Token} (h : Before tokens text) :
    pastShebang text = .ofText text := by
  have hnot : ¬(ofText text).startsWith "#!" = true := by
    intro hstarts
    obtain ⟨rest, hbytes⟩ := isPrefixOf_iff_prefix.mp hstarts
    refine h.head?_ne ?_
    change (ofText text).after.head? = _
    rw [← hbytes]
    rfl
  rw [pastShebang, shebangLength, if_neg hnot, advance_zero]

/-- A module declaration, printed with any trivia around its tokens, is read back as it was. -/
theorem parseModule_reads (declaration : ModuleDeclaration) (semicolon : Bool) {text : String}
    (hprinted : Before (declaration.tokens ++ Scan.ending semicolon) text) :
    ∃ s, parseModule text = .ok ⟨[s]⟩ ∧ declaration.Reads s := by
  have hstart : (ofText text).after = bytesOf text := rfl
  obtain ⟨_, q, front, hspace, hq, hat, _⟩ := Scan.space_takes hstart hprinted
  obtain ⟨s, d, rest, hread, hd, hrest, hreads⟩ :=
    Scan.topLevelStatement_takes declaration semicolon hq hat
  obtain ⟨_, e, last, hend, he, hnothing, _⟩ := Scan.space_takes hd hrest
  refine ⟨s, parseModule_eq_ok.mpr ⟨e, ?_⟩, hreads⟩
  have hmore : q.after ≠ [] := by
    intro hnil
    have hle := hat.length_le
    rw [← hq, hnil] at hle
    cases declaration <;> simp [ModuleDeclaration.tokens] at hle
  have hlast : e.after = [] := by
    have hempty : last = "" := hnothing
    rw [he, hempty, bytesOf_empty]
  rw [pastShebang_of_before hprinted]
  exact .cons hspace hmore hread (.nil hend hlast)

/-- Words of the grammar are names too where names are read. -/
theorem words_read_back :
    let words : EntryList := ⟨[⟨asWord.identifier, some asWord.identifier⟩], true⟩
    let source : Literal := ⟨"m", '"', .inr rfl, by simp⟩
    let declaration : ModuleDeclaration :=
      .importFrom (.both fromWord.identifier (.named words)) source
    ∃ s, parseModule "import from,\x7bas/**/as as,\x7dfrom\n\"m\"" = .ok ⟨[s]⟩ ∧
      declaration.Reads s := by
  intro words source declaration
  have hspace : TriviaText (' '.toString ++ "") := .blank (by decide) .empty
  have hline : TriviaText ('\n'.toString ++ "") := .blank (by decide) .empty
  have hcomment : TriviaText ("/*" ++ "" ++ "*/" ++ "") := by
    refine .block (fun front back heq => ?_) .empty
    have hlength : 0 = (front ++ "*/" ++ back).length := congrArg String.length heq
    have hmark : "*/".length = 2 := rfl
    simp only [String.length_append, hmark] at hlength
    omega
  refine parseModule_reads declaration false ⟨"", _, (String.empty_append).symm, .empty, ?_⟩
  exact ⟨_, _, rfl, hspace, by decide, "", _, rfl, .empty, by decide, "", _, rfl, .empty, by decide,
    "", _, rfl, .empty, by decide, _, _, rfl, hcomment, by decide, _, _, rfl, hspace, by decide,
    "", _, rfl, .empty, by decide, "", _, rfl, .empty, by decide, "", _, rfl, .empty, by decide,
    _, _, rfl, hline, by decide, "", _, rfl, .empty, by decide, rfl⟩

end ModuleBridge
