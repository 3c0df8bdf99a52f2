import ModuleBridge.Proofs.Grammar.Layout
import ModuleBridge.Proofs.Grammar.Tiling

/-!
# Syntax trees are faithful

Every reading of the grammar lays out the parts of what it answers: their ranges follow each other
in the range of the answer, and names, strings and code read as the text of theirs. Main statement:
`parseModule_faithful`.
-/

namespace ModuleBridge

open ImportBinding List

variable {c d : Cursor} {names : List Name} {a : Declaration} {s : Statement}

namespace Scan

open Cursor

variable {text : String}

/-! ## Patterns -/

theorem propertyKey_adds :
    Adds text (fun key => (key.map Name.range).toList) (fun key => ∀ n ∈ key, n.Reads text)
      propertyKey := by
  intro front
  have hname : Lays text front (fun key => front ++ (key.map Name.range).toList)
      (fun key => ∀ n ∈ key, n.Reads text) (do return some (← name)) :=
    .bind (name_adds front) fun n hn => .pure rfl (by simpa using hn)
  have hother : Lays text front (fun key => front ++ (key.map Name.range).toList)
      (fun key => ∀ n ∈ key, n.Reads text) (pure none) := .pure (by simp) (by simp)
  refine .after fun c => ?_
  split
  · exact .ite (.after fun _ => hother) <| .ite (.after fun _ => hother) <|
      .ite (.after fun _ => hother) hname
  · exact hname

def NamesRead (text : String) (names : List Name) : Prop :=
  ∀ n ∈ names, n.Reads text

theorem NamesRead.append {more : List Name} (hnames : NamesRead text names)
    (hmore : NamesRead text more) : NamesRead text (names ++ more) := by
  intro n hn
  exact (mem_append.mp hn).elim (hnames n) (hmore n)

theorem patternRest_lays {more : Scan (List Name)} {closer : String} (front : List Range)
    (hmore : Adds text (map Name.range) (NamesRead text) more) (hnames : NamesRead text names) : Lays text (front ++ names.map Name.range)
      (fun names => front ++ names.map Name.range) (NamesRead text)
      (patternRest more closer names) := by
  refine .after fun _ => .after fun _ => .ite ?_ ?_
  · exact .bind (hmore _) fun more hmore => .pure (by simp) (hnames.append hmore)
  · exact .after fun _ => .pure rfl hnames

theorem patterns_add (fuel : Nat) :
    Adds text (map Name.range) (NamesRead text) (bindingNames fuel) ∧
    Adds text (map Name.range) (NamesRead text) (objectNames fuel) ∧
    Adds text (map Name.range) (NamesRead text) (arrayNames fuel) := by
  have hnone : NamesRead text [] := by simp [NamesRead]
  have hone : ∀ n : Name, n.Reads text → NamesRead text [n] := fun n hn => by
    simpa [NamesRead] using hn
  refine patterns_induction
    ⟨fun front => .failHere _ _, fun front => .failHere _ _, fun front => .failHere _ _⟩
    (fun object array hobject harray front => ?_) (fun binding object hbinding hobject front => ?_)
    (fun binding array hbinding harray front => ?_) fuel
  · refine .after fun _ => .ite (hobject front) ?_
    refine .after fun _ => .ite (harray front) ?_
    exact .bind (name_adds front) fun n hn => .pure rfl (hone n hn)
  · refine .after fun _ => .after fun _ => .ite (.pure (by simp) hnone) <| .after fun _ =>
        .ite (.after fun _ => .bind (hbinding front) fun _ hnames =>
          patternRest_lays front hobject hnames) ?_
    refine .bind (propertyKey_adds front) fun key hkey => .after fun _ => .after fun _ => ?_
    -- A key before a colon is no binding of its own.
    refine .ite (.after fun _ => .bind (.forget (hbinding front)) fun _ hnames => .after fun _ =>
      patternRest_lays front hobject hnames) ?_
    cases key with
    | some n =>
      exact .after fun _ => patternRest_lays front hobject (hone n (hkey n rfl))
    | none => exact .failHere _ _
  · have hentry : Lays text front (fun names => front ++ names.map Name.range) (NamesRead text)
        (entry binding (patternRest array "]")) :=
      .bind (hbinding front) fun _ hnames => .after fun _ => patternRest_lays front harray hnames
    exact .after fun _ => .after fun _ => .ite (.pure (by simp) hnone) <| .after fun _ =>
      .ite (harray front) <| .after fun _ => .ite (.after fun _ => hentry) hentry

theorem boundNames_adds : Adds text (map Name.range) (NamesRead text) boundNames :=
  fun front => .after fun _ => (patterns_add _).1 front

/-! ## Declarations -/

theorem accept_advances {mark : String} (hmark : mark ≠ "") (hrun : accept mark c = .ok true d) :
    c.pos < d.pos := by
  rcases accept_cases hrun with ⟨-, hstarts, rfl⟩ | ⟨hfalse, -⟩
  · have hfits := (List.isPrefixOf_iff_prefix.mp hstarts).length_le
    have hpos : 0 < (bytesOf mark).length := by
      rw [length_bytesOf]
      exact Nat.pos_of_ne_zero fun h => hmark (String.utf8ByteSize_eq_zero_iff.mp h)
    rw [pos_advance]
    omega
  · cases hfalse

theorem boundNames_advances : Advances boundNames := by
  intro c names d hrun
  refine ⟨boundNames_inText.onward hrun, ?_⟩
  rw [boundNames, get_bind, bindingNames] at hrun
  obtain ⟨brace, e, hbrace, hrest⟩ := bind_eq_ok.mp hrun
  cases brace with
  | true =>
    have hlt := accept_advances (by decide) hbrace
    rw [if_pos rfl] at hrest
    exact Nat.lt_of_lt_of_le hlt ((patterns_onward _).2.1 hrest).pos_le
  | false =>
    rw [if_neg Bool.false_ne_true] at hrest
    have hle := (accept_onward _ hbrace).pos_le
    obtain ⟨bracket, f, hbracket, hrest⟩ := bind_eq_ok.mp hrest
    cases bracket with
    | true =>
      have hlt := accept_advances (by decide) hbracket
      rw [if_pos rfl] at hrest
      have hmore := ((patterns_onward _).2.2 hrest).pos_le
      omega
    | false =>
      rw [if_neg Bool.false_ne_true] at hrest
      have hle' := (accept_onward _ hbracket).pos_le
      obtain ⟨n, hname, -⟩ := map_eq_ok.mp hrest
      have hlt := (name_advances hname).2
      omega

theorem bindingTarget_spec {target : Target} (hc : c.IsIn text)
    (hrun : bindingTarget c c = .ok target d) :
    d.IsIn text ∧ target.range = c.rangeTo d ∧ c.pos < d.pos ∧ target.Reads text := by
  unfold bindingTarget at hrun
  split at hrun
  · obtain ⟨names, e, hnames, hrest⟩ := bind_eq_ok.mp hrun
    obtain ⟨range, f, hrange, hpure⟩ := bind_eq_ok.mp hrest
    obtain ⟨rfl, rfl⟩ := peek_eq_ok.mp hrange
    obtain ⟨rfl, rfl⟩ := pure_eq_ok.mp hpure
    obtain ⟨hd, hparts, hread⟩ := boundNames_adds [] hc (Nat.le_refl c.pos) hnames
    exact ⟨hd, rfl, (boundNames_advances hnames).2, hparts, hread⟩
  · obtain ⟨n, hname, rfl⟩ := map_eq_ok.mp hrun
    obtain ⟨honward, hlt⟩ := name_advances hname
    have hreads := name_reads hc.1 hname
    obtain ⟨-, -, rfl⟩ := name_eq_ok.mp hname
    exact ⟨honward.isIn hc, rfl, hlt, hreads⟩

theorem initialValue_adds :
    Adds text (fun v => (v.map Expression.range).toList) (fun v => ∀ e ∈ v, e.Reads text)
      initialValue := by
  intro front
  refine .after fun _ => .ite ?_ (.pure (by simp) (by simp))
  exact .after fun _ => .after fun _ => .bind (value_adds front) fun e he =>
    .pure rfl (by simpa using he)

theorem declarator_adds : Adds text (fun x => [x.range]) (Declarator.Reads text) declarator := by
  intro front lo c x d hc hfront hrun
  obtain ⟨target, e, value, htarget, hvalue, rfl⟩ := declarator_eq_ok.mp hrun
  obtain ⟨he, hrange, hlt, hreads⟩ := bindingTarget_spec hc htarget
  have hfirst : InOrder c.pos [target.range] e.pos := by
    rw [hrange]
    exact ⟨Nat.le_refl _, hlt, Nat.le_refl _⟩
  obtain ⟨hd, hparts, hvalues⟩ := Lays.afterSpace (initialValue_adds _) (by simp) he hfirst hvalue
  have hle := (afterSpace_onward initialValue_inText.onward hvalue).pos_le
  refine ⟨hd, hfront.append ⟨Nat.le_refl _, Nat.lt_of_lt_of_le hlt hle, Nat.le_refl _⟩, ?_⟩
  exact ⟨hparts, hreads, hvalues⟩

theorem declarators_add (fuel : Nat) :
    Adds text (map Declarator.range) (fun all => ∀ x ∈ all, x.Reads text)
      (declarators fuel) := by
  induction fuel with
  | zero => exact fun _ => .failHere _ _
  | succ fuel ih =>
    intro front
    refine .after fun _ => .bind (declarator_adds front) fun first hfirst => ?_
    refine .after fun comma => ?_
    split
    · refine .bind (ih _) fun rest hrest => .pure (by simp) ?_
      intro x hx
      rcases mem_cons.mp hx with rfl | hx
      · exact hfirst
      · exact hrest x hx
    · exact .pure rfl (by simpa using hfirst)

theorem variableDeclaration_adds (kind : VariableKind) :
    Adds text (fun d => [d.range]) (VariableDeclaration.Reads text) (variableDeclaration kind) := by
  refine .node (fun d => d.declarators.map Declarator.range) ?_
    (fun _ _ _ h => (variableDeclaration_run h).1) (variableDeclaration_progresses kind).advances
  exact .after fun _ => .after fun _ => .after fun _ => .bind (declarators_add _ []) fun all hall =>
    .after fun _ => .after fun _ => .pure rfl hall

theorem declaredName_adds (present required : Bool) :
    Adds text (fun name => (name.map Name.range).toList) (fun name => ∀ n ∈ name, n.Reads text)
      (declaredName present required) := by
  intro front
  refine .ite ?_ (.ite (.failHere _ _) (.pure (by simp) (by simp)))
  exact .bind (name_adds front) fun n hn => .pure rfl (by simpa using hn)

theorem parameters_advances : Advances parameters := by
  intro c r d hrun
  refine ⟨parameters_inText.onward hrun, ?_⟩
  obtain ⟨hstarts, -, ⟨inner, hblock⟩ | ⟨-, found, hskip⟩⟩ := parameters_eq_ok.mp hrun
  · obtain ⟨n, rfl, hlt⟩ := (block_past hblock).reaches
    rw [pos_advance]
    omega
  · have hfits : 0 < c.after.length := (List.isPrefixOf_iff_prefix.mp hstarts).length_le
    have hle := (skipPast_onward (by decide) hskip).pos_le
    rw [pos_advance] at hle
    omega

theorem parameters_adds : Adds text (fun r => [r]) (fun _ => True) parameters := by
  intro front lo c r d hc hfront hrun
  obtain ⟨honward, hlt⟩ := parameters_advances hrun
  obtain ⟨-, rfl, -⟩ := parameters_eq_ok.mp hrun
  exact ⟨honward.isIn hc, hfront.append ⟨Nat.le_refl _, hlt, Nat.le_refl _⟩, trivial⟩

theorem functionDeclaration_adds (nameRequired : Bool) :
    Adds text (fun d => [d.range]) (FunctionDeclaration.Reads text)
      (functionDeclaration nameRequired) := by
  refine .node FunctionDeclaration.parts ?_ (fun _ _ _ h => (functionDeclaration_run h).1)
    (functionDeclaration_progresses nameRequired).advances
  rw [functionDeclaration_eq]
  exact .after fun _ => .after fun _ => .after fun _ => .after fun _ => .after fun _ =>
    .after fun _ => .bind (declaredName_adds _ _ []) fun name hname => .after fun _ =>
    .bind (parameters_adds _) fun params _ => .after fun _ => .after fun _ => .after fun _ =>
    .pure rfl hname

theorem heritageClause_adds :
    Adds text (fun base => (base.map Expression.range).toList) (fun base => ∀ e ∈ base, e.Reads text)
      heritageClause := by
  intro front
  refine .after fun _ => .ite ?_ (.pure (by simp) (by simp))
  exact .after fun _ => .bind
    (classified_adds heritage_onward heritage_staysWithin _) fun e he => .pure rfl (by simpa using he)

theorem classDeclaration_adds (nameRequired : Bool) :
    Adds text (fun d => [d.range]) (ClassDeclaration.Reads text)
      (classDeclaration nameRequired) := by
  refine .node ClassDeclaration.parts ?_ (fun _ _ _ h => (classDeclaration_run h).1)
    (classDeclaration_progresses nameRequired).advances
  rw [classDeclaration_eq]
  exact .after fun _ => .after fun _ => .after fun _ => .after fun _ => .after fun _ =>
    .bind (declaredName_adds _ _ []) fun name hname => .after fun _ =>
    .bind (heritageClause_adds _) fun base hbase => .after fun _ => .after fun _ => .after fun _ =>
    .pure rfl ⟨hname, hbase⟩

/-! ## Imports and exports -/

def pairsParts (pairs : List (Name × Name)) : List Range :=
  pairs.flatMap fun pair => pairParts pair.1 pair.2

def PairsRead (text : String) (pairs : List (Name × Name)) : Prop :=
  ∀ pair ∈ pairs, pair.1.Reads text ∧ pair.2.Reads text

theorem secondName_lays {first : Name} (hfirst : first.Reads text) (front : List Range) :
    Lays text (front ++ [first.range]) (fun second => front ++ pairParts first second)
      (Name.Reads text) (secondName first) := by
  refine .after fun _ => .ite (.after fun _ => ?_)
    (.pure (by simp [pairParts]) hfirst)
  intro lo c second d hc horder hrun
  obtain ⟨hd, hparts, hsecond⟩ := name_adds _ hc horder hrun
  simp only [append_assoc] at hparts
  -- A second name of its own comes after the first one, so it is another name.
  have hne : second ≠ first := by
    rintro rfl
    exact hparts.ne rfl
  refine ⟨hd, ?_, hsecond⟩
  dsimp only
  rw [pairParts, if_neg hne]
  exact hparts

theorem namePairs_add (fuel : Nat) : Adds text pairsParts (PairsRead text) (namePairs fuel) := by
  induction fuel with
  | zero => exact fun _ => .failHere _ _
  | succ fuel ih =>
    intro front
    rw [namePairs_succ]
    refine .after fun _ => .after fun _ =>
      .ite (.pure (by simp [pairsParts]) (by simp [PairsRead])) ?_
    refine .bind (name_adds front) fun first hfirst => .after fun _ =>
      .bind (secondName_lays hfirst front) fun second hsecond => .after fun _ => .after fun _ =>
      .ite ?_ ?_
    · exact .bind (ih _) fun rest hrest => .pure (by simp [pairsParts])
        (forall_mem_cons.mpr ⟨⟨hfirst, hsecond⟩, hrest⟩)
    · exact .after fun _ => .pure (by simp [pairsParts])
        (forall_mem_singleton.mpr ⟨hfirst, hsecond⟩)

theorem bracedPairs_adds : Adds text pairsParts (PairsRead text) bracedPairs :=
  fun front => .after fun _ => .after fun _ => namePairs_add _ front

theorem fromClause_adds : Adds text (fun q => [q.range]) (Quoted.Reads text) fromClause :=
  fun front => .after fun _ => .after fun _ => quoted_adds front

theorem listSource_adds :
    Adds text (fun source => (source.map Quoted.range).toList)
      (fun source => ∀ q ∈ source, q.Reads text)
      (afterSpace listSource) := by
  intro front
  refine .afterSpace ?_ (by simp)
  refine .after fun _ => .ite ?_ (.pure (by simp) (by simp))
  exact .bind (fromClause_adds front) fun q hq => .pure rfl (by simpa using hq)

theorem importBindings_adds :
    Adds text (flatMap parts) (fun all => ∀ b ∈ all, b.Reads text)
      importBindings := by
  intro front
  rw [importBindings_eq]
  refine .after fun _ => .ite ?_ <| .after fun _ =>
    .ite (.bind (bracedPairs_adds front) fun pairs hpairs => .pure ?_ ?_) (.failHere _ _)
  · exact .after fun _ => .after fun _ => .after fun _ => .bind (name_adds front) fun n hn =>
        .pure (by simp [parts]) (by simpa [Reads] using hn)
  · simp [pairsParts, flatMap_map, parts]
  · intro b hb
    obtain ⟨pair, hpair, rfl⟩ := mem_map.mp hb
    exact hpairs pair hpair

theorem importClause_adds :
    Adds text (flatMap parts) (fun all => ∀ b ∈ all, b.Reads text)
      importClause := by
  have hmore : Adds text (flatMap parts) (fun all => ∀ b ∈ all, b.Reads text)
      moreBindings := fun front =>
    .after fun _ => .ite (.after fun _ => importBindings_adds front)
      (.pure (by simp) (by simp))
  intro front
  refine .after fun _ => .ite ?_ (importBindings_adds front)
  exact .bind (name_adds front) fun n hn => .after fun _ => .bind (hmore _) fun more hmore =>
    .pure (by simp [parts])
      (forall_mem_cons.mpr ⟨hn, hmore⟩)

theorem importStatement_lays :
    Lays text [] Statement.parts (Statement.PartsRead text) importStatement := by
  rw [importStatement_eq]
  refine .after fun _ => .after fun _ => .after fun _ => .after fun _ => .ite ?_ ?_
  · exact .bind (quoted_adds []) fun source hsource => .after fun _ => .after fun _ =>
      .pure rfl ⟨by simp, hsource⟩
  · exact .bind (importClause_adds []) fun bindings hbindings => .after fun _ =>
      .bind (fromClause_adds _) fun source hsource => .after fun _ => .after fun _ =>
        .pure rfl ⟨hbindings, hsource⟩

theorem defaultExport_adds :
    Adds text (fun v => [v.range]) (DefaultExport.Reads text) defaultExport := by
  intro front
  refine .after fun c => .after fun atAsync => .ite ?_ (.ite ?_ ?_)
  · exact .bind (functionDeclaration_adds _ front) fun d hd => .pure rfl hd
  · exact .bind (classDeclaration_adds _ front) fun d hd => .pure rfl hd
  · exact .bind (value_adds front) fun e he => .after fun _ => .pure rfl he

theorem starName_adds :
    Adds text (fun exported => (exported.map Name.range).toList)
      (fun exported => ∀ n ∈ exported, n.Reads text) starName := fun front =>
  .after fun _ => .ite (.after fun _ => .bind (name_adds front)
    fun n hn => .after fun _ => .pure rfl (by simpa using hn)) (.pure (by simp) (by simp))

theorem DeclarationRun.adds {front : List Range} {lo : Nat} (h : DeclarationRun c a d)
    (hc : c.IsIn text) (hfront : InOrder lo front c.pos) :
    d.IsIn text ∧ InOrder lo (front ++ [a.range]) d.pos ∧ a.Reads text := by
  cases h with
  | «variable» hread => exact variableDeclaration_adds _ front hc hfront hread
  | function hread => exact functionDeclaration_adds _ front hc hfront hread
  | classOf hread => exact classDeclaration_adds _ front hc hfront hread

theorem exportStatement_lays :
    Lays text [] Statement.parts (Statement.PartsRead text) exportStatement := by
  rw [exportStatement_eq]
  refine .after fun _ => .after fun _ => .after fun _ => .after fun _ => .ite ?_ <| .after fun _ =>
    .ite ?_ <| .after fun _ => .ite ?_ <| .after fun form => ?_
  · exact .after fun _ => .bind (defaultExport_adds []) fun v hv => .after fun _ => .pure rfl hv
  · refine .after fun _ => .bind (starName_adds []) fun exported hexported =>
      .bind (fromClause_adds _) fun source hsource => .after fun _ => .after fun _ => ?_
    cases exported with
    | some n => exact .pure rfl ⟨hexported n rfl, hsource⟩
    | none => exact .pure rfl hsource
  · refine .bind (bracedPairs_adds []) fun pairs hpairs => ?_
    refine .bind (listSource_adds _) fun source hsource => .after fun _ => .after fun _ =>
        .pure ?_ ⟨?_, hsource⟩
    · simp [Statement.parts, pairsParts, flatMap_map, ExportEntry.parts]
    · intro e he
      obtain ⟨pair, hpair, rfl⟩ := mem_map.mp he
      exact hpairs pair hpair
  · refine .bind (r := fun d => [d.range]) (Q := Declaration.Reads text) ?_ fun d hd =>
      .after fun _ => .pure rfl hd
    exact fun lo c a d hc hfront hrun => (declarationOf_run form hrun).adds hc hfront

/-- The declaration starts with its word and ends at `d`. -/
def StandsBefore (text : String) (d : Cursor) (declaration : Declaration) : Prop :=
  declaration.range.stop = d.pos ∧
    ((ofText text).moveTo declaration.range.pos).startsWithWord declaration.word = true

theorem StandsBefore.of_range {declaration : Declaration} (hbytes : c.bytes = bytesOf text)
    (hrange : declaration.range = c.rangeTo d) (hword : c.startsWithWord declaration.word = true) :
    StandsBefore text d declaration := by
  unfold StandsBefore
  rw [hrange]
  refine ⟨rfl, ?_⟩
  rw [pos_rangeTo, moveTo_pos hbytes]
  exact hword

theorem DeclarationRun.standsBefore (h : DeclarationRun c a d) (hbytes : c.bytes = bytesOf text) :
    StandsBefore text d a := by
  cases h with
  | «variable» hread =>
    obtain ⟨hrange, hword⟩ := variableDeclaration_run hread
    exact .of_range hbytes hrange hword
  | function hread =>
    obtain ⟨hrange, hword, -⟩ := functionDeclaration_run hread
    exact .of_range hbytes hrange hword
  | classOf hread =>
    obtain ⟨hrange, hword, -⟩ := classDeclaration_run hread
    exact .of_range hbytes hrange hword

theorem DefaultRun.standsBefore {v : DefaultExport} (h : DefaultRun c v d)
    (hbytes : c.bytes = bytesOf text) :
    ∀ declaration ∈ v.declaration?, StandsBefore text d declaration := by
  rintro declaration hsome
  cases h with
  | function hread =>
    cases hsome
    obtain ⟨hrange, hword, -⟩ := functionDeclaration_run hread
    exact .of_range hbytes hrange hword
  | classOf hread =>
    cases hsome
    obtain ⟨hrange, hword, -⟩ := classDeclaration_run hread
    exact .of_range hbytes hrange hword
  | expression => cases hsome

theorem ExportRun.standsBefore (h : ExportRun c s d) (hbytes : c.bytes = bytesOf text) :
    ∀ declaration ∈ s.exported?, StandsBefore text d declaration := by
  rintro declaration hsome
  cases h with
  | default hx hspace hread =>
    exact hread.standsBefore ((hx.trans (space_onward hspace)).bytes_eq.trans hbytes) _ hsome
  | declaration hq hread =>
    cases hsome
    exact hread.standsBefore (hq.bytes_eq.trans hbytes)
  | all => cases hsome
  | «namespace» => cases hsome
  | list => cases hsome

/-! ## Modules -/

theorem topLevelStatement_reads (hc : c.IsIn text) (hmore : c.after ≠ [])
    (hclear : triviaReach c.after = .clear 0 false) (hrun : topLevelStatement c = .ok s d) :
    s.Reads text := by
  obtain ⟨hrange, honward, hlt⟩ := topLevelStatement_spec hmore hclear hrun
  have hinside : InOrder s.range.pos [] s.range.stop := by
    rw [hrange]
    exact Nat.le_of_lt hlt
  have hstart : InOrder c.pos [] c.pos := Nat.le_refl c.pos
  cases topLevelStatement_run hrun with
  | importing hread =>
    obtain ⟨-, hparts, hreads⟩ := importStatement_lays hc hstart hread
    refine ⟨by rw [hrange]; exact hparts, hreads, ?_⟩
    obtain ⟨_, _, rfl⟩ := importStatement_run hread
    rintro _ ⟨⟩
  | exporting hread =>
    obtain ⟨-, hparts, hreads⟩ := exportStatement_lays hc hstart hread
    refine ⟨by rw [hrange]; exact hparts, hreads, ?_⟩
    rw [hrange]
    exact (exportStatement_run hread).standsBefore hc.1
  | declaration hread => exact ⟨hinside, (hread.adds hc hstart).2.2, by rintro _ ⟨⟩⟩
  | @verbatim r _ hread =>
    have hr : r = c.rangeTo d := hrange
    refine ⟨hinside, ?_, by rintro _ ⟨⟩⟩
    change r.slice text = c.textUpTo d
    rw [hr]
    exact honward.slice_eq hc.1

theorem ModuleRun.reads {e : Cursor} {body : List Statement} (hc : c.IsIn text)
    (h : ModuleRun c body e) :
    InOrder c.pos (body.map Statement.range) e.pos ∧ e.IsIn text ∧ ∀ s ∈ body, s.Reads text := by
  induction h with
  | nil hspace hend =>
    have hmove := space_onward hspace
    exact ⟨hmove.pos_le, hmove.isIn hc, nofun⟩
  | @cons c q d e s rest hspace hmore hread hrest ih =>
    have hmove := space_onward hspace
    have hclear := clear_of_space hspace
    obtain ⟨hrange, honward, hlt⟩ := topLevelStatement_spec hmore hclear hread
    obtain ⟨horder, he, hreads⟩ := ih (honward.isIn (hmove.isIn hc))
    refine ⟨?_, he, ?_⟩
    · rw [map_cons, hrange]
      exact ⟨hmove.pos_le, hlt, horder⟩
    · intro t ht
      rcases mem_cons.mp ht with rfl | ht
      · exact topLevelStatement_reads (hmove.isIn hc) hmore hclear hread
      · exact hreads t ht

end Scan

/-- The syntax tree of a module is faithful to its text: the statements follow each other in the
text, and each of them tells where its parts stand. -/
theorem parseModule_faithful {text : String} {m : Module} (h : parseModule text = .ok m) :
    InOrder 0 (m.body.map Statement.range) text.utf8ByteSize ∧ ∀ s ∈ m.body, s.Reads text := by
  obtain ⟨e, hrun⟩ := parseModule_eq_ok.mp h
  obtain ⟨horder, he, hreads⟩ := hrun.reads (Cursor.isIn_pastShebang text)
  have hend : e.pos ≤ text.utf8ByteSize := by
    rw [← length_bytesOf, ← he.1, Cursor.length_bytes]
    exact Nat.le_add_right _ _
  exact ⟨(horder.mono_left (Nat.zero_le _)).mono_right hend, hreads⟩

def mixedModule : String :=
  "let \x7b a: [b = 1] \x7d = 'é';\nimport \x7b c as d, e \x7d from \"f\";\n" ++
    "class G extends H \x7b\x7d\nexport async function i(j) \x7b\x7d"

theorem mixedModule_faithful :
    ∃ m, parseModule mixedModule = .ok m ∧
      m.body.map Statement.range = [⟨0, 26⟩, ⟨27, 57⟩, ⟨58, 78⟩, ⟨79, 108⟩] ∧
      InOrder 0 [⟨0, 26⟩, ⟨27, 57⟩, ⟨58, 78⟩, ⟨79, 108⟩] mixedModule.utf8ByteSize ∧
      ∀ s ∈ m.body, s.Reads mixedModule := by
  obtain ⟨m, hread, hranges⟩ : ∃ m, parseModule mixedModule = .ok m ∧
      m.body.map Statement.range = [⟨0, 26⟩, ⟨27, 57⟩, ⟨58, 78⟩, ⟨79, 108⟩] := by
    refine ⟨_, by cbv, ?_⟩
    rfl
  obtain ⟨horder, hreads⟩ := parseModule_faithful hread
  exact ⟨m, hread, hranges, hranges ▸ horder, hreads⟩

end ModuleBridge
