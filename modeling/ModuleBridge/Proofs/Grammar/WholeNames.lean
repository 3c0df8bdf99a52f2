import ModuleBridge.Proofs.Grammar.Faithful
import ModuleBridge.Proofs.Source.NameEnd

/-!
# Names are not cut

Whether the character after a name goes on with it differs from one place of the grammar to the
next. A name that has just been read is owed an end: what is read after it needs trivia or
punctuation there, and settles the debt. Only the bare name that ends a variable declaration is
followed by nothing that would. Main statement: `parseModule_names_end`.
-/

namespace ModuleBridge

open List

variable {text closer : String} {n : Name} {c d : Cursor} {names more : List Name}

def Expression.allNames : Expression → List Name
  | .name n => [n]
  | _ => []

def Declarator.allNames (d : Declarator) : List Name :=
  d.target.names ++ d.value.toList.flatMap Expression.allNames

def ClassDeclaration.allNames (d : ClassDeclaration) : List Name :=
  d.name.toList ++ d.superclass.toList.flatMap Expression.allNames

def Declaration.allNames : Declaration → List Name
  | .variable d => d.declarators.flatMap Declarator.allNames
  | .function d => d.name.toList
  | .classOf d => d.allNames

def ImportBinding.allNames : ImportBinding → List Name
  | .default n => [n]
  | .namespace n => [n]
  | .named imported localName => [imported, localName]

def ExportEntry.allNames (e : ExportEntry) : List Name :=
  [e.localName, e.exported]

def DefaultExport.allNames : DefaultExport → List Name
  | .expression value => value.allNames
  | .function d => d.name.toList
  | .classOf d => d.allNames

def Statement.allNames : Statement → List Name
  | .importFrom bindings _ _ => bindings.flatMap ImportBinding.allNames
  | .exportDefault value _ => value.allNames
  | .exportDeclaration d _ => d.allNames
  | .exportList entries _ _ => entries.flatMap ExportEntry.allNames
  | .exportNamespace exported _ _ => [exported]
  | .exportAll _ _ => []
  | .declaration d => d.allNames
  | .verbatim _ _ => []

def VariableDeclaration.openName? (d : VariableDeclaration) : Option Name :=
  match d.declarators.getLast? with
  | some ⟨.name n, none, _⟩ => if n.range.stop = d.range.stop then some n else none
  | _ => none

def Declaration.openName? : Declaration → Option Name
  | .variable d => d.openName?
  | _ => none

def Statement.openName? : Statement → Option Name
  | .declaration d => d.openName?
  | .exportDeclaration d _ => d.openName?
  | _ => none

/-! ## What follows a name -/

/-- A name ends between two characters of the text, the second of which, if there is one, is not of
the class `p`. -/
def Name.EndsBefore (text : String) (p : Char → Bool) (n : Name) : Prop :=
  ∃ front back, text = front ++ back ∧ front.utf8ByteSize = n.range.stop ∧
    back.toList.head?.any p = false

/-- No ASCII character of names follows. -/
def Name.IsLongest (text : String) (n : Name) : Prop :=
  n.EndsBefore text fun ch => ch.val < 128 && isNamePart (byte ch)

/-- No character follows that goes on with the name. -/
def Name.IsWhole (text : String) (n : Name) : Prop :=
  n.EndsBefore text continuesName

theorem Name.IsWhole.isLongest (h : n.IsWhole text) : n.IsLongest text := by
  obtain ⟨front, back, htext, hsize, hnext⟩ := h
  refine ⟨front, back, htext, hsize, ?_⟩
  cases hhead : back.toList.head? with
  | none => rfl
  | some ch =>
    rw [hhead, Option.any_some, continuesName] at hnext
    rw [Option.any_some]
    split at hnext
    · simp_all
    · simp_all

theorem decodeFirst?_bytesOf (s : String) : decodeFirst? (bytesOf s) = s.toList.head? := by
  rw [bytesOf_eq_flatMap]
  cases s.toList with
  | nil => rfl
  | cons ch rest =>
    rw [flatMap_cons, head?_cons]
    exact decodeFirst?_utf8EncodeChar ch _

namespace Cursor

theorem IsIn.endsBefore {p : Char → Bool} (hc : c.IsIn text) (hn : n.range.stop = c.pos)
    (hp : c.char?.any p = false) : n.EndsBefore text p := by
  obtain ⟨hbytes, ⟨front, hfront⟩, back, hback⟩ := hc
  refine ⟨front, back, ?_, ?_, ?_⟩
  · rw [← bytesOf_inj, bytesOf_append, ← hfront, ← hback]
    exact hbytes.symm
  · rw [hn, c.pos_eq, ← length_reverse, hfront, length_bytesOf]
  · rw [← decodeFirst?_bytesOf, ← hback]
    exact hp

theorem IsIn.isWhole (hc : c.IsIn text) (hn : n.range.stop = c.pos) (hends : c.endsName = true) :
    n.IsWhole text :=
  hc.endsBefore hn (by simpa [endsName] using hends)

theorem IsIn.isLongest (hc : c.IsIn text) (hn : n.range.stop = c.pos) (hpast : c.pastName = true) :
    n.IsLongest text := by
  refine hc.endsBefore hn ?_
  cases hch : c.char? with
  | none => rfl
  | some ch =>
    obtain ⟨rest, hrest⟩ := exists_of_decodeFirst? hch
    rw [Option.any_some, Bool.and_eq_false_imp]
    intro hval
    have hsize : ch.utf8Size = 1 := Char.utf8Size_eq_one_iff.mpr (by
      have := of_decide_eq_true hval
      rw [UInt32.le_iff_toNat_le]
      rw [UInt32.lt_iff_toNat_lt] at this
      exact Nat.le_of_lt_succ this)
    rw [String.utf8EncodeChar_eq_singleton hsize] at hrest
    simpa [pastName, byte?, hrest] using hpast

end Cursor

namespace Scan

open Cursor

variable {α β : Type} {text : String}

/-! ## The judgement -/

def AllWhole (text : String) (names : List Name) : Prop :=
  ∀ n ∈ names, n.IsWhole text

theorem AllWhole.append {names : List Name} (hnames : AllWhole text names)
    (hmore : AllWhole text more) : AllWhole text (names ++ more) := by
  intro n hn
  exact (mem_append.mp hn).elim (hnames n) (hmore n)

/-- The names are whole but for those that end at `d`, past their last ASCII character. -/
def Owing (text : String) (names : List Name) (d : Cursor) : Prop :=
  ∀ n ∈ names, n.IsWhole text ∨ n.range.stop = d.pos ∧ d.pastName = true

theorem Owing.of_allWhole (h : AllWhole text names) : Owing text names d :=
  fun n hn => .inl (h n hn)

theorem Owing.append (hnames : Owing text names d) (hmore : Owing text more d) :
    Owing text (names ++ more) d := by
  intro n hn
  exact (mem_append.mp hn).elim (hnames n) (hmore n)

theorem Owing.stays {op : Scan α} {a : α} (h : Owing text names c) (hc : c.IsIn text)
    (hop : StaysOrEnds op) (hrun : op c = .ok a d) : Owing text names d := by
  intro n hn
  rcases h n hn with hwhole | ⟨hstop, hpast⟩
  · exact .inl hwhole
  · rcases hop hc.2 hpast hrun with hends | rfl
    · exact .inl (hc.isWhole hstop hends)
    · exact .inr ⟨hstop, hpast⟩

/-- A run of `op` inside `text` ends inside it, with the property `P`. -/
def Ensures (text : String) (P : α → Cursor → Prop) (op : Scan α) : Prop :=
  ∀ ⦃c a d⦄, c.IsIn text → op c = .ok a d → d.IsIn text ∧ P a d

namespace Ensures

variable {P : α → Cursor → Prop}

theorem pure {a : α} (ha : ∀ d, P a d) : Ensures text P (pure a) := by
  intro c b d hc hrun
  obtain ⟨rfl, rfl⟩ := pure_eq_ok.mp hrun
  exact ⟨hc, ha _⟩

theorem failHere (message : Message) (args : List String) :
    Ensures text P (failHere message args) := by
  intro c a d _ hrun
  exact absurd hrun failHere_ne_ok

theorem bind {op : Scan β} {next : β → Scan α} {Q : β → Prop}
    (hop : Ensures text (fun b _ => Q b) op) (hnext : ∀ b, Q b → Ensures text P (next b)) :
    Ensures text P (op >>= next) := by
  intro c a e hc hrun
  obtain ⟨b, d, hfirst, hrest⟩ := bind_eq_ok.mp hrun
  obtain ⟨hd, hb⟩ := hop hc hfirst
  exact hnext b hb hd hrest

theorem after {op : Scan β} {next : β → Scan α} [hop : StaysInText op]
    (hnext : ∀ b, Ensures text P (next b)) : Ensures text P (op >>= next) := by
  intro c a e hc hrun
  obtain ⟨b, d, hfirst, hrest⟩ := bind_eq_ok.mp hrun
  exact hnext b ((hop.onward hfirst).isIn hc) hrest

theorem ite {p : Prop} [Decidable p] {op other : Scan α} (hop : Ensures text P op)
    (hother : Ensures text P other) : Ensures text P (if p then op else other) := by
  split
  · exact hop
  · exact hother

theorem mono {P' : α → Cursor → Prop} {op : Scan α} (hop : Ensures text P op)
    (himp : ∀ a d, P a d → P' a d) : Ensures text P' op := by
  intro c a d hc hrun
  exact ⟨(hop hc hrun).1, himp a d (hop hc hrun).2⟩

theorem afterSpace {op : Scan (Option α)} {P : Option α → Prop}
    (hop : Ensures text (fun a _ => P a) op) : Ensures text (fun a _ => P a) (afterSpace op) := by
  intro c answer d hc hrun
  obtain ⟨q, e, hspace, hread, rfl⟩ := afterSpace_eq_ok.mp hrun
  obtain ⟨he, hanswer⟩ := hop ((space_onward hspace).isIn hc) hread
  cases answer with
  | some value => exact ⟨he, hanswer⟩
  | none => exact ⟨hc, hanswer⟩

theorem settle {op : Scan β} {next : β → Scan α} {names : β → List Name}
    (hop : Ensures text (fun b d => Owing text (names b) d) op) (hends : ∀ b, EndsNames (next b))
    (hnext : ∀ b, AllWhole text (names b) → Ensures text P (next b)) :
    Ensures text P (op >>= next) := by
  intro c a e hc hrun
  obtain ⟨b, d, hfirst, hrest⟩ := bind_eq_ok.mp hrun
  obtain ⟨hd, howing⟩ := hop hc hfirst
  refine hnext b ?_ hd hrest
  intro n hn
  rcases howing n hn with hwhole | ⟨hstop, hpast⟩
  · exact hwhole
  · exact hd.isWhole hstop (hends b hd.2 hpast hrest)

end Ensures

theorem name_pastName (hrun : name c = .ok n d) : d.pastName = true := by
  obtain ⟨-, rfl, -⟩ := name_eq_ok.mp hrun
  have hstop := head?_dropWhile_not isNamePart c.after
  rw [pastName, byte?, after_advance, ← dropWhile_eq_drop]
  cases hhead : (c.after.dropWhile isNamePart).head? with
  | none => rfl
  | some b =>
    rw [hhead] at hstop
    simpa using hstop

theorem name_owes : Ensures text (fun n d => Owing text [n] d) name := by
  intro c n d hc hrun
  refine ⟨(name_onward hrun).isIn hc, ?_⟩
  intro m hm
  rw [mem_singleton.mp hm]
  have hpast := name_pastName hrun
  obtain ⟨-, -, rfl⟩ := name_eq_ok.mp hrun
  exact .inr ⟨rfl, hpast⟩

theorem classified_whole {stretch : Scan Range} (honward : MovesOnward stretch)
    (hends : ∀ ⦃c r d⦄, c.IsBoundary → stretch c = .ok r d →
      ∃ stop, r = c.rangeTo stop ∧ c.Onward stop ∧ stop.endsName = true) :
    Ensures text (fun e _ => AllWhole text e.allNames) (classified stretch) := by
  intro c e d hc hrun
  obtain ⟨r, hstretch, -, rfl⟩ := classified_eq_ok.mp hrun
  obtain ⟨stop, rfl, hstop, hname⟩ := hends hc.2 hstretch
  refine ⟨(honward hstretch).isIn hc, ?_⟩
  have hrange := classifyExpression_range c (c.rangeTo stop).stop
  intro n hn
  cases hform : classifyExpression c (c.rangeTo stop).stop with
  | name m =>
    rw [hform] at hn hrange
    rw [mem_singleton.mp hn]
    refine (hstop.isIn hc).isWhole ?_ hname
    exact congrArg Range.stop hrange
  | string | number | verbatim =>
    rw [hform] at hn
    cases hn

theorem value_whole : Ensures text (fun e _ => AllWhole text e.allNames) value := by
  refine classified_whole expression_onward ?_
  intro c r d hc hrun
  obtain ⟨hstretch, rfl⟩ := run_of_stretchFrom hrun
  exact ⟨d, rfl, hstretch.onward, hstretch.endsName hc⟩

theorem superclass_whole :
    Ensures text (fun e _ => AllWhole text e.allNames) (classified heritage) :=
  classified_whole heritage_onward fun _ _ _ hc hrun => heritageFrom_endsName hc rfl hrun

/-! ## Patterns -/

theorem defaultValue_staysOrEnds : StaysOrEnds defaultValue := by
  intro c u d hc hpast hrun
  rw [defaultValue] at hrun
  obtain ⟨_, q, hspace, hrest⟩ := bind_eq_ok.mp hrun
  rcases space_staysOrEnds hc hpast hspace with hends | rfl
  · exact .inl hends
  obtain ⟨found, e, hpeek, hrest⟩ := bind_eq_ok.mp hrest
  obtain ⟨rfl, rfl⟩ := peek_eq_ok.mp hpeek
  split at hrest
  · rename_i hfound
    have hmark : StartsApart "=" := ⟨_, _, rfl, by decide⟩
    exact .inl (hmark.endsName hc (Bool.and_eq_true_iff.mp hfound).1)
  · obtain ⟨-, rfl⟩ := pure_eq_ok.mp hrest
    exact .inr rfl

theorem propertyKey_owes :
    Ensures text (fun key d => Owing text key.toList d) propertyKey := by
  have hname : Ensures text (fun key d => Owing text key.toList d) (do return some (← name)) := by
    intro c key d hc hrun
    obtain ⟨n, hread, rfl⟩ := map_eq_ok.mp hrun
    exact name_owes hc hread
  have hother : Ensures text (fun key d => Owing text key.toList d) (pure none) :=
    .pure fun _ => by simp [Owing]
  refine .after fun c => ?_
  split
  · exact .ite (.after fun _ => hother) <| .ite (.after fun _ => hother) <|
      .ite (.after fun _ => hother) hname
  · exact hname

theorem patternRest_whole {more : Scan (List Name)}
    (hmore : Ensures text (fun names _ => AllWhole text names) more) (names : List Name)
    (hnames : AllWhole text names) :
    Ensures text (fun names _ => AllWhole text names) (patternRest more closer names) := by
  refine .after fun _ => .after fun _ => .ite ?_ ?_
  · exact .bind hmore fun more hmore => .pure fun _ => hnames.append hmore
  · exact .after fun _ => .pure fun _ => hnames

theorem patternRest_endsNames {more : Scan (List Name)} (hcloser : StartsApart closer)
    (names : List Name) : EndsNames (patternRest more closer names) :=
  .after space_staysOrEnds fun _ => .accept ⟨_, _, rfl, by decide⟩ (.first (.expect hcloser))

theorem entry_whole {binding : Scan (List Name)} {next : List Name → Scan (List Name)}
    (hbinding : Ensures text (fun names d => Owing text names d) binding)
    (hends : ∀ names, EndsNames (next names)) (hnext : ∀ names, AllWhole text names →
      Ensures text (fun names _ => AllWhole text names) (next names)) :
    Ensures text (fun names _ => AllWhole text names) (entry binding next) :=
  .settle hbinding (fun _ => .after defaultValue_staysOrEnds fun _ => hends _)
    fun _ hnames => .after fun _ => hnext _ hnames

theorem patterns_whole (fuel : Nat) :
    Ensures text (fun names d => Owing text names d) (bindingNames fuel) ∧
    Ensures text (fun names _ => AllWhole text names) (objectNames fuel) ∧
    Ensures text (fun names _ => AllWhole text names) (arrayNames fuel) := by
  refine patterns_induction ⟨.failHere _ _, .failHere _ _, .failHere _ _⟩
    (fun object array hobject harray => ?_) (fun binding object hbinding hobject => ?_)
    (fun binding array hbinding harray => ?_) fuel
  · refine .after fun _ => .ite (hobject.mono fun _ _ => .of_allWhole) ?_
    refine .after fun _ => .ite (harray.mono fun _ _ => .of_allWhole) ?_
    intro c names d hc hrun
    obtain ⟨n, hread, rfl⟩ := map_eq_ok.mp hrun
    exact name_owes hc hread
  · have hends : ∀ names, EndsNames (patternRest object "\x7d" names) :=
      patternRest_endsNames ⟨_, _, rfl, by decide⟩
    refine .after fun _ => .after fun _ => .ite (.pure fun _ => by simp [AllWhole]) <|
      .after fun _ => .ite (.after fun _ => .settle hbinding hends (patternRest_whole hobject)) ?_
    refine .settle propertyKey_owes (fun key => ?_) fun key hkey => ?_
    · refine .after space_staysOrEnds fun _ => .accept ⟨_, _, rfl, by decide⟩ ?_
      cases key with
      | some n => exact .after defaultValue_staysOrEnds fun _ => hends _
      | none => exact .failHere _ _
    · refine .after fun _ => .after fun _ => .ite (.after fun _ =>
        entry_whole hbinding hends (patternRest_whole hobject)) ?_
      cases key with
      | some n => exact .after fun _ => patternRest_whole hobject _ hkey
      | none => exact .failHere _ _
  · have hends : ∀ names, EndsNames (patternRest array "]" names) :=
      patternRest_endsNames ⟨_, _, rfl, by decide⟩
    have hentry := entry_whole hbinding hends (patternRest_whole harray)
    exact .after fun _ => .after fun _ => .ite (.pure fun _ => by simp [AllWhole]) <|
      .after fun _ => .ite harray <| .after fun _ => .ite (.after fun _ => hentry) hentry

theorem boundNames_whole (hc : c.IsIn text)
    (hpattern : (c.startsWith "\x7b" || c.startsWith "[") = true)
    (hrun : boundNames c = .ok names d) : d.IsIn text ∧ AllWhole text names := by
  rw [boundNames, get_bind, bindingNames] at hrun
  obtain ⟨brace, e, hbrace, hrest⟩ := bind_eq_ok.mp hrun
  have he := (accept_onward _ hbrace).isIn hc
  cases brace with
  | true => exact (patterns_whole _).2.1 he hrest
  | false =>
    rcases accept_cases hbrace with ⟨hfalse, -⟩ | ⟨-, hno, rfl⟩
    · cases hfalse
    obtain ⟨bracket, f, hbracket, hrest⟩ := bind_eq_ok.mp hrest
    have hf := (accept_onward _ hbracket).isIn hc
    cases bracket with
    | true => exact (patterns_whole _).2.2 hf hrest
    | false =>
      rcases accept_cases hbracket with ⟨hfalse, -⟩ | ⟨-, hno', -⟩
      · cases hfalse
      · simp [hno, hno'] at hpattern

/-! ## Declarations -/

/-- `op` answers something only where no name goes on. -/
def AnswersApart (op : Scan (Option α)) : Prop :=
  ∀ ⦃c a d⦄, c.IsBoundary → op c = .ok (some a) d → c.endsName = true

theorem AnswersApart.afterSpace {op : Scan (Option α)} (hop : AnswersApart op) {a : α}
    (hc : c.IsBoundary) (hpast : c.pastName = true) (hrun : afterSpace op c = .ok (some a) d) :
    c.endsName = true := by
  obtain ⟨q, e, hspace, hread, -⟩ := afterSpace_eq_ok.mp hrun
  rcases space_staysOrEnds hc hpast hspace with hends | rfl
  · exact hends
  · exact hop hc hread

theorem initialValue_answersApart : AnswersApart initialValue := by
  intro c e d hc hrun
  obtain ⟨found, q, hpeek, hrest⟩ := bind_eq_ok.mp hrun
  obtain ⟨rfl, rfl⟩ := peek_eq_ok.mp hpeek
  split at hrest
  · rename_i hfound
    have hmark : StartsApart "=" := ⟨_, _, rfl, by decide⟩
    exact hmark.endsName hc (Bool.and_eq_true_iff.mp hfound).1
  · cases (pure_eq_ok.mp hrest).1

theorem mark_answersApart (htext : StartsApart text) : AnswersApart (mark text) := by
  intro c u d hc hrun
  rcases mark_cases hrun with ⟨-, hstarts, -⟩ | ⟨hanswer, -⟩
  · exact htext.endsName hc hstarts
  · cases hanswer

/-- The declarators are whole, but the last of them may be a bare name that ends at `d`. -/
def OpenAt (text : String) (all : List Declarator) (d : Cursor) : Prop :=
  AllWhole text (all.flatMap Declarator.allNames) ∨
    ∃ front n range, all = front ++ [⟨.name n, none, range⟩] ∧
      AllWhole text (front.flatMap Declarator.allNames) ∧ n.range.stop = d.pos ∧ d.pastName = true

theorem OpenAt.close {all : List Declarator} (h : OpenAt text all d) (hd : d.IsIn text)
    (hends : d.pastName = true → d.endsName = true) :
    AllWhole text (all.flatMap Declarator.allNames) := by
  rcases h with hwhole | ⟨front, n, range, rfl, hfront, hstop, hpast⟩
  · exact hwhole
  · rw [flatMap_append]
    refine hfront.append ?_
    intro m hm
    have hm : m = n := by simpa [Declarator.allNames, Target.names] using hm
    rw [hm]
    exact hd.isWhole hstop (hends hpast)

theorem OpenAt.cons {x : Declarator} {rest : List Declarator} {d : Cursor}
    (hx : AllWhole text x.allNames) (h : OpenAt text rest d) : OpenAt text (x :: rest) d := by
  rcases h with hwhole | ⟨front, n, range, rfl, hfront, hstop⟩
  · exact .inl (hx.append hwhole)
  · exact .inr ⟨x :: front, n, range, rfl, hx.append hfront, hstop⟩

theorem bindingTarget_owes {target : Target} (hc : c.IsIn text)
    (hrun : bindingTarget c c = .ok target d) :
    AllWhole text target.names ∨
      ∃ n, target = .name n ∧ n.range.stop = d.pos ∧ d.pastName = true := by
  unfold bindingTarget at hrun
  split at hrun
  · rename_i hpattern
    obtain ⟨names, e, hnames, hrest⟩ := bind_eq_ok.mp hrun
    obtain ⟨range, f, hrange, hpure⟩ := bind_eq_ok.mp hrest
    obtain ⟨rfl, rfl⟩ := peek_eq_ok.mp hrange
    obtain ⟨rfl, rfl⟩ := pure_eq_ok.mp hpure
    exact .inl (boundNames_whole hc hpattern hnames).2
  · obtain ⟨n, hname, rfl⟩ := map_eq_ok.mp hrun
    have hpast := name_pastName hname
    obtain ⟨-, -, rfl⟩ := name_eq_ok.mp hname
    exact .inr ⟨_, rfl, rfl, hpast⟩

theorem initialValue_whole :
    Ensures text (fun v _ => AllWhole text (v.toList.flatMap Expression.allNames))
      initialValue := by
  refine .after fun _ => .ite ?_ (.pure fun _ => by simp [AllWhole])
  exact .after fun _ => .after fun _ => .bind value_whole fun e he => .pure fun _ =>
    by simpa using he

theorem declarator_open : Ensures text (fun x d => OpenAt text [x] d) declarator := by
  intro c x d hc hrun
  obtain ⟨target, e, value, htarget, hvalue, rfl⟩ := declarator_eq_ok.mp hrun
  have he := (bindingTarget_spec hc htarget).1
  obtain ⟨hd, hvalues⟩ := Ensures.afterSpace initialValue_whole he hvalue
  refine ⟨hd, ?_⟩
  have hwhole : AllWhole text target.names → OpenAt text [⟨target, value, c.rangeTo d⟩] d := by
    intro hnames
    refine .inl ?_
    rw [flatMap_singleton]
    exact hnames.append hvalues
  rcases bindingTarget_owes hc htarget with hnames | ⟨n, rfl, hstop, hpast⟩
  · exact hwhole hnames
  · cases value with
    | some v =>
      refine hwhole ?_
      intro m hm
      rw [mem_singleton.mp hm]
      exact he.isWhole hstop (initialValue_answersApart.afterSpace he.2 hpast hvalue)
    | none =>
      obtain ⟨q, f, -, -, rfl⟩ := afterSpace_eq_ok.mp hvalue
      exact .inr ⟨[], n, _, rfl, by simp [AllWhole], hstop, hpast⟩

theorem declarators_open (fuel : Nat) :
    Ensures text (fun all d => OpenAt text all d) (declarators fuel) := by
  have happart : StartsApart "," := ⟨_, _, rfl, by decide⟩
  induction fuel with
  | zero => exact .failHere _ _
  | succ fuel ih =>
    intro c all e hc hrun
    obtain ⟨y, first, d, hspace, hfirst, hrest⟩ := declarators_cases hrun
    obtain ⟨hd, hopen⟩ := declarator_open ((space_onward hspace).isIn hc) hfirst
    rcases hrest with ⟨-, rfl, rfl⟩ | ⟨w, rest, hcomma, hmore, rfl⟩
    · exact ⟨hd, hopen⟩
    · have hwhole := hopen.close hd fun hpast =>
        (mark_answersApart happart).afterSpace hd.2 hpast hcomma
      obtain ⟨he, hrest⟩ := ih ((afterSpace_onward (mark_inText _).onward hcomma).isIn hd) hmore
      refine ⟨he, hrest.cons ?_⟩
      rwa [flatMap_singleton] at hwhole

/-- The names of a declaration are whole, but for the bare name that it may end with. -/
def NamesEnd (text : String) (names : List Name) (openName? : Option Name) : Prop :=
  ∀ n ∈ names, n.IsLongest text ∧ (n.IsWhole text ∨ openName? = some n)

theorem AllWhole.namesEnd {openName? : Option Name} (h : AllWhole text names) :
    NamesEnd text names openName? :=
  fun n hn => ⟨(h n hn).isLongest, .inl (h n hn)⟩

theorem variableDeclaration_namesEnd (kind : VariableKind) :
    Ensures text (fun a _ => NamesEnd text (Declaration.variable a).allNames a.openName?)
      (variableDeclaration kind) := by
  have happart : StartsApart ";" := ⟨_, _, rfl, by decide⟩
  refine .after fun start => .after fun _ => .after fun _ => ?_
  intro c a e hc hrun
  obtain ⟨all, d, hall, hrest⟩ := bind_eq_ok.mp hrun
  obtain ⟨hd, hopen⟩ := declarators_open _ hc hall
  obtain ⟨_, f, hsemicolon, hrest⟩ := bind_eq_ok.mp hrest
  obtain ⟨range, g, hrange, hpure⟩ := bind_eq_ok.mp hrest
  obtain ⟨rfl, rfl⟩ := peek_eq_ok.mp hrange
  obtain ⟨rfl, rfl⟩ := pure_eq_ok.mp hpure
  refine ⟨(optionalSemicolon_onward hsemicolon).isIn hd, ?_⟩
  obtain ⟨answer, hanswer⟩ := optionalSemicolon_eq_ok.mp hsemicolon
  cases answer with
  | some u =>
    exact (hopen.close hd fun hpast =>
      (mark_answersApart happart).afterSpace hd.2 hpast hanswer).namesEnd
  | none =>
    obtain ⟨q, g, -, -, rfl⟩ := afterSpace_eq_ok.mp hanswer
    rcases hopen with hwhole | ⟨front, n, range, rfl, hfront, hstop, hpast⟩
    · exact hwhole.namesEnd
    · intro m hm
      rw [Declaration.allNames, flatMap_append, mem_append] at hm
      rcases hm with hm | hm
      · exact hfront.namesEnd m hm
      · have hm : m = n := by simpa [Declarator.allNames, Target.names] using hm
        subst hm
        refine ⟨hd.isLongest hstop hpast, .inr ?_⟩
        simp [VariableDeclaration.openName?, hstop]

theorem declaredName_owes (present required : Bool) :
    Ensures text (fun name d => Owing text name.toList d) (declaredName present required) := by
  refine .ite ?_ (.ite (.failHere _ _) (.pure fun _ => by simp [Owing]))
  intro c answer d hc hrun
  obtain ⟨n, hread, rfl⟩ := map_eq_ok.mp hrun
  exact name_owes hc hread

theorem parameters_endsNames : EndsNames parameters := by
  intro c r d hc _ hrun
  have hmark : StartsApart "(" := ⟨_, _, rfl, by decide⟩
  exact hmark.endsName hc (parameters_eq_ok.mp hrun).1

theorem braces_endsNames : EndsNames braces :=
  .block (by decide)

theorem functionDeclaration_whole (nameRequired : Bool) :
    Ensures text (fun a _ => AllWhole text a.name.toList) (functionDeclaration nameRequired) := by
  rw [functionDeclaration_eq]
  refine .after fun _ => .after fun _ => .after fun _ => .after fun _ => .after fun _ =>
    .after fun _ => .settle (declaredName_owes _ _) (fun _ => ?_) fun name hname => ?_
  · exact .after space_staysOrEnds fun _ => .first parameters_endsNames
  · exact .after fun _ => .after fun _ => .after fun _ => .after fun _ => .after fun _ =>
        .pure fun _ => hname

theorem heritageClause_whole :
    Ensures text (fun base _ => AllWhole text (base.toList.flatMap Expression.allNames))
      heritageClause := by
  refine .after fun _ => .ite (.after fun _ => ?_)
    (.pure fun _ => by simp [AllWhole])
  exact .bind superclass_whole fun e he => .pure fun _ => by simpa using he

theorem classDeclaration_whole (nameRequired : Bool) :
    Ensures text (fun a _ => AllWhole text a.allNames) (classDeclaration nameRequired) := by
  rw [classDeclaration_eq]
  refine .after fun _ => .after fun _ => .after fun _ => .after fun _ => .after fun _ =>
    .settle (declaredName_owes _ _) (fun _ => ?_) fun name hname => ?_
  · exact .after space_staysOrEnds fun _ => .after (.acceptWord rfl (by decide)) fun _ =>
      .after space_staysOrEnds fun _ => .first braces_endsNames
  · exact .after fun _ => .bind heritageClause_whole fun base hbase => .after fun _ =>
      .after fun _ => .after fun _ => .pure fun _ => hname.append hbase

/-! ## Imports and exports -/

def pairsNames (pairs : List (Name × Name)) : List Name :=
  pairs.flatMap fun pair => [pair.1, pair.2]

theorem secondName_owes {first : Name} (hfirst : AllWhole text [first]) :
    Ensures text (fun second d => Owing text [second] d) (secondName first) :=
  .after fun _ => .ite (.after fun _ => name_owes)
    (.pure fun _ => .of_allWhole hfirst)

theorem namePairs_whole (fuel : Nat) :
    Ensures text (fun pairs _ => AllWhole text (pairsNames pairs)) (namePairs fuel) := by
  have hcomma : StartsApart "," := ⟨_, _, rfl, by decide⟩
  have hbrace : StartsApart "\x7d" := ⟨_, _, rfl, by decide⟩
  induction fuel with
  | zero => exact .failHere _ _
  | succ fuel ih =>
    rw [namePairs_succ]
    refine .after fun _ => .after fun _ => .ite (.pure fun _ => by simp [pairsNames, AllWhole]) ?_
    refine .settle name_owes (fun _ => ?_) fun first hfirst => .after fun _ =>
      .settle (secondName_owes hfirst) (fun _ => ?_) fun second hsecond => ?_
    · exact .after space_staysOrEnds fun _ => .after (.acceptWord rfl (by decide)) fun _ =>
        .after space_staysOrEnds fun _ => .accept hcomma (.first (.expect hbrace))
    · exact .after space_staysOrEnds fun _ => .accept hcomma (.first (.expect hbrace))
    · refine .after fun _ => .after fun _ => .ite ?_ ?_
      · exact .bind ih fun rest hrest => .pure fun _ => (hfirst.append hsecond).append hrest
      · exact .after fun _ => .pure fun _ => hfirst.append hsecond

theorem bracedPairs_whole :
    Ensures text (fun pairs _ => AllWhole text (pairsNames pairs)) bracedPairs :=
  .after fun _ => .after fun _ => namePairs_whole _

theorem fromClause_endsNames : EndsNames fromClause :=
  .first (.expectWord rfl (by decide))

theorem importBindings_owes :
    Ensures text (fun all d => Owing text (all.flatMap ImportBinding.allNames) d)
      importBindings := by
  rw [importBindings_eq]
  refine .after fun _ => .ite ?_ <| .after fun _ =>
    .ite (.bind bracedPairs_whole fun pairs hpairs => .pure fun d => .of_allWhole ?_) (.failHere _ _)
  · refine .after fun _ => .after fun _ => .after fun _ => ?_
    intro c all d hc hrun
    obtain ⟨n, hread, rfl⟩ := map_eq_ok.mp hrun
    exact name_owes hc hread
  · rw [flatMap_map]
    exact hpairs

theorem importClause_owes :
    Ensures text (fun all d => Owing text (all.flatMap ImportBinding.allNames) d) importClause := by
  have hcomma : StartsApart "," := ⟨_, _, rfl, by decide⟩
  have hmore : Ensures text (fun all d => Owing text (all.flatMap ImportBinding.allNames) d)
      moreBindings :=
    .after fun _ => .ite (.after fun _ => importBindings_owes)
      (.pure fun _ => .of_allWhole (by simp [AllWhole]))
  refine .after fun _ => .ite ?_ importBindings_owes
  intro c all d hc hrun
  obtain ⟨n, e, hname, hrest⟩ := bind_eq_ok.mp hrun
  obtain ⟨_, f, hspace, hrest⟩ := bind_eq_ok.mp hrest
  obtain ⟨more, hread, rfl⟩ := map_eq_ok.mp hrest
  obtain ⟨he, howing⟩ := name_owes hc hname
  have hf := (space_onward hspace).isIn he
  obtain ⟨hd, hmore⟩ := hmore hf hread
  have hfirst := (howing.stays he space_staysOrEnds hspace).stays hf (.accept hcomma) hread
  exact ⟨hd, hfirst.append hmore⟩

theorem importStatement_whole :
    Ensures text (fun s _ => AllWhole text s.allNames) importStatement := by
  rw [importStatement_eq]
  refine .after fun _ => .after fun _ => .after fun _ => .after fun _ =>
    .ite ?_ (.settle importClause_owes (fun _ => ?_) fun bindings hall => ?_)
  · exact .after fun _ => .after fun _ => .after fun _ => .pure fun _ =>
      by simp [AllWhole, Statement.allNames]
  · exact .after space_staysOrEnds fun _ => .first fromClause_endsNames
  · exact .after fun _ => .after fun _ => .after fun _ => .after fun _ => .pure fun _ => hall

theorem defaultExport_whole :
    Ensures text (fun v _ => AllWhole text v.allNames) defaultExport := by
  refine .after fun c => .after fun atAsync => .ite ?_ (.ite ?_ ?_)
  · exact .bind (functionDeclaration_whole _) fun a ha => .pure fun _ => ha
  · exact .bind (classDeclaration_whole _) fun a ha => .pure fun _ => ha
  · exact .bind value_whole fun e he => .after fun _ => .pure fun _ => he

theorem starName_owes :
    Ensures text (fun exported d => Owing text exported.toList d) starName := by
  refine .after fun _ => .ite (.after fun _ => ?_)
    (.pure fun _ => .of_allWhole (by simp [AllWhole]))
  intro c exported d hc hrun
  obtain ⟨n, e, hname, hrest⟩ := bind_eq_ok.mp hrun
  obtain ⟨_, hspace, rfl⟩ := map_eq_ok.mp hrest
  obtain ⟨he, howing⟩ := name_owes hc hname
  exact ⟨(space_onward hspace).isIn he, howing.stays he space_staysOrEnds hspace⟩

theorem DeclarationRun.namesEnd {a : Declaration} (h : DeclarationRun c a d) (hc : c.IsIn text) :
    d.IsIn text ∧ NamesEnd text a.allNames a.openName? := by
  cases h with
  | «variable» hread => exact variableDeclaration_namesEnd _ hc hread
  | function hread => exact (functionDeclaration_whole _ hc hread).imp_right (·.namesEnd)
  | classOf hread => exact (classDeclaration_whole _ hc hread).imp_right (·.namesEnd)

theorem exportStatement_namesEnd :
    Ensures text (fun s _ => NamesEnd text s.allNames s.openName?) exportStatement := by
  rw [exportStatement_eq]
  refine .after fun _ => .after fun _ => .after fun _ => .after fun _ => .ite ?_ <| .after fun _ =>
    .ite ?_ <| .after fun _ => .ite ?_ <| .after fun form => ?_
  · exact .after fun _ => .bind defaultExport_whole fun v hv => .after fun _ => .pure fun _ =>
      hv.namesEnd
  · refine .after fun _ => .settle starName_owes (fun _ => .first fromClause_endsNames)
      fun exported hexported => .after fun source => .after fun _ => .after fun _ => ?_
    cases exported with
    | some n => exact .pure fun _ => hexported.namesEnd
    | none => exact .pure fun _ => hexported.namesEnd
  · refine .bind bracedPairs_whole fun pairs hpairs => ?_
    refine .after fun source => .after fun _ => .after fun _ => .pure fun _ => ?_
    refine AllWhole.namesEnd ?_
    rw [Statement.allNames, flatMap_map]
    exact hpairs
  · refine .bind (Q := fun d => NamesEnd text d.allNames d.openName?) ?_ fun d hd => .after fun _ =>
      .pure fun _ => hd
    exact fun c a d hc hrun => (declarationOf_run form hrun).namesEnd hc

/-! ## Statements -/

theorem topLevelStatement_namesEnd :
    Ensures text (fun s _ => NamesEnd text s.allNames s.openName?) topLevelStatement := by
  intro c s d hc hrun
  cases topLevelStatement_run hrun with
  | importing hread => exact (importStatement_whole hc hread).imp_right (·.namesEnd)
  | exporting hread => exact exportStatement_namesEnd hc hread
  | declaration hread => exact hread.namesEnd hc
  | verbatim hread => exact ⟨(statement_onward hread).isIn hc, by rintro _ ⟨⟩⟩

end Scan

/-- Names are not cut. No ASCII character of names follows a name of a module; and no other
character that goes on with it does, unless the name is bare and a variable declaration ends with
it. -/
theorem parseModule_names_end {text : String} {m : Module} (h : parseModule text = .ok m) :
    ∀ s ∈ m.body, ∀ n ∈ s.allNames,
      n.IsLongest text ∧ (n.IsWhole text ∨ s.openName? = some n) := by
  obtain ⟨e, hrun⟩ := parseModule_eq_ok.mp h
  intro s hs
  obtain ⟨q, d, hq, -, hread⟩ := hrun.exists_read hs
  exact (Scan.topLevelStatement_namesEnd (hq.isIn (Cursor.isIn_pastShebang text)) hread).2

/-- A class and its superclass, a pattern with a value, and a declaration that ends with a bare
name. -/
theorem class_pattern_bare_names_end :
    let text := "class A extends B \x7b\x7d\nlet [c = 1] = d, e;\nvar f\u00a0"
    ∃ m, parseModule text = .ok m ∧
      m.body.map (fun s => s.allNames.map Name.text) = [["A", "B"], ["c", "d", "e"], ["f"]] ∧
      m.body.map (fun s => s.openName?.map Name.text) = [none, none, some "f"] ∧
      ∀ s ∈ m.body, ∀ n ∈ s.allNames,
        n.IsLongest text ∧ (n.IsWhole text ∨ s.openName? = some n) := by
  intro text
  obtain ⟨m, hread, hnames, hopen⟩ : ∃ m, parseModule text = .ok m ∧
      m.body.map (fun s => s.allNames.map Name.text) = [["A", "B"], ["c", "d", "e"], ["f"]] ∧
      m.body.map (fun s => s.openName?.map Name.text) = [none, none, some "f"] := by
    refine ⟨_, by cbv, rfl, rfl⟩
  exact ⟨m, hread, hnames, hopen, parseModule_names_end hread⟩

theorem append_right_cancel_of_size {front back front' back' : String}
    (h : front ++ back = front' ++ back') (hsize : front.utf8ByteSize = front'.utf8ByteSize) :
    back = back' := by
  rw [← bytesOf_inj, bytesOf_append, bytesOf_append] at h
  exact bytesOf_inj.mp (append_inj_right h (by simp [hsize]))

/-- A letter above the ASCII range after a bare name is cut off and starts its own statement. -/
theorem accented_name_cut :
    ∃ m s n, parseModule "var aé = 1" = .ok m ∧ s ∈ m.body ∧ n ∈ s.allNames ∧
      n = ⟨"a", ⟨4, 5⟩⟩ ∧ ¬n.IsWhole "var aé = 1" ∧
      m.body.map Statement.range = [⟨0, 5⟩, ⟨5, 11⟩] := by
  refine ⟨_, _, _, by cbv, List.mem_cons_self, List.mem_cons_self, rfl, ?_, rfl⟩
  rintro ⟨front, back, htext, hsize, hnext⟩
  have hsplit : front ++ back = "var a" ++ "é = 1" := htext.symm
  rw [append_right_cancel_of_size hsplit hsize] at hnext
  exact absurd hnext (by decide)

end ModuleBridge
