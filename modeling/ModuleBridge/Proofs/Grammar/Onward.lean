import ModuleBridge.Proofs.Grammar.Parts
import ModuleBridge.Proofs.Source.FaultEnd

/-!
# Reading moves onward

Every reading of the grammar is put together from scanning operations, so each one moves the cursor
onward too, and a fault that it stops with lies in the text. Where a reading goes back it goes back
to a cursor it has kept, never before its own start.
-/

namespace ModuleBridge

-- A reading of many parts is a deep term.
set_option synthInstance.maxSize 1000

variable {c d : Cursor}

namespace Scan

open Cursor

variable {α β : Type}

/-- Every run of `op` stays in the text, and one that succeeds takes at least one byte. -/
class Progresses (op : Scan α) : Prop extends StaysInText op where
  pos_lt : ∀ ⦃c a d⦄, op c = .ok a d → c.pos < d.pos

namespace Progresses

theorem advances {op : Scan α} (h : Progresses op) : Advances op :=
  fun _ _ _ hrun => ⟨h.onward hrun, h.pos_lt hrun⟩

theorem first {op : Scan α} {next : α → Scan β} (hop : Progresses op)
    [hnext : ∀ a, StaysInText (next a)] : Progresses (op >>= next) := by
  refine ⟨fun c b e h => ?_⟩
  obtain ⟨a, d, hfirst, hrest⟩ := bind_eq_ok.mp h
  exact Nat.lt_of_lt_of_le (hop.pos_lt hfirst) ((hnext a).onward hrest).pos_le

theorem rest {op : Scan α} {next : α → Scan β} [hop : StaysInText op]
    (hnext : ∀ a, Progresses (next a)) : Progresses (op >>= next) := by
  refine ⟨fun c b e h => ?_⟩
  obtain ⟨a, d, hfirst, hrest⟩ := bind_eq_ok.mp h
  exact Nat.lt_of_le_of_lt (hop.onward hfirst).pos_le ((hnext a).pos_lt hrest)

end Progresses

theorem expectWord_onward (word : String) : MovesOnward (expectWord word) :=
  (expectWord_inText word).onward

theorem expectWord_progresses {word : String} (hword : word ≠ "") :
    Progresses (expectWord word) := by
  refine ⟨fun c u d h => ?_⟩
  obtain ⟨hstarts, rfl⟩ := expectWord_eq_ok.mp h
  have hfits := (List.isPrefixOf_iff_prefix.mp (startsWith_of_startsWithWord hstarts)).length_le
  have hpos : 0 < (bytesOf word).length := by
    rw [length_bytesOf]
    exact Nat.pos_of_ne_zero fun h => hword (String.utf8ByteSize_eq_zero_iff.mp h)
  rw [pos_advance]
  omega

instance braces_inText : StaysInText braces :=
  block_inText (by decide) (by decide)

instance brackets_inText : StaysInText brackets :=
  block_inText (by decide) (by decide)

instance atAssignment_inText : StaysInText atAssignment :=
  .peek _

instance atName_inText : StaysInText atName :=
  .peek _

instance atAsyncFunction_inText : StaysInText atAsyncFunction :=
  .peek _

instance rangeFrom_inText (start : Cursor) : StaysInText (rangeFrom start) :=
  .peek _

theorem rangeFrom_onward (start : Cursor) : MovesOnward (rangeFrom start) :=
  .peek _

instance spaced_inText {op : Scan Bool} [StaysInText op] : StaysInText (spaced op) := by
  unfold spaced
  infer_instance

/-! ## Expressions and patterns -/

theorem classified_eq_ok {stretch : Scan Range} {e : Expression} :
    classified stretch c = .ok e d ↔
      ∃ r, stretch c = .ok r d ∧ r.isEmpty = false ∧ e = classifyExpression c r.stop := by
  unfold classified
  rw [get_bind, bind_eq_ok]
  constructor
  · rintro ⟨r, f, hstretch, hrest⟩
    dsimp only at hrest
    cases hempty : r.isEmpty with
    | true =>
      rw [hempty, if_pos rfl] at hrest
      obtain ⟨_, _, hfail, _⟩ := bind_eq_ok.mp hrest
      exact absurd hfail failHere_ne_ok
    | false =>
      rw [hempty, if_neg Bool.false_ne_true] at hrest
      obtain ⟨rfl, rfl⟩ := pure_eq_ok.mp hrest
      exact ⟨r, hstretch, hempty, rfl⟩
  · rintro ⟨r, hstretch, hempty, rfl⟩
    refine ⟨r, d, hstretch, ?_⟩
    dsimp only
    rw [hempty, if_neg Bool.false_ne_true]
    rfl

instance classified_inText {stretch : Scan Range} [StaysInText stretch] :
    StaysInText (classified stretch) := by
  unfold classified
  infer_instance

instance value_inText : StaysInText value := by
  unfold value
  infer_instance

instance defaultValue_inText : StaysInText defaultValue := by
  unfold defaultValue
  infer_instance

instance propertyKey_inText : StaysInText propertyKey := by
  refine .after fun c => ?_
  split <;> infer_instance

instance patternRest_inText {more : Scan (List Name)} [StaysInText more] (closer : String)
    (names : List Name) : StaysInText (patternRest more closer names) := by
  unfold patternRest
  infer_instance

instance entry_inText [StaysInText binding] [∀ names, StaysInText (next names)] :
    StaysInText (entry binding next) := by
  unfold entry
  infer_instance

instance property_inText [StaysInText binding] [∀ names, StaysInText (next names)] :
    StaysInText (property binding next) := by
  refine .after fun _ => ?_
  split
  · infer_instance
  · refine .after fun key => ?_
    cases key <;> infer_instance

theorem patterns_inText (fuel : Nat) :
    StaysInText (bindingNames fuel) ∧ StaysInText (objectNames fuel) ∧
      StaysInText (arrayNames fuel) := by
  refine patterns_induction (B := StaysInText) (O := StaysInText) (A := StaysInText)
    ⟨.failHere _ _, .failHere _ _, .failHere _ _⟩ (fun object array _ _ => ?_)
    (fun binding object _ _ => ?_) (fun binding array _ _ => ?_) fuel
  · unfold targetNames
    infer_instance
  · unfold properties
    infer_instance
  · unfold elements element
    infer_instance

theorem patterns_onward (fuel : Nat) :
    MovesOnward (bindingNames fuel) ∧ MovesOnward (objectNames fuel) ∧
      MovesOnward (arrayNames fuel) :=
  (patterns_inText fuel).imp (·.onward) (.imp (·.onward) (·.onward))

instance boundNames_inText : StaysInText boundNames :=
  .after fun _ => (patterns_inText _).1

/-! ## Declarations -/

theorem afterSpace_eq_ok {op : Scan (Option α)} {answer : Option α} :
    afterSpace op c = .ok answer d ↔ ∃ q e, space c = .ok () q ∧ op q = .ok answer e ∧
      d = if answer.isSome then e else c := by
  unfold afterSpace
  constructor
  · intro h
    obtain ⟨start, _, hget, hspaced⟩ := bind_eq_ok.mp h
    obtain ⟨rfl, rfl⟩ := get_eq_ok.mp hget
    obtain ⟨_, q, hspace, hread⟩ := bind_eq_ok.mp hspaced
    obtain ⟨found, e, hop, hend⟩ := bind_eq_ok.mp hread
    cases found with
    | some value =>
      obtain ⟨rfl, rfl⟩ := pure_eq_ok.mp hend
      exact ⟨q, d, hspace, hop, rfl⟩
    | none =>
      obtain ⟨_, hset, rfl⟩ := map_eq_ok.mp hend
      exact ⟨q, e, hspace, hop, set_eq_ok.mp hset⟩
  · rintro ⟨q, e, hspace, hop, rfl⟩
    refine bind_eq_ok.mpr ⟨c, c, rfl, bind_eq_ok.mpr ⟨(), q, hspace, ?_⟩⟩
    refine bind_eq_ok.mpr ⟨answer, e, hop, ?_⟩
    cases answer with
    | some value => rfl
    | none => rfl

theorem afterSpace_onward {op : Scan (Option α)} (h : MovesOnward op) :
    MovesOnward (afterSpace op) := by
  intro c answer d hrun
  obtain ⟨q, e, hspace, hop, rfl⟩ := afterSpace_eq_ok.mp hrun
  cases answer with
  | some value => exact (space_onward hspace).trans (h hop)
  | none => exact .refl c

instance afterSpace_inText {op : Scan (Option α)} [h : StaysInText op] :
    StaysInText (afterSpace op) := by
  refine ⟨afterSpace_onward h.onward, fun c fault e hrun => ?_⟩
  unfold afterSpace at hrun
  rw [get_bind] at hrun
  rcases bind_eq_error.mp hrun with hspace | ⟨_, q, hspace, hread⟩
  · exact space_inText.fails hspace
  · refine .trans (space_onward hspace) ?_
    rcases bind_eq_error.mp hread with hop | ⟨answer, d, _, hend⟩
    · exact h.fails hop
    · cases answer <;> cases hend

def mark (text : String) : Scan (Option Unit) := do
  return if ← accept text then some () else none

theorem mark_cases {text : String} {q : Cursor} {answer : Option Unit}
    (h : mark text q = .ok answer d) :
    (answer = some () ∧ q.startsWith text = true ∧ d = q.advance (bytesOf text).length) ∨
      (answer = none ∧ q.startsWith text = false ∧ d = q) := by
  obtain ⟨found, haccept, rfl⟩ := map_eq_ok.mp h
  rcases accept_cases haccept with ⟨rfl, hstarts, rfl⟩ | ⟨rfl, hstarts, rfl⟩
  · exact .inl ⟨rfl, hstarts, rfl⟩
  · exact .inr ⟨rfl, hstarts, rfl⟩

instance mark_inText (text : String) : StaysInText (mark text) := by
  unfold mark
  infer_instance

theorem optionalSemicolon_eq_ok {u : Unit} :
    optionalSemicolon c = .ok u d ↔ ∃ answer, afterSpace (mark ";") c = .ok answer d := by
  constructor
  · intro h
    obtain ⟨answer, hmark, -⟩ := map_eq_ok.mp h
    exact ⟨answer, hmark⟩
  · rintro ⟨answer, hmark⟩
    exact bind_eq_ok.mpr ⟨answer, d, hmark, rfl⟩

instance optionalSemicolon_inText : StaysInText optionalSemicolon := by
  change StaysInText (do let _ ← afterSpace (mark ";"))
  infer_instance

theorem optionalSemicolon_onward : MovesOnward optionalSemicolon :=
  optionalSemicolon_inText.onward

def initialValue : Scan (Option Expression) := do
  if ← atAssignment then
    let _ ← accept "="
    space
    return some (← value)
  else return none

instance initialValue_inText : StaysInText initialValue := by
  unfold initialValue
  infer_instance

theorem initialValue_run {x : Expression} (h : initialValue c = .ok (some x) d) :
    ∃ p q, c.Onward p ∧ space p = .ok () q ∧ value q = .ok x d := by
  obtain ⟨assigned, e, hassigned, h⟩ := bind_eq_ok.mp h
  split at h
  · obtain ⟨_, p, haccept, h⟩ := bind_eq_ok.mp h
    obtain ⟨_, q, hspace, h⟩ := bind_eq_ok.mp h
    obtain ⟨_, hvalue, heq⟩ := map_eq_ok.mp h
    cases heq
    exact ⟨p, q, (atAssignment_inText.onward hassigned).trans (accept_onward _ haccept), hspace,
      hvalue⟩
  · cases h

def bindingTarget (start : Cursor) : Scan Target := do
  if start.startsWith "\x7b" || start.startsWith "[" then
    let names ← boundNames
    return .pattern names (← rangeFrom start)
  else return .name (← name)

instance bindingTarget_inText (start : Cursor) : StaysInText (bindingTarget start) := by
  unfold bindingTarget
  infer_instance

theorem declarator_eq :
    declarator = get >>= fun start => bindingTarget start >>= fun target =>
      afterSpace initialValue >>= fun value => rangeFrom start >>= fun range =>
        pure ⟨target, value, range⟩ := by
  unfold declarator bindingTarget
  congr 1
  funext start
  split <;> simp [initialValue]

theorem declarator_eq_ok {x : Declarator} :
    declarator c = .ok x d ↔ ∃ target e value, bindingTarget c c = .ok target e ∧
      afterSpace initialValue e = .ok value d ∧ x = ⟨target, value, c.rangeTo d⟩ := by
  rw [declarator_eq, get_bind, bind_eq_ok]
  constructor
  · rintro ⟨target, e, htarget, hrest⟩
    obtain ⟨value, f, hvalue, hrest⟩ := bind_eq_ok.mp hrest
    obtain ⟨range, g, hrange, hpure⟩ := bind_eq_ok.mp hrest
    obtain ⟨rfl, rfl⟩ := peek_eq_ok.mp hrange
    obtain ⟨rfl, rfl⟩ := pure_eq_ok.mp hpure
    exact ⟨target, e, value, htarget, hvalue, rfl⟩
  · rintro ⟨target, e, value, htarget, hvalue, rfl⟩
    exact ⟨target, e, htarget, bind_eq_ok.mpr ⟨value, d, hvalue, rfl⟩⟩

instance declarator_inText : StaysInText declarator := by
  rw [declarator_eq]
  infer_instance

theorem declarators_cases {fuel : Nat} {e : Cursor} {all : List Declarator}
    (h : declarators (fuel + 1) c = .ok all e) :
    ∃ y first z, space c = .ok () y ∧ declarator y = .ok first z ∧
      ((afterSpace (mark ",") z = .ok none z ∧ all = [first] ∧ e = z) ∨
        ∃ w rest, afterSpace (mark ",") z = .ok (some ()) w ∧ declarators fuel w = .ok rest e ∧
          all = first :: rest) := by
  obtain ⟨_, y, hspace, hdeclare⟩ := bind_eq_ok.mp h
  obtain ⟨first, z, hfirst, hmark⟩ := bind_eq_ok.mp hdeclare
  refine ⟨y, first, z, hspace, hfirst, ?_⟩
  obtain ⟨comma, w, hcomma, hrest⟩ := bind_eq_ok.mp hmark
  cases comma with
  | none =>
    obtain ⟨rfl, rfl⟩ := pure_eq_ok.mp hrest
    obtain ⟨_, _, _, _, rfl⟩ := afterSpace_eq_ok.mp hcomma
    exact .inl ⟨hcomma, rfl, rfl⟩
  | some u =>
    obtain ⟨rest, hmore, rfl⟩ := map_eq_ok.mp hrest
    exact .inr ⟨w, rest, hcomma, hmore, rfl⟩

instance declarators_inText (fuel : Nat) : StaysInText (declarators fuel) := by
  induction fuel with
  | zero => exact .failHere _ _
  | succ fuel ih =>
    refine .after fun _ => .after fun _ => @StaysInText.after _ _ (afterSpace (mark ",")) _ _ fun _ => ?_
    split <;> infer_instance

theorem declarators_onward (fuel : Nat) : MovesOnward (declarators fuel) :=
  (declarators_inText fuel).onward

instance variableDeclaration_progresses (kind : VariableKind) :
    Progresses (variableDeclaration kind) := by
  have hword : kind.keyword.text ≠ "" := by cases kind <;> decide
  exact .rest fun _ => .first (expectWord_progresses hword)

/-- A list that cannot be passed as a block is left at its first closing parenthesis. -/
theorem parameters_eq_ok {r : Range} :
    parameters c = .ok r d ↔ c.startsWith "(" = true ∧ r = c.rangeTo d ∧
      ((∃ inner, parentheses c = .ok inner d) ∨
        (∃ fault e, parentheses c = .error fault e) ∧
          ∃ found, skipPast (byte ')') (c.advance 1) = .ok found d) := by
  have hread : ∀ e, rangeFrom c e = .ok r d ↔ r = c.rangeTo d ∧ e = d := by
    intro e
    rw [rangeFrom, peek_eq_ok]
    constructor
    · rintro ⟨rfl, rfl⟩
      exact ⟨rfl, rfl⟩
    · rintro ⟨rfl, rfl⟩
      exact ⟨rfl, rfl⟩
  rw [parameters, get_bind]
  dsimp only
  cases hstarts : c.startsWith "(" with
  | false => simp [bind_eq_ok, failHere_ne_ok]
  | true =>
    rw [if_pos rfl]
    cases hblock : parentheses c with
    | ok inner e =>
      dsimp only
      rw [set_bind, hread]
      simp
    | error fault e =>
      dsimp only
      rw [set_bind, bind_eq_ok]
      simp only [hread]
      constructor
      · rintro ⟨found, e, hskip, hr, rfl⟩
        exact ⟨trivial, hr, .inr ⟨⟨_, _, rfl⟩, found, hskip⟩⟩
      · rintro ⟨_, hr, ⟨_, hinner⟩ | ⟨_, found, hskip⟩⟩
        · cases hinner
        · exact ⟨found, d, hskip, hr, rfl⟩

instance parameters_inText : StaysInText parameters := by
  refine ⟨fun c r d h => ?_, fun c fault d h => ?_⟩
  · obtain ⟨hstarts, _, ⟨inner, hblock⟩ | ⟨_, found, hskip⟩⟩ := parameters_eq_ok.mp h
    · exact block_onward (by decide) hblock
    · exact (Onward.startsWith hstarts).trans (skipPast_onward (by decide) hskip)
  · rw [parameters, get_bind] at h
    dsimp only at h
    cases hstarts : c.startsWith "(" with
    | false =>
      rw [hstarts, if_neg Bool.false_ne_true] at h
      rcases bind_eq_error.mp h with hfail | ⟨_, _, hfail, _⟩
      · cases hfail
        exact .here _ _ _
      · cases hfail
    | true =>
      -- A list that fails as a block is passed over, so no fault is left.
      rw [hstarts, if_pos rfl] at h
      cases hblock : parentheses c with
      | ok inner e =>
        rw [hblock] at h
        cases h
      | error fault' e =>
        rw [hblock] at h
        cases h

instance declaredName_inText (present required : Bool) :
    StaysInText (declaredName present required) := by
  unfold declaredName
  infer_instance

instance functionDeclaration_progresses (nameRequired : Bool) :
    Progresses (functionDeclaration nameRequired) := by
  rw [functionDeclaration_eq]
  exact .rest fun _ => .rest fun _ => .first (expectWord_progresses (by decide))

instance heritageClause_inText : StaysInText heritageClause := by
  unfold heritageClause
  infer_instance

instance classDeclaration_progresses (nameRequired : Bool) :
    Progresses (classDeclaration nameRequired) := by
  rw [classDeclaration_eq]
  exact .rest fun _ => .first (expectWord_progresses (by decide))

/-! ## Modules -/

instance statementForm?_inText : StaysInText statementForm? := by
  refine .after fun _ => ?_
  split
  · infer_instance
  · refine .after fun c => ?_
    split <;> infer_instance

instance secondName_inText (first : Name) : StaysInText (secondName first) := by
  unfold secondName
  infer_instance

instance namePairs_inText (fuel : Nat) : StaysInText (namePairs fuel) := by
  induction fuel with
  | zero => exact .failHere _ _
  | succ fuel ih =>
    rw [namePairs_succ]
    infer_instance

instance bracedPairs_inText : StaysInText bracedPairs := by
  unfold bracedPairs
  infer_instance

instance fromClause_inText : StaysInText fromClause := by
  unfold fromClause
  infer_instance

instance importBindings_inText : StaysInText importBindings := by
  rw [importBindings_eq]
  unfold namedBindings
  infer_instance

instance importClause_inText : StaysInText importClause := by
  unfold importClause moreBindings
  infer_instance

instance importStatement_progresses : Progresses importStatement := by
  rw [importStatement_eq]
  exact .rest fun _ => .first (expectWord_progresses (by decide))

instance defaultExport_inText : StaysInText defaultExport := by
  unfold defaultExport
  infer_instance

instance starName_inText : StaysInText starName := by
  unfold starName
  infer_instance

instance listSource_inText : StaysInText listSource := by
  unfold listSource
  infer_instance

instance declarationOf_inText (form : Option StatementForm) : StaysInText (declarationOf form) := by
  unfold declarationOf
  split <;> infer_instance

instance exportStatement_progresses : Progresses exportStatement := by
  rw [exportStatement_eq]
  exact .rest fun _ => .first (expectWord_progresses (by decide))

end Scan

end ModuleBridge
