import ModuleBridge.Proofs.Grammar.Follow

/-!
# Declarations that are moved to another place

Patterns, variable declarations, functions and classes are followed in the copy of a piece of code
along the shape of the grammar. The fuel of a copy is counted anew: what is left of the piece is
enough for it.
-/

namespace ModuleBridge

open Cursor List Option Scan

variable {text : String}

/-! ## Patterns -/

namespace Copied

variable {c c' x : Cursor} {t r r' : List UInt8} (h : Copied c c' t r r')

include h

theorem defaultValue_follows :
    FollowsInside c c' x (c.pos + t.length) defaultValue defaultValue (fun _ => ()) := by
  refine .bind h.space_follows fun _ _ y _ _ =>
    .test h.atAssignment_follows (fun z _ => ?_) fun z _ => ?_
  · exact .bind (h.accept_before (.of_head (by decide) (by decide))) fun _ _ _ _ _ =>
      .bind h.space_follows fun _ _ _ _ _ => .bind h.expression_follows fun _ _ _ _ _ => .pure rfl
  · exact .pure rfl

theorem propertyKey_follows :
    FollowsInside c c' x (c.pos + t.length) propertyKey propertyKey isSome := by
  refine .get (.exchange ?_ fun hx hend => by rw [h.byte?_mirror hx hend])
  have hname : FollowsInside c c' x (c.pos + t.length) (do return some (← name))
      (do return some (← name)) isSome :=
    .bind h.name_follows.before fun _ _ _ _ _ => .pure rfl
  cases hbyte : x.byte? with
  | none => exact hname
  | some b =>
    dsimp only
    split
    · exact .bind h.quoted_follows.before fun _ _ _ _ _ => .pure rfl
    · split
      · exact .bind (h.block_follows (by decide) (by decide)).before fun _ _ _ _ _ => .pure rfl
      · split
        · rename_i hdigit
          exact .bind (h.number_follows (by rw [hbyte]; exact hdigit)).before fun _ _ _ _ _ =>
            .pure rfl
        · exact hname

theorem patternRest_follows {more more' : Scan (List Name)} {closer : String}
    (hcloser : IsTokenText closer) {names names' : List Name}
    (hmore : ∀ y, x.pos < y.pos → FollowsUpTo c c' y (c.pos + t.length) more more') :
    FollowsUpTo c c' x (c.pos + t.length) (patternRest more closer names)
      (patternRest more' closer names') := by
  have hcomma : IsTokenText "," := .of_head (by decide) (by decide)
  refine .bind h.space_follows fun _ _ y hspace _ =>
    .test (h.accept_before hcomma) (fun z hz => ?_) fun z _ => ?_
  · have hle := (space_onward hspace).pos_le
    have hlt := accept_pos_lt hcomma hz
    exact .bind (hmore z (by omega)) fun _ _ _ _ _ => .pure rfl
  · exact .bind (h.expect_follows hcloser) fun _ _ _ _ _ => .pure rfl

/-- The reading `op` is followed by `op'` wherever the fuel is enough for the bytes left. -/
def FollowsWith (c c' : Cursor) (stop spare : Nat) (op : Scan (List Name))
    (op' : Nat → Scan (List Name)) : Prop :=
  ∀ fuel' x, 2 * (stop - x.pos) + spare ≤ fuel' →
    FollowsUpTo c c' x stop op (op' fuel')

omit h in
theorem FollowsWith.at {stop spare fuel' : Nat} {op : Scan (List Name)}
    {op' : Nat → Scan (List Name)} (h : FollowsWith c c' stop spare op op') (hop : MovesOnward op)
    (hfuel : x.pos ≤ stop → 2 * (stop - x.pos) + spare ≤ fuel') :
    FollowsUpTo c c' x stop op (op' fuel') :=
  .of_pos hop (fun _ _ hd => hd) fun hle => h fuel' x (hfuel hle)

omit h in
theorem isTokenText_mark (h : text ∈ ["\x7b", "\x7d", "[", "]", ",", ":", "...", "=", "*"]) :
    IsTokenText text := by
  simp only [mem_cons, not_mem_nil, or_false] at h
  rcases h with rfl | rfl | rfl | rfl | rfl | rfl | rfl | rfl | rfl <;>
    exact .of_head (by decide) (by decide)

theorem bindingNames_step {fuel : Nat}
    (hobject : FollowsWith c c' (c.pos + t.length) 2 (objectNames fuel) objectNames)
    (harray : FollowsWith c c' (c.pos + t.length) 2 (arrayNames fuel) arrayNames) :
    FollowsWith c c' (c.pos + t.length) 1 (bindingNames (fuel + 1)) bindingNames := by
  intro fuel' x hfuel
  obtain ⟨fuel', rfl⟩ := Nat.exists_eq_succ_of_ne_zero (Nat.ne_zero_of_lt hfuel)
  have hopen : IsTokenText "\x7b" := isTokenText_mark (by simp)
  have hsquare : IsTokenText "[" := isTokenText_mark (by simp)
  obtain ⟨_, hobjects, harrays⟩ := patterns_onward fuel
  rw [bindingNames_succ, bindingNames_succ]
  refine .test (h.accept_follows hopen) (fun y hy => ?_) fun y hy =>
    .test (h.accept_follows hsquare) (fun z hz => ?_) fun z _ =>
      .bind h.name_follows fun _ _ _ _ _ => .pure rfl
  · have hlt := accept_pos_lt hopen hy
    exact (hobject.at hobjects fun hle => by omega).mono
      (fun hy => Nat.le_of_lt hy.pos_lt) fun _ _ hd => hd
  · have hle := (accept_onward _ hy).pos_le
    have hlt := accept_pos_lt hsquare hz
    exact (harray.at harrays fun hle => by omega).mono
      (fun hz => Nat.le_of_lt hz.pos_lt) fun _ _ hd => hd

section

variable {fuel : Nat}
  (hbinding : FollowsWith c c' (c.pos + t.length) 1 (bindingNames fuel) bindingNames)

include hbinding

theorem entry_follows {fuel' : Nat} {next next' : List Name → Scan (List Name)}
    (hfuel : x.pos ≤ c.pos + t.length → 2 * (c.pos + t.length - x.pos) + 1 ≤ fuel')
    (hnext : ∀ names names' y, x.pos ≤ y.pos →
      FollowsUpTo c c' y (c.pos + t.length) (next names) (next' names')) :
    FollowsUpTo c c' x (c.pos + t.length) (entry (bindingNames fuel) next)
      (entry (bindingNames fuel') next') := by
  have hbinds := (patterns_onward fuel).1
  refine .bind (hbinding.at hbinds hfuel).before fun names names' y hy _ =>
    .bind h.defaultValue_follows fun _ _ z hz _ => ?_
  exact hnext names names' z ((hbinds hy).trans (defaultValue_inText.onward hz)).pos_le

theorem objectNames_step
    (hobject : FollowsWith c c' (c.pos + t.length) 2 (objectNames fuel) objectNames) :
    FollowsWith c c' (c.pos + t.length) 2 (objectNames (fuel + 1)) objectNames := by
  intro fuel' x hfuel
  obtain ⟨fuel', rfl⟩ := Nat.exists_eq_succ_of_ne_zero (Nat.ne_zero_of_lt hfuel)
  have hdots : IsTokenText "..." := isTokenText_mark (by simp)
  have hcolon : IsTokenText ":" := isTokenText_mark (by simp)
  have hbrace : IsTokenText "\x7d" := isTokenText_mark (by simp)
  obtain ⟨hbinds, hobjects, _⟩ := patterns_onward fuel
  have hrest : ∀ names names' y, x.pos ≤ y.pos → FollowsUpTo c c' y (c.pos + t.length)
      (patternRest (objectNames fuel) "\x7d" names)
      (patternRest (objectNames fuel') "\x7d" names') := fun names names' y hle =>
    h.patternRest_follows hbrace fun z hlt => hobject.at hobjects fun hstop => by omega
  rw [objectNames_succ, objectNames_succ]
  refine .bind h.space_follows fun _ _ y hy _ =>
    .test (h.accept_follows hbrace) (fun z _ => .pure rfl) fun z hz => ?_
  have hzle := ((space_onward hy).trans (accept_onward _ hz)).pos_le
  refine .test (h.accept_before hdots) (fun w hw => ?_) fun w hw => ?_
  · have hlt := accept_pos_lt hdots hw
    refine .bind h.space_follows fun _ _ v hv _ => ?_
    have hvle := (space_onward hv).pos_le
    refine .bind (hbinding.at hbinds fun hstop => by omega).before fun names names' u hu _ =>
      hrest names names' u ?_
    have hule := (hbinds hu).pos_le
    omega
  · have hwle := (accept_onward _ hw).pos_le
    refine .bind h.propertyKey_follows fun key key' v hv hkey =>
      .bind h.space_follows fun _ _ u hu _ => ?_
    have hule := ((propertyKey_inText.onward hv).trans (space_onward hu)).pos_le
    refine .test (h.accept_before hcolon) (fun s hs => ?_) fun s hs => ?_
    · have hlt := accept_pos_lt hcolon hs
      refine .bind h.space_follows fun _ _ p hp _ => ?_
      have hple := (space_onward hp).pos_le
      exact h.entry_follows hbinding (fun hstop => by omega) fun names names' q hq =>
        hrest names names' q (by omega)
    · have hsle := (accept_onward _ hs).pos_le
      cases key with
      | none => exact .failHere
      | some name =>
        obtain ⟨name', rfl⟩ := isSome_iff_exists.mp hkey
        refine .bind h.defaultValue_follows fun _ _ q hq _ => hrest [name] [name'] q ?_
        have hqle := (defaultValue_inText.onward hq).pos_le
        omega

theorem arrayNames_step
    (harray : FollowsWith c c' (c.pos + t.length) 2 (arrayNames fuel) arrayNames) :
    FollowsWith c c' (c.pos + t.length) 2 (arrayNames (fuel + 1)) arrayNames := by
  intro fuel' x hfuel
  obtain ⟨fuel', rfl⟩ := Nat.exists_eq_succ_of_ne_zero (Nat.ne_zero_of_lt hfuel)
  have hsquare : IsTokenText "]" := isTokenText_mark (by simp)
  have hcomma : IsTokenText "," := isTokenText_mark (by simp)
  have hdots : IsTokenText "..." := isTokenText_mark (by simp)
  have harrays := (patterns_onward fuel).2.2
  have helement : ∀ y, x.pos ≤ y.pos → FollowsUpTo c c' y (c.pos + t.length)
      (entry (bindingNames fuel) (patternRest (arrayNames fuel) "]"))
      (entry (bindingNames fuel') (patternRest (arrayNames fuel') "]")) := fun y hle =>
    h.entry_follows hbinding (fun hstop => by omega) fun names names' z hz =>
      h.patternRest_follows hsquare fun v hlt => harray.at harrays fun hstop => by omega
  rw [arrayNames_succ, arrayNames_succ]
  refine .bind h.space_follows fun _ _ y hy _ =>
    .test (h.accept_follows hsquare) (fun z _ => .pure rfl) fun z hz => ?_
  have hzle := ((space_onward hy).trans (accept_onward _ hz)).pos_le
  refine .test (h.accept_before hcomma) (fun w hw => ?_) fun w hw => ?_
  · have hlt := accept_pos_lt hcomma hw
    exact harray.at harrays fun hstop => by omega
  · have hwle := (accept_onward _ hw).pos_le
    refine .test (h.accept_before hdots) (fun v hv => ?_) fun v hv => ?_
    · have hvle := (accept_onward _ hv).pos_le
      refine .bind h.space_follows fun _ _ u hu _ => ?_
      have hule := (space_onward hu).pos_le
      exact helement u (by omega)
    · have hvle := (accept_onward _ hv).pos_le
      exact helement v (by omega)

end

theorem patterns_follow (fuel : Nat) :
    FollowsWith c c' (c.pos + t.length) 1 (bindingNames fuel) bindingNames ∧
    FollowsWith c c' (c.pos + t.length) 2 (objectNames fuel) objectNames ∧
    FollowsWith c c' (c.pos + t.length) 2 (arrayNames fuel) arrayNames := by
  induction fuel with
  | zero =>
    refine ⟨fun fuel' x _ => ?_, fun fuel' x _ => ?_, fun fuel' x _ => ?_⟩
    · rw [bindingNames]
      exact .failHere
    · rw [objectNames]
      exact .failHere
    · rw [arrayNames]
      exact .failHere
  | succ fuel ih =>
    obtain ⟨hbinding, hobject, harray⟩ := ih
    exact ⟨h.bindingNames_step hobject harray, h.objectNames_step hbinding hobject,
      h.arrayNames_step hbinding harray⟩

theorem boundNames_follows : FollowsUpTo c c' x (c.pos + t.length) boundNames boundNames := by
  refine .get (.of_pos (patterns_onward _).1 (fun _ _ hd => hd) fun hle hx => ?_)
  refine (h.patterns_follow _).1 _ x ?_ hx
  have hleft := h.length_mirror hx hle
  omega

end Copied

/-! ## Declarations -/

theorem Copied.pos_lt_of_mark {x d : Cursor} {u : Unit} (htext : IsTokenText text)
    (hrun : afterSpace (mark text) x = .ok (some u) d) : x.pos < d.pos := by
  obtain ⟨q, e, hspace, hmark, rfl⟩ := afterSpace_eq_ok.mp hrun
  have hle := (space_onward hspace).pos_le
  rcases mark_cases hmark with ⟨_, hstarts, rfl⟩ | ⟨hanswer, _⟩
  · have haccept : accept text q = .ok true (q.advance (bytesOf text).length) := by
      rw [accept, if_pos hstarts]
    exact Nat.lt_of_le_of_lt hle (accept_pos_lt htext haccept)
  · cases hanswer

theorem Scan.initialValue_stays {q d : Cursor} (hrun : initialValue q = .ok none d) : d = q := by
  obtain ⟨found, e, hpeek, hrest⟩ := bind_eq_ok.mp hrun
  obtain ⟨rfl, rfl⟩ := peek_eq_ok.mp hpeek
  split at hrest
  · obtain ⟨_, _, _, hrest⟩ := bind_eq_ok.mp hrest
    obtain ⟨_, _, _, hrest⟩ := bind_eq_ok.mp hrest
    obtain ⟨_, _, _, hrest⟩ := bind_eq_ok.mp hrest
    cases (pure_eq_ok.mp hrest).1
  · exact (pure_eq_ok.mp hrest).2

def Scan.functionHead (start : Cursor) (isAsync nameRequired : Bool) : Scan FunctionDeclaration := do
  expectWord "function"
  space
  let isGenerator ← spaced (accept "*")
  let name ← declaredName (← atName) nameRequired
  space
  let params ← parameters
  space
  let _ ← braces
  return ⟨name, isAsync, isGenerator, params, ← rangeFrom start⟩

theorem Keyword.isWord (word : Keyword) : Copied.IsWord word.text := by
  have hname : (bytesOf word.text).all isNamePart = true := by
    cases word <;> rfl
  refine ⟨?_, all_eq_true.mp hname⟩
  cases word <;> exact ⟨_, _, rfl, rfl⟩

namespace Copied

variable {c c' x : Cursor} {t r r' : List UInt8} (h : Copied c c' t r r')

include h

theorem value_follows : FollowsInside c c' x (c.pos + t.length) value value (fun _ => ()) :=
  .classified h.expression_follows

theorem initialValue_follows :
    FollowsAt c c' x (HasToken (c.pos + t.length) x) initialValue initialValue
      (OptionEnd (c.pos + t.length) (HasToken (c.pos + t.length))) isSome := by
  refine .test h.atAssignment_follows (fun y _ => ?_) fun y _ => .pure rfl
  exact .bind (h.accept_before (isTokenText_mark (by simp))) fun _ _ _ _ _ =>
    .bind h.space_follows fun _ _ _ _ _ => .bind h.value_follows fun _ _ _ _ _ => .pure rfl

theorem mark_follows (htext : IsTokenText text) :
    FollowsAt c c' x (HasToken (c.pos + t.length) x) (mark text) (mark text)
      (OptionEnd (c.pos + t.length) fun d => d.pos ≤ c.pos + t.length) isSome :=
  .test (h.accept_follows htext) (fun _ _ => .pure rfl) fun _ _ => .pure rfl

theorem afterSpace_mark_follows (htext : IsTokenText text) :
    FollowsAt c c' x (HasToken (c.pos + t.length) x)
      (afterSpace (mark text)) (afterSpace (mark text))
      (OptionEnd (c.pos + t.length) fun d => d.pos ≤ c.pos + t.length) isSome := by
  refine .afterSpace h.space_follows (fun q _ => h.mark_follows htext) ?_
  intro q d hrun
  rcases mark_cases hrun with ⟨hanswer, _⟩ | ⟨_, _, hd⟩
  · cases hanswer
  · exact hd

omit h in
theorem rangeFrom_follows {place : Cursor → Prop} (start start' : Cursor) :
    FollowsAt c c' x (place x) (rangeFrom start) (rangeFrom start') (fun _ d => place d)
      (fun _ => ()) :=
  .peek fun _ _ => rfl

theorem bindingTarget_follows :
    FollowsUpTo c c' x (c.pos + t.length) (bindingTarget x) (bindingTarget (mirror c c' x)) := by
  have hsame : c.Onward x → HasToken (c.pos + t.length) x →
      ((mirror c c' x).startsWith "\x7b" || (mirror c c' x).startsWith "[") =
        (x.startsWith "\x7b" || x.startsWith "[") := by
    intro hx hend
    rw [h.startsWith_mirror (by decide) (by decide) hx hend,
      h.startsWith_mirror (by decide) (by decide) hx hend]
  unfold bindingTarget
  cases hpattern : x.startsWith "\x7b" || x.startsWith "[" with
  | true =>
    have hread : FollowsUpTo c c' x (c.pos + t.length)
        (do let names ← boundNames; return Target.pattern names (← rangeFrom x))
        (do let names ← boundNames; return Target.pattern names (← rangeFrom (mirror c c' x))) :=
      .bind h.boundNames_follows fun _ _ _ _ _ => .bind (rangeFrom_follows _ _) fun _ _ _ _ _ =>
        .pure rfl
    exact hread.exchange fun hx hend => by rw [hsame hx hend, hpattern, if_pos rfl]
  | false =>
    have hread : FollowsUpTo c c' x (c.pos + t.length) (do return Target.name (← name))
        (do return Target.name (← name)) :=
      .bind h.name_follows fun _ _ _ _ _ => .pure rfl
    exact hread.exchange fun hx hend => by
      rw [hsame hx hend, hpattern, if_neg Bool.false_ne_true]

theorem declarator_follows :
    FollowsInside c c' x (c.pos + t.length) declarator declarator (fun _ => ()) := by
  rw [declarator_eq]
  refine .get <| .bind h.bindingTarget_follows.before fun _ _ y _ _ => ?_
  have hvalue : FollowsInside c c' y (c.pos + t.length) (Scan.afterSpace initialValue)
      (Scan.afterSpace initialValue) isSome := by
    refine (FollowsAt.afterSpace h.space_follows (fun q _ => h.initialValue_follows) ?_).mono id ?_
    · intro q d hrun
      exact initialValue_stays hrun
    · intro answer d hd
      cases answer with
      | some value => exact hd
      | none => exact hd
  exact .bind hvalue fun _ _ _ _ _ => .bind (rangeFrom_follows _ _) fun _ _ _ _ _ => .pure rfl

theorem declarators_follow (fuel : Nat) :
    ∀ fuel' x, c.pos + t.length - x.pos < fuel' →
      FollowsInside c c' x (c.pos + t.length) (declarators fuel) (declarators fuel')
        (fun _ => ()) := by
  have hcomma : IsTokenText "," := isTokenText_mark (by simp)
  induction fuel with
  | zero => exact fun _ _ _ => .failHere
  | succ fuel ih =>
    intro fuel' x hfuel
    obtain ⟨fuel', rfl⟩ := Nat.exists_eq_succ_of_ne_zero (Nat.ne_zero_of_lt hfuel)
    refine .bind h.space_follows fun _ _ y hy _ =>
      .bind h.declarator_follows fun first first' z hz _ =>
      .bind (h.afterSpace_mark_follows hcomma) fun comma comma' w hw hsame => ?_
    have hzle := ((space_onward hy).trans (declarator_inText.onward hz)).pos_le
    cases comma with
    | none =>
      obtain rfl := not_isSome_iff_eq_none.mp (by rw [hsame]; simp)
      exact .pure rfl
    | some u =>
      obtain ⟨u', rfl⟩ := isSome_iff_exists.mp hsame
      have hlt := pos_lt_of_mark hcomma hw
      have hrest : FollowsInside c c' w (c.pos + t.length) (declarators fuel) (declarators fuel')
          (fun _ => ()) :=
        .of_pos (declarators_onward _) (fun _ _ hd => Nat.le_of_lt hd.pos_lt) fun hle =>
          ih fuel' w (by omega)
      exact .bind (hrest.mono (fun hw => Nat.le_of_lt hw.pos_lt) fun _ _ hd => hd)
        fun _ _ _ _ _ => .pure rfl

/-- The parameter list of a range can be passed as a block. -/
def ClosesAt (c : Cursor) (params : Range) : Prop :=
  ∃ inner e, parentheses ((Cursor.atStart c.bytes).advance params.pos) = .ok inner e

theorem parameters_follows :
    FollowsAt c c' x (HasToken (c.pos + t.length) x) parameters parameters
      (fun params d => ClosesAt c params ∧ HasToken (c.pos + t.length) d) (fun _ => ()) := by
  intro hx params d hrun
  refine ⟨hx.trans (parameters_inText.onward hrun), ?_⟩
  rintro ⟨⟨inner, e, hcloses⟩, hnext⟩
  obtain ⟨hstarts, rfl, hblock⟩ := parameters_eq_ok.mp hrun
  rw [pos_rangeTo, ← hx.bytes_eq, ← eq_moveTo] at hcloses
  rcases hblock with ⟨inner', hblock⟩ | ⟨⟨fault, f, herror⟩, _⟩
  · obtain ⟨htoken, inner'', hcopy, _⟩ :=
      (h.block_follows (by decide) (by decide) hx inner' d hblock).2 (Nat.le_of_lt hnext.pos_lt)
    refine ⟨htoken, _, parameters_eq_ok.mpr ⟨?_, rfl, .inl ⟨inner'', hcopy⟩⟩, rfl⟩
    rw [h.startsWith_mirror (by decide) (by decide) hx htoken]
    exact hstarts
  · rw [hcloses] at herror
    cases herror

theorem acceptWord_before {word : String} (hword : IsWord word) :
    FollowsInside c c' x (c.pos + t.length) (acceptWord word) (acceptWord word) id := by
  refine (h.acceptWord_follows hword).mono id fun found d hd => ?_
  cases found with
  | true => exact Nat.le_of_lt hd.pos_lt
  | false => exact hd

theorem declaredName_follows (present required : Bool) :
    FollowsInside c c' x (c.pos + t.length) (declaredName present required)
      (declaredName present required) (fun _ => ()) := by
  unfold declaredName
  split
  · exact .bind h.name_follows.before fun _ _ _ _ _ => .pure rfl
  · split
    · exact .failHere
    · exact .pure rfl

theorem braces_follows : FollowsUpTo c c' x (c.pos + t.length) braces braces :=
  h.block_follows (by decide) (by decide)

theorem spaced_follows {op : Scan Bool} (hop : FollowsInside c c' x (c.pos + t.length) op op id) :
    FollowsInside c c' x (c.pos + t.length) (spaced op) (spaced op) id :=
  .test hop (fun _ _ => .bind h.space_follows fun _ _ _ _ _ => .pure rfl) fun _ _ => .pure rfl

theorem functionHead_follows (start start' : Cursor) (isAsync isAsync' nameRequired : Bool) :
    FollowsAt c c' x (HasToken (c.pos + t.length) x) (functionHead start isAsync nameRequired)
      (functionHead start' isAsync' nameRequired)
      (fun a d => ClosesAt c a.parameters ∧ d.pos ≤ c.pos + t.length) (fun _ => ()) := by
  refine .bind (h.expectWord_follows Keyword.functionWord.isWord).before fun _ _ _ _ _ =>
    .bind h.space_follows fun _ _ _ _ _ =>
    .bind (h.spaced_follows (h.accept_before (isTokenText_mark (by simp)))) fun _ _ _ _ _ =>
    .bind h.atName_follows fun present present' _ _ hpresent => ?_
  obtain rfl : present' = present := hpresent
  refine .bind (h.declaredName_follows _ _) fun _ _ _ _ _ => .bind h.space_follows
    fun _ _ _ _ _ => .bind h.parameters_follows fun _ _ _ _ _ => ?_
  exact .bind h.space_follows.frame fun _ _ _ _ _ => .bind h.braces_follows.frame fun _ _ _ _ _ =>
    .bind (FollowsAt.frame (rangeFrom_follows start start')) fun _ _ _ _ _ => .pure rfl

theorem functionDeclaration_follows (nameRequired : Bool) :
    FollowsAt c c' x (HasToken (c.pos + t.length) x) (functionDeclaration nameRequired)
      (functionDeclaration nameRequired)
      (fun a d => ClosesAt c a.parameters ∧ d.pos ≤ c.pos + t.length) (fun _ => ()) := by
  rw [functionDeclaration_eq]
  exact .get <| .bind (h.spaced_follows (h.acceptWord_before Keyword.asyncWord.isWord))
    fun isAsync isAsync' _ _ _ => h.functionHead_follows _ _ isAsync isAsync' nameRequired

theorem heritageClause_follows : FollowsInside c c' x (c.pos + t.length) heritageClause
    heritageClause (fun _ => ()) :=
  .test (h.acceptWord_before Keyword.extendsWord.isWord) (fun _ _ => .bind h.space_follows
    fun _ _ _ _ _ => .bind (.classified h.heritage_follows) fun _ _ _ _ _ => .pure rfl)
    fun _ _ => .pure rfl

theorem classDeclaration_follows (nameRequired : Bool) :
    FollowsUpTo c c' x (c.pos + t.length) (classDeclaration nameRequired)
      (classDeclaration nameRequired) := by
  rw [classDeclaration_eq]
  refine .get <| .bind (h.expectWord_follows Keyword.classWord.isWord).before fun _ _ _ _ _ =>
    .bind h.space_follows fun _ _ _ _ _ => .bind h.atName_follows fun named named' y _ hnamed => ?_
  obtain rfl : named' = named := hnamed
  have hextends : FollowsInside c c' y (c.pos + t.length) (peek (·.startsWithWord "extends"))
      (peek (·.startsWithWord "extends")) id :=
    .peek fun hx hend => h.startsWithWord_mirror Keyword.extendsWord.isWord hx hend
  refine .bind hextends fun extends_ extends' z _ hsame => ?_
  obtain rfl : extends' = extends_ := hsame
  exact .bind (h.declaredName_follows _ _) fun _ _ _ _ _ => .bind h.space_follows fun _ _ _ _ _ =>
    .bind h.heritageClause_follows fun _ _ _ _ _ => .bind h.space_follows fun _ _ _ _ _ =>
    .bind h.braces_follows fun _ _ _ _ _ => .bind (rangeFrom_follows _ _) fun _ _ _ _ _ => .pure rfl

end Copied

end ModuleBridge
