import ModuleBridge.Proofs.Grammar.Onward
import ModuleBridge.Proofs.Source.GapStretch

/-!
# Reading over a gap

A reading of the grammar is alike over a comment and over blanks: from aligned cursors both runs end
at aligned cursors with similar answers, or stop with the same fault. `Gap.Alike` is the judgement,
with one rule for each way of composing readings. Answers are similar when they differ at most in the
texts of what is kept verbatim, which hold the gap itself.
-/

namespace ModuleBridge

open Scan Cursor List

/-- The expression with its range but not its text, if it is kept verbatim. -/
def Expression.withoutText : Expression → Expression
  | .verbatim _ range => .verbatim "" range
  | other => other

def Declarator.withoutText (d : Declarator) : Declarator :=
  { d with value := d.value.map Expression.withoutText }

def VariableDeclaration.withoutText (d : VariableDeclaration) : VariableDeclaration :=
  { d with declarators := d.declarators.map Declarator.withoutText }

def ClassDeclaration.withoutText (d : ClassDeclaration) : ClassDeclaration :=
  { d with superclass := d.superclass.map Expression.withoutText }

def Declaration.withoutText : Declaration → Declaration
  | .variable d => .variable d.withoutText
  | .function d => .function d
  | .classOf d => .classOf d.withoutText

def DefaultExport.withoutText : DefaultExport → DefaultExport
  | .expression value => .expression value.withoutText
  | .function d => .function d
  | .classOf d => .classOf d.withoutText

/-- The statement with all its names and ranges, but without the texts of its verbatim parts. -/
def Statement.withoutText : Statement → Statement
  | .exportDefault value range => .exportDefault value.withoutText range
  | .exportDeclaration d range => .exportDeclaration d.withoutText range
  | .declaration d => .declaration d.withoutText
  | .verbatim _ range => .verbatim "" range
  | other => other

def Module.withoutText (m : Module) : Module :=
  ⟨m.body.map Statement.withoutText⟩

namespace Gap

variable {α β : Type} {g : Gap} {c d : Cursor}

/-- From aligned cursors `op` and `op'` end alike, with answers related by `R`. -/
def Alike (g : Gap) (R : α → α → Prop) (op op' : Scan α) : Prop :=
  ∀ ⦃c d⦄, g.Aligned c d → Agree g.Aligned R (op c) (op' d)

namespace Alike

variable {R : α → α → Prop} {S : β → β → Prop}

theorem mono {Q : α → α → Prop} {op op' : Scan α} (h : g.Alike R op op')
    (hanswer : ∀ a b, R a b → Q a b) : g.Alike Q op op' :=
  fun _ _ haligned => (h haligned).answers hanswer

theorem pure {a b : α} (h : R a b) : g.Alike R (pure a) (pure b) := by
  intro c d haligned
  exact .ok h haligned

theorem failHere (message : Message) (args : List String) :
    g.Alike R (failHere message args) (failHere message args) := by
  intro c d haligned
  change Agree g.Aligned R (.error (c.fault message args) c) (.error (d.fault message args) d)
  rw [haligned.fault_eq]
  exact .error

theorem bind {op op' : Scan α} {next next' : α → Scan β} (hop : g.Alike R op op')
    (hnext : ∀ a b, R a b → g.Alike S (next a) (next' b)) :
    g.Alike S (op >>= next) (op' >>= next') := by
  intro c d haligned
  exact (hop haligned).bind fun a b x y _ hanswer hend => hnext a b hanswer hend

theorem seq {op op' : Scan α} {next next' : α → Scan β} (hop : g.Alike Eq op op')
    (hnext : ∀ a, g.Alike S (next a) (next' a)) : g.Alike S (op >>= next) (op' >>= next') := by
  refine hop.bind fun a b hanswer => ?_
  subst hanswer
  exact hnext a

theorem get {next next' : Cursor → Scan β}
    (h : ∀ c d, g.Aligned c d → g.Alike S (next c) (next' d)) :
    g.Alike S (get >>= next) (get >>= next') := by
  intro c d haligned
  exact h c d haligned haligned

theorem peek {f f' : Cursor → α} (h : ∀ c d, g.Aligned c d → R (f c) (f' d)) :
    g.Alike R (peek f) (peek f') := by
  intro c d haligned
  exact .ok (h c d haligned) haligned

theorem ite {p : Prop} [Decidable p] {op op' other other' : Scan α} (hop : g.Alike R op op')
    (hother : g.Alike R other other') :
    g.Alike R (if p then op else other) (if p then op' else other') := by
  split
  · exact hop
  · exact hother

end Alike

/-! ## Small readings -/

theorem alike_trivia : g.Alike Eq trivia trivia := by
  intro c d h
  exact h.trivia.mono fun _ _ hend => hend.aligned

theorem alike_space : g.Alike Eq space space :=
  alike_trivia.seq fun _ => .pure rfl

theorem alike_accept {text : String} (htext : (bytesOf text).all isMark = true) :
    g.Alike Eq (accept text) (accept text) := by
  intro c d h
  simp only [accept, ← h.startsWith_eq htext]
  split
  · exact .ok rfl (h.advance_startsWith htext ‹_›)
  · exact .ok rfl h

theorem alike_acceptWord {word : String} (hword : (bytesOf word).all isNamePart = true) :
    g.Alike Eq (acceptWord word) (acceptWord word) := by
  intro c d h
  simp only [acceptWord, ← h.startsWithWord_eq hword]
  split
  · exact .ok rfl (h.advance_startsWith (marks_of_word hword) (startsWith_of_startsWithWord ‹_›))
  · exact .ok rfl h

theorem alike_expect {text : String} (htext : (bytesOf text).all isMark = true) :
    g.Alike Eq (expect text) (expect text) :=
  (alike_accept htext).seq fun _ => .ite (.pure rfl) (.failHere _ _)

theorem alike_expectWord {word : String} (hword : (bytesOf word).all isNamePart = true) :
    g.Alike Eq (expectWord word) (expectWord word) :=
  (alike_acceptWord hword).seq fun _ => .ite (.pure rfl) (.failHere _ _)

theorem alike_atName : g.Alike Eq atName atName :=
  .peek fun _ _ h => h.byte?_any_eq endsAtGap_nameStart

theorem alike_rangeFrom (h : g.Aligned c d) : g.Alike Eq (rangeFrom c) (rangeFrom d) :=
  .peek fun _ _ hend => h.rangeTo_eq hend

theorem take_takeWhile (p : UInt8 → Bool) (bytes : List UInt8) :
    bytes.take (bytes.takeWhile p).length = bytes.takeWhile p :=
  (prefix_iff_eq_take.mp (List.takeWhile_prefix p)).symm

theorem alike_name : g.Alike Eq name name := by
  intro c d h
  have htake := h.takeWhile_eq endsAtGap_namePart
  have hend := h.advance_takeWhile endsAtGap_namePart
  have htext : d.after.take (c.after.takeWhile isNamePart).length = c.after.takeWhile isNamePart := by
    rw [htake, take_takeWhile]
  simp only [name, ← h.byte?_any_eq endsAtGap_nameStart, textUpTo_advance, ← htake,
    take_takeWhile, htext]
  split
  · refine .ok ?_ hend
    rw [h.rangeTo_eq hend]
  · rw [h.fault_eq]
    exact .error

theorem quoted_of_plain (h : c.byte?.any isQuote = false) :
    quoted c = .error (c.fault .stringExpected []) c := by
  unfold quoted
  cases hafter : c.after with
  | nil => rfl
  | cons b rest =>
    have hb : isQuote b = false := by simpa [byte?, hafter] using h
    simp only [hb, Bool.false_eq_true, if_false]

theorem Before.not_quote {x y : List UInt8} (h : g.Before c d x y) : c.byte?.any isQuote = false := by
  rw [byte?, h.after_here]
  cases y with
  | nil =>
    obtain ⟨rest, hrest⟩ := g.head_filled
    rw [hrest]
    rfl
  | cons b y =>
    have hplain := h.plain
    simp only [startsLiteral, Bool.or_eq_false_iff] at hplain
    exact hplain.1.1

theorem alike_quoted : g.Alike Eq quoted quoted := by
  intro c d h
  cases h with
  | before h =>
    have haligned : g.Aligned c d := .before h
    have hquote' : d.byte?.any isQuote = false := by
      rw [← haligned.byte?_any_eq endsAtGap_quote, h.not_quote]
    rw [quoted_of_plain h.not_quote, quoted_of_plain hquote', haligned.fault_eq]
    exact .error
  | @beyond x y h =>
    have haligned : g.Aligned c d := .beyond h
    have hrange : ∀ n, c.rangeTo (c.advance n) = d.rangeTo (d.advance n) :=
      fun n => haligned.rangeTo_eq (.beyond (h.advance n))
    simp only [quoted, h.after_here, h.after_there, haligned.fault_eq, hrange]
    cases y with
    | nil => exact .error
    | cons b rest =>
      dsimp only
      split
      · cases quotedReach b rest 0 with
        | closed length => exact .ok rfl (.beyond (h.advance _))
        | broken length => exact .error
      · exact .error

def fractionOf (rest : List UInt8) : Nat × List UInt8 :=
  if rest.head? == some (byte '.') then (1, rest.tail.takeWhile isDigitByte) else (0, [])

theorem Aligned.fraction (h : g.Aligned c d) :
    fractionOf c.after = fractionOf d.after ∧
      g.Aligned (c.advance ((fractionOf c.after).1 + (fractionOf c.after).2.length))
        (d.advance ((fractionOf c.after).1 + (fractionOf c.after).2.length)) := by
  have hmark : isMark (byte '.') = true := by decide
  have hstands := h.byte?_beq hmark
  cases hpoint : c.byte? == some (byte '.') with
  | false =>
    rw [hpoint] at hstands
    rw [fractionOf, fractionOf, ← byte?, ← byte?, hpoint, ← hstands]
    simpa using h
  | true =>
    rw [hpoint] at hstands
    have hone := (h.settled_of_byte hmark hpoint).advance_one
    have hdigits := hone.takeWhile_eq endsAtGap_digit
    have hend := hone.advance_takeWhile endsAtGap_digit
    rw [after_advance, after_advance, drop_one, drop_one] at hdigits
    rw [after_advance, drop_one, advance_advance, advance_advance] at hend
    rw [fractionOf, fractionOf, ← byte?, ← byte?, hpoint, ← hstands, hdigits]
    rw [hdigits] at hend
    exact ⟨rfl, hend⟩

def numberOf (c : Cursor) (whole : List UInt8) (fraction : Nat × List UInt8) :
    EStateM.Result Fault Cursor NumberToken :=
  match whole ++ fraction.2 with
  | [] => .error (c.fault .digitExpected []) c
  | digits =>
    let d := c.advance (whole.length + fraction.1 + fraction.2.length)
    .ok ⟨Binary64.ofDecimal (digitsValue digits) fraction.2.length, c.rangeTo d⟩ d

theorem number_eq (c : Cursor) :
    number c = numberOf c (c.after.takeWhile isDigitByte)
      (fractionOf (c.after.dropWhile isDigitByte)) :=
  rfl

theorem alike_number : g.Alike Eq number number := by
  intro c d h
  have hwhole := h.takeWhile_eq endsAtGap_digit
  obtain ⟨hfraction, hend⟩ := (h.advance_takeWhile endsAtGap_digit).fraction
  rw [advance_advance, advance_advance, ← Nat.add_assoc] at hend
  have hrest : d.after.dropWhile isDigitByte =
      (d.advance (c.after.takeWhile isDigitByte).length).after := by
    rw [hwhole]
    exact dropWhile_eq_drop _ _
  rw [number_eq, number_eq, hrest, ← hfraction, ← hwhole, dropWhile_eq_drop, ← after_advance]
  generalize fractionOf (c.advance (c.after.takeWhile isDigitByte).length).after = fraction at hend
  unfold numberOf
  cases c.after.takeWhile isDigitByte ++ fraction.2 with
  | nil =>
    dsimp only
    rw [h.fault_eq]
    exact .error
  | cons digit digits =>
    dsimp only
    rw [h.rangeTo_eq hend]
    exact .ok rfl hend

/-! ## Expressions and patterns -/

theorem coversTo_eq {op : Scan α} (h : Agree g.Aligned Eq (op c) (op d)) (stop : Nat) :
    coversTo op c stop = coversTo op d stop := by
  rcases h.elim with ⟨fault, e, e', here, there⟩ | ⟨a, _, e, e', here, there, rfl, hend⟩
  · rw [coversTo, coversTo, here, there]
  · rw [coversTo, coversTo, here, there]
    dsimp only
    rw [hend.pos_eq]

/-- One token covers an expression in both texts or in neither; the gap itself is no token. -/
theorem Aligned.classifyExpression (h : g.Aligned c d) (stop : Nat) :
    (classifyExpression c stop).withoutText = (classifyExpression d stop).withoutText := by
  unfold ModuleBridge.classifyExpression
  rw [coversTo_eq (alike_quoted h), coversTo_eq (alike_number h), coversTo_eq (alike_name h),
    h.pos_eq]
  cases h.byte?_cases with
  | inl hbyte =>
    rw [hbyte]
    cases d.byte? with
    | none => rfl
    | some b =>
      dsimp only
      split
      · cases coversTo quoted d stop <;> rfl
      · split
        · cases coversTo number d stop <;> rfl
        · split
          · cases coversTo name d stop <;> rfl
          · rfl
  | inr hgap =>
    rw [hgap.1, hgap.2]
    rfl

theorem alike_classified {stretch : Scan Range} (h : g.Alike Eq stretch stretch) :
    g.Alike (InvImage Eq Expression.withoutText) (classified stretch) (classified stretch) :=
  .get fun _ _ hstart => h.seq fun _ =>
    .ite ((Alike.failHere (R := Eq) _ _).seq fun _ => .pure (hstart.classifyExpression _))
      (.pure (hstart.classifyExpression _))

section Code

variable (hslash : g.turnsSlash = false)

include hslash

theorem alike_expression : g.Alike Eq expression expression :=
  fun _ _ h => h.expression hslash

theorem alike_value : g.Alike (InvImage Eq Expression.withoutText) value value :=
  alike_classified (alike_expression hslash)

theorem alike_superclass :
    g.Alike (InvImage Eq Expression.withoutText) (classified heritage) (classified heritage) :=
  alike_classified fun _ _ h => h.heritageFrom hslash h.pos_eq

theorem alike_braces : g.Alike Eq braces braces :=
  fun _ _ h => h.block hslash (by decide) (by decide)

theorem alike_brackets : g.Alike Eq brackets brackets :=
  fun _ _ h => h.block hslash (by decide) (by decide)

theorem alike_parentheses : g.Alike Eq parentheses parentheses :=
  fun _ _ h => h.block hslash (by decide) (by decide)

end Code

theorem alike_atAssignment : g.Alike Eq atAssignment atAssignment := by
  refine .peek fun c d h => ?_
  have hone : (bytesOf "=").all isMark = true := by decide
  have htwo : (bytesOf "==").all isMark = true := by decide
  rw [h.startsWith_eq hone, h.startsWith_eq htwo]

section

variable (hslash : g.turnsSlash = false)

include hslash

theorem alike_defaultValue : g.Alike Eq defaultValue defaultValue :=
  alike_space.seq fun _ => alike_atAssignment.seq fun _ => .ite
    ((alike_accept (by decide)).seq fun _ => alike_space.seq fun _ =>
      (alike_expression hslash).seq fun _ => .pure rfl) (.pure rfl)

theorem alike_propertyKey : g.Alike Eq propertyKey propertyKey := by
  have hname : g.Alike Eq (do return some (← name)) (do return some (← name)) :=
    alike_name.seq fun _ => .pure rfl
  refine .get fun c d h => ?_
  cases h.byte?_cases with
  | inl hbyte =>
    rw [hbyte]
    cases d.byte? with
    | none => exact hname
    | some b =>
      exact .ite (alike_quoted.seq fun _ => .pure rfl) <|
        .ite ((alike_brackets hslash).seq fun _ => .pure rfl) <|
        .ite (alike_number.seq fun _ => .pure rfl) hname
  | inr hgap =>
    rw [hgap.1, hgap.2]
    exact hname

omit hslash in
theorem alike_patternRest {more : Scan (List Name)} (hmore : g.Alike Eq more more) {closer : String}
    (hcloser : (bytesOf closer).all isMark = true) (names : List Name) :
    g.Alike Eq (patternRest more closer names) (patternRest more closer names) :=
  alike_space.seq fun _ => (alike_accept (by decide)).seq fun _ =>
    .ite (hmore.seq fun _ => .pure rfl) ((alike_expect hcloser).seq fun _ => .pure rfl)

theorem alike_entry {binding : Scan (List Name)} {next : List Name → Scan (List Name)}
    (hbinding : g.Alike Eq binding binding)
    (hnext : ∀ names, g.Alike Eq (next names) (next names)) :
    g.Alike Eq (entry binding next) (entry binding next) :=
  hbinding.seq fun _ => (alike_defaultValue hslash).seq fun _ => hnext _

theorem alike_patterns (fuel : Nat) :
    g.Alike Eq (bindingNames fuel) (bindingNames fuel) ∧
      g.Alike Eq (objectNames fuel) (objectNames fuel) ∧
      g.Alike Eq (arrayNames fuel) (arrayNames fuel) := by
  refine patterns_induction (B := fun op => g.Alike Eq op op) (O := fun op => g.Alike Eq op op)
    (A := fun op => g.Alike Eq op op) ⟨.failHere _ _, .failHere _ _, .failHere _ _⟩
    (fun object array hobject harray => ?_) (fun binding object hbinding hobject => ?_)
    (fun binding array hbinding harray => ?_) fuel
  · exact (alike_accept (by decide)).seq fun _ => .ite hobject <|
      (alike_accept (by decide)).seq fun _ => .ite harray (alike_name.seq fun _ => .pure rfl)
  · have hrest := alike_patternRest hobject (by decide : (bytesOf "\x7d").all isMark = true)
    refine alike_space.seq fun _ => (alike_accept (by decide)).seq fun _ => .ite (.pure rfl) <|
      (alike_accept (by decide)).seq fun _ => .ite (alike_space.seq fun _ => hbinding.seq hrest) ?_
    refine (alike_propertyKey hslash).seq fun key => alike_space.seq fun _ =>
      (alike_accept (by decide)).seq fun _ =>
        .ite (alike_space.seq fun _ => alike_entry hslash hbinding hrest) ?_
    cases key with
    | some name => exact (alike_defaultValue hslash).seq fun _ => hrest _
    | none => exact .failHere _ _
  · have hentry := alike_entry hslash hbinding
      (alike_patternRest harray (by decide : (bytesOf "]").all isMark = true))
    exact alike_space.seq fun _ => (alike_accept (by decide)).seq fun _ => .ite (.pure rfl) <|
      (alike_accept (by decide)).seq fun _ => .ite harray <|
        (alike_accept (by decide)).seq fun _ => .ite (alike_space.seq fun _ => hentry) hentry

theorem alike_boundNames : g.Alike Eq boundNames boundNames := by
  refine .get fun c d h => ?_
  rw [h.length_eq]
  exact (alike_patterns hslash _).1

end

end Gap

end ModuleBridge
