import ModuleBridge.Proofs.Emit.Interleaving

/-!
# Wrapping code that awaits

A body goes into an async function when code that runs at the top level awaits there. Classes are
not asked: their heritage clauses and computed keys run at the top level too, but an `await` in them
leaves the body as it is. Wrapped or not, the body is the same.
-/

namespace ModuleBridge

/-- The code of a statement that the output copies and runs at its top level. The body of a function
runs later, and a lone name is not copied. -/
def Statement.topLevelCode : Statement → Option Range
  | .declaration (.function _) => none
  | .declaration d => some d.range
  | .verbatim _ range => some range
  | .exportDeclaration (.function _) _ => none
  | .exportDeclaration d _ => some d.range
  | .exportDefault (.expression (.name _)) _ => none
  | .exportDefault (.function _) _ => none
  | .exportDefault value _ => some value.range
  | _ => none

def Statement.isClass : Statement → Bool
  | .declaration (.classOf _) => true
  | .exportDeclaration (.classOf _) _ => true
  | .exportDefault (.classOf _) _ => true
  | _ => false

/-- The code of a statement awaits while the module is loaded. -/
def Statement.AwaitsOnLoad (text : String) (s : Statement) : Prop :=
  ∃ range ∈ s.topLevelCode, awaitsAtTopLevel (range.slice text) = true

theorem Statement.searched_eq (s : Statement) :
    s.searched = if s.isClass then none else s.topLevelCode := by
  cases s with
  | declaration d => cases d <;> rfl
  | exportDeclaration d range => cases d <;> rfl
  | exportDefault value range =>
    cases value with
    | expression e => cases e <;> rfl
    | function d => rfl
    | classOf d => rfl
  | _ => rfl

theorem Statement.awaits_iff {text : String} {s : Statement} :
    s.awaits text = true ↔ s.AwaitsOnLoad text ∧ s.isClass = false := by
  unfold Statement.awaits Statement.AwaitsOnLoad
  rw [s.searched_eq, Option.any_eq_true]
  cases s.isClass <;> simp

/-- The same converter, told whether to wrap code that awaits. -/
def Converter.wrapping (k : Converter) (wrap : Bool) : Converter :=
  { k with options := { k.options with wrapTopLevelAwait := wrap } }

theorem Converter.convert_wrapping (k : Converter) (m : Module) (text : String)
    (path : Option String) :
    ∃ body, ∀ wrap, ((k.wrapping wrap).convert m text path).1 =
      if m.body.any (·.awaits text) && wrap then wrapAsync body else withPreamble body := by
  refine ⟨renderLines ((convertStatements (settingOf k.options m text path) m.body).sections.lines
    k.options.importPlacement), ?_⟩
  intro wrap
  have hadds : ∀ s : Statement, s.adds (settingOf (k.wrapping wrap).options m text path) =
      s.adds (settingOf k.options m text path) := by
    intro s
    cases s with
    | exportList entries source range => cases source <;> rfl
    | _ => rfl
  simp only [Converter.convert, Conversion.text, convertStatements_awaits,
    convertStatements_sections, hadds]
  rfl

theorem wrapAsync_ne_withPreamble (body : String) : wrapAsync body ≠ withPreamble body := by
  intro h
  have hlength := congrArg String.length h
  have hback : 2 < ("\n\x7d)().catch(err => \x7b\n").length := by decide
  have hline : ("\n").length = 1 ∧ ("\n\n").length = 2 := by decide
  unfold wrapAsync withPreamble at hlength
  split at hlength <;> simp only [String.length_append] at hlength <;> omega

/-- Every module has one body. Without wrapping it stands as it is, and with wrapping it goes into
the async function exactly when a statement other than a class awaits on load: where only classes
await on load, it stands as it is. -/
theorem Converter.convert_eq_wrapAsync_iff (k : Converter) (m : Module) (text : String)
    (path : Option String) :
    ∃ body, ((k.wrapping false).convert m text path).1 = withPreamble body ∧
      (((k.wrapping true).convert m text path).1 = wrapAsync body ↔
        ∃ s ∈ m.body, s.AwaitsOnLoad text ∧ s.isClass = false) ∧
      (((k.wrapping true).convert m text path).1 = withPreamble body ↔
        ∀ s ∈ m.body, s.AwaitsOnLoad text → s.isClass = true) := by
  obtain ⟨body, hbody⟩ := k.convert_wrapping m text path
  have hne := wrapAsync_ne_withPreamble body
  have hany : m.body.any (·.awaits text) = true ↔
      ∃ s ∈ m.body, s.AwaitsOnLoad text ∧ s.isClass = false := by
    simp only [List.any_eq_true, Statement.awaits_iff]
  refine ⟨body, by rw [hbody, Bool.and_false]; rfl, ?_, ?_⟩
  · rw [← hany, hbody, Bool.and_true]
    cases m.body.any (·.awaits text)
    · simp [hne.symm]
    · simp
  · rw [hbody, Bool.and_true]
    cases hawaits : m.body.any (·.awaits text) with
    | false => simp_all
    | true =>
      obtain ⟨s, hs, hload, hclass⟩ := hany.mp hawaits
      simp only [if_true, hne, false_iff]
      intro hall
      rw [hall s hs hload] at hclass
      cases hclass

end ModuleBridge
