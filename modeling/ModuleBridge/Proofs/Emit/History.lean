import ModuleBridge.Proofs.Emit.Interleaving
import ModuleBridge.Proofs.Emit.Requests

/-!
# Converters in use

A converter is asked to convert modules and to hand over its notes, in any order. What it answers to
a conversion does not depend on what it was asked before, nor on which sources it has resolved for
the same module. A note is handed over once, with the notes that were made since the last time.
-/

namespace ModuleBridge

open Conversion List Statement

/-! ## Sources that are named for the first time -/

/-- The sources of `sources` with a value that none in front of them has, `before` included. -/
def freshAfter (before : List Quoted) : List Quoted → List Quoted
  | [] => []
  | q :: rest =>
    (if before.any (·.value == q.value) then [] else [q]) ++ freshAfter (before ++ [q]) rest

def firstNamed (sources : List Quoted) : List Quoted :=
  freshAfter [] sources

theorem freshAfter_append (before front back : List Quoted) :
    freshAfter before (front ++ back) =
      freshAfter before front ++ freshAfter (before ++ front) back := by
  induction front generalizing before with
  | nil => simp [freshAfter]
  | cons q front ih => simp [freshAfter, ih]

theorem freshAfter_sublist (before sources : List Quoted) :
    (freshAfter before sources).Sublist sources := by
  induction sources generalizing before with
  | nil => exact .slnil
  | cons q rest ih =>
    unfold freshAfter
    split
    · exact (ih _).cons q
    · exact (ih _).cons_cons q

theorem mem_freshAfter {before sources : List Quoted} {q : Quoted} :
    q ∈ freshAfter before sources ↔
      ∃ front back, sources = front ++ q :: back ∧ ∀ p ∈ before ++ front, p.value ≠ q.value := by
  induction sources generalizing before with
  | nil => simp [freshAfter]
  | cons first rest ih =>
    rw [freshAfter, mem_append, ih]
    constructor
    · rintro (hfirst | ⟨front, back, hrest, hfresh⟩)
      · split at hfirst
        · cases hfirst
        · next hnone =>
          obtain rfl := mem_singleton.mp hfirst
          refine ⟨[], rest, rfl, fun p hp heq => hnone ?_⟩
          rw [append_nil] at hp
          exact any_eq_true.mpr ⟨p, hp, beq_iff_eq.mpr heq⟩
      · refine ⟨first :: front, back, by rw [hrest, cons_append], ?_⟩
        rwa [append_assoc, singleton_append] at hfresh
    · rintro ⟨front, back, hsources, hfresh⟩
      cases front with
      | nil =>
        obtain ⟨rfl, rfl⟩ := List.cons.inj hsources
        left
        rw [if_neg, mem_singleton]
        intro hany
        obtain ⟨p, hp, heq⟩ := any_eq_true.mp hany
        exact hfresh p (mem_append_left [] hp) (beq_iff_eq.mp heq)
      | cons other front =>
        obtain ⟨rfl, rfl⟩ := List.cons.inj hsources
        refine .inr ⟨front, back, rfl, ?_⟩
        rwa [append_assoc, singleton_append]

theorem nodup_freshAfter (before sources : List Quoted) :
    ((freshAfter before sources).map (·.value)).Nodup := by
  induction sources generalizing before with
  | nil => exact nodup_nil
  | cons q rest ih =>
    unfold freshAfter
    split
    · exact ih _
    · refine nodup_cons.mpr ⟨fun hmem => ?_, ih _⟩
      obtain ⟨p, hp, heq⟩ := mem_map.mp hmem
      obtain ⟨front, back, _, hfresh⟩ := mem_freshAfter.mp hp
      exact hfresh q (by simp) heq.symm

/-! ## Notes of a conversion -/

def Module.sources (m : Module) : List Quoted :=
  m.body.filterMap source?

def originNote (path : Option String) (source : Quoted) : Diagnostic :=
  .placed (path.getD "") source.range.toSpan .noOrigin [source.value, path.getD ""]

/-- The notes for sources that have not been noted before. -/
def originNotes (path : Option String) (sources : List Quoted) : List Diagnostic :=
  (sources.filter fun q => Specifier.requiresOrigin q.value path).map (originNote path)

theorem originNotes_append (path : Option String) (front back : List Quoted) :
    originNotes path (front ++ back) = originNotes path front ++ originNotes path back := by
  simp [originNotes]

namespace Conversion

variable {setting : Setting} {c : Conversion} {before : List Quoted}

/-- The values that have been resolved are those of `before`. -/
def Knows (c : Conversion) (before : List Quoted) : Prop :=
  ∀ value, (c.resolved.lookup value).isSome = before.any (·.value == value)

def visit (setting : Setting) (c : Conversion) : Option Quoted → Conversion
  | some q => (c.resolve setting q).2
  | none => c

theorem addDefaultCallable_notes (c : Conversion) (name : Option Name) (text : String) :
    (c.addDefaultCallable setting name text).notes = c.notes := by
  cases name <;> rfl

theorem addExportDefault_notes (c : Conversion) (value : DefaultExport) :
    (c.addExportDefault setting value).notes = c.notes := by
  cases value with
  | expression e => cases e <;> rfl
  | function d => exact addDefaultCallable_notes c d.name _
  | classOf d => exact addDefaultCallable_notes c d.name _

theorem add_visit (c : Conversion) (s : Statement) :
    (c.add setting s).notes = (c.visit setting s.source?).notes ∧
      (c.add setting s).resolved = (c.visit setting s.source?).resolved := by
  cases s with
  | exportDefault value range =>
    exact ⟨addExportDefault_notes c value, addExportDefault_resolved c value⟩
  | exportDeclaration d range => cases d <;> exact ⟨rfl, rfl⟩
  | exportList entries source range =>
    cases source with
    | some source => exact ⟨rfl, rfl⟩
    | none =>
      rw [add, foldl_addExport]
      exact ⟨rfl, rfl⟩
  | declaration d => cases d <;> exact ⟨rfl, rfl⟩
  | _ => exact ⟨rfl, rfl⟩

section

variable (h : c.Knows before)

include h

theorem resolve_notes (q : Quoted) :
    (c.resolve setting q).2.notes = c.notes ++
      originNotes setting.path (if before.any (·.value == q.value) then [] else [q]) := by
  rw [← h q.value]
  unfold resolve
  split
  · next hfound => simp [hfound, originNotes]
  · next hnone =>
    by_cases horigin : Specifier.requiresOrigin q.value setting.path = true
    · simp [hnone, horigin, originNotes, originNote]
    · simp [hnone, horigin, originNotes]

theorem Knows.resolve (q : Quoted) : (c.resolve setting q).2.Knows (before ++ [q]) := by
  intro value
  have hbefore := h value
  rw [any_append, ← hbefore]
  unfold Conversion.resolve
  split
  · next quoted hfound =>
    by_cases hvalue : q.value = value
    · subst hvalue
      simp [hfound]
    · simp [hvalue]
  · next hnone =>
    simp only [lookup_append]
    by_cases hvalue : q.value = value
    · subst hvalue
      simp
    · have hother : (value == q.value) = false := beq_eq_false_iff_ne.mpr (Ne.symm hvalue)
      simp [lookup_cons, hother, hvalue]

theorem Knows.add (s : Statement) : (c.add setting s).Knows (before ++ s.source?.toList) := by
  intro value
  rw [(add_visit c s).2]
  cases s.source? with
  | none => simpa [visit] using h value
  | some q => exact h.resolve q value

theorem add_notes (s : Statement) :
    (c.add setting s).notes =
      c.notes ++ originNotes setting.path (freshAfter before s.source?.toList) := by
  rw [(add_visit c s).1]
  cases s.source? with
  | none => simp [visit, freshAfter, originNotes]
  | some q =>
    rw [visit, resolve_notes h, Option.toList_some, freshAfter, freshAfter, append_nil]

theorem foldl_add_notes (body : List Statement) :
    (body.foldl (add setting) c).notes = c.notes ++
      originNotes setting.path (freshAfter before (body.filterMap source?)) := by
  induction body generalizing c before with
  | nil => simp [freshAfter, originNotes]
  | cons s rest ih =>
    have hsources : (s :: rest).filterMap source? =
        s.source?.toList ++ rest.filterMap source? := by
      cases hs : s.source? <;> simp [hs]
    rw [foldl_cons, ih (h.add s), add_notes h, hsources, freshAfter_append,
      originNotes_append, append_assoc]

end

end Conversion

theorem convertStatements_notes (setting : Setting) (body : List Statement) :
    (convertStatements setting body).notes =
      originNotes setting.path (firstNamed (body.filterMap source?)) := by
  have hstart : start.Knows [] := fun _ => rfl
  rw [convertStatements, foldl_add_notes hstart]
  rfl

/-- Forget the sources that have been resolved. -/
def Conversion.forget (c : Conversion) : Conversion :=
  ⟨c.sections, [], c.awaits, c.notes⟩

def convertAfresh (options : Options) (m : Module) (source : String) (path : Option String) :
    String :=
  let step (c : Conversion) (s : Statement) : Conversion :=
    c.forget.add (settingOf options m source path) s
  (m.body.foldl step .start).text options

theorem foldl_forget {setting : Setting} {c c' : Conversion} (h : c.Remembers setting)
    (hsections : c'.sections = c.sections) (hawaits : c'.awaits = c.awaits)
    (body : List Statement) :
    (body.foldl (fun c s => c.forget.add setting s) c').sections =
        (body.foldl (add setting) c).sections ∧
      (body.foldl (fun c s => c.forget.add setting s) c').awaits =
        (body.foldl (add setting) c).awaits := by
  -- Both runs share sections and awaits; a memo that remembers right adds the same lines as none.
  induction body generalizing c c' with
  | nil => exact ⟨hsections, hawaits⟩
  | cons s rest ih =>
    have hforget : c'.forget.Remembers setting := fun value quoted hfound => by cases hfound
    refine ih (h.add s) ?_ ?_
    · rw [add_sections hforget, add_sections h, ← hsections]
      rfl
    · rw [add_awaits, add_awaits, ← hawaits]
      rfl

theorem Conversion.text_congr {c c' : Conversion} {options : Options}
    (hsections : c.sections = c'.sections) (hawaits : c.awaits = c'.awaits) :
    c.text options = c'.text options := by
  rw [text, text, hsections, hawaits]

theorem convertAfresh_eq (k : Converter) (m : Module) (source : String) (path : Option String) :
    convertAfresh k.options m source path = (k.convert m source path).1 := by
  obtain ⟨hsections, hawaits⟩ := foldl_forget (start_remembers
    (settingOf k.options m source path)) rfl rfl m.body
  exact text_congr hsections hawaits

/-! ## Calls -/

namespace Converter

inductive Call where
  | convert (m : Module) (source : String) (path : Option String)
  | takeNotes

inductive Answer where
  | code (text : String)
  | notes (taken : List Diagnostic)

def Answer.handedOver : Answer → List Diagnostic
  | code _ => []
  | notes taken => taken

namespace Call

def isConvert : Call → Bool
  | convert _ _ _ => true
  | takeNotes => false

def made : Call → List Diagnostic
  | convert m _ path => originNotes path (firstNamed m.sources)
  | takeNotes => []

/-- The notes that calls have made since notes were taken. -/
def pending (calls : List Call) : List Diagnostic :=
  (calls.rtakeWhile isConvert).flatMap made

theorem pending_convert (calls : List Call) (m : Module) (source : String) (path : Option String) :
    pending (calls ++ [convert m source path]) =
      pending calls ++ originNotes path (firstNamed m.sources) := by
  rw [pending, rtakeWhile_concat_pos _ _ _ rfl, flatMap_append, flatMap_singleton]
  rfl

theorem pending_takeNotes (calls : List Call) : pending (calls ++ [takeNotes]) = [] := by
  rw [pending, rtakeWhile_concat_neg _ _ _ (by decide)]
  rfl

def answer (options : Options) (before : List Call) : Call → Answer
  | convert m source path => .code (convertAfresh options m source path)
  | takeNotes => .notes (pending before)

end Call

def ask (k : Converter) : Call → Answer × Converter
  | .convert m source path =>
    let (text, k) := k.convert m source path
    (.code text, k)
  | .takeNotes =>
    let (notes, k) := k.takeNotes
    (.notes notes, k)

def askAll (k : Converter) : List Call → List Answer × Converter
  | [] => ([], k)
  | call :: calls =>
    let (first, k) := k.ask call
    let (later, k) := k.askAll calls
    (first :: later, k)

theorem askAll_append (k : Converter) (front back : List Call) :
    k.askAll (front ++ back) =
      ((k.askAll front).1 ++ ((k.askAll front).2.askAll back).1,
        ((k.askAll front).2.askAll back).2) := by
  induction front generalizing k with
  | nil => rfl
  | cons call front ih => simp [askAll, ih]

theorem length_askAll (k : Converter) (calls : List Call) :
    (k.askAll calls).1.length = calls.length := by
  induction calls generalizing k with
  | nil => rfl
  | cons call calls ih => simp [askAll, ih]

section

variable (options : Options)

theorem ask_eq (before : List Call) (call : Call) :
    (Converter.mk options (Call.pending before)).ask call =
      (call.answer options before, ⟨options, Call.pending (before ++ [call])⟩) := by
  cases call with
  | convert m source path =>
    have hcode := convertAfresh_eq ⟨options, Call.pending before⟩ m source path
    have hnotes : (convertStatements (settingOf options m source path) m.body).notes =
        originNotes path (firstNamed m.sources) := convertStatements_notes _ m.body
    rw [Call.pending_convert, ← hnotes, Call.answer]
    refine Prod.ext (congrArg Answer.code ?_) rfl
    exact hcode.symm
  | takeNotes =>
    rw [Call.pending_takeNotes]
    rfl

theorem askAll_state (calls : List Call) :
    ((ofOptions options).askAll calls).2 = ⟨options, Call.pending calls⟩ := by
  induction calls using reverseRecOn with
  | nil => rfl
  | append_singleton calls call ih =>
    rw [askAll_append, ih]
    simp [askAll, ask_eq]

theorem askAll_answer (before : List Call) (call : Call) (after : List Call) :
    ((ofOptions options).askAll (before ++ call :: after)).1[before.length]? =
      some (call.answer options before) := by
  rw [askAll_append, askAll_state]
  simp [askAll, ask_eq, ← length_askAll (ofOptions options) before]

theorem askAll_handedOver (calls : List Call) :
    ((ofOptions options).askAll calls).1.flatMap Answer.handedOver ++ Call.pending calls =
      calls.flatMap Call.made := by
  -- The last call either adds to what is pending or hands all of it over.
  induction calls using reverseRecOn with
  | nil => rfl
  | append_singleton calls call ih =>
    have hcall : (call.answer options calls).handedOver ++ Call.pending (calls ++ [call]) =
        Call.pending calls ++ call.made := by
      cases call with
      | convert m source path => exact Call.pending_convert calls m source path
      | takeNotes =>
        rw [Call.pending_takeNotes]
        rfl
    have hlast : ((Converter.mk options (Call.pending calls)).askAll [call]).1 =
        [call.answer options calls] := by
      simp [askAll, ask_eq]
    rw [askAll_append, askAll_state, hlast, flatMap_append, flatMap_singleton,
      append_assoc, hcall, ← append_assoc, ih, flatMap_append,
      flatMap_singleton]

end

end Converter

end ModuleBridge
