import ModuleBridge.Diagnostic.Message
import ModuleBridge.Text.Range

/-!
# Diagnostics and faults

A fault stops the structured reading of a module; a diagnostic is what a user is told. Lists of
diagnostics are ordered by file and place with `sortDiagnostics`, which keeps the order of equals.
-/

namespace ModuleBridge

/-- A reported message, with the file and the place it belongs to when there is one. -/
structure Diagnostic where
  file : Option String
  span : Option Span
  text : String
  code : Nat
  category : Category
deriving DecidableEq, Repr, Inhabited

namespace Diagnostic

def unplaced (message : Message) (args : List String) : Diagnostic :=
  ⟨none, none, message.text args, message.code, message.category⟩

def placed (file : String) (span : Span) (message : Message) (args : List String) : Diagnostic :=
  ⟨some file, some span, message.text args, message.code, message.category⟩

def isError (d : Diagnostic) : Bool :=
  d.category == .error

/-- Category, number and text, without the place. -/
def summary (d : Diagnostic) : String :=
  s!"{d.category.render} ESM{d.code}: {d.text}"

/-- The one-line form; the place is the byte offset of the span. -/
def render (d : Diagnostic) : String :=
  match d.file, d.span with
  | none, _ => d.summary
  | some file, none => s!"{file}: {d.summary}"
  | some file, some span => s!"{file}({span.start}): {d.summary}"

/-- No file comes before every file; files compare by code points. -/
def fileLe : Option String → Option String → Bool
  | none, _ => true
  | some _, none => false
  | some a, some b => !decide (b < a)

def startOf (d : Diagnostic) : Nat :=
  match d.span with
  | some span => span.start
  | none => 0

/-- The order of a report: by file, then by place. -/
def le (a b : Diagnostic) : Bool :=
  if a.file = b.file then decide (a.startOf ≤ b.startOf) else fileLe a.file b.file

end Diagnostic

/-- Put diagnostics in the order of a report, keeping the order of those at one place. -/
def sortDiagnostics (ds : List Diagnostic) : List Diagnostic :=
  ds.mergeSort Diagnostic.le

def countErrors (ds : List Diagnostic) : Nat :=
  ds.countP Diagnostic.isError

/-- Why the structured reading of a module stopped, and where. -/
structure Fault where
  message : Message
  args : List String
  span : Span
deriving DecidableEq, Repr, Inhabited

namespace Fault

def text (f : Fault) : String :=
  f.message.text f.args

def code (f : Fault) : Nat :=
  f.message.code

def range (f : Fault) : Range :=
  f.span.toRange

/-- A fault is reported as an error of the file, whatever its message. -/
def toDiagnostic (f : Fault) (file : String) : Diagnostic :=
  ⟨some file, some f.span, f.text, f.code, .error⟩

end Fault

end ModuleBridge
