import ModuleBridge.Emit.Converter
import ModuleBridge.Grammar.Module
import ModuleBridge.Lossy.Output

/-!
# Converting module texts

A module text is read and converted; a text that cannot be read is converted lossily, and the
diagnostics say why.
-/

namespace ModuleBridge

structure ModuleOutput where
  code : String
  diagnostics : List Diagnostic
  /-- Whether the text could not be read, so that the code is the lossy conversion. -/
  isLossy : Bool
deriving DecidableEq, Repr

def moduleName (specifier path : Option String) : String :=
  (specifier.or path).getD "<anonymous>"

def convertStrictly (options : Options) (source : String) (path : Option String) :
    Except Fault ModuleOutput :=
  match parseModule source with
  | .error fault => .error fault
  | .ok m =>
    let (code, converter) := (Converter.ofOptions options).convert m source path
    .ok ⟨code, converter.takeNotes.1, false⟩

def lossyWarning (name : String) (fault : Fault) : Diagnostic :=
  { Diagnostic.unplaced .lossyOutput [name, fault.text] with file := some name }

def convertModule (options : Options) (source : String) (specifier path : Option String) :
    ModuleOutput :=
  match convertStrictly options source path with
  | .ok output => output
  | .error fault =>
    let name := moduleName specifier path
    ⟨convertLossily source, [fault.toDiagnostic name, lossyWarning name fault], true⟩

end ModuleBridge
