/-!
# Conversion options
-/

namespace ModuleBridge

inductive ImportPlacement where
  | afterDeclarations
  | beforeStatements
deriving DecidableEq, Repr, Inhabited

structure Options where
  importPlacement : ImportPlacement
  /-- Write `a: a` instead of `a` in an import pattern. -/
  explicitImportRenames : Bool
  /-- Put a body that awaits at its top level into an async function. -/
  wrapTopLevelAwait : Bool
  /-- Make a default-exported function or class the module object itself. -/
  mergeDefaultExports : Bool
deriving DecidableEq, Repr

def Options.standard : Options :=
  ⟨.afterDeclarations, false, true, true⟩

instance : Inhabited Options := ⟨Options.standard⟩

end ModuleBridge
