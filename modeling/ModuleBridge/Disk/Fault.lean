/-!
# Faults of file access
-/

namespace ModuleBridge

inductive FileFault where
  | missing
  | notFolder
  | isFolder
  | alreadyThere
  | notText
  /-- Two results of one batch go to the same path. -/
  | sharedTarget (path : String)
  /-- Any other refusal of the system, in its own words. -/
  | refused (reason : String)
deriving DecidableEq, Repr

def FileFault.message : FileFault → String
  | missing => "No such file or directory (os error 2)"
  | notFolder => "Not a directory (os error 20)"
  | isFolder => "Is a directory (os error 21)"
  | alreadyThere => "File exists (os error 17)"
  | notText => "stream did not contain valid UTF-8"
  | sharedTarget path => "more than one input is written to " ++ path
  | refused reason => reason

end ModuleBridge
