import ModuleBridge.Disk.Basic
import ModuleBridge.Disk.Path
import ModuleBridge.Path
import ModuleBridge.Text.Trim

/-!
# Finding source files

A pattern names one file, the files of one folder whose names match, or, with `**`, the matching
files of a folder and all folders below. What an exclusion names is left out, and so are the folders
in which packages and revisions are kept. The result is sorted and holds each path once.
-/

namespace ModuleBridge

inductive FilePattern where
  | exact (path : String)
  /-- Files of a folder whose names match. -/
  | within (folder namePattern : String)
  /-- Files of a folder, and of all folders below, whose names match. -/
  | below (folder namePattern : String)
deriving DecidableEq, Repr

namespace FilePattern

/-- Split at the last slash. Without a slash the folder is the empty path. -/
def splitFolder (pattern : List Char) : List Char × List Char :=
  let name := (pattern.reverse.takeWhile (· != '/')).reverse
  (pattern.take (pattern.length - name.length - 1), name)

/-- Read a pattern. The front of it up to the first `**` names a folder. -/
def ofText (text : String) : FilePattern :=
  let pattern := dropRepeated ['.', '/'] text.toList
  match splitBefore? ['*', '*'] pattern with
  | some (folder, rest) =>
    .below (String.ofList folder) (String.ofList (dropRepeated ['/'] (rest.drop 2)))
  | none =>
    if pattern.contains '*' then
      let (folder, name) := splitFolder pattern
      .within (String.ofList folder) (String.ofList name)
    else .exact (String.ofList pattern)

end FilePattern

/-- Whether a file name matches: a star stands for any text, only the first star of a pattern is
one, and a star alone stands for the names of scripts. -/
def matchesName (pattern name : String) : Bool :=
  if pattern = "" || pattern = "*" then Path.isScript name
  else
    match splitBefore? ['*'] pattern.toList with
    | none => name = pattern
    | some (front, star) =>
      let back := star.drop 1
      front.length + back.length ≤ name.toList.length && front.isPrefixOf name.toList &&
        back.isSuffixOf name.toList

/-- What an exclusion looks for in paths: its text without the marks that let it stand anywhere. -/
def exclusionNeedle (exclusion : String) : List Char :=
  let text := dropRepeated ['*', '*', '/'] (dropRepeated ['.', '/'] exclusion.toList)
  dropRepeatedEnd ['/', '*', '*'] text

/-- Whether an exclusion holds of a path: after a star the path has to end with the rest of the
exclusion, otherwise the exclusion has to occur in the path. The empty text excludes nothing. -/
def excludes (exclusion path : String) : Bool :=
  let path := Path.withSlashes path.toList
  match exclusionNeedle exclusion with
  | [] => false
  | '*' :: ending => !ending.isEmpty && ending.isSuffixOf path
  | needle => occursIn needle path

def isExcluded (exclusions : List String) (path : String) : Bool :=
  exclusions.any fun exclusion => excludes exclusion path

/-- Folders that are never searched. -/
def isSetAside (folder : String) : Bool :=
  folder = "node_modules" || folder = ".git"

/-- Whether a search goes on in the folder of that name. -/
def isEntered (exclusions : List String) (folder name : String) : Bool :=
  !isSetAside name && !isExcluded exclusions (DiskPath.join folder name)

variable {m : Type → Type} [Monad m] [Disk m]

def matchingIn (exclusions : List String) (namePattern folder : String) : m (List String) := do
  let names := (← Disk.filesIn folder).filter (matchesName namePattern)
  return (names.map (DiskPath.join folder)).filter fun path => !isExcluded exclusions path

/-- Search a folder and those below, as far as `depth` names down. What lies below a folder that is
not entered is never listed. -/
def matchingBelow (exclusions : List String) (namePattern : String) :
    Nat → String → m (List String)
  | 0, _ => return []
  | depth + 1, folder => do
    let here ← matchingIn exclusions namePattern folder
    let inner := (← Disk.foldersIn folder).filter (isEntered exclusions folder)
    let found ← inner.mapM fun name =>
      matchingBelow exclusions namePattern depth (DiskPath.join folder name)
    return here ++ found.flatten

def filesMatching (root : String) (exclusions : List String) (pattern : FilePattern) :
    m (List String) := do
  match pattern with
  | .exact path =>
    let path := DiskPath.join root path
    if (← Disk.isFile path) && !isExcluded exclusions path then return [path] else return []
  | .within folder namePattern => matchingIn exclusions namePattern (DiskPath.join root folder)
  | .below folder namePattern =>
    matchingBelow exclusions namePattern (← Disk.depth) (DiskPath.join root folder)

/-- Sorted by code points, each once. -/
def sortedPaths (paths : List String) : List String :=
  (paths.mergeSort fun a b => !decide (b < a)).eraseReps

def discoverFiles (root : String) (inclusions exclusions : List String) : m (List String) := do
  let found ← inclusions.mapM fun text => filesMatching root exclusions (.ofText text)
  return sortedPaths found.flatten

/-- Those of the files named in a project that are there, in the order of their names. -/
def listedFiles (root : String) (names : List String) : m (List String) :=
  (names.map (DiskPath.join root)).filterM Disk.isFile

end ModuleBridge
