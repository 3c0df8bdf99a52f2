import ModuleBridge.Disk.Basic
import ModuleBridge.Disk.Path

/-!
# File trees as values

A file tree is the set of its folders and of its files with their contents, each named by the names
that lead to it from the root. Paths are followed name by name: whatever a name is looked up in has
to be a folder.
-/

namespace ModuleBridge

/-- The names that lead from the root to a file or folder. -/
abbrev Location := List String

structure FileTree where
  workingFolder : Location
  folders : List Location
  files : List (Location × ByteArray)

namespace FileTree

/-- The proper beginnings of a location. -/
def ancestors (place : Location) : List Location :=
  (List.range place.length).map place.take

/-- A tree that holds `files` below the working folder, and no folder beyond those on the way. -/
def ofFiles (workingFolder : Location) (files : List (Location × ByteArray)) : FileTree :=
  let placed := files.map fun (name, content) => (workingFolder ++ name, content)
  ⟨workingFolder, workingFolder :: ancestors workingFolder ++ placed.flatMap fun f => ancestors f.1,
    placed⟩

def isFolderAt (t : FileTree) (place : Location) : Bool :=
  place.isEmpty || t.folders.contains place

def content? (t : FileTree) (place : Location) : Option ByteArray :=
  t.files.lookup place

def isFileAt (t : FileTree) (place : Location) : Bool :=
  (t.content? place).isSome

def enter (place : Location) (name : String) : Location :=
  if name = "" || name = "." then place
  else if name = ".." then place.dropLast
  else place ++ [name]

def follow (t : FileTree) : Location → List String → Except FileFault Location
  | place, [] => .ok place
  | place, name :: rest =>
    if t.isFolderAt place then t.follow (enter place name) rest
    else if t.isFileAt place then .error .notFolder
    else .error .missing

/-- Where a path starts, and the names on it. -/
def startOf (t : FileTree) (path : String) : Location × List String :=
  let place := if DiskPath.isRooted path then [] else t.workingFolder
  (place, (splitAtAll (· == '/') path.toList).map String.ofList)

/-- The place that a path leads to, whether something is there or not. -/
def locate (t : FileTree) (path : String) : Except FileFault Location :=
  if path.isEmpty then .error .missing
  else t.follow (t.startOf path).1 (t.startOf path).2

def isFile (t : FileTree) (path : String) : Bool :=
  match t.locate path with
  | .ok place => t.isFileAt place
  | .error _ => false

def isFolder (t : FileTree) (path : String) : Bool :=
  match t.locate path with
  | .ok place => t.isFolderAt place
  | .error _ => false

def read (t : FileTree) (path : String) : Except FileFault ByteArray :=
  match t.locate path with
  | .error fault => .error fault
  | .ok place =>
    match t.content? place with
    | some content => .ok content
    | none => .error (if t.isFolderAt place then .isFolder else .missing)

/-- The names that lead from `folder` to `place`, if it lies below. -/
def below? (folder place : Location) : Option Location :=
  if folder.isPrefixOf place && folder.length < place.length then some (place.drop folder.length)
  else none

/-- Whether a text can be the name of a file or folder: one that leads a step down. -/
def isName (name : String) : Bool :=
  name ≠ "" && name ≠ "." && name ≠ ".." && !name.toList.contains '/'

/-- The name of a place that lies right in a folder. -/
def nameIn? (folder place : Location) : Option String :=
  match below? folder place with
  | some [name] => if isName name then some name else none
  | _ => none

/-- Those of the given places that lie right in the folder at a path, by their names. -/
def namesIn (t : FileTree) (places : List Location) (path : String) : List String :=
  match t.locate path with
  | .error _ => []
  | .ok folder => if t.isFolderAt folder then places.filterMap (nameIn? folder) else []

def filesIn (t : FileTree) : String → List String :=
  t.namesIn (t.files.map (·.1))

def foldersIn (t : FileTree) : String → List String :=
  t.namesIn t.folders

def depth (t : FileTree) : Nat :=
  (t.files.map (·.1.length)).max?.getD 0

/-- Put a content at a place, in place of what the file there held. -/
def put (t : FileTree) (place : Location) (content : ByteArray) : FileTree :=
  { t with files := (place, content) :: t.files.filter fun f => f.1 ≠ place }

def write (t : FileTree) (path : String) (content : ByteArray) : Except FileFault FileTree :=
  match t.locate path with
  | .error fault => .error fault
  | .ok place => if t.isFolderAt place then .error .isFolder else .ok (t.put place content)

/-- Make the folder at the end of a way, which has to be new. -/
def makeFolder (t : FileTree) (start : Location) (way : List String) : Except FileFault FileTree :=
  match t.follow start way with
  | .error fault => .error fault
  | .ok place =>
    if t.isFolderAt place || t.isFileAt place then .error .alreadyThere
    else .ok { t with folders := place :: t.folders }

def leadsToFolder (t : FileTree) (start : Location) (way : List String) : Bool :=
  match t.follow start way with
  | .ok place => t.isFolderAt place
  | .error _ => false

/-- Make the folder at the end of a way, given last name first. Only if something is missing on the
way, the folder before it is made first; a folder that is there already is no fault. -/
def makeFoldersAlong (t : FileTree) (start : Location) : List String → Except FileFault FileTree
  | [] => .ok t
  | last :: outer =>
    let way := (last :: outer).reverse
    let settle (t : FileTree) (fault : FileFault) : Except FileFault FileTree :=
      if t.leadsToFolder start way then .ok t else .error fault
    match t.makeFolder start way with
    | .ok made => .ok made
    | .error .missing =>
      match t.makeFoldersAlong start outer with
      | .error fault => .error fault
      | .ok around =>
        match around.makeFolder start way with
        | .ok made => .ok made
        | .error fault => settle around fault
    | .error fault => settle t fault

def makeFolders (t : FileTree) (path : String) : Except FileFault FileTree :=
  let (start, names) := t.startOf path
  t.makeFoldersAlong start (names.filter fun name => name ≠ "" && name ≠ ".").reverse

def pathOf (place : Location) : String :=
  "/" ++ "/".intercalate place

end FileTree

/-- Run a change of the tree that may fail, and then leaves the tree as it was. -/
def changeTree (change : FileTree → Except FileFault FileTree) :
    StateM FileTree (Except FileFault Unit) := fun t =>
  match change t with
  | .ok changed => (.ok (), changed)
  | .error fault => (.error fault, t)

instance : Disk (StateM FileTree) where
  workingFolder := return FileTree.pathOf (← get).workingFolder
  isPresent path := return (← get).isFile path || (← get).isFolder path
  isFile path := return (← get).isFile path
  filesIn path := return (← get).filesIn path
  foldersIn path := return (← get).foldersIn path
  depth := return (← get).depth
  readBytes path := return (← get).read path
  writeText path text := changeTree (·.write path text.toUTF8)
  makeFolders path := changeTree (·.makeFolders path)

end ModuleBridge
