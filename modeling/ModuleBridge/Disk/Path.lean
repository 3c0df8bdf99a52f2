import ModuleBridge.Text.Split

/-!
# Paths of files

Paths the way a file system reads them: slashes separate names, and `.` and empty names stand for
nothing, except that a path may begin with `.`. Other than in `Path`, a backslash is an ordinary
character and `..` is not resolved, since only the file system knows where it leads.
-/

namespace ModuleBridge

namespace DiskPath

def isRooted (path : String) : Bool :=
  path.startsWith "/"

/-- `path` seen from the folder `base`; a rooted path stands on its own. -/
def join (base path : String) : String :=
  if isRooted path || base.isEmpty then path
  else if base.endsWith "/" then base ++ path
  else base ++ "/" ++ path

/-- Split off how a path begins: at the root, at the current folder, or with a name. -/
def splitHead : List Char → List Char × List Char
  | '/' :: body => (['/'], body)
  | ['.'] => (['.'], [])
  | '.' :: '/' :: body => (['.'], '/' :: body)
  | body => ([], body)

/-- Drop slashes and `.` from the front. Applied to a reversed path it drops them from the end. -/
def dropIdle : List Char → List Char
  | '/' :: rest => dropIdle rest
  | '.' :: '/' :: rest => dropIdle rest
  | ['.'] => []
  | path => path

def dropIdleEnd (path : List Char) : List Char :=
  (dropIdle path.reverse).reverse

/-- The names in what follows the head of a path. -/
def names (body : List Char) : List (List Char) :=
  (splitAtAll (· == '/') body).filter fun name => name ≠ [] && name ≠ ['.']

/-- The components of a path. Two paths are the same when their components are. -/
def components (path : String) : List (List Char) :=
  let (head, body) := splitHead path.toList
  if head.isEmpty then names body else head :: names body

/-- Go past the given names; none if other names stand there. -/
def dropNames : List (List Char) → List Char → Option (List Char)
  | [], body => some body
  | name :: rest, body =>
    let body := dropIdle body
    if body.takeWhile (· != '/') = name then dropNames rest (body.dropWhile (· != '/')) else none

/-- The rest of `path` below the folder `root`, if `path` begins with the names of `root`. -/
def relativeTo? (root path : String) : Option String :=
  let (rootHead, rootBody) := splitHead root.toList
  let (head, body) := splitHead path.toList
  let rootNames := names rootBody
  if rootHead = [] && rootNames = [] then some (String.ofList (head ++ dropIdleEnd body))
  else if rootHead = head then
    (dropNames rootNames body).map fun rest => String.ofList (dropIdleEnd (dropIdle rest))
  else none

/-- The folder that holds what a path names; none for the root and for the empty path. -/
def parent? (path : String) : Option String :=
  let (head, body) := splitHead path.toList
  match dropIdleEnd body with
  | [] => if head = ['.'] then some "" else none
  | body =>
    let folder := dropIdleEnd (body.reverse.dropWhile (· != '/')).reverse
    some (String.ofList (head ++ folder))

end DiskPath

end ModuleBridge
