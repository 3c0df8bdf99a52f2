import ModuleBridge.Text.Split

/-!
# Paths

Slash-separated paths as texts. A backslash counts as a slash, `.` and empty segments stand for
nothing, and `..` leaves the segment before it; a rooted path has no `..` left, a relative one only
at its front.
-/

namespace ModuleBridge

namespace Path

/-- Backslashes become slashes. -/
def withSlashes (path : List Char) : List Char :=
  path.map fun c => if c == '\\' then '/' else c

/-- The parts between the slashes; there is one part more than slashes. -/
def parts (path : List Char) : List (List Char) :=
  splitAtAll (· == '/') path

/-- Follow one part from a list of segments, last first. -/
def enter (rooted : Bool) (segments : List (List Char)) (part : List Char) : List (List Char) :=
  if part = [] || part = ['.'] then segments
  else if part = ['.', '.'] then
    match segments with
    | last :: outer => if last = ['.', '.'] then part :: segments else outer
    | [] => if rooted then [] else [part]
  else part :: segments

def joinSegments (segments : List (List Char)) : List Char :=
  ['/'].intercalate segments

def normalizeChars (path : List Char) : List Char :=
  let path := withSlashes path
  let rooted := path.head? == some '/'
  let trailing := path.getLast? == some '/'
  let segments := ((parts path).foldl (enter rooted) []).reverse
  let root := if rooted then ['/'] else []
  let tail := if trailing && !segments.isEmpty then ['/'] else []
  match root ++ joinSegments segments ++ tail with
  | [] => ['.']
  | result => result

/-- The shortest path to the same place. A trailing slash is kept, and the empty path is `.`. -/
def normalize (path : String) : String :=
  String.ofList (normalizeChars path.toList)

def slashes (path : String) : String :=
  String.ofList (withSlashes path.toList)

def endsWithSeparator (path : String) : Bool :=
  path.toList.getLast?.any fun c => c == '/' || c == '\\'

def ensureTrailingSlash (path : String) : String :=
  if endsWithSeparator path then path else path ++ "/"

/-- `relative` seen from `base`; a rooted path stands on its own. -/
def combine (base relative : String) : String :=
  if relative.startsWith "/" || base.isEmpty then relative
  else ensureTrailingSlash base ++ relative

/-- Everything up to the last slash, that one included. -/
def directory (path : String) : String :=
  String.ofList ((withSlashes path.toList).reverse.dropWhile (· != '/')).reverse

/-- The path without its extension. A name that only begins with a point has none. -/
def withoutExtension (path : String) : String :=
  let reversed := path.toList.reverse
  let name := reversed.takeWhile fun c => c != '/' && c != '\\'
  let extension := name.takeWhile (· != '.')
  if extension.length + 1 < name.length then
    String.ofList (reversed.drop (extension.length + 1)).reverse
  else path

def changeExtension (path extension : String) : String :=
  withoutExtension path ++ extension

/-- Whether a path names a script: its extension is `.js` or `.mjs`, in any case. -/
def isScript (path : String) : Bool :=
  let lower := String.ofList (path.toList.map Char.toLower)
  lower.endsWith ".js" || lower.endsWith ".mjs"

end Path

end ModuleBridge
