import ModuleBridge.Text.Split
import ModuleBridge.Url.Reference

/-!
# Placing a reference in a path

The parts of a reference are put one by one at the end of a path that stays open: its last segment
may still grow. In a file path a drive letter such as `C:` is never left, neither through `..` nor
when a reference replaces the last segment of its base. What follows a drive letter that is the
whole path gets a slash of its own; after any other drive letter it continues that segment.
-/

namespace ModuleBridge

def isSingleDot (segment : List Char) : Bool :=
  [".", "%2e"].contains (String.ofList (segment.map Char.toLower))

def isDoubleDot (segment : List Char) : Bool :=
  ["..", ".%2e", "%2e.", "%2e%2e"].contains (String.ofList (segment.map Char.toLower))

structure PathPart where
  text : List Char
  /-- Whether the part begins with a drive letter that a break sets off from the rest. -/
  breaksDrive : Bool
deriving DecidableEq, Repr

/-- The parts of the path in a reference of which `remaining` characters are left. -/
def pathParts (breaks : List Nat) : Nat → List (List Char) → List PathPart
  | _, [] => []
  | remaining, text :: more =>
    let breaksDrive := isNormalDriveLetter (text.take 2) && 2 < text.length &&
      breaks.contains (remaining - 2)
    ⟨percentEncode escapesInPath text, breaksDrive⟩ ::
      pathParts breaks (remaining - text.length - 1) more

structure OpenPath where
  /-- The segments that a slash has closed, last first. -/
  closed : List (List Char)
  /-- What stands after the last slash. -/
  tail : List Char
  /-- Whether a drive letter was read at the front, where it takes the place of a host. -/
  readDrive : Bool
deriving DecidableEq, Repr

namespace OpenPath

def ofClosed (closed : List (List Char)) : OpenPath :=
  ⟨closed, [], false⟩

def root : OpenPath :=
  ofClosed []

def segments (path : OpenPath) : List (List Char) :=
  (path.tail :: path.closed).reverse

def isRoot (path : OpenPath) : Bool :=
  path.closed.isEmpty && path.tail.isEmpty

/-- Whether the path is a drive letter and no more. -/
def isDrive (path : OpenPath) : Bool :=
  path.closed.isEmpty && isNormalDriveLetter path.tail

def close (path : OpenPath) : OpenPath :=
  ⟨path.tail :: path.closed, [], path.readDrive⟩

/-- Put a slash at the end unless one stands there. -/
def settle (path : OpenPath) : OpenPath :=
  if path.tail.isEmpty then path else path.close

/-- Drop what stands after the last slash. The drive letter of a file path stays. -/
def dropTail (kind : SchemeKind) (path : OpenPath) : OpenPath :=
  if kind == .file && isNormalDriveLetter path.tail then path
  else ⟨path.closed, [], path.readDrive⟩

/-- The path against which a reference is read whose base has the given segments. -/
def ofBase (kind : SchemeKind) (segments : List String) : OpenPath :=
  match (segments.map String.toList).reverse with
  | [] => root
  | last :: outer => dropTail kind ⟨outer, last, false⟩

/-- Leave the last segment. A closed segment that begins with a drive letter stays. -/
def leave (kind : SchemeKind) (path : OpenPath) : OpenPath :=
  match path.tail, path.closed with
  | [], last :: outer =>
    if startsWithDriveLetter last then path else ⟨outer, [], path.readDrive⟩
  | _, _ => path.dropTail kind

def put (kind : SchemeKind) (path : OpenPath) (part : PathPart) : OpenPath :=
  let isFile := kind == .file
  let path := if isFile && path.isDrive && !part.text.isEmpty then path.close else path
  if isDoubleDot part.text then path.leave kind
  else if isSingleDot part.text then path.settle
  else if isFile && path.isRoot && part.breaksDrive then
    ⟨[part.text.take 2], part.text.drop 2, path.readDrive⟩
  else if isFile && path.isRoot && isDriveLetter part.text then
    ⟨[], part.text.take 1 ++ [':'], true⟩
  else ⟨path.closed, path.tail ++ part.text, path.readDrive⟩

/-- Put the slash after a part. Dots leave no segment that it could close. -/
def putSlash (path : OpenPath) (part : PathPart) : OpenPath :=
  if isDoubleDot part.text || isSingleDot part.text then path.settle else path.close

def putAll (kind : SchemeKind) : OpenPath → List PathPart → OpenPath
  | path, [] => path
  | path, [part] => path.put kind part
  | path, part :: more => putAll kind ((path.put kind part).putSlash part) more

end OpenPath

/-- A file path never begins with an empty segment, unless that is all of it. -/
def trimLeadingEmpty (segments : List (List Char)) : List (List Char) :=
  match segments.dropWhile List.isEmpty with
  | [] => segments.take 1
  | trimmed => trimmed

structure PathReading where
  segments : List String
  readDrive : Bool
  rest : List Char

/-- Read the path at the front of `input`, up to a query or a fragment, and put it at the end of
`path`. -/
def readPath (kind : SchemeKind) (breaks : List Nat) (path : OpenPath) (input : List Char) :
    PathReading :=
  let isEnd (c : Char) : Bool := c == '?' || c == '#'
  let parts := splitAtAll (isSlash kind) (input.takeWhile (!isEnd ·))
  let path := path.putAll kind (pathParts breaks input.length parts)
  let segments := if kind == .file then trimLeadingEmpty path.segments else path.segments
  ⟨segments.map String.ofList, path.readDrive, input.dropWhile (!isEnd ·)⟩

end ModuleBridge
