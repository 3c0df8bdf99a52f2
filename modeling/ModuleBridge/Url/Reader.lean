import ModuleBridge.Url.Placement

/-!
# Reading and joining URLs

`Url.parse?` reads an absolute URL and `Url.join?` a reference against a base. Only the paths of
file URLs ask where breaks were dropped from a reference.
-/

namespace ModuleBridge

def readScheme? (input : List Char) : Option (String × List Char) :=
  let isSchemeChar (c : Char) : Bool := c.isAlphanum || c == '+' || c == '-' || c == '.'
  let scheme := input.takeWhile isSchemeChar
  match input.head?.any Char.isAlpha, input.drop scheme.length with
  | true, ':' :: rest => some (String.ofList (scheme.map Char.toLower), rest)
  | _, _ => none

/-- Read a query and a fragment, each introduced by its mark. -/
def readTails (kind : SchemeKind) (input : List Char) : Option String × Option String :=
  let fragmentOf (rest : List Char) : Option String :=
    match rest with
    | '#' :: text => some (String.ofList (percentEncode escapesInFragment text))
    | _ => none
  match input with
  | '?' :: rest =>
    let query := rest.takeWhile (· != '#')
    (some (String.ofList (percentEncode (escapesInQuery (kind != .other)) query)),
      fragmentOf (rest.dropWhile (· != '#')))
  | _ => (none, fragmentOf input)

/-- Give a URL the path, query and fragment that were read. -/
def Url.withPath (u : Url) (reading : PathReading) : Url :=
  let (query, fragment) := readTails u.kind reading.rest
  let path : UrlPath := .segments reading.segments
  ⟨u.scheme, u.username, u.password, u.host, u.port, path, query, fragment⟩

/-- A URL of which only the scheme is known. -/
def Url.ofScheme (scheme : String) (host : Option Host) : Url :=
  ⟨scheme, "", none, host, none, .segments [], none, none⟩

/-! ## Authority -/

structure Userinfo where
  username : List Char
  password : Option (List Char)

/-- User name and password before the last `@`; the password is present only if it is not empty. -/
def readUserinfo? (kind : SchemeKind) (input : List Char) : Option (Userinfo × List Char) :=
  let isEnd (c : Char) : Bool := isSlash kind c || c == '?' || c == '#'
  let region := input.takeWhile (!isEnd ·)
  if !region.contains '@' then some (⟨[], none⟩, input)
  else
    let length := region.length - (region.reverse.takeWhile (· != '@')).length - 1
    let userinfo := region.take length
    let rest := input.drop (length + 1)
    if userinfo.isEmpty then
      if rest.head?.any isEnd then none else some (⟨[], none⟩, rest)
    else
      let username := userinfo.takeWhile (· != ':')
      let password := (userinfo.dropWhile (· != ':')).drop 1
      some (⟨percentEncode escapesInUserinfo username,
        if password.isEmpty then none else some (percentEncode escapesInUserinfo password)⟩, rest)

/-- The host text at the front of `input`: up to a colon outside brackets, a slash, a query or a
fragment. -/
def hostLength (kind : SchemeKind) : Bool → List Char → Nat
  | _, [] => 0
  | inBrackets, c :: rest =>
    if (c == ':' && !inBrackets) || isSlash kind c || c == '?' || c == '#' then 0
    else hostLength kind (c == '[' || (inBrackets && c != ']')) rest + 1

/-- A port after a colon; the scheme's default port counts as none. -/
def readPort? (scheme : String) (input : List Char) : Option (Option Nat × List Char) :=
  match input with
  | ':' :: rest =>
    let digits := rest.takeWhile Char.isDigit
    let after := rest.dropWhile Char.isDigit
    let port := (readDigits? 10 digits).getD 0
    if 65535 < port then none
    else if after.head?.any fun c => !(isAnySlash c || c == '?' || c == '#') then none
    else if digits.isEmpty || defaultPort? scheme == some port then some (none, after)
    else some (some port, after)
  | _ => some (none, input)

/-- Read what follows the two slashes of a URL whose scheme is not `file`. -/
def readAuthority? (scheme : String) (input : List Char) : Option Url := do
  let kind := SchemeKind.of scheme
  let (userinfo, input) ← readUserinfo? kind input
  let length := hostLength kind false input
  let text := input.take length
  let rest := input.drop length
  let host ← if kind == .special then readHost? text else readPlainHost? text
  if host == .name "" && (rest.head? == some ':' || !userinfo.username.isEmpty ||
      userinfo.password.isSome) then none
  let (port, rest) ← readPort? scheme rest
  let reading : PathReading :=
    if kind == .other && rest.head?.all fun c => c == '?' || c == '#' then ⟨[], false, rest⟩
    else readPath kind [] .root (if rest.head?.any (isSlash kind) then rest.tail else rest)
  let u : Url := ⟨scheme, String.ofList userinfo.username, userinfo.password.map String.ofList,
    some host, port, .segments [], none, none⟩
  return u.withPath reading

def fileUrl (host : Host) : Url :=
  Url.ofScheme "file" (some host)

/-- The name `localhost` is the empty host. -/
def readFileHost? (text : List Char) : Option Host := do
  if text.isEmpty then return .name ""
  let host ← readHost? text
  return if host == .name "localhost" then .name "" else host

/-- Read the path of a file URL that may begin with one slash, or a reference against the file URL
`base`. -/
def readFilePath (base : Option Url) (breaks : List Nat) (input : List Char) : Url :=
  let empty := fileUrl (.name "")
  let read (path : OpenPath) (input : List Char) : PathReading := readPath .file breaks path input
  match base, input with
  | none, c :: rest => empty.withPath (read .root (if isAnySlash c then rest else input))
  | none, [] => empty.withPath (read .root [])
  | some base, c :: rest =>
    if isAnySlash c then
      let first := (base.segments.headD "").toList
      if startsWithDriveLetter rest then empty.withPath (read .root rest)
      else if isNormalDriveLetter first then empty.withPath (read (.ofClosed [first]) rest)
      else (Url.ofScheme "file" base.host).withPath (read .root rest)
    else if startsWithDriveLetter input then empty.withPath (read .root input)
    else base.withPath (read (.ofBase .file base.segments) input)
  | some base, [] => base

/-- Read what follows the scheme of a file URL, or a reference against the file URL `base`. -/
def readFile? (base : Option Url) (breaks : List Nat) (input : List Char) : Option Url :=
  match input with
  | a :: b :: rest =>
    if isAnySlash a && isAnySlash b then do
      let empty := fileUrl (.name "")
      let text := rest.takeWhile fun c => !(isAnySlash c || c == '?' || c == '#')
      if isDriveLetter text then return empty.withPath (readPath .file breaks .root rest)
      let host ← readFileHost? text
      let after := rest.drop text.length
      if host == .name "" then return empty.withPath (readPath .file breaks .root after)
      let reading := readPath .file breaks .root
        (if after.head?.any isAnySlash then after.tail else after)
      return (if reading.readDrive then empty else fileUrl host).withPath reading
    else some (readFilePath base breaks input)
  | _ => some (readFilePath base breaks input)

/-! ## Whole URLs -/

def readAfterScheme? (scheme : String) (breaks : List Nat) (input : List Char) : Option Url :=
  match SchemeKind.of scheme with
  | .file => readFile? none breaks input
  | .special => readAuthority? scheme (input.dropWhile isAnySlash)
  | .other =>
    match input with
    | '/' :: '/' :: rest => readAuthority? scheme rest
    | '/' :: rest => some ((Url.ofScheme scheme none).withPath (readPath .other [] .root rest))
    | _ =>
      let isEnd (c : Char) : Bool := c == '?' || c == '#'
      let text := String.ofList (percentEncode escapesNothing (input.takeWhile (!isEnd ·)))
      let (query, fragment) := readTails .other (input.dropWhile (!isEnd ·))
      some ⟨scheme, "", none, none, none, .opaqueText text, query, fragment⟩

namespace Url

def parse? (text : String) : Option Url := do
  let reference := Reference.ofText text
  let (scheme, rest) ← readScheme? reference.text
  readAfterScheme? scheme reference.breaks rest

/-- Read a reference that has no scheme of its own against `base`. -/
def joinRelative? (base : Url) (breaks : List Nat) (input : List Char) : Option Url :=
  let kind := base.kind
  let (query, fragment) := readTails kind input
  match input with
  | [] =>
    some ⟨base.scheme, base.username, base.password, base.host, base.port, base.path, base.query,
      none⟩
  | c :: rest =>
    if c == '#' then
      some ⟨base.scheme, base.username, base.password, base.host, base.port, base.path,
        base.query, fragment⟩
    else if base.hasOpaquePath then none
    else if c == '?' then
      some ⟨base.scheme, base.username, base.password, base.host, base.port, base.path, query,
        fragment⟩
    else if kind == .file then readFile? (some base) breaks input
    else if isAnySlash c then
      if rest.head?.any isAnySlash then
        match input with
        | '/' :: '/' :: after => readAuthority? base.scheme after
        | _ => readAuthority? base.scheme (input.dropWhile isAnySlash)
      else some (base.withPath (readPath kind [] .root rest))
    else some (base.withPath (readPath kind [] (.ofBase kind base.segments) input))

/-- Resolve a reference against `base`. A reference with a scheme stands on its own, unless it only
repeats the base's special scheme. -/
def join? (base : Url) (reference : String) : Option Url :=
  let reference := Reference.ofText reference
  let (input, breaks) := (reference.text, reference.breaks)
  match readScheme? input with
  | some (scheme, rest) =>
    match SchemeKind.of scheme with
    | .file =>
      if base.scheme = "file" then base.joinRelative? breaks rest
      else readFile? none breaks rest
    | .special =>
      if scheme = base.scheme && (rest.takeWhile isAnySlash).length < 2 then
        base.joinRelative? breaks rest
      else readAfterScheme? scheme breaks rest
    | .other => readAfterScheme? scheme breaks rest
  | none =>
    if base.hasOpaquePath && input.head? != some '#' then none
    else base.joinRelative? breaks input

/-- The origin of a URL, when it is one of scheme, host and port; a `blob` URL has the origin of the
URL in its path. `depth` bounds how many `blob` marks are followed. -/
def originFrom? : Nat → Url → Option String
  | 0, _ => none
  | depth + 1, u =>
    if u.scheme = "blob" then do originFrom? depth (← parse? u.renderPath)
    else if u.kind == .special then
      u.host.map fun host => u.scheme ++ "://" ++ host.render ++ renderPort u.port
    else none

def origin? (u : Url) : Option String :=
  originFrom? (u.renderPath.length + 1) u

end Url

end ModuleBridge
