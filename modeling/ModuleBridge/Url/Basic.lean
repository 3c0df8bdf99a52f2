import ModuleBridge.Url.Host

/-!
# URLs

A URL taken apart, its text, and its origin. The path is a list of segments, or one opaque text for
URLs such as `data:` and `mailto:`, against which nothing can be resolved.
-/

namespace ModuleBridge

inductive UrlPath where
  | opaqueText (text : String)
  | segments (segments : List String)
deriving DecidableEq, Repr, Inhabited

structure Url where
  scheme : String
  username : String
  password : Option String
  /-- Present exactly when the URL has a `//` part; the name may be empty. -/
  host : Option Host
  port : Option Nat
  path : UrlPath
  query : Option String
  fragment : Option String
deriving DecidableEq, Repr, Inhabited

/-- Schemes fall into three kinds, each with rules of its own for slashes, hosts and paths. -/
inductive SchemeKind where
  | file
  | special
  | other
deriving DecidableEq, Repr

def SchemeKind.of (scheme : String) : SchemeKind :=
  if scheme = "file" then .file
  else if ["http", "https", "ws", "wss", "ftp"].contains scheme then .special
  else .other

def defaultPort? (scheme : String) : Option Nat :=
  if scheme = "http" || scheme = "ws" then some 80
  else if scheme = "https" || scheme = "wss" then some 443
  else if scheme = "ftp" then some 21
  else none

namespace Url

def kind (u : Url) : SchemeKind :=
  SchemeKind.of u.scheme

/-- The segments of the path, none for an opaque one. -/
def segments (u : Url) : List String :=
  match u.path with
  | .opaqueText _ => []
  | .segments segments => segments

def hasOpaquePath (u : Url) : Bool :=
  match u.path with
  | .opaqueText _ => true
  | .segments _ => false

def renderPath (u : Url) : String :=
  match u.path with
  | .opaqueText text => text
  | .segments segments => String.join (segments.map ("/" ++ ·))

def renderUserinfo (u : Url) : String :=
  match u.username, u.password with
  | "", none => ""
  | username, none => username ++ "@"
  | username, some password => username ++ ":" ++ password ++ "@"

def renderPort (port : Option Nat) : String :=
  match port with
  | some port => s!":{port}"
  | none => ""

/-- What stands between the scheme and the path. Without a host, a path that begins with an empty
segment is set off, so that it is not read as a host. -/
def renderAuthority (u : Url) : String :=
  match u.host with
  | some host => "//" ++ u.renderUserinfo ++ host.render ++ renderPort u.port
  | none =>
    match u.path with
    | .segments ("" :: _ :: _) => "/."
    | _ => ""

def renderTail (mark : String) (text : Option String) : String :=
  match text with
  | some text => mark ++ text
  | none => ""

def render (u : Url) : String :=
  u.scheme ++ ":" ++ u.renderAuthority ++ u.renderPath ++ renderTail "?" u.query ++
    renderTail "#" u.fragment

end Url

end ModuleBridge
