import ModuleBridge.Path
import ModuleBridge.Url.Reader

/-!
# Module specifiers

A specifier is resolved against the path of the module that names it. Relative specifiers are
joined with the module's directory, absolute ones with the origin of its URL; bare ones are left to
the loader. How URLs are read is a parameter; `Url.reader` is the reader that is used.
-/

namespace ModuleBridge

namespace Specifier

/-- A relative specifier starts with a point. -/
def isRelative (specifier : String) : Bool :=
  specifier.startsWith "."

def isAbsolute (specifier : String) : Bool :=
  specifier.startsWith "/"

/-- A bare specifier is neither relative nor absolute. -/
def isBare (specifier : String) : Bool :=
  !specifier.isEmpty && !isRelative specifier && !isAbsolute specifier

end Specifier

/-- What the resolution of specifiers needs of a reader of URLs. -/
structure UrlReader where
  Reading : Type
  parse? : String → Option Reading
  scheme : Reading → String
  origin? : Reading → Option String
  join? : Reading → String → Option Reading
  render : Reading → String

namespace UrlReader

open Specifier

variable (urls : UrlReader)

/-- Read a module's path as a URL. A scheme of one letter is a drive letter. -/
def urlOf? (path : String) : Option urls.Reading :=
  (urls.parse? path).filter fun u => 1 < (urls.scheme u).length

def resolveRelative? (specifier path : String) : Option String :=
  match urls.urlOf? path with
  | some base => (urls.join? base specifier).map urls.render
  | none => some (Path.normalize (Path.combine (Path.directory path) specifier))

/-- A specifier with two slashes brings its own host; any other is put after the origin. -/
def resolveAbsolute? (specifier path : String) : Option String := do
  let base ← urls.urlOf? path
  match specifier.startsWith "//", urls.origin? base with
  | false, some origin => return origin ++ specifier
  | _, _ => return urls.render (← urls.join? base specifier)

/-- Resolve a specifier against a module's path. What cannot be resolved stays as it is. -/
def resolve (specifier : String) (path : Option String) : String :=
  match path with
  | none => specifier
  | some path =>
    if path.isEmpty then specifier
    else if isRelative specifier then (urls.resolveRelative? specifier path).getD specifier
    else if isAbsolute specifier then (urls.resolveAbsolute? specifier path).getD specifier
    else specifier

/-- Whether a specifier is absolute but its module's path is no URL to anchor it to. -/
def requiresOrigin (specifier : String) (path : Option String) : Bool :=
  match path with
  | none => false
  | some path => !path.isEmpty && isAbsolute specifier && (urls.urlOf? path).isNone

end UrlReader

abbrev Url.reader : UrlReader :=
  ⟨Url, parse?, scheme, origin?, join?, render⟩

namespace Specifier

abbrev urlOf? (path : String) : Option Url :=
  Url.reader.urlOf? path

abbrev resolveAbsolute? (specifier path : String) : Option String :=
  Url.reader.resolveAbsolute? specifier path

abbrev resolve (specifier : String) (path : Option String) : String :=
  Url.reader.resolve specifier path

abbrev requiresOrigin (specifier : String) (path : Option String) : Bool :=
  Url.reader.requiresOrigin specifier path

end Specifier

end ModuleBridge
