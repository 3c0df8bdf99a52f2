import ModuleBridge.Number.Shortest

/-!
# JSON documents

Documents with ordered members, in which a member name may repeat, and their indented text: two
blanks a level, one member or element a line, nothing between the brackets of an empty one.
-/

namespace ModuleBridge

inductive JsonTree where
  | null
  | bool (value : Bool)
  /-- A number, by its text. -/
  | number (text : String)
  | string (value : String)
  | array (elements : List JsonTree)
  | object (members : List (String × JsonTree))
deriving Repr, Inhabited

/-- Numbers are written positionally from 0.00001 up to sixteen digits before the point. -/
def jsonLayout : NumberLayout := ⟨-5, 16⟩

def renderDouble (x : Binary64) : String :=
  if x.bits = 0 then "0.0" else jsonLayout.render x.shortest

namespace JsonTree

/-- A double as a number; there is none for an infinite one. -/
def ofDouble (x : Binary64) : JsonTree :=
  if x.isInfinite then null else number (renderDouble x)

def ofNat (n : Nat) : JsonTree :=
  number (toString n)

def ofOption {α : Type} (f : α → JsonTree) : Option α → JsonTree
  | some value => f value
  | none => null

end JsonTree

/-- A character in a JSON string: quote, backslash and control characters are escaped. -/
def escapeJsonChar (c : Char) : List Char :=
  if c == '"' then ['\\', '"']
  else if c == '\\' then ['\\', '\\']
  else if c == '\x08' then ['\\', 'b']
  else if c == '\x0c' then ['\\', 'f']
  else if c == '\n' then ['\\', 'n']
  else if c == '\r' then ['\\', 'r']
  else if c == '\t' then ['\\', 't']
  else if c < ' ' then
    let code := c.toNat
    ['\\', 'u', '0', '0', Nat.digitChar (code / 16), Nat.digitChar (code % 16)]
  else [c]

def quoteJson (text : String) : String :=
  String.ofList ('"' :: text.toList.flatMap escapeJsonChar ++ ['"'])

/-- Lines in brackets, each but the last with a comma, at one level below `indent`. -/
def bracketLines (opener closer indent : String) (lines : List String) : String :=
  match lines with
  | [] => opener ++ closer
  | _ =>
    let inner := ",\n".intercalate (lines.map fun line => indent ++ "  " ++ line)
    opener ++ "\n" ++ inner ++ "\n" ++ indent ++ closer

namespace JsonTree

mutual

/-- The indented text of a document whose first line is already indented by `indent`. -/
def renderAt (indent : String) : JsonTree → String
  | null => "null"
  | bool true => "true"
  | bool false => "false"
  | number text => text
  | string value => quoteJson value
  | array elements => bracketLines "[" "]" indent (renderElements (indent ++ "  ") elements)
  | object members => bracketLines "\x7b" "\x7d" indent (renderMembers (indent ++ "  ") members)

def renderElements (indent : String) : List JsonTree → List String
  | [] => []
  | first :: rest => renderAt indent first :: renderElements indent rest

def renderMembers (indent : String) : List (String × JsonTree) → List String
  | [] => []
  | (name, value) :: rest =>
    (quoteJson name ++ ": " ++ renderAt indent value) :: renderMembers indent rest

end

def render (t : JsonTree) : String :=
  t.renderAt ""

end JsonTree

end ModuleBridge
