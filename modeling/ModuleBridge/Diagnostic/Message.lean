import ModuleBridge.Text.Substitute

/-!
# The message catalogue

Every text that a run can report, with its number and its category. A place such as `0` in braces
stands for the argument of that number.
-/

namespace ModuleBridge

inductive Category where
  | warning
  | error
  | message
deriving DecidableEq, Repr, Inhabited

def Category.render : Category → String
  | .warning => "warning"
  | .error => "error"
  | .message => "message"

inductive Message where
  | unterminatedString
  | identifierExpected
  /-- The argument is the missing piece of text. -/
  | expected
  | commentEndExpected
  | expressionExpected
  | digitExpected
  | statementExpected
  | stringExpected
  | unterminatedTemplate
  | nameRequired
  /-- The arguments are the module's name and the reason. -/
  | lossyOutput
  /-- The arguments are the specifier and the module's path. -/
  | noOrigin
deriving DecidableEq, Repr, Inhabited

namespace Message

def code : Message → Nat
  | unterminatedString => 1002
  | identifierExpected => 1003
  | expected => 1005
  | commentEndExpected => 1010
  | expressionExpected => 1109
  | digitExpected => 1124
  | statementExpected => 1128
  | stringExpected => 1141
  | unterminatedTemplate => 1160
  | nameRequired => 1161
  | lossyOutput => 9000
  | noOrigin => 9001

def category : Message → Category
  | lossyOutput => .warning
  | noOrigin => .message
  | _ => .error

def template : Message → String
  | unterminatedString => "Unterminated string literal."
  | identifierExpected => "Identifier expected."
  | expected => "'\x7b0\x7d' expected."
  | commentEndExpected => "'*/' expected."
  | expressionExpected => "Expression expected."
  | digitExpected => "Digit expected."
  | statementExpected => "Declaration or statement expected."
  | stringExpected => "String literal expected."
  | unterminatedTemplate => "Unterminated template literal."
  | nameRequired => "A function or class declaration requires a name here."
  | lossyOutput =>
    "Module '\x7b0\x7d' could not be parsed, emitted lossy fallback output: \x7b1\x7d"
  | noOrigin => "Cannot resolve '\x7b0\x7d' against '\x7b1\x7d': base has no origin."

def text (m : Message) (args : List String) : String :=
  fillTemplate m.template args

end Message

end ModuleBridge
