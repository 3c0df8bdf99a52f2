import ModuleBridge.Text.Unseen

/-!
# Texts shown in messages

A text that a message quotes is shown on one line and between double quotes; unseen characters
appear by their code points.
-/

namespace ModuleBridge

def showChar (c : Char) : List Char :=
  if c == '"' || c == '\\' then ['\\', c]
  else if c == '\x00' then ['\\', '0']
  else if c == '\t' then ['\\', 't']
  else if c == '\n' then ['\\', 'n']
  else if c == '\r' then ['\\', 'r']
  else if isUnseen c then '\\' :: 'u' :: '\x7b' :: Nat.toDigits 16 c.toNat ++ ['\x7d']
  else [c]

def showQuoted (text : String) : String :=
  String.ofList ('"' :: text.toList.flatMap showChar ++ ['"'])

end ModuleBridge
