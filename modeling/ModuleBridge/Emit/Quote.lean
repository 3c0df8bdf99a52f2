/-!
# Quoting

Writing the raw value of a string literal, escapes included, as a literal again.
-/

namespace ModuleBridge

/-- Put a backslash before each single quote that has none. A backslash keeps the character after
it as it is. -/
def escapeSingleQuotes : List Char → List Char
  | [] => []
  | [c] => if c == '\'' then ['\\', '\''] else [c]
  | a :: b :: rest =>
    if a == '\\' then a :: b :: escapeSingleQuotes rest
    else if a == '\'' then '\\' :: '\'' :: escapeSingleQuotes (b :: rest)
    else a :: escapeSingleQuotes (b :: rest)

/-- Quote a raw value: with single quotes if it holds none, else with double quotes if it holds none
of those, else with single quotes and escapes. -/
def quoteChars (value : List Char) : List Char :=
  if !value.contains '\'' then '\'' :: value ++ ['\'']
  else if !value.contains '"' then '"' :: value ++ ['"']
  else '\'' :: escapeSingleQuotes value ++ ['\'']

def quote (value : String) : String :=
  String.ofList (quoteChars value.toList)

end ModuleBridge
