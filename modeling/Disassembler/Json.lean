import Disassembler.Text

/-!
# JSON replies

The part of JSON in which replies are written: strings are bytes, numbers are natural, and members
keep their order. A value is written in one line without blanks. Quotes, backslashes and control
characters in strings are escaped, and every other byte is written as it is.
-/

namespace Disassembler

/-- A JSON value. -/
inductive Json where
  | bool (b : Bool)
  | number (n : Nat)
  | string (t : Text)
  | array (xs : List Json)
  | object (members : List (String × Json))

namespace Json

/-- A byte as it is written in a string. -/
def escape (b : UInt8) : Text :=
  if b = Text.code '"' then "\\\""
  else if b = Text.code '\\' then "\\\\"
  else if b = Text.newline then "\\n"
  else if b = Text.code '\r' then "\\r"
  else if b = Text.code '\t' then "\\t"
  else if b < 32 then "\\u00" ++ Text.hexByte b
  else [b]

/-- A text as a JSON string. -/
def quote (t : Text) : Text := "\"" ++ t.flatMap escape ++ "\""

/-- Texts one after another with commas between them. -/
def separated (ts : List Text) : Text := (Text.ofString ",").intercalate ts

mutual

/-- A value in JSON. -/
def render : Json → Text
  | bool b => if b then Text.ofString "true" else Text.ofString "false"
  | number n => Text.decimal n
  | string t => quote t
  | array xs => "[" ++ separated (renderAll xs) ++ "]"
  | object ms => "\x7b" ++ separated (renderMembers ms) ++ "\x7d"

/-- Values in JSON. -/
def renderAll : List Json → List Text
  | [] => []
  | x :: xs => render x :: renderAll xs

/-- Members in JSON. -/
def renderMembers : List (String × Json) → List Text
  | [] => []
  | (key, x) :: ms => (quote key ++ ":" ++ render x) :: renderMembers ms

end

/-- A word as a string. -/
def word (s : String) : Json := .string s

/-- An address as a string. -/
def address (a : UInt64) : Json := .string (Text.hexPrefixed a.toNat)

end Json

end Disassembler
