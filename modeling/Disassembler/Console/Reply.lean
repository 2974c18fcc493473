import Disassembler.Json
import Disassembler.Row

/-!
# Replies

The console answers every command with one JSON object, whose first member says whether the command
was carried out.
-/

namespace Disassembler.Reply

/-- The reply of a command that was carried out. -/
def ok (members : List (String × Json)) : Json := .object (("ok", .bool true) :: members)

/-- The reply of a command that failed. -/
def error (message : Text) (members : List (String × Json)) : Json :=
  .object (("ok", .bool false) :: ("error", .string message) :: members)

/-- The references of a row: its tokens that lead to an address, apart from a label. -/
def references (tokens : List Token) : List Json :=
  tokens.filterMap fun t =>
    match t.target with
    | some a =>
      if t.kind = .label then none
      else some (.object
        [("text", .string t.text), ("kind", .word t.kind.name), ("target", .address a)])
    | none => none

/-- A file and a line, if the line is known. -/
def lineMembers (location : Debug.Location) : List (String × Json) :=
  if location.line = 0 then []
  else [("file", .string location.file), ("line", .number location.line.toNat)]

/-- What a row says about its location. -/
def locationMembers (location : Debug.Location) : List (String × Json) :=
  lineMembers location
    ++ if location.function.isEmpty then [] else [("function", .string location.function)]

/-- A row. -/
def row (r : Row) : Json :=
  .object <|
    [("row", .number r.index), ("kind", .word r.kind.name), ("addr", .address r.address),
      ("text", .string r.text)]
    ++ (match r.location with
      | some location => locationMembers location
      | none => [])
    ++ match references r.tokens with
      | [] => []
      | refs => [("refs", .array refs)]

/-- The reply that shows rows. -/
def rows (rs : List Row) : Json := ok [("rows", .array (rs.map row))]

end Disassembler.Reply
