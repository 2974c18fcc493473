import Disassembler.Text

/-!
# Edit distance

The number of edits that turn one text into another, where an edit deletes a byte, inserts one,
substitutes one, or swaps two neighbours. No byte is edited twice. The distances of all pairs of
beginnings are computed row by row; a row needs the two rows before it.
-/

namespace Disassembler

namespace EditDistance

/-- The distance between the first `i` bytes of `s` and the first `j` bytes of `t`, both at least
one: `before` and `above` are the rows of `i - 2` and `i - 1` bytes, and `row` is this row up to
`j - 1`. -/
def cell (s t : Array UInt8) (before above row : Array Nat) (i j : Nat) : Nat :=
  let substitute := above[j - 1]?.getD 0 + if s[i - 1]? = t[j - 1]? then 0 else 1
  let delete := above[j]?.getD 0 + 1
  let insert := row[j - 1]?.getD 0 + 1
  let best := min substitute (min delete insert)
  if 1 < i ∧ 1 < j ∧ s[i - 1]? = t[j - 2]? ∧ s[i - 2]? = t[j - 1]? then
    min best (before[j - 2]?.getD 0 + 1)
  else best

/-- The row of the first `i` bytes of `s`, at least one. -/
def nextRow (s t : Array UInt8) (before above : Array Nat) (i : Nat) : Array Nat :=
  (List.range t.size).foldl (fun row j => row.push (cell s t before above row i (j + 1))) #[i]

/-- The rows of the first `i - 1` and of the first `i` bytes of `s`. -/
def rows (s t : Array UInt8) : Nat → Array Nat × Array Nat
  | 0 => (#[], (List.range (t.size + 1)).toArray)
  | i + 1 =>
    let (before, above) := rows s t i
    (above, nextRow s t before above (i + 1))

/-- The distance between two sequences of bytes. -/
def ofArrays (s t : Array UInt8) : Nat := (rows s t s.size).2[t.size]?.getD 0

end EditDistance

/-- The number of edits between two texts, up to their first NULs. -/
def editDistance (s t : Text) : Nat :=
  EditDistance.ofArrays s.untilNul.toArray t.untilNul.toArray

end Disassembler
