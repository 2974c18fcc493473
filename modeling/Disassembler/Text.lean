/-!
# Text

All text the library reads or prints is bytes: symbol names and debug strings may be in any
encoding or in none. A string literal stands for its UTF-8 bytes.

The numerals are here too. `digits` gives the digits of a number in any base, most significant
first; `decimal` and `hex` are its two printed forms.
-/

namespace Disassembler

/-- Program text, as bytes. -/
abbrev Text := List UInt8

namespace Text

/-- The UTF-8 bytes of a string. -/
def ofString (s : String) : Text := s.toByteArray.data.toList

instance : Coe String Text := ⟨ofString⟩

/-- The code of an ASCII character. -/
def code (c : Char) : UInt8 := UInt8.ofNat c.toNat

/-- The line feed. -/
def newline : UInt8 := 10

/-- The digits of `n`, most significant first; one digit when the base is below two. -/
def digits (base n : Nat) : List Nat :=
  if _h : 2 ≤ base ∧ base ≤ n then digits base (n / base) ++ [n % base] else [n]
termination_by n
decreasing_by exact Nat.div_lt_self (by omega) (by omega)

/-- The byte that shows a digit, with lower-case letters from ten on. -/
def digitByte (d : Nat) : UInt8 := UInt8.ofNat (if d < 10 then 48 + d else 87 + d)

/-- The digit that a byte shows in any base up to thirty-six, in either case. -/
def digitValue? (b : UInt8) : Option Nat :=
  if 48 ≤ b ∧ b ≤ 57 then some (b.toNat - 48)
  else if 97 ≤ b ∧ b ≤ 122 then some (b.toNat - 87)
  else if 65 ≤ b ∧ b ≤ 90 then some (b.toNat - 55)
  else none

/-- Does the byte show a digit of this base? -/
def isDigit (base : Nat) (b : UInt8) : Bool :=
  match digitValue? b with
  | some d => d < base
  | none => false

/-- The number written by a list of digits, most significant first. -/
def ofDigits (base : Nat) (ds : List Nat) : Nat := ds.foldl (fun n d => n * base + d) 0

/-- The number that a text of digits shows; bytes that are no digits count for nothing. -/
def numeral (base : Nat) (t : Text) : Nat := ofDigits base (t.filterMap digitValue?)

/-- A number in decimal. -/
def decimal (n : Nat) : Text := (digits 10 n).map digitByte

/-- A number in lower-case hexadecimal, without the `0x`. -/
def hex (n : Nat) : Text := (digits 16 n).map digitByte

/-- A number in lower-case hexadecimal after `0x`. -/
def hexPrefixed (n : Nat) : Text := "0x" ++ hex n

/-- An integer in decimal, with a minus sign when it is negative. -/
def integer (n : Int) : Text := if n < 0 then "-" ++ decimal n.natAbs else decimal n.natAbs

/-- A byte as two hexadecimal digits. -/
def hexByte (b : UInt8) : Text := [digitByte (b.toNat / 16), digitByte (b.toNat % 16)]

/-- The text up to its first NUL: what a NUL-terminated reader sees of it. -/
def untilNul (t : Text) : Text := t.takeWhile (· != 0)

/-- Space, tab, line feed, vertical tab, form feed and carriage return. -/
def isBlank (b : UInt8) : Bool := b == 32 || (9 ≤ b && b ≤ 13)

/-- The lower-case form of an ASCII letter; any other byte as it is. -/
def lowerByte (b : UInt8) : UInt8 := if 65 ≤ b ∧ b ≤ 90 then b + 32 else b

/-- The text with its ASCII letters in lower case. -/
def lower (t : Text) : Text := t.map lowerByte

/-- The text with fill bytes in front until it is at least `width` long. -/
def padLeft (fill : UInt8) (width : Nat) (t : Text) : Text :=
  List.replicate (width - t.length) fill ++ t

/-- The text with spaces behind until it is at least `width` long. -/
def padRight (width : Nat) (t : Text) : Text := t ++ List.replicate (width - t.length) 32

end Text

end Disassembler
