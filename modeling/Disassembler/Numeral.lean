import Disassembler.Text

/-!
# Numerals that people type

A numeral may begin with blanks and a sign, and in base sixteen with `0x`. Where no base is given,
`0x` makes it hexadecimal and a leading zero octal. It ends at the first byte that is no digit; what
follows is kept, because some readers refuse it and some do not care.
-/

namespace Disassembler

/-- A numeral at the front of a text, and what follows it. -/
structure Numeral where
  negative : Bool
  magnitude : Nat
  rest : Text

namespace Numeral

/-- The text after `0x`, when a hexadecimal digit follows that. -/
def afterHexMark? : Text → Option Text
  | z :: x :: rest =>
    if z = Text.code '0' ∧ Text.lowerByte x = Text.code 'x' ∧ rest.head?.any (Text.isDigit 16) then
      some rest
    else none
  | _ => none

/-- The base of an unsigned numeral and where its digits begin. -/
def baseAndDigits (base : Option Nat) (t : Text) : Nat × Text :=
  match base, afterHexMark? t with
  | none, some digits => (16, digits)
  | none, none => (if t.head? = some (Text.code '0') then 8 else 10, t)
  | some 16, some digits => (16, digits)
  | some b, _ => (b, t)

/-- The numeral at the front of a text; nothing when there are no digits. -/
def read? (base : Option Nat) (t : Text) : Option Numeral :=
  let t := t.dropWhile Text.isBlank
  let negative := t.head? = some (Text.code '-')
  let unsigned := if negative ∨ t.head? = some (Text.code '+') then t.tail else t
  let (b, t) := baseAndDigits base unsigned
  let digits := t.takeWhile (Text.isDigit b)
  if digits.isEmpty then none
  else some { negative, magnitude := Text.numeral b digits, rest := t.dropWhile (Text.isDigit b) }

/-- The value as an unsigned 64-bit number, where a minus sign negates modulo `2 ^ 64`; nothing
when the magnitude does not fit. -/
def unsigned? (n : Numeral) : Option UInt64 :=
  if n.magnitude < 1 <<< 64 then
    some (if n.negative then 0 - UInt64.ofNat n.magnitude else UInt64.ofNat n.magnitude)
  else none

/-- The value as an unsigned 64-bit number, the greatest one when the magnitude does not fit. -/
def saturated (n : Numeral) : UInt64 := n.unsigned?.getD (UInt64.ofNat (1 <<< 64 - 1))

/-- The value as a signed 64-bit number, the nearest one when it does not fit. -/
def signed (n : Numeral) : Int :=
  if n.negative then max (-(n.magnitude : Int)) (-(1 <<< 63 : Nat))
  else min (n.magnitude : Int) (1 <<< 63 - 1 : Nat)

/-- The hexadecimal number at the front of a text, zero if there is none. -/
def hexAddress (t : Text) : UInt64 := ((read? (some 16) t).map saturated).getD 0

/-- The number at the front of a text in a base, zero if there is none. -/
def integer (base : Option Nat) (t : Text) : Int := ((read? base t).map signed).getD 0

end Numeral

end Disassembler
