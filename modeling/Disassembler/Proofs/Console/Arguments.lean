import Disassembler.Proofs.Console.Names
import Disassembler.Proofs.Numeral

/-!
# Addresses as arguments

An address is said to the console as hexadecimal digits, with or without `0x`. There may be any number
of digits, and a number that does not fit is no address at all. It is not refused, though: what is
read then is the greatest address. So a word of digits is taken at its value, or refused, if and only
if at most sixteen digits stand behind the zeros in front. Without the `0x` the names of what is loaded
come first, so what is said of such words is said of those that name nothing.
-/

namespace Disassembler

/-- The address that hexadecimal digits write, if it fits. -/
def Text.written? (t : Text) : Option UInt64 :=
  if numeral 16 t < 2 ^ 64 then some (UInt64.ofNat (numeral 16 t)) else none

namespace Loaded

variable {l : Loaded} {name t : Text}

/-- A symbol or a function of what is loaded has a name. -/
def Knows (l : Loaded) (name : Text) : Prop :=
  (∃ s ∈ l.image.symbols, s.Named name) ∨ ∃ f ∈ l.records.functions, f.name = name

theorem named?_eq_none_iff : l.named? name = none ↔ ¬ l.Knows name := by
  rw [named?, Option.or_eq_none_iff, Option.map_eq_none_iff, Option.map_eq_none_iff, symbol?,
    List.find?_eq_none, List.find?_eq_none, Knows, not_or]
  simp [Symbol.Named]

theorem isHex_iff : isHex t = true ↔ t ≠ [] ∧ ∀ b ∈ t, Text.isDigit 16 b = true := by
  simp only [isHex, Bool.and_eq_true, Bool.not_eq_true', List.isEmpty_eq_false_iff,
    List.all_eq_true, ne_eq]

theorem nul_notMem_of_isHex (h : isHex t = true) : 0 ∉ t := fun hzero =>
  (Text.ne_of_isDigit ((isHex_iff.mp h).2 0 hzero)).2.1 rfl

/-- Digits alone are not `0x` and digits. -/
theorem not_isMarked_of_isHex (h : isHex t = true) : ¬ IsMarked t := by
  rintro ⟨hmark, -⟩
  rcases t with _ | ⟨z, _ | ⟨x, t⟩⟩
  · exact absurd hmark (by decide)
  · exact absurd (congrArg List.length hmark) (show ¬ 1 = 2 by decide)
  · -- the second byte would have to be an `x`
    obtain ⟨-, hx⟩ := List.cons.inj hmark
    have hdigit := (isHex_iff.mp h).2 x (by simp)
    exact (Text.ne_of_isDigit hdigit).2.2.2.2 (List.cons.inj hx).1

/-- Digits behind `0x` are read as a number, whatever is named. -/
theorem address?_mark (h : isHex t = true) :
    l.address? ("0x" ++ t) = some (Numeral.hexAddress t) := by
  have hnul : 0 ∉ (("0x" : Text) ++ t) := by
    rw [List.mem_append, not_or]
    exact ⟨by decide, nul_notMem_of_isHex h⟩
  rw [address?, Text.untilNul_of_notMem hnul]
  exact if_pos ⟨rfl, h⟩

/-- Digits alone are read as a number if nothing is named so. -/
theorem address?_of_not_knows (h : isHex t = true) (hknows : ¬ l.Knows t) :
    l.address? t = some (Numeral.hexAddress t) := by
  rw [address?, Text.untilNul_of_notMem (nul_notMem_of_isHex h)]
  refine (if_neg (not_isMarked_of_isHex h)).trans ?_
  rw [named?_eq_none_iff.mpr hknows, if_pos h, Option.none_or]

/-- A word of digits is taken at its value or refused, behind `0x`, and alone if nothing is named
so. -/
def TakesOrRefuses (l : Loaded) (t : Text) : Prop :=
  l.address? ("0x" ++ t) = t.written? ∧ (¬ l.Knows t → l.address? t = t.written?)

/-- **An address argument is taken at its value or refused if it has sixteen digits at most.**

Take any state, and any word of hexadecimal digits. Behind `0x` it is always read as an address,
namely as its value, or as the greatest address if the value does not fit; and alone it is read in the
same way if nothing is named so. So such a word is taken at its value or refused if and only if its
value is below `2 ^ 64`: if no more than sixteen digits stand behind the zeros in front.
-/
theorem takesOrRefuses_iff (l : Loaded) {t : Text} (h : isHex t = true) :
    l.address? ("0x" ++ t) = some (UInt64.ofNat (min (Text.numeral 16 t) (2 ^ 64 - 1)))
      ∧ (¬ l.Knows t → l.address? t = l.address? ("0x" ++ t))
      ∧ (l.TakesOrRefuses t ↔ Text.numeral 16 t < 2 ^ 64)
      ∧ (Text.numeral 16 t < 2 ^ 64 ↔ (t.dropWhile (· == Text.code '0')).length ≤ 16) := by
  obtain ⟨hne, hdigits⟩ := isHex_iff.mp h
  have hread := Numeral.hexAddress_of_digits hne hdigits
  have hmark : l.address? ("0x" ++ t)
      = some (UInt64.ofNat (min (Text.numeral 16 t) (2 ^ 64 - 1))) :=
    (address?_mark h).trans (congrArg some hread)
  have halone : ¬ l.Knows t → l.address? t = l.address? ("0x" ++ t) := fun hknows =>
    (address?_of_not_knows h hknows).trans (address?_mark h).symm
  have hlength : Text.numeral 16 t < 16 ^ 16
      ↔ (t.dropWhile (· == Text.code '0')).length ≤ 16 :=
    Text.numeral_lt_pow_iff (by omega) hdigits
  refine ⟨hmark, halone, ?_, hlength⟩
  constructor
  · rintro ⟨htaken, -⟩
    by_contra hlt
    -- what does not fit would have to be refused
    rw [hmark, Text.written?, if_neg hlt] at htaken
    cases htaken
  · intro hlt
    have hmin : min (Text.numeral 16 t) (2 ^ 64 - 1) = Text.numeral 16 t := by omega
    have htaken : l.address? ("0x" ++ t) = t.written? := by
      rw [hmark, hmin, Text.written?, if_pos hlt]
    exact ⟨htaken, fun hknows => (halone hknows).trans htaken⟩

/-- What is loaded from a function that returns at once. -/
def ofReturn : Except LoadError Loaded :=
  build {} {} (Console.namedImage "f") { image := some (Console.namedImage "f") } []

/-- Sixteen digits behind four zeros are taken at their value. -/
theorem takesOrRefuses_iff_zeros :
    ∃ l, ofReturn = .ok l ∧ l.TakesOrRefuses "0000fffffffffffffffe" ∧ ¬ l.Knows "0000fffffffffffffffe"
      ∧ l.address? "0x0000fffffffffffffffe" = some 0xfffffffffffffffe
      ∧ l.address? "0000fffffffffffffffe" = some 0xfffffffffffffffe := by
  obtain ⟨l, hl, hnamed⟩ : ∃ l, ofReturn = .ok l
      ∧ (l.named? "0000fffffffffffffffe" == none) = true := exists_ok_of_any (by decide +kernel)
  have hknows : ¬ l.Knows "0000fffffffffffffffe" := named?_eq_none_iff.mp (eq_of_beq hnamed)
  have hhex : isHex "0000fffffffffffffffe" = true := by decide +kernel
  obtain ⟨hmark, halone, htakes, hfits⟩ := takesOrRefuses_iff l hhex
  have hmark : l.address? "0x0000fffffffffffffffe" = some 0xfffffffffffffffe :=
    hmark.trans (by decide +kernel)
  have hdigits := hfits.mpr (by decide +kernel)
  exact ⟨l, hl, htakes.mpr hdigits, hknows, hmark, (halone hknows).trans hmark⟩

/-- **One more than the greatest address is taken for the greatest address**, with `0x` and without
it. -/
theorem wide_address_taken :
    ∃ l, ofReturn = .ok l ∧ isHex "10000000000000000" = true
      ∧ Text.numeral 16 "10000000000000000" = 2 ^ 64 ∧ ¬ l.Knows "10000000000000000"
      ∧ l.address? "0x10000000000000000" = some 0xffffffffffffffff
      ∧ l.address? "10000000000000000" = some 0xffffffffffffffff
      ∧ ¬ l.TakesOrRefuses "10000000000000000" := by
  obtain ⟨l, hl, hfacts⟩ : ∃ l, ofReturn = .ok l ∧ ((l.named? "10000000000000000",
      l.address? "0x10000000000000000", l.address? "10000000000000000")
        == (none, some 0xffffffffffffffff, some 0xffffffffffffffff)) = true :=
    exists_ok_of_any (by decide +kernel)
  simp only [beq_iff_eq, Prod.mk.injEq] at hfacts
  obtain ⟨hnamed, hmark, halone⟩ := hfacts
  refine ⟨l, hl, by decide +kernel, by decide +kernel, named?_eq_none_iff.mp hnamed, hmark, halone,
    fun h => ?_⟩
  have hrefused : Text.written? "10000000000000000" = none := by decide +kernel
  have htaken := h.1.symm.trans hmark
  rw [hrefused] at htaken
  cases htaken

end Loaded

end Disassembler
