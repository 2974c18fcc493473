import Disassembler.Decode
import Mathlib.Data.Nat.Bitwise

/-!
# Fields of instruction words

A field is a quotient and a remainder of the number of its word, so linear arithmetic decides what
overlapping fields say about each other. Bit by bit, fields that together cover a word determine it.
-/

namespace Disassembler

variable {w w' : UInt32}

/-! ## Fields as numbers -/

theorem bits_eq (w : UInt32) (hi lo : Nat) :
    bits w hi lo = w.toNat / 2 ^ lo % 2 ^ (hi + 1 - lo) := by
  rw [bits, Nat.shiftRight_eq_div_pow, Nat.one_shiftLeft]

theorem bit_eq_true_iff (w : UInt32) (i : Nat) : bit w i = true ↔ w.toNat / 2 ^ i % 2 = 1 := by
  rw [bit, bits_eq, beq_iff_eq, Nat.add_sub_cancel_left, Nat.pow_one]

theorem bit_eq_false_iff (w : UInt32) (i : Nat) : bit w i = false ↔ w.toNat / 2 ^ i % 2 = 0 := by
  rw [← Bool.not_eq_true, bit_eq_true_iff]
  omega

theorem toNat_bit (w : UInt32) (i : Nat) : (bit w i).toNat = bits w i i := by
  have hlt := bits_lt w i i
  rw [Nat.add_sub_cancel_left] at hlt
  rcases Nat.lt_succ_iff_lt_or_eq.mp hlt with h | h
  · simp [bit, Nat.lt_one_iff.mp h]
  · simp [bit, h]

/-! ## Words by their fields -/

/-- The bits of a word from `hi` down to `lo`. -/
structure Field where
  hi : Nat
  lo : Nat

/-- Is a bit in the field? -/
def Field.holds (f : Field) (i : Nat) : Bool := f.lo.ble i && i.ble f.hi

/-- Do two words agree in the field? -/
def Field.Agrees (f : Field) (w w' : UInt32) : Prop := bits w f.hi f.lo = bits w' f.hi f.lo

@[simp] theorem agrees_mk {hi lo : Nat} :
    (Field.mk hi lo).Agrees w w' ↔ bits w hi lo = bits w' hi lo := Iff.rfl

theorem testBit_bits (w : UInt32) (hi lo j : Nat) :
    (bits w hi lo).testBit j = (decide (j < hi + 1 - lo) && w.toNat.testBit (lo + j)) := by
  rw [bits, Nat.one_shiftLeft, Nat.testBit_mod_two_pow, Nat.testBit_shiftRight]

theorem Field.Agrees.testBit_eq {f : Field} (h : f.Agrees w w') {i : Nat} (hi : f.holds i) :
    w.toNat.testBit i = w'.toNat.testBit i := by
  simp only [holds, Bool.and_eq_true, Nat.ble_eq] at hi
  obtain ⟨hlo, hhi⟩ := hi
  have hlt : i - f.lo < f.hi + 1 - f.lo := by omega
  have hbit := congrArg (Nat.testBit · (i - f.lo)) h
  simpa only [testBit_bits, hlt, decide_true, Bool.true_and, Nat.add_sub_cancel' hlo] using hbit

/-- **Fields that cover all bits determine the word.** -/
theorem eq_of_agrees {fields : List Field} (hcover : ∀ i < 32, ∃ f ∈ fields, f.holds i)
    (h : ∀ f ∈ fields, f.Agrees w w') : w = w' := by
  refine UInt32.toNat_inj.mp (Nat.eq_of_testBit_eq fun i => ?_)
  by_cases hi : i < 32
  · obtain ⟨f, hf, hholds⟩ := hcover i hi
    exact (h f hf).testBit_eq hholds
  · have hhigh : ∀ v : UInt32, v.toNat.testBit i = false := fun v =>
      Nat.testBit_lt_two_pow (Nat.lt_of_lt_of_le v.toNat_lt
        (Nat.pow_le_pow_right (by decide) (Nat.le_of_not_lt hi)))
    rw [hhigh, hhigh]

/-! ## Signed fields and offsets -/

theorem emod_signExtend {n v : Nat} (hv : v < 2 ^ n) :
    signExtend n v % ((2 ^ n : Nat) : Int) = v := by
  rw [signExtend, Nat.one_shiftLeft, Int.bmod_emod]
  exact Int.emod_eq_of_lt (Int.natCast_nonneg v) (Int.ofNat_lt.mpr hv)

/-- A field is known from its sign extension modulo any higher power of two. -/
theorem eq_of_signExtend_emod_eq {n k v v' : Nat} (hn : n ≤ k) (hv : v < 2 ^ n) (hv' : v' < 2 ^ n)
    (h : signExtend n v % ((2 ^ k : Nat) : Int) = signExtend n v' % ((2 ^ k : Nat) : Int)) :
    v = v' := by
  have hdvd : ((2 ^ n : Nat) : Int) ∣ ((2 ^ k : Nat) : Int) :=
    Int.ofNat_dvd.mpr (Nat.pow_dvd_pow 2 hn)
  have hmod := congrArg (· % ((2 ^ n : Nat) : Int)) h
  simp only [Int.emod_emod_of_dvd _ hdvd, emod_signExtend hv, emod_signExtend hv'] at hmod
  exact Int.ofNat_inj.mp hmod

theorem signExtend_inj {n v v' : Nat} (hv : v < 2 ^ n) (hv' : v' < 2 ^ n)
    (h : signExtend n v = signExtend n v') : v = v' :=
  eq_of_signExtend_emod_eq (Nat.le_refl n) hv hv' (congrArg (· % _) h)

theorem toNat_ofInt (d : Int) : ((UInt64.ofInt d).toNat : Int) = d % ((2 ^ 64 : Nat) : Int) := by
  have hnonneg : 0 ≤ d % 2 ^ 64 := Int.emod_nonneg d (by decide)
  have hlt : d % 2 ^ 64 < 2 ^ 64 := Int.emod_lt_of_pos d (by decide)
  simp only [UInt64.ofInt, UInt64.toNat_ofNat']
  omega

/-- The address that an offset leads to says what the field of the offset is. -/
theorem signExtend_inj_of_moveBy {n v v' : Nat} (hn : n ≤ 64) (hv : v < 2 ^ n) (hv' : v' < 2 ^ n)
    {a : UInt64} (h : moveBy a (signExtend n v) = moveBy a (signExtend n v')) : v = v' := by
  have hoffset : UInt64.ofInt (signExtend n v) = UInt64.ofInt (signExtend n v') :=
    (UInt64.add_right_inj a).mp h
  have hmod := congrArg (fun x => (x.toNat : Int)) hoffset
  simp only [toNat_ofInt] at hmod
  exact eq_of_signExtend_emod_eq hn hv hv' hmod

/-! ## The bytes of a word -/

/-- The bytes of a word, the least significant first. -/
def littleEndianBytes (w : UInt32) : List UInt8 :=
  [UInt8.ofNat w.toNat, UInt8.ofNat (w.toNat / 2 ^ 8), UInt8.ofNat (w.toNat / 2 ^ 16),
    UInt8.ofNat (w.toNat / 2 ^ 24)]

/-- The bytes of a word as they lie in memory. -/
def ByteOrder.bytes : ByteOrder → UInt32 → List UInt8
  | .little, w => littleEndianBytes w
  | .big, w => (littleEndianBytes w).reverse

theorem littleEndian_littleEndianBytes (w : UInt32) :
    littleEndian (littleEndianBytes w) = w.toNat := by
  have hlt := w.toNat_lt
  simp only [littleEndian, littleEndianBytes, List.foldr_cons, List.foldr_nil,
    UInt8.toNat_ofNat']
  omega

/-- A word is read from where its bytes lie, whatever lies behind them. -/
theorem ByteOrder.word?_bytes_append (order : ByteOrder) (w : UInt32) (rest : List UInt8) :
    order.word? (order.bytes w ++ rest) = some w := by
  have hw : UInt32.ofNat (littleEndian (littleEndianBytes w)) = w := by
    rw [littleEndian_littleEndianBytes, UInt32.ofNat_toNat]
  cases order <;> exact congrArg some hw

end Disassembler
