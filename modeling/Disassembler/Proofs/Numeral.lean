import Disassembler.Numeral
import Mathlib.Algebra.Group.Nat.Defs
import Mathlib.Data.List.TakeWhile

/-!
# Numerals that are printed

A printed number is read back as itself, and has no leading zero. Both come from the digits: the
last one is the remainder, and those before it are the digits of the quotient. A hexadecimal digit
is neither a blank nor a sign nor the mark of a base, so a text of them is one numeral to its end.
-/

namespace Disassembler

namespace Text

variable {base n d : Nat}

/-! ## Digits -/

theorem digits_of_lt (h : n < base) : digits base n = [n] := by
  rw [digits, dif_neg]
  omega

theorem digits_of_le (hbase : 2 ≤ base) (h : base ≤ n) :
    digits base n = digits base (n / base) ++ [n % base] := by
  rw [digits, dif_pos ⟨hbase, h⟩]

@[simp] theorem digits_ne_nil (base n : Nat) : digits base n ≠ [] := by
  rw [digits]
  split
  · simp
  · simp

theorem lt_of_mem_digits (hbase : 2 ≤ base) (h : d ∈ digits base n) : d < base := by
  induction n using Nat.strongRecOn with
  | ind n ih =>
    by_cases hn : base ≤ n
    · rw [digits_of_le hbase hn] at h
      rcases List.mem_append.mp h with h | h
      · exact ih (n / base) (Nat.div_lt_self (by omega) (by omega)) h
      · obtain rfl := List.mem_singleton.mp h
        exact Nat.mod_lt _ (by omega)
    · rw [digits_of_lt (by omega)] at h
      obtain rfl := List.mem_singleton.mp h
      omega

/-- **The digits of a number have its value.** -/
theorem ofDigits_digits (hbase : 2 ≤ base) (n : Nat) : ofDigits base (digits base n) = n := by
  induction n using Nat.strongRecOn with
  | ind n ih =>
    by_cases hn : base ≤ n
    · have hfront := ih (n / base) (Nat.div_lt_self (by omega) (by omega))
      rw [ofDigits] at hfront
      rw [digits_of_le hbase hn, ofDigits, List.foldl_append, hfront, List.foldl_cons,
        List.foldl_nil]
      exact Nat.div_add_mod' n base
    · rw [digits_of_lt (by omega)]
      simp [ofDigits]

/-- Only zero begins with a zero. -/
theorem head?_digits_ne_zero (hbase : 2 ≤ base) (h : 0 < n) : (digits base n).head? ≠ some 0 := by
  induction n using Nat.strongRecOn with
  | ind n ih =>
    by_cases hn : base ≤ n
    · have hfront := List.head?_eq_some_head (digits_ne_nil base (n / base))
      rw [digits_of_le hbase hn, List.head?_append, hfront, Option.some_or, ← hfront]
      exact ih (n / base) (Nat.div_lt_self (by omega) (by omega)) (Nat.div_pos hn (by omega))
    · rw [digits_of_lt (by omega), List.head?_singleton]
      simp
      omega

/-! ## Bytes that show digits -/

theorem toNat_digitByte (h : d < 36) :
    (digitByte d).toNat = if d < 10 then 48 + d else 87 + d := by
  rw [digitByte, UInt8.toNat_ofNat']
  split
  · omega
  · omega

theorem le_digitByte (h : d < 36) : 32 ≤ digitByte d := by
  have hbyte := toNat_digitByte h
  simp only [UInt8.le_iff_toNat_le, hbyte, UInt8.reduceToNat]
  split
  · omega
  · omega

/-- **A digit that is shown is read as itself.** -/
theorem digitValue?_digitByte (h : d < 36) : digitValue? (digitByte d) = some d := by
  have hbyte := toNat_digitByte h
  simp only [digitValue?, UInt8.le_iff_toNat_le, hbyte, UInt8.reduceToNat]
  by_cases hd : d < 10
  · rw [if_pos hd, if_pos (by omega)]
    exact congrArg some (by omega)
  · rw [if_neg hd, if_neg (by omega), if_pos (by omega)]
    exact congrArg some (by omega)

theorem isDigit_digitByte (hbase : base ≤ 36) (h : d < base) :
    isDigit base (digitByte d) = true := by
  rw [isDigit, digitValue?_digitByte (by omega)]
  exact decide_eq_true h

theorem numeral_map_digitByte (ds : List Nat) (h : ∀ d ∈ ds, d < 36) :
    numeral base (ds.map digitByte) = ofDigits base ds := by
  have hvalues : (ds.map digitByte).filterMap digitValue? = ds := by
    induction ds with
    | nil => rfl
    | cons d ds ih =>
      rw [List.map_cons, List.filterMap_cons, digitValue?_digitByte (h d (by simp)),
        ih fun x hx => h x (List.mem_cons_of_mem d hx)]
  rw [numeral, hvalues]

theorem isDigit_of_mem_map_digits (hlow : 2 ≤ base) (hhigh : base ≤ 36) {b : UInt8}
    (h : b ∈ (digits base n).map digitByte) : isDigit base b = true := by
  obtain ⟨d, hd, rfl⟩ := List.mem_map.mp h
  exact isDigit_digitByte hhigh (lt_of_mem_digits hlow hd)

theorem numeral_map_digits (hlow : 2 ≤ base) (hhigh : base ≤ 36) (n : Nat) :
    numeral base ((digits base n).map digitByte) = n := by
  rw [numeral_map_digitByte, ofDigits_digits hlow]
  intro d hd
  exact Nat.lt_of_lt_of_le (lt_of_mem_digits hlow hd) hhigh

/-! ## Decimal numbers -/

theorem decimal_ne_nil (n : Nat) : decimal n ≠ [] := by
  simp [decimal]

theorem isDigit_of_mem_decimal {b : UInt8} (h : b ∈ decimal n) : isDigit 10 b = true :=
  isDigit_of_mem_map_digits (by omega) (by omega) h

/-- A decimal number begins with a digit. -/
theorem exists_decimal_cons (n : Nat) : ∃ b ds, decimal n = b :: ds ∧ isDigit 10 b = true := by
  cases hn : decimal n with
  | nil => exact absurd hn (decimal_ne_nil n)
  | cons b ds => exact ⟨b, ds, rfl, isDigit_of_mem_decimal (hn ▸ List.mem_cons_self)⟩

/-- **A decimal number is read as the number that was printed.** -/
theorem numeral_decimal (n : Nat) : numeral 10 (decimal n) = n :=
  numeral_map_digits (by omega) (by omega) n

/-- The only decimal number with a leading zero is zero itself. -/
theorem decimal_of_head? (h : (decimal n).head? = some (code '0')) : decimal n = "0" := by
  rcases Nat.eq_zero_or_pos n with rfl | hpos
  · rw [decimal, digits_of_lt (by omega)]
    rfl
  · rw [decimal, List.head?_map, Option.map_eq_some_iff] at h
    obtain ⟨d, hd, hbyte⟩ := h
    have hlt : d < 10 := lt_of_mem_digits (by omega) (List.mem_of_head? hd)
    have hzero := congrArg digitValue? hbyte
    rw [digitValue?_digitByte (by omega)] at hzero
    obtain rfl : d = 0 := Option.some.inj hzero
    exact absurd hd (head?_digits_ne_zero (by omega) hpos)

/-! ## Hexadecimal numbers -/

theorem hex_ne_nil (n : Nat) : hex n ≠ [] := by
  simp [hex]

theorem isDigit_of_mem_hex {b : UInt8} (h : b ∈ hex n) : isDigit 16 b = true :=
  isDigit_of_mem_map_digits (by omega) (by omega) h

/-- A number below a power of the base has no more digits than the exponent says. -/
theorem length_digits_le (hbase : 2 ≤ base) {k : Nat} (h : n < base ^ (k + 1)) :
    (digits base n).length ≤ k + 1 := by
  induction k generalizing n with
  | zero =>
    rw [digits_of_lt (by simpa using h)]
    exact Nat.le_refl 1
  | succ k ih =>
    by_cases hn : base ≤ n
    · have hfront : n / base < base ^ (k + 1) := by
        rw [Nat.pow_succ'] at h
        exact Nat.div_lt_of_lt_mul h
      have hlength := ih hfront
      rw [digits_of_le hbase hn, List.length_append, List.length_singleton]
      omega
    · rw [digits_of_lt (by omega), List.length_singleton]
      omega

/-- A hexadecimal digit is a decimal one or one of six letters. -/
theorem toNat_of_isDigit {b : UInt8} (h : isDigit 16 b = true) :
    48 ≤ b.toNat ∧ b.toNat ≤ 57 ∨ 65 ≤ b.toNat ∧ b.toNat ≤ 70
      ∨ 97 ≤ b.toNat ∧ b.toNat ≤ 102 := by
  simp only [isDigit, digitValue?, UInt8.le_iff_toNat_le, UInt8.reduceToNat] at h
  by_cases hdecimal : 48 ≤ b.toNat ∧ b.toNat ≤ 57
  · exact Or.inl hdecimal
  rw [if_neg hdecimal] at h
  by_cases hlower : 97 ≤ b.toNat ∧ b.toNat ≤ 122
  · rw [if_pos hlower] at h
    have hvalue := of_decide_eq_true h
    omega
  rw [if_neg hlower] at h
  by_cases hupper : 65 ≤ b.toNat ∧ b.toNat ≤ 90
  · rw [if_pos hupper] at h
    have hvalue := of_decide_eq_true h
    omega
  · rw [if_neg hupper] at h
    exact absurd h Bool.false_ne_true

/-- Nothing else is read where a hexadecimal digit stands. -/
theorem ne_of_isDigit {b : UInt8} (h : isDigit 16 b = true) :
    isBlank b = false ∧ b ≠ 0 ∧ b ≠ code '-' ∧ b ≠ code '+' ∧ lowerByte b ≠ code 'x' := by
  have hb := toNat_of_isDigit h
  refine ⟨?_, ?_, ?_, ?_, ?_⟩
  · simp only [isBlank, Bool.or_eq_false_iff, Bool.and_eq_false_iff, beq_eq_false_iff_ne, ne_eq,
      decide_eq_false_iff_not, UInt8.le_iff_toNat_le, ← UInt8.toNat_inj, UInt8.reduceToNat]
    omega
  · rintro rfl
    exact absurd hb (by decide)
  · rintro rfl
    exact absurd hb (by decide)
  · rintro rfl
    exact absurd hb (by decide)
  · intro hx
    have hx := congrArg UInt8.toNat hx
    rw [lowerByte] at hx
    simp only [UInt8.le_iff_toNat_le, UInt8.reduceToNat] at hx
    split at hx
    · rw [UInt8.toNat_add] at hx
      simp only [UInt8.reduceToNat] at hx
      have hcode : (code 'x').toNat = 120 := rfl
      omega
    · have hcode : (code 'x').toNat = 120 := rfl
      omega

/-! ## How many digits a number takes -/

theorem isDigit_iff {b : UInt8} :
    isDigit base b = true ↔ ∃ d, digitValue? b = some d ∧ d < base := by
  rw [isDigit]
  cases hd : digitValue? b with
  | none => simp
  | some d => simp

/-- Only the byte `0` shows the digit zero. -/
theorem eq_of_digitValue?_eq_zero {b : UInt8} (h : digitValue? b = some 0) : b = code '0' := by
  simp only [digitValue?, UInt8.le_iff_toNat_le, UInt8.reduceToNat] at h
  refine UInt8.toNat_inj.mp ?_
  show b.toNat = 48
  by_cases hdecimal : 48 ≤ b.toNat ∧ b.toNat ≤ 57
  · rw [if_pos hdecimal, Option.some_inj] at h
    omega
  rw [if_neg hdecimal] at h
  by_cases hlower : 97 ≤ b.toNat ∧ b.toNat ≤ 122
  · rw [if_pos hlower, Option.some_inj] at h
    omega
  rw [if_neg hlower] at h
  by_cases hupper : 65 ≤ b.toNat ∧ b.toNat ≤ 90
  · rw [if_pos hupper, Option.some_inj] at h
    omega
  · rw [if_neg hupper] at h
    cases h

theorem foldl_digits (ds : List Nat) (n : Nat) :
    ds.foldl (fun n d => n * base + d) n = n * base ^ ds.length + ofDigits base ds := by
  induction ds generalizing n with
  | nil => simp [ofDigits]
  | cons d ds ih =>
    rw [ofDigits, List.foldl_cons, List.foldl_cons, ih, ih, List.length_cons, Nat.pow_succ',
      Nat.zero_mul, Nat.zero_add, Nat.add_mul, Nat.mul_assoc, Nat.add_assoc]

theorem length_filterMap_digitValue? {t : Text} (h : ∀ b ∈ t, isDigit base b = true) :
    (t.filterMap digitValue?).length = t.length := by
  induction t with
  | nil => rfl
  | cons b t ih =>
    obtain ⟨hb, ht⟩ := List.forall_mem_cons.mp h
    obtain ⟨d, hd, -⟩ := isDigit_iff.mp hb
    rw [List.filterMap_cons_some hd, List.length_cons, List.length_cons, ih ht]

/-- The first digit counts as often as the places behind it say. -/
theorem numeral_cons {b : UInt8} {t : Text} (hb : digitValue? b = some d)
    (ht : ∀ x ∈ t, isDigit base x = true) :
    numeral base (b :: t) = d * base ^ t.length + numeral base t := by
  rw [numeral, List.filterMap_cons_some hb, ofDigits, List.foldl_cons, Nat.zero_mul, Nat.zero_add,
    foldl_digits, length_filterMap_digitValue? ht, numeral]

theorem numeral_lt_pow {t : Text} (h : ∀ b ∈ t, isDigit base b = true) :
    numeral base t < base ^ t.length := by
  induction t with
  | nil => simp [numeral, ofDigits]
  | cons b t ih =>
    obtain ⟨hb, ht⟩ := List.forall_mem_cons.mp h
    obtain ⟨d, hd, hlt⟩ := isDigit_iff.mp hb
    rw [numeral_cons hd ht, List.length_cons, Nat.pow_succ']
    calc d * base ^ t.length + numeral base t
        < d * base ^ t.length + base ^ t.length := Nat.add_lt_add_left (ih ht) _
      _ = (d + 1) * base ^ t.length := by rw [Nat.add_mul, Nat.one_mul]
      _ ≤ base * base ^ t.length := Nat.mul_le_mul_right _ hlt

/-- **A number is below a power of its base if it has no more digits than the exponent says**, zeros
in front left out. -/
theorem numeral_lt_pow_iff (hbase : 2 ≤ base) {t : Text} (h : ∀ b ∈ t, isDigit base b = true)
    {k : Nat} : numeral base t < base ^ k ↔ (t.dropWhile (· == code '0')).length ≤ k := by
  induction t with
  | nil =>
    have hpos : 0 < base ^ k := Nat.pow_pos (by omega)
    simpa [numeral, ofDigits] using hpos
  | cons b t ih =>
    obtain ⟨hb, ht⟩ := List.forall_mem_cons.mp h
    obtain ⟨d, hd, -⟩ := isDigit_iff.mp hb
    by_cases hzero : b = code '0'
    · -- a zero in front counts for nothing
      obtain rfl : d = 0 := by
        rw [hzero] at hd
        exact (Option.some.inj hd).symm
      have hdrop : (b :: t).dropWhile (· == code '0') = t.dropWhile (· == code '0') :=
        List.dropWhile_cons_of_pos (beq_iff_eq.mpr hzero)
      rw [numeral_cons hd ht, Nat.zero_mul, Nat.zero_add, hdrop, ih ht]
    · have hpos : 0 < d := Nat.pos_of_ne_zero fun hd0 =>
        hzero (eq_of_digitValue?_eq_zero (hd0 ▸ hd))
      have hdrop : (b :: t).dropWhile (· == code '0') = b :: t :=
        List.dropWhile_cons_of_neg (by simpa using hzero)
      rw [hdrop, List.length_cons]
      constructor
      · intro hlt
        rw [numeral_cons hd ht] at hlt
        have hle : base ^ t.length ≤ d * base ^ t.length := Nat.le_mul_of_pos_left _ hpos
        have hpow : base ^ t.length < base ^ k := by omega
        exact (Nat.pow_lt_pow_iff_right hbase).mp hpow
      · intro hle
        exact Nat.lt_of_lt_of_le (numeral_lt_pow h) (Nat.pow_le_pow_right (by omega) hle)

end Text

namespace Numeral

open Text

/-- **A text of hexadecimal digits is one numeral.** -/
theorem read?_of_digits {t : Text} (hne : t ≠ []) (h : ∀ b ∈ t, isDigit 16 b = true) :
    read? (some 16) t = some { negative := false, magnitude := numeral 16 t, rest := [] } := by
  obtain ⟨b, t, rfl⟩ := List.exists_cons_of_ne_nil hne
  obtain ⟨hblank, -, hminus, hplus, -⟩ := ne_of_isDigit (h b List.mem_cons_self)
  have hdrop : (b :: t).dropWhile isBlank = b :: t :=
    List.dropWhile_cons_of_neg (by simp [hblank])
  have hmark : afterHexMark? (b :: t) = none := by
    cases t with
    | nil => rfl
    | cons x t =>
      have hx := (ne_of_isDigit (h x (by simp))).2.2.2.2
      rw [afterHexMark?, if_neg]
      exact fun hboth => hx hboth.2.1
  have hbase : baseAndDigits (some 16) (b :: t) = (16, b :: t) := by
    simp only [baseAndDigits, hmark]
  have htake : (b :: t).takeWhile (isDigit 16) = b :: t := List.takeWhile_eq_self_iff.mpr h
  have hrest : (b :: t).dropWhile (isDigit 16) = [] := List.dropWhile_eq_nil_iff.mpr h
  simp [read?, hdrop, hminus, hplus, hbase, htake, hrest]

/-- **Hexadecimal digits mean their value, or the greatest address** if that does not fit. -/
theorem hexAddress_of_digits {t : Text} (hne : t ≠ []) (h : ∀ b ∈ t, isDigit 16 b = true) :
    hexAddress t = UInt64.ofNat (min (numeral 16 t) (2 ^ 64 - 1)) := by
  rw [hexAddress, read?_of_digits hne h, Option.map_some, Option.getD_some, saturated, unsigned?]
  dsimp only
  have hsize : 1 <<< 64 = 2 ^ 64 := rfl
  rw [hsize]
  by_cases hlt : numeral 16 t < 2 ^ 64
  · have hmin : min (numeral 16 t) (2 ^ 64 - 1) = numeral 16 t := by omega
    rw [if_pos hlt, if_neg Bool.false_ne_true, Option.getD_some, hmin]
  · have hmin : min (numeral 16 t) (2 ^ 64 - 1) = 2 ^ 64 - 1 := by omega
    rw [if_neg hlt, Option.getD_none, hmin]

/-- **A number that is printed in hexadecimal is read back.** -/
theorem hexAddress_hex (a : UInt64) : hexAddress (Text.hex a.toNat) = a := by
  have hvalue : numeral 16 (Text.hex a.toNat) = a.toNat :=
    numeral_map_digits (by omega) (by omega) _
  have hmin : min a.toNat (2 ^ 64 - 1) = a.toNat := Nat.min_eq_left (Nat.le_sub_one_of_lt a.toNat_lt)
  rw [hexAddress_of_digits (hex_ne_nil _) fun b hb => isDigit_of_mem_hex hb, hvalue, hmin]
  exact UInt64.ofNat_toNat

end Numeral

end Disassembler
