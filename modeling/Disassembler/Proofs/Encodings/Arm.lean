import Disassembler.Proofs.Encodings.Assembly

/-!
# Relative encodings of ARM

The direct branches, and the accesses relative to the program counter, whose offset is a magnitude
with a bit that says whether it is added. The condition that is always true has two numbers, of
which the second marks the encodings without a condition.
-/

namespace Disassembler.Arm

/-- A transfer of a halfword or of a signed byte. -/
inductive Half where
  | store
  | load
  | loadSignedByte
  | loadSigned

namespace Half

/-- Is something loaded? -/
def loads : Half → Bool
  | store => false
  | load | loadSignedByte | loadSigned => true

/-- The kind field. -/
def kind : Half → Nat
  | store | load => 1
  | loadSignedByte => 2
  | loadSigned => 3

end Half

/-- The fields of a transfer of a halfword, of a signed byte or of two registers, relative to the
program counter. -/
def extraFields (o : Int) (c : Fin 15) (up load : Bool) (rt kind : Nat) : List (Nat × Nat) :=
  [(4, c), (4, 1), (1, up.toNat), (2, 2), (1, load.toNat), (4, pc), (4, rt), (4, o.natAbs / 16),
    (1, 1), (2, kind), (1, 1), (4, o.natAbs % 16)]

/-- An instruction with an offset. Of two registers the number of the first is even. -/
inductive Relative where
  | branch (c : Fin 15) (link : Bool)
  | exchange
  | transfer (c : Fin 15) (up byte load : Bool) (rt : Fin 16)
  | half (c : Fin 15) (up : Bool) (x : Half) (rt : Fin 16)
  | pair (c : Fin 15) (up load : Bool) (r : Fin 8)
  | preload (up : Bool)

/-- The offsets in the stated direction whose magnitude has a field of `n` bits. -/
structure Sized (n : Nat) (up : Bool) (o : Int) : Prop where
  direction : if up then 0 ≤ o else o ≤ 0
  magnitude : o.natAbs < 2 ^ n

namespace Relative

/-- The word with an offset. -/
def word (o : Int) : Relative → UInt32
  | branch c link => wordOf [(4, c), (3, 5), (1, link.toNat), (24, offsetBits o 25 2)]
  | exchange => wordOf [(7, 0x7D), (1, offsetBits o 1 1), (24, offsetBits o 25 2)]
  | transfer c up byte load rt => wordOf [(4, c), (3, 2), (1, 1), (1, up.toNat), (1, byte.toNat),
      (1, 0), (1, load.toNat), (4, pc), (4, rt), (12, o.natAbs)]
  | half c up x rt => wordOf (extraFields o c up x.loads rt x.kind)
  | pair c up load r => wordOf (extraFields o c up false (2 * r) (if load then 2 else 3))
  | preload up => wordOf [(8, 0xF5), (1, up.toNat), (3, 5), (4, pc), (4, 0xF), (12, o.natAbs)]

/-- The offsets that can be encoded. -/
def Encodes (o : Int) : Relative → Prop
  | branch .. => Reaches 25 2 o
  | exchange => Reaches 25 1 o
  | transfer _ up .. | preload up => Sized 12 up o
  | half _ up .. | pair _ up .. => Sized 8 up o

/-- Does control go where the offset leads? -/
def transfers : Relative → Bool
  | branch .. | exchange => true
  | transfer .. | half .. | pair .. | preload _ => false

/-- Is nothing done with what is there but to expect its use? -/
def preloads : Relative → Bool
  | preload _ => true
  | branch .. | exchange | transfer .. | half .. | pair .. => false

end Relative

variable {o : Int} {w : UInt32}

/-- The encodings with a condition are apart from those without. -/
theorem cond_ne {c : Fin 15} (h : bits w 31 28 = c) : cond w ≠ 15 := by
  have hc := c.isLt
  rw [cond]
  omega

theorem refers_branch (c : Fin 15) (link : Bool) (h : Reaches 25 2 o) (a : UInt64) :
    Refers (decode ((Relative.branch c link).word o) a) (some (relativeTarget a o))
      [relativeTarget a o] := by
  have ho : offsetBits o 25 2 < 2 ^ 24 := offsetBits_lt o 25 2
  have hc := c.isLt
  have hlink := link.toNat_lt
  generalize hword : (Relative.branch c link).word o = w
  have hw := toNat_of_wordOf_eq hword (by simp only [List.foldl]; omega)
  simp only [List.foldl] at hw
  have hcond : bits w 31 28 = c := by rw [bits_eq]; omega
  have hclass : bits w 27 25 = 5 := by rw [bits_eq]; omega
  have hfield : bits w 23 0 = offsetBits o 25 2 := by rw [bits_eq]; omega
  have hoffset : branchOffset w = o := by
    rw [branchOffset, hfield]
    exact h.signExtend_eq (by decide)
  rw [decode, if_neg (cond_ne hcond), hclass]
  simp [branch, hoffset, Operation.refers_withTarget]

theorem refers_exchange (h : Reaches 25 1 o) (a : UInt64) :
    Refers (decode (Relative.exchange.word o) a) (some (relativeTarget a o))
      [relativeTarget a o] := by
  have hhigh : offsetBits o 25 2 < 2 ^ 24 := offsetBits_lt o 25 2
  have hlow : offsetBits o 1 1 < 2 := offsetBits_lt o 1 1
  generalize hword : Relative.exchange.word o = w
  have hw := toNat_of_wordOf_eq hword (by simp only [List.foldl]; omega)
  simp only [List.foldl] at hw
  have hcond : cond w = 15 := by rw [cond, bits_eq]; omega
  have hopcode : bits w 31 25 = 0x7D := by rw [bits_eq]; omega
  -- the half word is a field of its own, which a sign extension does not reach
  have hoffset : branchOffset w + 2 * bits w 24 24 = o := by
    have hwords : signExtend 24 (offsetBits o 25 2) = o / 4 := h.signExtend_eq_ediv (by decide)
    have hhalf : (offsetBits o 1 1 : Int) = o / 2 % 2 := cast_offsetBits o 1 1
    have heven : o % 2 = 0 := h.multiple
    have h23 : bits w 23 0 = offsetBits o 25 2 := by rw [bits_eq]; omega
    have h24 : bits w 24 24 = offsetBits o 1 1 := by rw [bits_eq]; omega
    rw [branchOffset, h23, h24, hwords, hhalf]
    omega
  rw [decode, if_pos hcond, unconditional, if_pos hopcode, hoffset]
  simp [Operation.refers_withTarget]

/-! ## Relative to the program counter -/

/-- The magnitude as the direction says is the offset. -/
theorem Sized.ite_eq {n : Nat} {up : Bool} (h : Sized n up o) :
    (if up then (o.natAbs : Int) else -(o.natAbs : Int)) = o := by
  have hdirection := h.direction
  cases up
  · have hnegative : o ≤ 0 := hdirection
    simp only [Bool.false_eq_true, if_false]
    omega
  · have hpositive : 0 ≤ o := hdirection
    simp only [if_true]
    omega

@[simp] theorem target?_reg (r : Nat) : (reg r).target? = none := rfl

theorem target?_displaced {n : Nat} {up : Bool} (h : Sized n up o) (hup : bit w 23 = up)
    (hbase : rn w = pc) (hbefore : bit w 24 = true) (hkeeps : bit w 21 = false) (a : UInt64)
    (width size : UInt8) :
    (displaced w a o.natAbs width size).target? = some (relativeTarget a o) := by
  have hmode : indexMode w = .offset := by simp [indexMode, hbefore, hkeeps]
  rw [displaced, hup, hmode, h.ite_eq]
  exact if_pos ⟨hbase, rfl⟩

theorem refers_transfer (c : Fin 15) (up byte load : Bool) (rt : Fin 16) (h : Sized 12 up o)
    (a : UInt64) :
    Refers (decode ((Relative.transfer c up byte load rt).word o) a) none [relativeTarget a o] := by
  have ho : o.natAbs < 2 ^ 12 := h.magnitude
  have hc := c.isLt
  have hup := up.toNat_lt
  have hbyte := byte.toNat_lt
  have hload := load.toNat_lt
  have hrt := rt.isLt
  have hpc : pc = 15 := rfl
  generalize hword : (Relative.transfer c up byte load rt).word o = w
  have hw := toNat_of_wordOf_eq hword (by simp only [List.foldl]; omega)
  simp only [List.foldl] at hw
  have hcond : bits w 31 28 = c := by rw [bits_eq]; omega
  have hclass : bits w 27 25 = 2 := by rw [bits_eq]; omega
  have hregister : bit w 25 = false := by rw [bit_eq_false_iff]; omega
  have hbefore : bit w 24 = true := by rw [bit_eq_true_iff]; omega
  have hup : bit w 23 = up := bit_eq (by rw [bits_eq]; omega)
  have hkeeps : bit w 21 = false := by rw [bit_eq_false_iff]; omega
  have hbase : rn w = pc := by rw [rn, bits_eq]; omega
  have hmagnitude : bits w 11 0 = o.natAbs := by rw [bits_eq]; omega
  have hplace := target?_displaced h hup hbase hbefore hkeeps a
  have hstack : ¬(rn w = sp) := by rw [hbase]; decide
  rw [decode, if_neg (cond_ne hcond), hclass]
  simp [loadStore, hregister, hstack, hmagnitude, List.filterMap_cons, hplace]

theorem bounds_of_extraTransfer {load : Bool} {kind : Nat} {t : Transfer}
    (ht : extraTransfer load kind = some t) : kind ≠ 0 ∧ kind < 4 := by
  unfold extraTransfer at ht
  split at ht <;> simp at ht ⊢

theorem refers_extra (c : Fin 15) (up load : Bool) {rt kind : Nat} (hrt : rt < 16) {t : Transfer}
    (ht : extraTransfer load kind = some t) (hpair : t.pair → rt % 2 = 0) (h : Sized 8 up o)
    (a : UInt64) :
    Refers (decode (wordOf (extraFields o c up load rt kind)) a) none [relativeTarget a o] := by
  have ho : o.natAbs < 2 ^ 8 := h.magnitude
  have hc := c.isLt
  have hup := up.toNat_lt
  have hload := load.toNat_lt
  have hpc : pc = 15 := rfl
  obtain ⟨hne, hkind⟩ := bounds_of_extraTransfer ht
  generalize hword : wordOf (extraFields o c up load rt kind) = w
  have hw := toNat_of_wordOf_eq hword (by simp only [extraFields, List.foldl]; omega)
  simp only [extraFields, List.foldl] at hw
  -- the magnitude enters by its two digits only, so they can stand for it
  have hhigh : o.natAbs / 16 < 16 := by omega
  have hlow : o.natAbs % 16 < 16 := Nat.mod_lt _ (by decide)
  have hdigits : o.natAbs / 16 * 16 + o.natAbs % 16 = o.natAbs := Nat.div_add_mod' ..
  generalize o.natAbs / 16 = high, o.natAbs % 16 = low at hw hhigh hlow hdigits
  have hcond : bits w 31 28 = c := by rw [bits_eq]; omega
  have hclass : bits w 27 25 = 0 := by rw [bits_eq]; omega
  have h7 : bit w 7 = true := by rw [bit_eq_true_iff]; omega
  have h4 : bit w 4 = true := by rw [bit_eq_true_iff]; omega
  have hkind : bits w 6 5 = kind := by rw [bits_eq]; omega
  have hload : bit w 20 = load := bit_eq (by rw [bits_eq]; omega)
  have hregister : rd w = rt := by rw [rd, bits_eq]; omega
  have himmediate : bit w 22 = true := by rw [bit_eq_true_iff]; omega
  have hbefore : bit w 24 = true := by rw [bit_eq_true_iff]; omega
  have hup : bit w 23 = up := bit_eq (by rw [bits_eq]; omega)
  have hkeeps : bit w 21 = false := by rw [bit_eq_false_iff]; omega
  have hbase : rn w = pc := by rw [rn, bits_eq]; omega
  have hmagnitude : bits w 11 8 <<< 4 + bits w 3 0 = o.natAbs := by
    simp only [bits_eq]
    omega
  have hplace := target?_displaced h hup hbase hbefore hkeeps a
  rw [decode, if_neg (cond_ne hcond), hclass]
  simp only [registerForms, h7, h4, hkind, and_self, if_true, if_neg hne, extraLoadStore, hload, ht,
    himmediate, hmagnitude, hregister, Option.bind_eq_bind, Option.bind_some]
  cases hp : t.pair with
  | false => simp [List.filterMap_cons, hplace]
  | true => simp [hpair hp, List.filterMap_cons, hplace]

theorem refers_half (c : Fin 15) (up : Bool) (x : Half) (rt : Fin 16) (h : Sized 8 up o)
    (a : UInt64) :
    Refers (decode ((Relative.half c up x rt).word o) a) none [relativeTarget a o] := by
  cases x <;> exact refers_extra c up _ rt.isLt rfl (fun hp => by cases hp) h a

theorem refers_pair (c : Fin 15) (up load : Bool) (r : Fin 8) (h : Sized 8 up o) (a : UInt64) :
    Refers (decode ((Relative.pair c up load r).word o) a) none [relativeTarget a o] := by
  have hrt : 2 * r.val < 16 := by omega
  cases load <;> exact refers_extra c up false hrt rfl (fun _ => Nat.mul_mod_right 2 r) h a

/-- **A preload does not say what it refers to**, although its address is known as well. -/
theorem refers_preload (up : Bool) (h : Sized 12 up o) (a : UInt64) :
    Refers (decode ((Relative.preload up).word o) a) none [] := by
  have ho : o.natAbs < 2 ^ 12 := h.magnitude
  have hup := up.toNat_lt
  have hpc : pc = 15 := rfl
  generalize hword : (Relative.preload up).word o = w
  have hw := toNat_of_wordOf_eq hword (by simp only [List.foldl]; omega)
  simp only [List.foldl] at hw
  have hcond : cond w = 15 := by rw [cond, bits_eq]; omega
  have hexchange : bits w 31 25 ≠ 0x7D := by rw [bits_eq]; omega
  have hopcode : bits w 31 24 = 0xF5 := by rw [bits_eq]; omega
  have hkind : bits w 22 20 = 5 := by rw [bits_eq]; omega
  have hones : bits w 15 12 = 0xF := by rw [bits_eq]; omega
  rw [decode, if_pos hcond, unconditional, if_neg hexchange, if_pos ⟨hopcode, hkind, hones⟩]
  exact ⟨_, rfl, rfl, rfl⟩

/-- **Offsets are decoded as encoded**: every encoding with an offset but the preloads refers to the
program counter moved by it. -/
theorem refers_decode (e : Relative) (h : e.Encodes o) (a : UInt64) :
    Refers (decode (e.word o) a) (if e.transfers then some (relativeTarget a o) else none)
      (if e.preloads then [] else [relativeTarget a o]) := by
  cases e with
  | branch c link => exact refers_branch c link h a
  | exchange => exact refers_exchange h a
  | transfer c up byte load rt => exact refers_transfer c up byte load rt h a
  | half c up x rt => exact refers_half c up x rt h a
  | pair c up load r => exact refers_pair c up load r h a
  | preload up => exact refers_preload up h a

end Disassembler.Arm
