import Disassembler.Proofs.Coverage
import Disassembler.Proofs.Sections

/-!
# What a sweep decodes

Every entry of a run is what the image decodes to at its address, in backed code. The entries lie
without a gap from the seed on, so each but the first starts where another ends. Both hold as well
of a run that is cut short: by cancellation, or because it fell into data.
-/

namespace Disassembler

/-- No section has more bytes than addresses. -/
def Image.Clipped (image : Image) : Prop := ∀ s ∈ image.sections, s.bytes.size ≤ s.size.toNat

/-! ## Genuine entries -/

/-- An entry that the image decodes to at its address, in backed code. -/
structure Instruction.Genuine (image : Image) (m : Machine) (i : Instruction) : Prop where
  decoded : i = image.decodeAt m i.address
  inCode : image.inCode i.address = true
  backed : image.bytesFrom i.address ≠ []

namespace Instruction

variable {image : Image} {m : Machine} {i : Instruction}

theorem Genuine.takesFrom (h : i.Genuine image m) :
    i.TakesFrom (image.bytesFrom i.address) i.address m.maxLength := by
  have htakes := decode_takesFrom m image.order h.backed i.address
  rwa [← Image.decodeAt_eq_decode, ← h.decoded] at htakes

/-- A genuine entry ends with the backing of its section or before. -/
theorem Genuine.reach_le (h : i.Genuine image m) {s : Section}
    (hs : image.sectionFor i.address = some s) : i.reach ≤ s.start.toNat + s.bytes.size := by
  have hlen := h.takesFrom.le_length
  have hpos := h.takesFrom.pos
  rw [Image.length_bytesFrom hs] at hlen
  simp only [reach]
  omega

theorem Genuine.placed (hclip : image.Clipped) (h : i.Genuine image m) : i.Placed := by
  obtain ⟨s, hs, -⟩ := Image.inCode_iff.mp h.inCode
  refine ⟨h.takesFrom.pos, Nat.le_trans h.takesFrom.le_limit ?_, ?_⟩
  · cases m <;> decide
  · -- the backing ends with the section, and the section below `2 ^ 64`
    have hbacked := h.reach_le hs
    have hsize := hclip s (Image.mem_of_sectionFor hs)
    have hstop := Section.stop_toNat_of_contains (Image.contains_of_sectionFor hs)
    have hlt := s.stop.toNat_lt
    omega

end Instruction

/-! ## Entries without a gap -/

/-- Entries that lie without a gap from one address to another. -/
def Contiguous : UInt64 → List Instruction → UInt64 → Prop
  | a, [], b => a = b
  | a, i :: rest, b => i.address = a ∧ Contiguous i.stop rest b

theorem Contiguous.append_singleton {a b : UInt64} {l : List Instruction} {i : Instruction}
    (h : Contiguous a l b) (hi : i.address = b) : Contiguous a (l ++ [i]) i.stop := by
  induction l generalizing a with
  | nil => exact ⟨hi.trans h.symm, rfl⟩
  | cons j rest ih => exact ⟨h.1, ih h.2⟩

/-- A first part of entries without a gap has none. -/
theorem Contiguous.take {a b : UInt64} {l : List Instruction} (h : Contiguous a l b) (n : Nat) :
    ∃ b', Contiguous a (l.take n) b' := by
  induction l generalizing a n with
  | nil => exact ⟨a, by simp [Contiguous]⟩
  | cons i rest ih =>
    cases n with
    | zero => exact ⟨a, rfl⟩
    | succ n =>
      obtain ⟨b', hb⟩ := ih h.2 n
      exact ⟨b', h.1, hb⟩

/-- Entries without a gap do not go back. -/
theorem Contiguous.le_address {a b : UInt64} {l : List Instruction} (h : Contiguous a l b)
    (hplaced : ∀ i ∈ l, i.Placed) : ∀ i ∈ l, a.toNat ≤ i.address.toNat := by
  induction l generalizing a with
  | nil => exact fun i hi => absurd hi List.not_mem_nil
  | cons j rest ih =>
    obtain ⟨rfl, hrest⟩ := h
    intro i hi
    rcases List.mem_cons.mp hi with rfl | hi
    · exact Nat.le_refl _
    · have hj := hplaced j List.mem_cons_self
      have hle := ih hrest (fun k hk => hplaced k (List.mem_cons_of_mem j hk)) i hi
      have hlt := hj.address_lt
      rw [hj.stop_toNat] at hle
      omega

theorem Contiguous.apart {a b : UInt64} {l : List Instruction} (h : Contiguous a l b)
    (hplaced : ∀ i ∈ l, i.Placed) : l.Pairwise fun i j => i.reach ≤ j.address.toNat := by
  induction l generalizing a with
  | nil => exact List.Pairwise.nil
  | cons j rest ih =>
    have hrest := fun k hk => hplaced k (List.mem_cons_of_mem j hk)
    refine List.pairwise_cons.mpr ⟨fun k hk => ?_, ih h.2 hrest⟩
    rw [← (hplaced j List.mem_cons_self).stop_toNat]
    exact h.2.le_address hrest k hk

/-! ## Sweeps -/

namespace Sweep

section Step

variable {s : Sweep} {cancelled : Nat → Bool} {entries : Array Instruction} {a : UInt64}
variable {invalid count : Nat} {last ending : Bool} {i : Instruction}

/-- When a sweep stops before an address. -/
def Stops (s : Sweep) (cancelled : Nat → Bool) (entries : Array Instruction) (a : UInt64) : Prop :=
  cancelled entries.size = true ∨ ¬ s.admits entries.isEmpty a = true ∨ s.image.window a 1 = []

theorem sweepFrom_of_stops (h : s.Stops cancelled entries a) :
    s.sweepFrom cancelled entries a invalid last = { seed := s.seed, entries } := by
  unfold Stops at h
  rw [sweepFrom, if_pos h]

/-- One step of a sweep that goes on, by what it decodes and finds out about it. -/
theorem sweepFrom_eq (hgo : ¬ s.Stops cancelled entries a)
    (hi : s.image.decodeAt s.machine a = i)
    (hcount : (if i.isInvalid then invalid + 1 else 0) = count)
    (hending : (!i.isInvalid && s.endsAt i) = ending) :
    s.sweepFrom cancelled entries a invalid last =
      if s.config.invalidLimit < count then
        { seed := s.seed, entries := entries.extract 0 (entries.size + 1 - count), isData := true }
      else if a < i.stop ∧ ¬ last ∧ ¬ (ending ∧ s.machine.delaySlots = 0) then
        s.sweepFrom cancelled (entries.push i) i.stop count ending
      else { seed := s.seed, entries := entries.push i } := by
  subst hi hcount hending
  unfold Stops at hgo
  rw [sweepFrom, if_neg hgo]
  rfl

end Step

theorem seed_sweepFrom (s : Sweep) (cancelled : Nat → Bool) (entries : Array Instruction)
    (a : UInt64) (invalid : Nat) (last : Bool) :
    (s.sweepFrom cancelled entries a invalid last).seed = s.seed := by
  fun_induction sweepFrom s cancelled entries a invalid last with
  | case1 => rfl
  | case2 => rfl
  | case3 entries a invalid last hgo i count hdata ending hnext ih => exact ih
  | case4 => rfl

/-- What is decoded where an entry may start is genuine. -/
theorem genuine_decodeAt {s : Sweep} {isSeed : Bool} {a : UInt64}
    (hadmits : s.admits isSeed a = true) (hbacked : s.image.window a 1 ≠ []) :
    (s.image.decodeAt s.machine a).address = a
      ∧ (s.image.decodeAt s.machine a).Genuine s.image s.machine := by
  have hdata : s.image.bytesFrom a ≠ [] := by
    intro hnil
    rw [Image.window_eq_take, hnil] at hbacked
    exact hbacked rfl
  have haddr : (s.image.decodeAt s.machine a).address = a := by
    rw [Image.decodeAt_eq_decode]
    exact (decode_takesFrom s.machine s.image.order hdata a).address
  simp only [admits, Bool.and_eq_true] at hadmits
  exact ⟨haddr, by rw [haddr], by rw [haddr]; exact hadmits.1.1, by rw [haddr]; exact hdata⟩

/-- Genuine entries without a gap, from the seed up to where the sweep goes on. -/
structure Upto (s : Sweep) (entries : Array Instruction) (a : UInt64) : Prop where
  genuine : ∀ i ∈ entries, i.Genuine s.image s.machine
  gapless : Contiguous s.seed.address entries.toList a

/-- One more entry where the sweep goes on. -/
theorem Upto.push {s : Sweep} {entries : Array Instruction} {a : UInt64} {isSeed : Bool}
    (h : s.Upto entries a) (hadmits : s.admits isSeed a = true)
    (hbacked : s.image.window a 1 ≠ []) :
    s.Upto (entries.push (s.image.decodeAt s.machine a)) (s.image.decodeAt s.machine a).stop := by
  obtain ⟨haddr, hgenuine⟩ := genuine_decodeAt hadmits hbacked
  refine ⟨fun j hj => ?_, ?_⟩
  · rcases Array.mem_push.mp hj with hj | rfl
    · exact h.genuine j hj
    · exact hgenuine
  · rw [Array.toList_push]
    exact h.gapless.append_singleton haddr

/-- The first of the entries. -/
theorem Upto.extract {s : Sweep} {entries : Array Instruction} {a : UInt64}
    (h : s.Upto entries a) (n : Nat) : ∃ b, s.Upto (entries.extract 0 n) b := by
  have htake : (entries.extract 0 n).toList = entries.toList.take n := by simp
  obtain ⟨b, hb⟩ := h.gapless.take n
  refine ⟨b, fun j hj => h.genuine j ?_, by rwa [htake]⟩
  have hmem := Array.mem_toList_iff.mpr hj
  rw [htake] at hmem
  exact Array.mem_toList_iff.mp (List.mem_of_mem_take hmem)

/-- **The invariant of a sweep**, wherever it is taken up. -/
theorem upto_sweepFrom (s : Sweep) (cancelled : Nat → Bool) (entries : Array Instruction)
    (a : UInt64) (invalid : Nat) (last : Bool) (h : s.Upto entries a) :
    ∃ b, s.Upto (s.sweepFrom cancelled entries a invalid last).entries b := by
  fun_induction sweepFrom s cancelled entries a invalid last with
  | case1 entries a invalid last hstop => exact ⟨a, h⟩
  | case2 entries a invalid last hgo i count hdata => exact h.extract (entries.size + 1 - count)
  | case3 entries a invalid last hgo i count hdata ending hnext ih =>
    simp only [not_or, Decidable.not_not] at hgo
    exact ih (h.push hgo.2.1 hgo.2.2)
  | case4 entries a invalid last hgo i count hdata ending hnext =>
    simp only [not_or, Decidable.not_not] at hgo
    exact ⟨i.stop, h.push hgo.2.1 hgo.2.2⟩

/-- **A run is genuine and without a gap**, whenever it is cancelled. -/
theorem upto_run (s : Sweep) (cancelled : Nat → Bool) : ∃ b, s.Upto (s.run cancelled).entries b :=
  upto_sweepFrom s cancelled #[] s.seed.address 0 false
    ⟨fun _ h => absurd h (Array.not_mem_empty _), rfl⟩

end Sweep

end Disassembler
