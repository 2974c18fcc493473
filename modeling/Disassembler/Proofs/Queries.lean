import Disassembler.Proofs.Stream

/-!
# Questions about the stream

A finished stream is asked for the entry that starts at an address, for the one that contains it, and
for the first one that ends behind it. Each answer is found by halving, the first two along the starts
and the third along the ends. No entry reaches into the next one, so starts and ends ascend together,
an address belongs to one entry at most, and each answer is the one that going through the whole
stream would give. No entry reaches up to `2 ^ 64`, so this is true of the ends as numbers.
-/

namespace Disassembler

/-- The address is one of the bytes of an entry, in numbers that do not wrap. -/
def Instruction.Holds (i : Instruction) (a : UInt64) : Prop :=
  i.address.toNat ≤ a.toNat ∧ a.toNat < i.reach

instance (i : Instruction) (a : UInt64) : Decidable (i.Holds a) := inferInstanceAs (Decidable (_ ∧ _))

/-! ## Places in a coverage -/

namespace Coverage

variable {c : Coverage} {a : UInt64} {i i' : Instruction} {j k : Nat}

/-- Each entry ends before or where any later one starts. -/
theorem Tidy.reach_le (h : c.Tidy) (hjk : j < k) (hj : c.entries[j]? = some i)
    (hk : c.entries[k]? = some i') : i.reach ≤ i'.address.toNat := by
  obtain ⟨hjsize, rfl⟩ := Array.getElem?_eq_some_iff.mp hj
  obtain ⟨hksize, rfl⟩ := Array.getElem?_eq_some_iff.mp hk
  exact List.pairwise_iff_getElem.mp h.apart j k hjsize hksize hjk

/-- The ends ascend with the starts. -/
theorem Tidy.falling_stop (h : c.Tidy) (a : UInt64) :
    Search.Falling (fun i : Instruction => i.stop ≤ a) c.entries := by
  refine Search.falling_le (h.apart.imp_of_mem fun {i j} hi hj hij => ?_)
  have hi := h.placed i (Array.mem_toList_iff.mp hi)
  have hj := h.placed j (Array.mem_toList_iff.mp hj)
  have hpos := hj.address_lt
  rw [UInt64.le_iff_toNat_le, hi.stop_toNat, hj.stop_toNat]
  omega

/-- **An address belongs to one entry at most.** -/
theorem Tidy.eq_of_holds (h : c.Tidy) (hj : c.entries[j]? = some i) (hk : c.entries[k]? = some i')
    (hi : i.Holds a) (hi' : i'.Holds a) : j = k := by
  simp only [Instruction.Holds] at hi hi'
  rcases Nat.lt_trichotomy j k with hlt | heq | hgt
  · have hbefore := h.reach_le hlt hj hk
    omega
  · exact heq
  · have hbefore := h.reach_le hgt hk hj
    omega

/-- An entry holds the address at which it starts. -/
theorem Tidy.holds_address (h : c.Tidy) (hj : c.entries[j]? = some i) : i.Holds i.address :=
  ⟨Nat.le_refl _, (h.placed i (Array.mem_of_getElem? hj)).address_lt⟩

end Coverage

/-! ## Answers -/

namespace Analysis

variable {an : Analysis} {a : UInt64} {k : Nat}

/-- The entry that is found is the one that starts at the address. -/
theorem find_eq_some_iff (h : Coverage.Tidy { entries := an.stream }) :
    an.find a = some k ↔ ∃ i, an.stream[k]? = some i ∧ i.address = a := by
  unfold find
  dsimp only
  constructor
  · intro hfind
    split at hfind
    · rename_i hany
      obtain rfl := Option.some.inj hfind
      obtain ⟨i, hi, ha⟩ := (Option.any_eq_true _ _).mp hany
      exact ⟨i, hi, beq_iff_eq.mp ha⟩
    · exact absurd hfind (by simp)
  · rintro ⟨i, hi, rfl⟩
    have hborder : Search.endOf (fun j : Instruction => j.address < i.address) an.stream = k := by
      refine Search.endOf_eq_of_getElem? (h.falling_lt _) hi (by simp) fun j i' hjk hi' => ?_
      have hbefore := h.reach_le hjk hi' hi
      have hpos := (h.holds_address hi').2
      exact decide_eq_true (UInt64.lt_iff_toNat_lt.mpr (by omega))
    rw [hborder, hi, if_pos (by simp)]

/-- The entry that contains an address is the one that holds it. -/
theorem containing_eq_some_iff (h : Coverage.Tidy { entries := an.stream }) :
    an.containing a = some k ↔ ∃ i, an.stream[k]? = some i ∧ i.Holds a := by
  have hstop : ∀ {j : Nat} {i}, an.stream[j]? = some i → i.stop.toNat = i.reach := fun hi =>
    (h.placed _ (Array.mem_of_getElem? hi)).stop_toNat
  have hfront : ∀ {j : Nat} {i}, an.stream[j]? = some i →
      (j < Search.endOf (fun i : Instruction => i.address ≤ a) an.stream
        ↔ i.address.toNat ≤ a.toNat) := fun hi => by
    rw [Search.lt_endOf_iff (h.falling_le a) hi, decide_eq_true_iff, UInt64.le_iff_toNat_le]
  unfold containing
  constructor
  · intro hcontaining
    split at hcontaining
    · exact absurd hcontaining (by simp)
    · rename_i n hborder
      split at hcontaining
      · rename_i hany
        obtain rfl := Option.some.inj hcontaining
        obtain ⟨i, hi, ha⟩ := (Option.any_eq_true _ _).mp hany
        have hlt := UInt64.lt_iff_toNat_lt.mp (of_decide_eq_true ha)
        rw [hstop hi] at hlt
        exact ⟨i, hi, (hfront hi).mp (by omega), hlt⟩
      · exact absurd hcontaining (by simp)
  · rintro ⟨i, hi, hle, hlt⟩
    -- the next entry starts behind the address, so the border is right behind this one
    have hborder : Search.endOf (fun i : Instruction => i.address ≤ a) an.stream = k + 1 := by
      refine Nat.le_antisymm (Nat.le_of_not_lt fun hbehind => ?_) ((hfront hi).mpr hle)
      have hsize : k + 1 < an.stream.size := Nat.lt_of_lt_of_le hbehind (Search.endOf_le _ _)
      have hnext : an.stream[k + 1]? = some an.stream[k + 1] := Array.getElem?_eq_getElem hsize
      have hstart := (hfront hnext).mp hbehind
      have hapart := h.reach_le (Nat.lt_succ_self k) hi hnext
      omega
    rw [hborder]
    have ha : a < i.stop := UInt64.lt_iff_toNat_lt.mpr (by rw [hstop hi]; exact hlt)
    exact if_pos (by simp [hi, ha])

/-- The entry that starts at an address is found as by a linear scan. -/
theorem find_eq_findIdx? (h : Coverage.Tidy { entries := an.stream }) (a : UInt64) :
    an.find a = an.stream.findIdx? (·.address == a) := by
  refine Option.ext fun k => ?_
  rw [find_eq_some_iff h, Search.findIdx?_eq_some_iff_of_unique]
  · simp only [beq_iff_eq]
  · intro j k i i' hj hk hi hi'
    rw [beq_iff_eq] at hi hi'
    exact h.eq_of_holds hj hk (h.holds_address hj) ((hi.trans hi'.symm) ▸ h.holds_address hk)

/-- The entry that contains an address is found as by a linear scan. -/
theorem containing_eq_findIdx? (h : Coverage.Tidy { entries := an.stream }) (a : UInt64) :
    an.containing a = an.stream.findIdx? (·.Holds a) := by
  refine Option.ext fun k => ?_
  rw [containing_eq_some_iff h, Search.findIdx?_eq_some_iff_of_unique]
  · simp only [decide_eq_true_eq]
  · intro j k i i' hj hk hi hi'
    exact h.eq_of_holds hj hk (of_decide_eq_true hi) (of_decide_eq_true hi')

/-- The first entry that ends behind an address is found as by a linear scan. -/
theorem lowerBound_eq_findIdx (h : Coverage.Tidy { entries := an.stream }) (a : UInt64) :
    an.lowerBound a = an.stream.findIdx fun i => a < i.stop := by
  rw [lowerBound, Search.endOf_eq_findIdx (h.falling_stop a)]
  refine congrArg (fun p => Array.findIdx p an.stream) (funext fun i => ?_)
  rw [← decide_not]
  exact decide_eq_decide.mpr UInt64.not_le

/--
**Questions about the stream are answered as by linear scans.**

Take any result of an analysis of an image whose sections have no more bytes than addresses, as those
of every image that is built, and any address. The place that is found for the address is that of the
entry that starts there, the place that contains it is that of the entry that holds it, and there is
one such place at most. Both are what a scan of the stream finds, and nothing if it finds nothing. The
lower bound is the least place whose entry ends behind the address, or the size of the stream. The
ends that are compared are the true ones: none of them wraps.
-/
theorem queries_eq_scans {c : Conditions} {config : Config} {image : Image} {an : Analysis}
    (hclip : image.Clipped) (h : run c config image = .ok an) (a : UInt64) :
    (∀ k, an.find a = some k ↔ ∃ i, an.stream[k]? = some i ∧ i.address = a)
      ∧ (∀ k, an.containing a = some k ↔ ∃ i, an.stream[k]? = some i ∧ i.Holds a)
      ∧ an.find a = an.stream.findIdx? (·.address == a)
      ∧ an.containing a = an.stream.findIdx? (·.Holds a)
      ∧ (an.lowerBound a = an.stream.findIdx fun i => a < i.stop)
      ∧ ∀ i ∈ an.stream, i.stop.toNat = i.reach := by
  obtain ⟨m, p, -, hp, rfl⟩ := reached_of_run h
  have htidy : Coverage.Tidy { entries := (p.finish image m).stream } :=
    (Progress.sound_of_reached hclip hp).tidy
  exact ⟨fun k => find_eq_some_iff htidy, fun k => containing_eq_some_iff htidy,
    find_eq_findIdx? htidy a, containing_eq_findIdx? htidy a, lowerBound_eq_findIdx htidy a,
    fun i hi => (htidy.placed i hi).stop_toNat⟩

/-- A jump over two bytes to a return. -/
def jumpImage : Image :=
  Image.build (some .x86_64) .little 0x1000
    [{ name := Text.ofString ".text", start := 0x1000, size := 5
       permissions := { read := true, execute := true }
       bytes := #[0xeb, 0x02, 0x00, 0x00, 0xc3] }] []

/-- Inside the jump, in the hole behind it and at the return the answers differ. -/
theorem queries_eq_scans_hole :
    jumpImage.Clipped ∧ ∃ an, run {} {} jumpImage = .ok an ∧ an.stream.size = 2
      ∧ (an.find 0x1001 = none ∧ an.containing 0x1001 = some 0 ∧ an.lowerBound 0x1001 = 0)
      ∧ (an.find 0x1002 = none ∧ an.containing 0x1002 = none ∧ an.lowerBound 0x1002 = 1)
      ∧ (an.find 0x1004 = some 1 ∧ an.containing 0x1004 = some 1 ∧ an.lowerBound 0x1005 = 2) := by
  have hclip : jumpImage.Clipped := Image.clipped_build _ _ _ _ _
  let scans (an : Analysis) (a : UInt64) : Option Nat × Option Nat × Nat :=
    (an.stream.findIdx? (·.address == a), an.stream.findIdx? (·.Holds a),
      an.stream.findIdx fun i => a < i.stop)
  obtain ⟨an, han, hfacts⟩ : ∃ an, run {} {} jumpImage = .ok an
      ∧ (an.stream.size == 2 && [0x1001, 0x1002, 0x1004, 0x1005].map (scans an)
        == [(none, some 0, 0), (none, none, 1), (some 1, some 1, 1), (none, none, 2)]) = true :=
    exists_ok_of_any (by decide +kernel)
  simp only [List.map_cons, List.map_nil, Bool.and_eq_true, beq_iff_eq, List.cons.injEq,
    Prod.mk.injEq, scans] at hfacts
  obtain ⟨hsize, hinside, hhole, hreturn, hbehind, -⟩ := hfacts
  have hqueries := queries_eq_scans hclip han
  refine ⟨hclip, an, han, hsize, ?_, ?_, ?_⟩
  · obtain ⟨-, -, hfind, hcontaining, hlower, -⟩ := hqueries 0x1001
    exact ⟨hfind.trans hinside.1, hcontaining.trans hinside.2.1, hlower.trans hinside.2.2⟩
  · obtain ⟨-, -, hfind, hcontaining, hlower, -⟩ := hqueries 0x1002
    exact ⟨hfind.trans hhole.1, hcontaining.trans hhole.2.1, hlower.trans hhole.2.2⟩
  · obtain ⟨-, -, hfind, hcontaining, -, -⟩ := hqueries 0x1004
    obtain ⟨-, -, -, -, hlower, -⟩ := hqueries 0x1005
    exact ⟨hfind.trans hreturn.1, hcontaining.trans hreturn.2.1, hlower.trans hbehind.2.2⟩

end Analysis

end Disassembler
