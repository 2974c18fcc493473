import Disassembler.Proofs.Discovery
import Mathlib.Data.List.Nodup
import Mathlib.Data.List.Perm.Subperm

/-!
# Termination

Neither loop of an analysis counts its turns. A sweep goes on from where an entry ends, and ends by
itself: what is decoded ends behind its address and before the end of the address space, and there
is only so much code. The rounds end since no address is ever swept twice. Whether it was covered
makes no difference, as it is the seeds themselves that are remembered; so the seeds of all rounds
are distinct addresses in code, and there are no more sweeps than such addresses.
-/

namespace Disassembler

/-! ## The loop of a sweep -/

namespace Sweep

/-- **The loop of a sweep ends with a run**, after it has decoded at some addresses. Its state is that
of `sweepFrom`, but it goes on for as long as nothing stops it, wherever that leads. -/
inductive Ends (s : Sweep) (cancelled : Nat → Bool) :
    Array Instruction → UInt64 → Nat → Bool → List UInt64 → Run → Prop where
  | stop {entries : Array Instruction} {a : UInt64} {invalid : Nat} {last : Bool} :
      s.Stops cancelled entries a →
      Ends s cancelled entries a invalid last [] { seed := s.seed, entries }
  | data {entries : Array Instruction} {a : UInt64} {invalid count : Nat} {last : Bool} :
      ¬ s.Stops cancelled entries a →
      (if (s.image.decodeAt s.machine a).isInvalid then invalid + 1 else 0) = count →
      s.config.invalidLimit < count →
      Ends s cancelled entries a invalid last [a]
        { seed := s.seed, entries := entries.extract 0 (entries.size + 1 - count), isData := true }
  | last {entries : Array Instruction} {a : UInt64} {invalid count : Nat} {last ending : Bool}
      {i : Instruction} :
      ¬ s.Stops cancelled entries a →
      s.image.decodeAt s.machine a = i →
      (if i.isInvalid then invalid + 1 else 0) = count →
      ¬ s.config.invalidLimit < count →
      (!i.isInvalid && s.endsAt i) = ending →
      (last = true ∨ ending = true ∧ s.machine.delaySlots = 0) →
      Ends s cancelled entries a invalid last [a] { seed := s.seed, entries := entries.push i }
  | next {entries : Array Instruction} {a : UInt64} {invalid count : Nat} {last ending : Bool}
      {i : Instruction} {visited : List UInt64} {r : Run} :
      ¬ s.Stops cancelled entries a →
      s.image.decodeAt s.machine a = i →
      (if i.isInvalid then invalid + 1 else 0) = count →
      ¬ s.config.invalidLimit < count →
      (!i.isInvalid && s.endsAt i) = ending →
      ¬ (last = true ∨ ending = true ∧ s.machine.delaySlots = 0) →
      Ends s cancelled (entries.push i) i.stop count ending visited r →
      Ends s cancelled entries a invalid last (a :: visited) r

variable {s : Sweep} {cancelled : Nat → Bool} {entries : Array Instruction} {a : UInt64}
variable {invalid : Nat} {last : Bool} {visited : List UInt64} {r : Run}

/-- What a sweep decodes is genuine, and ends before the end of the address space. -/
theorem placed_decodeAt (hclip : s.image.Clipped) (hgo : ¬ s.Stops cancelled entries a) :
    (s.image.decodeAt s.machine a).address = a
      ∧ (s.image.decodeAt s.machine a).Genuine s.image s.machine
      ∧ (s.image.decodeAt s.machine a).Placed := by
  simp only [Stops, not_or, Decidable.not_not] at hgo
  obtain ⟨haddr, hgenuine⟩ := genuine_decodeAt hgo.2.1 hgo.2.2
  exact ⟨haddr, hgenuine, hgenuine.placed hclip⟩

/-- **The step of a sweep**: it goes on behind where it was. -/
theorem lt_stop_decodeAt (hclip : s.image.Clipped) (hgo : ¬ s.Stops cancelled entries a) :
    a < (s.image.decodeAt s.machine a).stop := by
  obtain ⟨haddr, -, hplaced⟩ := placed_decodeAt hclip hgo
  have hlt := hplaced.address_lt
  rw [haddr] at hlt
  rw [UInt64.lt_iff_toNat_lt, hplaced.stop_toNat]
  exact hlt

/-- **Every sweep ends**, with the run that is defined for it. -/
theorem exists_ends (hclip : s.image.Clipped) (cancelled : Nat → Bool)
    (entries : Array Instruction) (a : UInt64) (invalid : Nat) (last : Bool) :
    ∃ visited, s.Ends cancelled entries a invalid last visited
      (s.sweepFrom cancelled entries a invalid last) := by
  fun_induction sweepFrom s cancelled entries a invalid last with
  | case1 entries a invalid last hstop => exact ⟨[], .stop hstop⟩
  | case2 entries a invalid last hgo i count hdata => exact ⟨[a], .data hgo rfl hdata⟩
  | case3 entries a invalid last hgo i count hcode ending hnext ih =>
    obtain ⟨visited, h⟩ := ih
    exact ⟨a :: visited, .next hgo rfl rfl hcode rfl (not_or.mpr hnext.2) h⟩
  | case4 entries a invalid last hgo i count hcode ending hlast =>
    -- the definition looks whether the address grows, and it does
    have hlt := lt_stop_decodeAt hclip hgo
    refine ⟨[a], .last hgo rfl rfl hcode rfl ?_⟩
    rw [← Decidable.not_not (p := last = true ∨ _), not_or]
    exact fun hnot => hlast ⟨hlt, hnot⟩

/-- **And with no other one.** -/
theorem Ends.eq_sweepFrom (hclip : s.image.Clipped)
    (h : s.Ends cancelled entries a invalid last visited r) :
    r = s.sweepFrom cancelled entries a invalid last := by
  induction h with
  | stop hstop => rw [sweepFrom_of_stops hstop]
  | data hgo hcount hdata => rw [sweepFrom_eq hgo rfl hcount rfl, if_pos hdata]
  | last hgo hi hcount hcode hending hlast =>
    rw [sweepFrom_eq hgo hi hcount hending, if_neg hcode, if_neg]
    exact fun hnext => (not_or.mpr hnext.2) hlast
  | next hgo hi hcount hcode hending hnext _ ih =>
    have hlt := lt_stop_decodeAt hclip hgo
    rw [hi] at hlt
    rw [sweepFrom_eq hgo hi hcount hending, if_neg hcode, if_pos ⟨hlt, not_or.mp hnext⟩]
    exact ih

/-- **Addresses that ascend without wrapping, in backed code.** -/
structure Climbs (s : Sweep) (a : UInt64) (visited : List UInt64) : Prop where
  from_start : ∀ b ∈ visited, a ≤ b
  ascending : visited.Pairwise (· < ·)
  inCode : ∀ b ∈ visited, s.image.inCode b = true
  backed : ∀ b ∈ visited, s.image.bytesFrom b ≠ []
  /-- What is decoded there does not reach the end of the address space. -/
  fits : ∀ b ∈ visited, b.toNat + (s.image.decodeAt s.machine b).length < 2 ^ 64

theorem climbs_nil : s.Climbs a [] where
  from_start := by simp
  ascending := List.Pairwise.nil
  inCode := by simp
  backed := by simp
  fits := by simp

theorem climbs_cons (hclip : s.image.Clipped) (hgo : ¬ s.Stops cancelled entries a)
    (h : s.Climbs (s.image.decodeAt s.machine a).stop visited) : s.Climbs a (a :: visited) := by
  obtain ⟨haddr, hgenuine, hplaced⟩ := placed_decodeAt hclip hgo
  have hlt := lt_stop_decodeAt hclip hgo
  have hbehind : ∀ b ∈ visited, a < b := fun b hb => UInt64.lt_of_lt_of_le hlt (h.from_start b hb)
  refine ⟨?_, List.pairwise_cons.mpr ⟨hbehind, h.ascending⟩, ?_, ?_, ?_⟩
  · exact List.forall_mem_cons.mpr
      ⟨UInt64.le_refl a, fun b hb => UInt64.le_of_lt (hbehind b hb)⟩
  · exact List.forall_mem_cons.mpr ⟨haddr ▸ hgenuine.inCode, h.inCode⟩
  · exact List.forall_mem_cons.mpr ⟨haddr ▸ hgenuine.backed, h.backed⟩
  · have hfits := hplaced.fits
    rw [Instruction.reach, haddr] at hfits
    exact List.forall_mem_cons.mpr ⟨hfits, h.fits⟩

/-- **The addresses at which a sweep decodes** are such. -/
theorem Ends.climbs (hclip : s.image.Clipped)
    (h : s.Ends cancelled entries a invalid last visited r) : s.Climbs a visited := by
  induction h with
  | stop => exact climbs_nil
  | data hgo => exact climbs_cons hclip hgo climbs_nil
  | last hgo => exact climbs_cons hclip hgo climbs_nil
  | next hgo hi _ _ _ _ _ ih =>
    rw [← hi] at ih
    exact climbs_cons hclip hgo ih

end Sweep

/-! ## The addresses of code -/

namespace Image

variable {image : Image}

theorem toNat_start_add {s : Section} (h : s.Fits) {k : Nat} (hk : k < s.size.toNat) :
    (s.start + UInt64.ofNat k).toNat = s.start.toNat + k := by
  have hsize := s.size.toNat_lt
  have hfits : s.start.toNat + s.size.toNat < 2 ^ 64 := h
  simp only [UInt64.toNat_add, UInt64.toNat_ofNat']
  omega

/-- If all sections fit, they have the addresses of code and no others. -/
theorem mem_codeAddresses_iff (hfits : ∀ s ∈ image.sections, s.Fits)
    (hbefore : image.sections.toList.Pairwise Section.Before) {a : UInt64} :
    a ∈ image.codeAddresses ↔ image.inCode a = true := by
  refine ⟨fun h => ?_, mem_codeAddresses⟩
  obtain ⟨s, hs, ha⟩ := List.mem_flatMap.mp h
  obtain ⟨k, hk, rfl⟩ := List.mem_map.mp ha
  obtain ⟨hs, hexec⟩ := List.mem_filter.mp hs
  have hs := Array.mem_toList_iff.mp hs
  have hk := List.mem_range.mp hk
  have haddr := toNat_start_add (hfits s hs) hk
  have hcontains : s.contains (s.start + UInt64.ofNat k) = true :=
    (hfits s hs).contains_iff.mpr ⟨by omega, by omega⟩
  exact inCode_iff.mpr ⟨s, (sectionFor_eq_some_iff hbefore).mpr ⟨hs, hcontains⟩, hexec⟩

/-- And each of them once. -/
theorem nodup_codeAddresses (hfits : ∀ s ∈ image.sections, s.Fits)
    (hbefore : image.sections.toList.Pairwise Section.Before) : image.codeAddresses.Nodup := by
  have hmem : ∀ s ∈ image.sections.toList.filter (·.executable), s.Fits := fun s hs =>
    hfits s (Array.mem_toList_iff.mp (List.mem_of_mem_filter hs))
  refine List.nodup_flatMap.mpr ⟨fun s hs => ?_, (hbefore.filter _).imp_of_mem ?_⟩
  · -- within a section each offset makes its own address
    refine (List.nodup_range).map_on fun k hk l hl heq => ?_
    have heq := congrArg UInt64.toNat heq
    rw [toNat_start_add (hmem s hs) (List.mem_range.mp hk),
      toNat_start_add (hmem s hs) (List.mem_range.mp hl)] at heq
    omega
  · -- the later section starts behind the end of the earlier one
    intro s t hs ht hst a has hat
    obtain ⟨k, hk, rfl⟩ := List.mem_map.mp has
    obtain ⟨l, hl, heq⟩ := List.mem_map.mp hat
    have hk := List.mem_range.mp hk
    have heq := congrArg UInt64.toNat heq
    rw [toNat_start_add (hmem s hs) hk,
      toNat_start_add (hmem t ht) (List.mem_range.mp hl)] at heq
    have hst : s.start.toNat + s.size.toNat ≤ t.start.toNat := hst
    omega

/-- There are no more distinct addresses in code than these. -/
theorem length_le_codeAddresses {l : List UInt64} (hnodup : l.Nodup)
    (hcode : ∀ a ∈ l, image.inCode a = true) : l.length ≤ image.codeAddresses.length :=
  (hnodup.subperm fun a ha => mem_codeAddresses (hcode a ha)).length_le

end Image

/-! ## The loop of rounds -/

namespace Progress

variable {c : Conditions} {config : Config} {image : Image} {m : Machine}
variable {p : Progress} {pending : List Seed}

/-- **No address is swept twice**: the seeds that were swept and those that are pending are distinct
addresses in code, and every round sweeps one at least. -/
structure Fresh (image : Image) (p : Progress) (pending : List Seed) : Prop where
  nodup : ((p.seeds.toList ++ pending).map (·.address)).Nodup
  inCode : ∀ s ∈ p.seeds.toList ++ pending, image.inCode s.address = true
  sweeps : p.stats.sweeps = p.seeds.size
  rounds : p.stats.rounds ≤ p.seeds.size

theorem sweeps_round :
    (p.round c config image m pending).stats.sweeps = p.stats.sweeps + pending.length := by
  refine round_preserves (I := fun q => q.stats.sweeps = p.stats.sweeps + pending.length) ?_
    fun _ _ _ h => h
  rw [begun, sweepAll_eq_mapIdx, List.length_mapIdx]

/-- **The step of a round.** -/
theorem Fresh.round (h : p.Fresh image pending) (hne : pending ≠ []) :
    (p.round c config image m pending).Fresh image
      ((p.round c config image m pending).nextSeeds image) := by
  have hseeds : (p.round c config image m pending).seeds.toList = p.seeds.toList ++ pending := by
    rw [seeds_round, Array.toList_append]
  have hsize : (p.round c config image m pending).seeds.size = p.seeds.size + pending.length := by
    rw [seeds_round, Array.size_append]
    rfl
  refine ⟨?_, fun s hs => ?_, ?_, ?_⟩
  · rw [List.map_append]
    refine List.nodup_append.mpr ⟨hseeds ▸ h.nodup, Seed.nodup_arrange _, fun a ha b hb => ?_⟩
    -- what was swept is not taken up again
    rintro rfl
    obtain ⟨s, hs, rfl⟩ := List.mem_map.mp ha
    obtain ⟨t, ht, heq⟩ := List.mem_map.mp hb
    exact (mem_nextSeeds ht).2.2 ⟨s, Array.mem_toList_iff.mp hs, heq.symm⟩
  · rcases List.mem_append.mp hs with hs | hs
    · exact h.inCode s (hseeds ▸ hs)
    · exact (mem_nextSeeds hs).2.1
  · rw [sweeps_round, hsize, h.sweeps]
  · -- the round had something to sweep
    have hpos := List.length_pos_iff.mpr hne
    have hrounds := h.rounds
    rw [rounds_round, hsize]
    omega

/-- **What was not swept before stays so from round to round.** -/
theorem fresh_of_reached (hinit : ({} : Progress).Fresh image image.initialSeeds)
    (h : Reached c config image m p pending) : p.Fresh image pending := by
  induction h with
  | start => exact hinit
  | round _ hne ih => exact ih.round hne

theorem Fresh.size_le (h : p.Fresh image pending) :
    p.seeds.size ≤ image.codeAddresses.length := by
  have hswept : (p.seeds.toList.map (·.address)).length ≤ image.codeAddresses.length := by
    have hnodup := h.nodup
    rw [List.map_append] at hnodup
    refine Image.length_le_codeAddresses (List.nodup_append.mp hnodup).1 fun a ha => ?_
    obtain ⟨s, hs, rfl⟩ := List.mem_map.mp ha
    exact h.inCode s (List.mem_append_left pending hs)
  simpa using hswept

end Progress

/-! ## What an analysis gives -/

namespace Analysis

/--
**An analysis ends, and sweeps no address twice.**

In an image that is built, whose sections all end below `2 ^ 64`, and for every configuration: Every
sweep ends with one run, after it has decoded at addresses that ascend without wrapping, in backed
code, and at no more of them than there are in executable sections. The rounds end with one result,
from which the analysis is made. In all rounds, the seeds that were swept and those that are pending
are distinct addresses in executable sections. So an analysis takes no more rounds than sweeps, and
no more sweeps than there are such addresses.
-/
theorem ends_without_repeats (c : Conditions) (config : Config) (machine : Option Machine)
    (order : ByteOrder) (entry : UInt64) (sections : List Section) (symbols : List Symbol)
    (hends : ∀ s ∈ (Image.build machine order entry sections symbols).sections,
      s.start.toNat + s.size.toNat < 2 ^ 64) :
    let image := Image.build machine order entry sections symbols
    (image.codeAddresses.Nodup ∧ ∀ a, a ∈ image.codeAddresses ↔ image.inCode a = true)
      ∧ (∀ (s : Sweep) (cancelled : Nat → Bool), s.image = image →
        (∃ visited, s.Ends cancelled #[] s.seed.address 0 false visited (s.run cancelled))
          ∧ ∀ visited r, s.Ends cancelled #[] s.seed.address 0 false visited r →
            r = s.run cancelled ∧ s.Climbs s.seed.address visited
              ∧ visited.length ≤ image.codeAddresses.length)
      ∧ (∀ m, image.machine = some m → image.sections.any (·.executable) = true →
        ∃ result, (∀ r, Progress.Ends c config image m {} image.initialSeeds r ↔ r = result)
          ∧ run c config image = result.elim (.error .cancelled) fun p => .ok (p.finish image m))
      ∧ (∀ m p pending, Progress.Reached c config image m p pending →
        ((p.seeds.toList ++ pending).map (·.address)).Nodup
          ∧ ∀ s ∈ p.seeds.toList ++ pending, image.inCode s.address = true)
      ∧ ∀ an, run c config image = .ok an →
        (an.seeds.toList.map (·.address)).Nodup ∧ an.stats.sweeps = an.seeds.size
          ∧ an.stats.rounds ≤ an.stats.sweeps
          ∧ an.stats.sweeps ≤ image.codeAddresses.length := by
  intro image
  have hclip : image.Clipped := Image.clipped_build machine order entry sections symbols
  have hbefore := Image.pairwise_before hends
  have hfresh : ∀ {m p pending}, Progress.Reached c config image m p pending →
      p.Fresh image pending :=
    Progress.fresh_of_reached ⟨Image.nodup_initialSeeds hends,
      fun s hs => Image.inCode_of_mem_initialSeeds hends hs, rfl, Nat.le_refl 0⟩
  refine ⟨⟨Image.nodup_codeAddresses hends hbefore, fun a =>
    Image.mem_codeAddresses_iff hends hbefore⟩, fun s cancelled himage => ⟨?_, ?_⟩,
    fun m hm hcode => ⟨_, fun r => ⟨fun h => h.unique Progress.ends_rounds, ?_⟩, ?_⟩,
    fun m p pending hp => ⟨(hfresh hp).nodup, (hfresh hp).inCode⟩, fun an h => ?_⟩
  · rw [← himage] at hclip
    exact Sweep.exists_ends hclip cancelled #[] s.seed.address 0 false
  · -- the addresses of a sweep are distinct ones in code, so there are not too many
    intro visited r h
    rw [← himage] at hclip
    have hclimbs := h.climbs hclip
    refine ⟨h.eq_sweepFrom hclip, hclimbs, ?_⟩
    rw [← himage]
    exact Image.length_le_codeAddresses (hclimbs.ascending.imp UInt64.ne_of_lt) hclimbs.inCode
  · rintro rfl
    exact Progress.ends_rounds
  · rw [run_eq hm, if_pos hcode]
  · obtain ⟨m, p, -, hp, rfl⟩ := reached_of_run h
    have hp := hfresh hp
    have hnodup := hp.nodup
    rw [List.append_nil] at hnodup
    refine ⟨hnodup, hp.sweeps, ?_, ?_⟩
    · show p.stats.rounds ≤ p.stats.sweeps
      rw [hp.sweeps]
      exact hp.rounds
    · show p.stats.sweeps ≤ image.codeAddresses.length
      rw [hp.sweeps]
      exact hp.size_le

/-- A jump to another one, which leads into the middle of the first. -/
def cyclicCode : List Section :=
  [{ name := Text.ofString ".text", start := 0x1000, size := 6
     permissions := { read := true, execute := true }
     bytes := #[0xeb, 0x02, 0xcc, 0xcc, 0xeb, 0xfb] }]

/-- The image whose code never comes to an end. -/
def cyclicImage : Image := Image.build (some .x86_64) .little 0x1000 cyclicCode []

theorem cyclicImage_ends :
    ∀ s ∈ cyclicImage.sections, s.start.toNat + s.size.toNat < 2 ^ 64 := by
  decide +kernel

/-- The two jumps are swept once each. -/
theorem ends_without_repeats_cyclic :
    (∀ s ∈ cyclicImage.sections, s.start.toNat + s.size.toNat < 2 ^ 64)
      ∧ (∃ p, Progress.Ends {} {} cyclicImage .x86_64 {} cyclicImage.initialSeeds (some p))
      ∧ ∃ an, run {} {} cyclicImage = .ok an ∧ an.seeds.toList.map (·.address) = [0x1000, 0x1004]
        ∧ (an.seeds.toList.map (·.address)).Nodup ∧ an.stats.sweeps = an.seeds.size
        ∧ an.stats.sweeps ≤ cyclicImage.codeAddresses.length
        ∧ cyclicImage.codeAddresses.length = 6 := by
  obtain ⟨an, han, hseeds⟩ : ∃ an, run {} {} cyclicImage = .ok an
      ∧ (an.seeds.toList.map (·.address) == [0x1000, 0x1004]) = true :=
    exists_ok_of_any (by decide +kernel)
  obtain ⟨-, -, hrounds, -, hresult⟩ :=
    ends_without_repeats {} {} (some .x86_64) .little 0x1000 cyclicCode [] cyclicImage_ends
  obtain ⟨result, hresultiff, hrun⟩ := hrounds .x86_64 rfl (by decide +kernel)
  have hloop := (hresultiff result).mpr rfl
  obtain ⟨hnodup, hsweeps, -, hle⟩ := hresult an han
  refine ⟨cyclicImage_ends, ?_, an, han, eq_of_beq hseeds, hnodup, hsweeps, hle, by decide +kernel⟩
  rcases result with _ | p
  · -- there is a result, so the loop was not cancelled
    exact absurd (hrun.symm.trans han) (by simp)
  · exact ⟨p, hloop⟩

end Analysis

end Disassembler
