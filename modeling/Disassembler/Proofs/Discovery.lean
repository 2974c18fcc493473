import Disassembler.Proofs.Stream

/-!
# What is found, and why

Two properties of the seeds of an analysis, each an invariant over the merges of a round and then
over the rounds. `Closed`: where a confirmed entry leads in code is swept, covered, or still to be
swept; at the end nothing is to be swept any more. `Justified` and `Rooted`: a discovered seed is
where a confirmed entry leads, and a confirmed entry starts at a swept seed or at the end of another
one. Both rest on the fact that a confirmed entry stays, and that only what is kept of a run has a
say in what is swept next.
-/

namespace Disassembler

/-! ## Where an entry leads -/

namespace Instruction

variable {config : Config} {image : Image} {m : Machine} {i : Instruction} {s : Seed}

theorem mem_seeds : s ∈ i.seeds config image m ↔
    i.flow.target? = some s.address ∧ s.origin = .discovered
      ∨ config.indirection = .followPointers ∧ i.codePointer? image m = some s.address
        ∧ s.origin = .pointer := by
  obtain ⟨a, origin⟩ := s
  simp only [seeds, List.mem_append, Option.mem_toList, Option.map_eq_some_iff, Seed.mk.injEq]
  constructor
  · rintro (⟨t, ht, rfl, rfl⟩ | h)
    · exact Or.inl ⟨ht, rfl⟩
    · split at h
      · rename_i hfollow
        obtain ⟨t, ht, hs⟩ := Option.map_eq_some_iff.mp (Option.mem_toList.mp h)
        obtain ⟨rfl, rfl⟩ := Seed.mk.inj hs
        exact Or.inr ⟨hfollow, ht, rfl⟩
      · exact absurd h List.not_mem_nil
  · rintro (⟨ht, rfl⟩ | ⟨hfollow, ht, rfl⟩)
    · exact Or.inl ⟨a, ht, rfl, rfl⟩
    · rw [if_pos hfollow]
      exact Or.inr (Option.mem_toList.mpr (Option.map_eq_some_iff.mpr ⟨a, ht, rfl⟩))

/-- An invalid entry leads nowhere. -/
theorem isInvalid_of_mem_seeds (h : s ∈ i.seeds config image m) : i.isInvalid = false := by
  rcases hop : i.operation with _ | op
  swap
  · rw [isInvalid, hop]
    rfl
  have hflow : i.flow = .next := by rw [flow, hop]
  rcases mem_seeds.mp h with ⟨ht, -⟩ | ⟨-, hp, -⟩
  · rw [hflow] at ht
    exact absurd ht (by simp [Flow.target?])
  · rw [codePointer?, hflow, if_neg (by simp)] at hp
    exact absurd hp (by simp)

end Instruction

namespace Progress

variable {c : Conditions} {config : Config} {image : Image} {m : Machine}
variable {p q : Progress} {pending : List Seed} {r : Run}

/-! ## Merging a run -/

/-- What is covered stays covered. -/
theorem covers_merge (hplaced : ∀ i ∈ r.entries.toList, i.Placed) (hq : q.coverage.Tidy)
    {a : UInt64} (h : q.coverage.covers a = true) :
    (q.merge config image m r).coverage.covers a = true := by
  obtain ⟨i, hi, hlo, hhi⟩ := (Coverage.covers_iff hq).mp h
  exact (Coverage.covers_iff (Coverage.tidy_merge hplaced hq)).mpr
    ⟨i, Coverage.mem_merge_of_mem_or_kept hplaced hq (Or.inl hi), hlo, hhi⟩

/-- What is kept of a run proposes where it leads, and nothing else does. -/
theorem mem_proposed_merge {s : Seed} : s ∈ (q.merge config image m r).proposed ↔
    s ∈ q.proposed ∨ ∃ i ∈ (q.coverage.merge config.overlap r.entries.toList).kept,
      s ∈ i.seeds config image m := by
  simp only [merge, List.mem_append, List.mem_flatMap]

/-! ## Discovery is closed -/

/-- Where a confirmed entry leads in code is swept, covered, or still to do. -/
def Closed (config : Config) (image : Image) (m : Machine) (p : Progress) (todo : List Seed) :
    Prop :=
  ∀ i ∈ p.coverage.entries, ∀ s ∈ i.seeds config image m, image.inCode s.address = true →
    p.Swept s.address ∨ p.coverage.covers s.address = true ∨ ∃ t ∈ todo, t.address = s.address

/-- What was pending is swept as a round begins. -/
theorem closed_begun (h : p.Closed config image m pending) :
    (p.begun c config image m pending).Closed config image m [] := by
  intro i hi s hs hcode
  -- pending seeds become swept ones, and nothing is proposed yet
  rcases h i hi s hs hcode with ⟨t, ht, ha⟩ | hcovers | ⟨t, ht, ha⟩
  · exact Or.inl ⟨t, Array.mem_append.mpr (Or.inl ht), ha⟩
  · exact Or.inr (Or.inl hcovers)
  · exact Or.inl ⟨t, Array.mem_append.mpr (Or.inr (List.mem_toArray.mpr ht)), ha⟩

/-- A merge proposes where the entries lead that it confirms. -/
theorem closed_merge (hplaced : ∀ i ∈ r.entries.toList, i.Placed) (hq : q.coverage.Tidy)
    (h : q.Closed config image m q.proposed) :
    (q.merge config image m r).Closed config image m (q.merge config image m r).proposed := by
  intro i hi s hs hcode
  rcases Coverage.mem_merge hplaced hq hi with hold | hkept | hinvalid
  · rcases h i hold s hs hcode with hswept | hcovers | ⟨t, ht, ha⟩
    · exact Or.inl hswept
    · exact Or.inr (Or.inl (covers_merge hplaced hq hcovers))
    · exact Or.inr (Or.inr ⟨t, mem_proposed_merge.mpr (Or.inl ht), ha⟩)
  · exact Or.inr (Or.inr ⟨s, mem_proposed_merge.mpr (Or.inr ⟨i, hkept, hs⟩), rfl⟩)
  · rw [Instruction.isInvalid_of_mem_seeds hs] at hinvalid
    exact absurd hinvalid Bool.false_ne_true

/-- The seeds of the next round take up all that is still to do. -/
theorem closed_nextSeeds (h : p.Closed config image m p.proposed) :
    p.Closed config image m (p.nextSeeds image) := by
  intro i hi s hs hcode
  by_cases hswept : p.Swept s.address
  · exact Or.inl hswept
  by_cases hcovers : p.coverage.covers s.address = true
  · exact Or.inr (Or.inl hcovers)
  rcases h i hi s hs hcode with hswept' | hcovers' | ⟨t, ht, ha⟩
  · exact absurd hswept' hswept
  · exact absurd hcovers' hcovers
  · -- the proposal passes the filter, and arranging keeps a seed of its address
    rw [← ha] at hcode hswept hcovers
    obtain ⟨u, hu, hua⟩ := exists_mem_nextSeeds ht hcode hswept hcovers
    exact Or.inr (Or.inr ⟨u, hu, hua.trans ha⟩)

/-- **Discovery is closed between all rounds.** -/
theorem closed_of_reached (hclip : image.Clipped) (h : Reached c config image m p pending) :
    p.Closed config image m pending := by
  induction h with
  | start => exact fun _ h => absurd h (Array.not_mem_empty _)
  | round hp hne ih =>
    refine closed_nextSeeds (round_preserves_of_sound
      (I := fun q => q.Closed config image m q.proposed) hclip (sound_of_reached hclip hp)
      (closed_begun ih) ?_)
    intro q r hr hq hclosed
    exact closed_merge (placed_of_mem_sweepAll hclip hr) hq.tidy hclosed

/-! ## Provenance -/

/-- A seed that was discovered is where a confirmed entry leads. -/
def Justified (config : Config) (image : Image) (m : Machine) (p : Progress) (s : Seed) : Prop :=
  s.origin = .discovered ∨ s.origin = .pointer →
    ∃ i ∈ p.coverage.entries, s ∈ i.seeds config image m

/-- All seeds that were swept or proposed, and those that are still to do, are justified. -/
def AllJustified (config : Config) (image : Image) (m : Machine) (p : Progress)
    (todo : List Seed) : Prop :=
  (∀ s ∈ p.seeds, p.Justified config image m s) ∧ ∀ s ∈ todo, p.Justified config image m s

theorem justified_merge (hplaced : ∀ i ∈ r.entries.toList, i.Placed) (hq : q.coverage.Tidy)
    {s : Seed} (h : q.Justified config image m s) :
    (q.merge config image m r).Justified config image m s := by
  intro horigin
  obtain ⟨i, hi, hs⟩ := h horigin
  exact ⟨i, Coverage.mem_merge_of_mem_or_kept hplaced hq (Or.inl hi), hs⟩

/-- What a merge proposes is where an entry leads that it confirms. -/
theorem allJustified_merge (hplaced : ∀ i ∈ r.entries.toList, i.Placed) (hq : q.coverage.Tidy)
    (h : q.AllJustified config image m q.proposed) :
    (q.merge config image m r).AllJustified config image m
      (q.merge config image m r).proposed := by
  refine ⟨fun s hs => justified_merge hplaced hq (h.1 s hs), fun s hs => ?_⟩
  rcases mem_proposed_merge.mp hs with hold | ⟨i, hkept, hi⟩
  · exact justified_merge hplaced hq (h.2 s hold)
  · exact fun _ => ⟨i, Coverage.mem_merge_of_mem_or_kept hplaced hq (Or.inr hkept), hi⟩

/-- The first seeds are named by the image. -/
theorem origin_of_mem_initialSeeds {s : Seed} (h : s ∈ image.initialSeeds) :
    s.origin = .entry ∨ s.origin = .symbol := by
  unfold Image.initialSeeds at h
  split at h
  · obtain ⟨t, -, rfl⟩ := List.mem_map.mp h
    exact Or.inr rfl
  · rcases List.mem_append.mp h with h | h
    · split at h
      · obtain rfl := List.mem_singleton.mp h
        exact Or.inl rfl
      · exact absurd h List.not_mem_nil
    · obtain ⟨t, -, ht⟩ := List.mem_filterMap.mp h
      split at ht
      · obtain rfl := Option.some.inj ht
        exact Or.inr rfl
      · exact absurd ht (by simp)

/-- **Every seed is justified between all rounds.** -/
theorem allJustified_of_reached (hclip : image.Clipped)
    (h : Reached c config image m p pending) : p.AllJustified config image m pending := by
  induction h with
  | start =>
    refine ⟨fun _ h => absurd h (Array.not_mem_empty _), fun s hs horigin => ?_⟩
    rcases origin_of_mem_initialSeeds hs with h | h
    · rw [h] at horigin
      exact absurd horigin (by decide)
    · rw [h] at horigin
      exact absurd horigin (by decide)
  | @round p pending hp hne ih =>
    have hbegun : (p.begun c config image m pending).AllJustified config image m [] := by
      refine ⟨fun s hs => ?_, fun _ h => absurd h List.not_mem_nil⟩
      rcases Array.mem_append.mp hs with hs | hs
      · exact ih.1 s hs
      · exact ih.2 s (List.mem_toArray.mp hs)
    have hround : (p.round c config image m pending).AllJustified config image m
        (p.round c config image m pending).proposed :=
      round_preserves_of_sound (I := fun q => q.AllJustified config image m q.proposed) hclip
        (sound_of_reached hclip hp) hbegun fun q r hr hq h =>
          allJustified_merge (placed_of_mem_sweepAll hclip hr) hq.tidy h
    exact ⟨hround.1, fun s hs => hround.2 s (mem_nextSeeds hs).1⟩

end Progress

/-! ## Where entries start -/

namespace Coverage

variable {root : UInt64 → Prop} {overlap : Overlap} {c : Coverage}

/-- An address at a root or at the end of a confirmed entry. -/
def RootedAt (root : UInt64 → Prop) (c : Coverage) (a : UInt64) : Prop :=
  root a ∨ ∃ j ∈ c.entries, j.reach = a.toNat

/-- Every confirmed entry starts at a root or at the end of a confirmed entry. -/
def Rooted (root : UInt64 → Prop) (c : Coverage) : Prop :=
  ∀ i ∈ c.entries, c.RootedAt root i.address

theorem RootedAt.insert {a : UInt64} (h : c.RootedAt root a) (i : Instruction) :
    (c.insert i).RootedAt root a :=
  h.imp_right fun ⟨j, hj, hr⟩ => ⟨j, mem_insert.mpr (Or.inr hj), hr⟩

theorem Rooted.insert {i : Instruction} (h : c.Rooted root) (hi : c.RootedAt root i.address) :
    (c.insert i).Rooted root := by
  intro j hj
  rcases mem_insert.mp hj with rfl | hj
  · exact hi.insert j
  · exact (h j hj).insert i

/-- **Entries without a gap from a root keep a coverage rooted**, however many of them are kept. -/
theorem rooted_merge {entries : List Instruction} (hplaced : ∀ i ∈ entries, i.Placed)
    (hc : c.Tidy) (h : c.Rooted root) {a b : UInt64} (hgap : Contiguous a entries b)
    (ha : c.RootedAt root a) : (c.merge overlap entries).coverage.Rooted root := by
  refine merge_induction (motive := fun c entries m => ∀ a, c.Rooted root →
    Contiguous a entries b → c.RootedAt root a → m.coverage.Rooted root) ?_ ?_ ?_ hplaced hc a h
    hgap ha
  · intro c _ _ _ a h _ _
    exact h
  · rintro - c i n rest - - - a h ⟨rfl, -⟩ ha
    exact h.insert ha
  · -- the next entry starts at the end of this one
    rintro c i rest m - hi - ih a h ⟨rfl, hrest⟩ ha
    have hroot : (c.insert i).RootedAt root i.stop :=
      Or.inr ⟨i, mem_insert.mpr (Or.inl rfl), hi.stop_toNat.symm⟩
    exact ih i.stop (h.insert ha) hrest hroot

end Coverage

namespace Progress

variable {c : Conditions} {config : Config} {image : Image} {m : Machine}
variable {p : Progress} {pending : List Seed}

/-- **Every confirmed entry is rooted between all rounds.** -/
theorem rooted_of_reached (hclip : image.Clipped) (h : Reached c config image m p pending) :
    p.coverage.Rooted p.Swept := by
  induction h with
  | start => exact fun _ h => absurd h (Array.not_mem_empty _)
  | @round p pending hp hne ih =>
    have hbegun : p.coverage.Rooted (p.round c config image m pending).Swept := fun i hi =>
      (ih i hi).imp_left fun hswept => swept_round.mpr (Or.inl hswept)
    refine round_preserves_of_sound
      (I := fun q => q.coverage.Rooted (p.round c config image m pending).Swept) hclip
      (sound_of_reached hclip hp) hbegun fun q r hr hq hrooted => ?_
    obtain ⟨-, s, hs, b, hgap⟩ := of_mem_sweepAll hr
    exact Coverage.rooted_merge (placed_of_mem_sweepAll hclip hr) hq.tidy hrooted hgap
      (Or.inl (swept_round.mpr (Or.inr ⟨s, hs, rfl⟩)))

end Progress

/-! ## What an analysis gives -/

namespace Analysis

variable {c : Conditions} {config : Config} {machine : Option Machine} {order : ByteOrder}
variable {entry : UInt64} {sections : List Section} {symbols : List Symbol} {an : Analysis}

/--
**No target is lost.**

Where an entry of the stream of an image that is built jumps, branches or calls directly, if that is
code, was swept, or an entry starts there, or it is inside an entry. If code pointers are followed,
so it is with the code pointer that is read for an entry with an indirect flow.
-/
theorem discovery_closed
    (h : run c config (Image.build machine order entry sections symbols) = .ok an)
    {i : Instruction} (hi : i ∈ an.stream) {t : UInt64}
    (hcode : (Image.build machine order entry sections symbols).inCode t = true)
    (hleads : i.flow.target? = some t ∨ config.indirection = .followPointers
      ∧ i.flow = .indirect
      ∧ i.codePointer? (Image.build machine order entry sections symbols) an.machine = some t) :
    (∃ s ∈ an.seeds, s.address = t) ∨ (∃ j ∈ an.stream, j.address = t)
      ∨ ∃ j ∈ an.stream, j.address < t ∧ t.toNat < j.address.toNat + j.length := by
  have hclip := Image.clipped_build machine order entry sections symbols
  obtain ⟨m, p, -, hp, rfl⟩ := reached_of_run h
  have hseed : ∃ s ∈ i.seeds config (Image.build machine order entry sections symbols) m,
      s.address = t := by
    rcases hleads with ht | ⟨hfollow, -, ht⟩
    · exact ⟨⟨t, .discovered⟩, Instruction.mem_seeds.mpr (Or.inl ⟨ht, rfl⟩), rfl⟩
    · exact ⟨⟨t, .pointer⟩, Instruction.mem_seeds.mpr (Or.inr ⟨hfollow, ht, rfl⟩), rfl⟩
  obtain ⟨s, hs, rfl⟩ := hseed
  rcases Progress.closed_of_reached hclip hp i hi s hs hcode with hswept | hcovers | ⟨u, hu, -⟩
  · exact Or.inl hswept
  · have htidy := (Progress.sound_of_reached hclip hp).tidy
    rcases (Bool.or_eq_true _ _).mp hcovers with hstart | hinside
    · exact Or.inr (Or.inl ((Coverage.isStart_iff htidy).mp hstart))
    · exact Or.inr (Or.inr ((Coverage.inside_iff htidy).mp hinside))
  · -- nothing is left to do
    exact absurd hu List.not_mem_nil

/-- Code that jumps to `0x1010` and from there on through a pointer to `0x1018`. -/
def pointerCode : List Section :=
  [{ name := Text.ofString ".text", start := 0x1000, size := 40
     permissions := { read := true, execute := true }
     bytes := #[0xeb, 0x0e, 0xcc, 0xcc, 0xcc, 0xcc, 0xcc, 0xcc,
       0xcc, 0xcc, 0xcc, 0xcc, 0xcc, 0xcc, 0xcc, 0xcc,
       0xff, 0x25, 0x0a, 0x00, 0x00, 0x00, 0xc3, 0xcc,
       0xc3, 0xcc, 0xcc, 0xcc, 0xcc, 0xcc, 0xcc, 0xcc,
       0x18, 0x10, 0x00, 0x00, 0x00, 0x00, 0x00, 0x00] }]

/-- The image whose entry point is the first of the two jumps. -/
def pointerImage : Image := Image.build (some .x86_64) .little 0x1000 pointerCode []

/-- The target of the code pointer is found. -/
theorem discovery_closed_pointer : ∃ an i,
    run {} { indirection := .followPointers } pointerImage = .ok an ∧ an.stream[1]? = some i
      ∧ i.flow = .indirect ∧ i.codePointer? pointerImage an.machine = some 0x1018
      ∧ ((∃ s ∈ an.seeds, s.address = 0x1018) ∨ (∃ j ∈ an.stream, j.address = 0x1018)
        ∨ ∃ j ∈ an.stream, j.address < 0x1018
          ∧ (0x1018 : UInt64).toNat < j.address.toNat + j.length) := by
  obtain ⟨an, han, hsecond⟩ : ∃ an,
      run {} { indirection := .followPointers } pointerImage = .ok an
        ∧ (an.stream[1]?.any fun i => i.flow == .indirect
          && i.codePointer? pointerImage an.machine == some 0x1018) = true :=
    exists_ok_of_any (by decide +kernel)
  obtain ⟨i, hi, htest⟩ := (Option.any_eq_true _ _).mp hsecond
  obtain ⟨hflow, hpointer⟩ := (Bool.and_eq_true _ _).mp htest
  have hcode : pointerImage.inCode 0x1018 = true := by decide +kernel
  exact ⟨an, i, han, hi, eq_of_beq hflow, eq_of_beq hpointer,
    discovery_closed han (Array.mem_of_getElem? hi) hcode
      (Or.inr ⟨rfl, eq_of_beq hflow, eq_of_beq hpointer⟩)⟩

/--
**Nothing is reached through what was dropped.**

In the stream of an image that is built, every entry starts at a swept seed or at the end of another
entry. A discovered seed is the target of an instruction of the stream, and the seed of a code
pointer is read for one.
-/
theorem provenance (h : run c config (Image.build machine order entry sections symbols) = .ok an) :
    (∀ i ∈ an.stream, (∃ s ∈ an.seeds, s.address = i.address)
      ∨ ∃ j ∈ an.stream, j ≠ i ∧ j.stop = i.address ∧ j.address.toNat + j.length = i.address.toNat)
      ∧ (∀ s ∈ an.seeds, s.origin = .discovered →
        ∃ i ∈ an.stream, i.isInvalid = false ∧ i.flow.target? = some s.address)
      ∧ ∀ s ∈ an.seeds, s.origin = .pointer → config.indirection = .followPointers
        ∧ ∃ i ∈ an.stream, i.flow = .indirect ∧ i.codePointer?
          (Image.build machine order entry sections symbols) an.machine = some s.address := by
  have hclip := Image.clipped_build machine order entry sections symbols
  obtain ⟨m, p, -, hp, rfl⟩ := reached_of_run h
  have htidy := (Progress.sound_of_reached hclip hp).tidy
  have hjustified := (Progress.allJustified_of_reached hclip hp).1
  refine ⟨fun i hi => ?_, fun s hs horigin => ?_, fun s hs horigin => ?_⟩
  · rcases Progress.rooted_of_reached hclip hp i hi with hswept | ⟨j, hj, hreach⟩
    · exact Or.inl hswept
    · refine Or.inr ⟨j, hj, ?_, UInt64.toNat_inj.mp ?_, hreach⟩
      · -- no entry ends where it starts
        rintro rfl
        have hpos := (htidy.placed j hj).address_lt
        omega
      · rw [(htidy.placed j hj).stop_toNat, hreach]
  · obtain ⟨i, hi, hs⟩ := hjustified s hs (Or.inl horigin)
    rcases Instruction.mem_seeds.mp hs with ⟨ht, -⟩ | ⟨-, -, hpointer⟩
    · exact ⟨i, hi, Instruction.isInvalid_of_mem_seeds hs, ht⟩
    · exact absurd (horigin.symm.trans hpointer) (by decide)
  · obtain ⟨i, hi, hs⟩ := hjustified s hs (Or.inr horigin)
    rcases Instruction.mem_seeds.mp hs with ⟨-, hdiscovered⟩ | ⟨hfollow, hp, -⟩
    · exact absurd (horigin.symm.trans hdiscovered) (by decide)
    · refine ⟨hfollow, i, hi, ?_, hp⟩
      unfold Instruction.codePointer? at hp
      split at hp
      · assumption
      · exact absurd hp (by simp)

/-- Both seeds beside the entry point are justified. -/
theorem provenance_pointer : ∃ an,
    run {} { indirection := .followPointers } pointerImage = .ok an
      ∧ an.seeds = #[⟨0x1000, .entry⟩, ⟨0x1010, .discovered⟩, ⟨0x1018, .pointer⟩]
      ∧ (∃ i ∈ an.stream, i.isInvalid = false ∧ i.flow.target? = some 0x1010)
      ∧ ∃ i ∈ an.stream, i.flow = .indirect
        ∧ i.codePointer? pointerImage an.machine = some 0x1018 := by
  obtain ⟨an, han, hseeds⟩ : ∃ an,
      run {} { indirection := .followPointers } pointerImage = .ok an
        ∧ (an.seeds == #[⟨0x1000, .entry⟩, ⟨0x1010, .discovered⟩, ⟨0x1018, .pointer⟩]) = true :=
    exists_ok_of_any (by decide +kernel)
  have hseeds := eq_of_beq hseeds
  obtain ⟨-, hdiscovered, hpointer⟩ := provenance han
  refine ⟨an, han, hseeds, hdiscovered ⟨0x1010, .discovered⟩ ?_ rfl,
    (hpointer ⟨0x1018, .pointer⟩ ?_ rfl).2⟩
  · rw [hseeds]
    exact Array.mem_toList_iff.mp (by simp)
  · rw [hseeds]
    exact Array.mem_toList_iff.mp (by simp)

end Analysis

end Disassembler
