import Disassembler.Proofs.Rounds

/-!
# The stream of an analysis

The invariant `Sound` of a coverage is kept by every addition: its entries are in order, and each is
genuine or the marker of a genuine entry that would have reached into a confirmed one. What is said
of a finished stream follows from it. Every entry lies in the backed bytes of one executable section
and shows them, and nothing ever comes between a marker and the entry that it makes room for.
-/

namespace Disassembler

/-- Every image that is built is clipped. -/
theorem Image.clipped_build (machine : Option Machine) (order : ByteOrder) (entry : UInt64)
    (sections : List Section) (symbols : List Symbol) :
    (Image.build machine order entry sections symbols).Clipped := fun _ h => Image.size_bytes_le h

/-! ## Sound coverages -/

namespace Coverage

variable {image : Image} {m : Machine} {overlap : Overlap} {c : Coverage}

/-- A marker stands for a genuine entry that would reach into a confirmed one. -/
def Marks (image : Image) (m : Machine) (c : Coverage) (i : Instruction) : Prop :=
  ∃ (whole : Instruction) (n : UInt64), whole.Genuine image m ∧ (∃ j ∈ c.entries, j.address = n)
    ∧ whole.address < n ∧ n.toNat < whole.reach ∧ i = whole.marker n

/-- Every entry is genuine, or it is a marker and markers are wanted. -/
def Honest (image : Image) (m : Machine) (overlap : Overlap) (c : Coverage) : Prop :=
  ∀ i ∈ c.entries, i.Genuine image m ∨ overlap = .keepConfirmed ∧ c.Marks image m i

/-- **The invariant of the coverage in an analysis.** -/
structure Sound (image : Image) (m : Machine) (overlap : Overlap) (c : Coverage) : Prop where
  tidy : c.Tidy
  honest : c.Honest image m overlap

theorem sound_empty : Sound image m overlap {} where
  tidy := tidy_empty
  honest := fun _ h => absurd h (Array.not_mem_empty _)

/-- A marker stays one, since what it makes room for stays. -/
theorem Marks.insert {i : Instruction} (h : c.Marks image m i) (j : Instruction) :
    (c.insert j).Marks image m i := by
  obtain ⟨whole, n, hwhole, ⟨k, hk, hn⟩, hlo, hhi, heq⟩ := h
  exact ⟨whole, n, hwhole, ⟨k, mem_insert.mpr (Or.inr hk), hn⟩, hlo, hhi, heq⟩

theorem Honest.insert {j : Instruction} (h : c.Honest image m overlap)
    (hj : j.Genuine image m ∨ overlap = .keepConfirmed ∧ (c.insert j).Marks image m j) :
    (c.insert j).Honest image m overlap := by
  intro i hi
  rcases mem_insert.mp hi with rfl | hi
  · exact hj
  · exact (h i hi).imp_right fun hm => ⟨hm.1, hm.2.insert j⟩

/-- **Merging genuine entries keeps a coverage sound.** -/
theorem sound_merge (hclip : image.Clipped) {entries : List Instruction}
    (hgenuine : ∀ i ∈ entries, i.Genuine image m) (h : c.Sound image m overlap) :
    (c.merge overlap entries).coverage.Sound image m overlap := by
  have hplaced : ∀ i ∈ entries, i.Placed := fun i hi => (hgenuine i hi).placed hclip
  refine ⟨tidy_merge hplaced h.tidy, merge_induction (motive := fun c entries m' =>
    (∀ i ∈ entries, i.Genuine image m) → c.Honest image m overlap →
      m'.coverage.Honest image m overlap) ?_ ?_ ?_ hplaced h.tidy hgenuine h.honest⟩
  · intro c _ _ _ _ hc
    exact hc
  · intro hoverlap c i n rest _ _ hn hgenuine hc
    obtain ⟨j, hj, hstart⟩ := hn.start
    refine hc.insert (Or.inr ⟨hoverlap, i, n, hgenuine i List.mem_cons_self, ?_, hn.address_lt,
      hn.lt_reach, rfl⟩)
    exact ⟨j, mem_insert.mpr (Or.inr hj), hstart⟩
  · intro c i rest m' _ _ _ ih hgenuine hc
    exact ih (fun j hj => hgenuine j (List.mem_cons_of_mem i hj))
      (hc.insert (Or.inl (hgenuine i List.mem_cons_self)))

end Coverage

namespace Progress

variable {c : Conditions} {config : Config} {image : Image} {m : Machine}
variable {p q : Progress} {pending : List Seed}

theorem genuine_of_mem_sweepAll {r : Run} (h : r ∈ p.sweepAll c config image m pending) :
    ∀ i ∈ r.entries.toList, i.Genuine image m := fun i hi =>
  (of_mem_sweepAll h).1 i (Array.mem_toList_iff.mp hi)

/-- The runs of a round can be merged. -/
theorem placed_of_mem_sweepAll (hclip : image.Clipped) {r : Run}
    (h : r ∈ p.sweepAll c config image m pending) : ∀ i ∈ r.entries.toList, i.Placed :=
  fun i hi => (genuine_of_mem_sweepAll h i hi).placed hclip

theorem sound_merge (hclip : image.Clipped) {r : Run}
    (hr : r ∈ p.sweepAll c config image m pending)
    (hq : q.coverage.Sound image m config.overlap) :
    (q.merge config image m r).coverage.Sound image m config.overlap :=
  Coverage.sound_merge hclip (genuine_of_mem_sweepAll hr) hq

theorem sound_afterMerges (hclip : image.Clipped)
    (h : p.coverage.Sound image m config.overlap) (k : Nat) :
    (p.afterMerges c config image m pending k).coverage.Sound image m config.overlap :=
  afterMerges_preserves (I := fun q => q.coverage.Sound image m config.overlap) h
    (fun _ _ hr hq => sound_merge hclip hr hq) k

theorem sound_round (hclip : image.Clipped) (h : p.coverage.Sound image m config.overlap) :
    (p.round c config image m pending).coverage.Sound image m config.overlap := by
  rw [round_eq_afterMerges]
  exact sound_afterMerges hclip h _

/-- **The coverage is sound between all rounds.** -/
theorem sound_of_reached (hclip : image.Clipped) (h : Reached c config image m p pending) :
    p.coverage.Sound image m config.overlap := by
  induction h with
  | start => exact Coverage.sound_empty
  | round hp hne ih => exact sound_round hclip ih

/-- **And it is sound after every step of every merge.** -/
theorem sound_afterSteps (hclip : image.Clipped) (h : Reached c config image m p pending)
    (k n : Nat) :
    (p.afterSteps c config image m pending k n).Sound image m config.overlap := by
  refine Coverage.sound_merge hclip (fun i hi => ?_)
    (sound_afterMerges hclip (sound_of_reached hclip h) k)
  have hi := List.mem_of_mem_take hi
  rcases hr : (p.sweepAll c config image m pending)[k]? with _ | r
  · rw [hr] at hi
    exact absurd hi List.not_mem_nil
  · rw [hr] at hi
    exact genuine_of_mem_sweepAll (List.mem_of_getElem? hr) i hi

/-- What survives the merge of a run into a sound coverage survives a round. -/
theorem round_preserves_of_sound {I : Progress → Prop} (hclip : image.Clipped)
    (h : p.coverage.Sound image m config.overlap) (hbegun : I (p.begun c config image m pending))
    (hmerge : ∀ q, ∀ r ∈ p.sweepAll c config image m pending,
      q.coverage.Sound image m config.overlap → I q → I (q.merge config image m r)) :
    I (p.round c config image m pending) := by
  have hboth := round_preserves (c := c) (m := m) (p := p)
    (I := fun q => q.coverage.Sound image m config.overlap ∧ I q) ⟨h, hbegun⟩ ?_
  · exact hboth.2
  · intro q r hr hq
    exact ⟨sound_merge hclip hr hq.1, hmerge q r hr hq.1 hq.2⟩

end Progress

/-! ## Order and backing -/

/-- An entry in backed code that shows the bytes of the image. -/
structure Instruction.Backed (image : Image) (i : Instruction) : Prop where
  pos : 1 ≤ i.length
  /-- It does not wrap. -/
  fits : i.address.toNat + i.length < 2 ^ 64
  /-- It lies in the bytes of one executable section, and shows them. -/
  inside : ∃ s ∈ image.sections, s.executable = true ∧ s.start.toNat ≤ i.address.toNat
    ∧ i.address.toNat + i.length ≤ s.start.toNat + s.bytes.size
    ∧ ∀ k, k < i.length → i.bytes[k]? = s.bytes[i.address.toNat - s.start.toNat + k]?
  /-- It is what reading from the image gives. -/
  shown : image.read i.address i.length = some i.bytes

/-- Entries in order that lie apart in backed code. -/
structure WellPlaced (image : Image) (stream : Array Instruction) : Prop where
  ascending : stream.toList.Pairwise fun i j => i.address < j.address
  apart : ∀ k i j, stream[k]? = some i → stream[k + 1]? = some j →
    i.address.toNat + i.length ≤ j.address.toNat
  backed : ∀ i ∈ stream, i.Backed image

/-- A first part of a genuine entry is backed. -/
theorem Instruction.backed_of_front {image : Image} {m : Machine} {i whole : Instruction}
    (hwhole : whole.Genuine image m) (hplaced : i.Placed) (haddr : i.address = whole.address)
    (hbytes : i.bytes = whole.bytes.take i.length) : i.Backed image := by
  obtain ⟨s, hs, hexec⟩ := Image.inCode_iff.mp hwhole.inCode
  have hcontains := Image.contains_of_sectionFor hs
  have hstart := Section.start_le_of_contains hcontains
  have hle : i.length ≤ whole.length := by
    have hlen := congrArg List.length hbytes
    rw [List.length_take] at hlen
    simp only [length] at hlen ⊢
    omega
  have hreach := hwhole.reach_le hs
  have hfront : i.bytes = (image.bytesFrom i.address).take i.length := by
    rw [hbytes, hwhole.takesFrom.bytes, List.take_take, Nat.min_eq_left hle, haddr]
  simp only [reach] at hreach
  refine ⟨hplaced.pos, hplaced.fits, ⟨s, Image.mem_of_sectionFor hs, hexec, ?_, ?_, ?_⟩, ?_⟩
  · rw [haddr]
    exact hstart
  · rw [haddr]
    omega
  · intro k hk
    rw [hfront, List.getElem?_take_of_lt hk, haddr, Image.bytesFrom_of_sectionFor hs,
      Section.offset_of_contains hcontains, List.getElem?_drop, Array.getElem?_toList]
  · exact Image.read_eq_some_iff.mpr ⟨hfront, rfl⟩

theorem Coverage.Sound.wellPlaced {image : Image} {m : Machine} {overlap : Overlap} {c : Coverage}
    (hclip : image.Clipped) (h : c.Sound image m overlap) : WellPlaced image c.entries where
  ascending := h.tidy.ascending
  apart := by
    intro k i j hi hj
    obtain ⟨hk, rfl⟩ := Array.getElem?_eq_some_iff.mp hi
    obtain ⟨hk', rfl⟩ := Array.getElem?_eq_some_iff.mp hj
    exact List.pairwise_iff_getElem.mp h.tidy.apart k (k + 1) (by simpa using hk)
      (by simpa using hk') (Nat.lt_succ_self k)
  backed := by
    intro i hi
    have hplaced := h.tidy.placed i hi
    rcases h.honest i hi with hgenuine | ⟨-, whole, n, hgenuine, hstart, hlo, hhi, rfl⟩
    · exact Instruction.backed_of_front hgenuine hplaced rfl (List.take_length).symm
    · -- a marker shows the first bytes of the entry that it stands for
      have hbytes := Instruction.marker_bytes (hgenuine.placed hclip) hlo hhi
      exact Instruction.backed_of_front hgenuine hplaced rfl (eq_take_length hbytes)

/-! ## Neighbours -/

/-- What starts where an entry ends comes next. -/
theorem Coverage.Tidy.next_of_reach_eq {c : Coverage} (h : c.Tidy) {k : Nat} {i j : Instruction}
    (hi : c.entries[k]? = some i) (hj : j ∈ c.entries) (hreach : i.reach = j.address.toNat) :
    c.entries[k + 1]? = some j := by
  have hapart := List.pairwise_iff_getElem.mp h.apart
  obtain ⟨hk, rfl⟩ := Array.getElem?_eq_some_iff.mp hi
  obtain ⟨l, hl, rfl⟩ := Array.mem_iff_getElem.mp hj
  have hpos := (h.placed _ (Array.getElem_mem hk)).address_lt
  have hpos' := (h.placed _ (Array.getElem_mem hl)).address_lt
  rcases Nat.lt_trichotomy l k with hlt | rfl | hgt
  · have hback := hapart l k (by simpa using hl) (by simpa using hk) hlt
    simp only [Array.getElem_toList] at hback
    omega
  · omega
  · rcases Nat.lt_or_eq_of_le (Nat.succ_le_of_lt hgt) with hbetween | rfl
    · -- an entry between the two would have no bytes
      have hmid : k + 1 < c.entries.size := by omega
      have hleft := hapart k (k + 1) (by simpa using hk) (by simpa using hmid) (by omega)
      have hright := hapart (k + 1) l (by simpa using hmid) (by simpa using hl) hbetween
      have hpos'' := (h.placed _ (Array.getElem_mem hmid)).address_lt
      simp only [Array.getElem_toList] at hleft hright
      omega
    · exact Array.getElem?_eq_getElem hl

/-! ## What an analysis gives -/

/-- A result that passes a test is a result. -/
theorem exists_ok_of_any {ε α : Type} {x : Except ε α} {p : α → Bool}
    (h : x.toOption.any p = true) : ∃ a, x = .ok a ∧ p a = true := by
  rcases x with e | a
  · exact absurd h (by simp [Except.toOption])
  · exact ⟨a, rfl, h⟩

namespace Analysis

/--
**Whatever collides, the stream is in order and shows the image.**

In every image that is built, after every step of every merge of every round, and in the stream that
an analysis gives in the end, the entries ascend, none reaches into the next, and each lies in the
backed bytes of one executable section.
-/
theorem wellPlaced_stream (c : Conditions) (config : Config) (machine : Option Machine)
    (order : ByteOrder) (entry : UInt64) (sections : List Section) (symbols : List Symbol) :
    (∀ m p pending,
      Progress.Reached c config (Image.build machine order entry sections symbols) m p pending →
      ∀ k n, WellPlaced (Image.build machine order entry sections symbols)
        (p.afterSteps c config (Image.build machine order entry sections symbols) m
          pending k n).entries)
      ∧ ∀ an, run c config (Image.build machine order entry sections symbols) = .ok an →
        WellPlaced (Image.build machine order entry sections symbols) an.stream := by
  have hclip := Image.clipped_build machine order entry sections symbols
  refine ⟨fun m p pending hp k n => (Progress.sound_afterSteps hclip hp k n).wellPlaced hclip, ?_⟩
  intro an h
  obtain ⟨m, p, -, hp, rfl⟩ := reached_of_run h
  exact (Progress.sound_of_reached hclip hp).wellPlaced hclip

/-- Six bytes of code that hold `mov eax, 0xc3`, from whose second byte on they hold `ret`. -/
def overlapCode : List Section :=
  [{ name := Text.ofString ".text", start := 0x1000, size := 6
     permissions := { read := true, execute := true }
     bytes := #[0xb8, 0xc3, 0x00, 0x00, 0x00, 0xc3] }]

/-- A function that starts before the entry point and runs into it. -/
def overlapSymbols : List Symbol :=
  [{ address := 0x1000, name := Text.ofString "outer", kind := .function }]

/-- The image whose entry point is in the middle of the first instruction of a function. -/
def overlapImage : Image :=
  Image.build (some .x86_64) .little 0x1001 overlapCode overlapSymbols

/-- The order holds where the run of a function meets the entry point. -/
theorem wellPlaced_stream_overlap :
    WellPlaced overlapImage
        (Progress.afterSteps {} {} overlapImage .x86_64 {} overlapImage.initialSeeds 1 1).entries
      ∧ ∃ an, run {} {} overlapImage = .ok an ∧ an.stream.size = 2
        ∧ WellPlaced overlapImage an.stream := by
  obtain ⟨hsteps, hresult⟩ :=
    wellPlaced_stream {} {} (some .x86_64) .little 0x1001 overlapCode overlapSymbols
  obtain ⟨an, han, hsize⟩ : ∃ an, run {} {} overlapImage = .ok an ∧ (an.stream.size == 2) = true :=
    exists_ok_of_any (by decide +kernel)
  exact ⟨hsteps .x86_64 {} _ Progress.Reached.start 1 1, an, han, eq_of_beq hsize,
    hresult an han⟩

/--
**Every entry is what its bytes decode to, or makes room for the next one.**

An entry of the stream of an image that is built is the instruction or invalid entry that the
image's bytes at its address decode to. Only if markers are wanted can it be another invalid entry:
one that ends where the next entry starts, at an address where decoding gives an entry that reaches
beyond that start.
-/
theorem decoded_or_marker {c : Conditions} {config : Config} {machine : Option Machine}
    {order : ByteOrder} {entry : UInt64} {sections : List Section} {symbols : List Symbol}
    {an : Analysis}
    (h : run c config (Image.build machine order entry sections symbols) = .ok an) :
    ∃ m, machine = some m ∧ ∀ k i, an.stream[k]? = some i →
      let decoded := decode m order
        ((Image.build machine order entry sections symbols).bytesFrom i.address) i.address
      (i = decoded
        ∨ config.overlap = .keepConfirmed ∧ i.isInvalid = true
          ∧ ∃ next, an.stream[k + 1]? = some next ∧ i.stop = next.address
            ∧ i.address < next.address
            ∧ i.address.toNat + i.length = next.address.toNat
            ∧ next.address.toNat < i.address.toNat + decoded.length)
      ∧ (config.overlap = .discardRun → i = decoded) := by
  have hclip := Image.clipped_build machine order entry sections symbols
  obtain ⟨m, p, hm, hp, rfl⟩ := reached_of_run h
  refine ⟨m, hm, fun k i hi => ?_⟩
  have hsound := Progress.sound_of_reached hclip hp
  have hmem : i ∈ p.coverage.entries := Array.mem_of_getElem? hi
  have hdecode : (Image.build machine order entry sections symbols).decodeAt m i.address
      = decode m order ((Image.build machine order entry sections symbols).bytesFrom i.address)
        i.address := Image.decodeAt_eq_decode _ m i.address
  rcases hsound.honest i hmem with hgenuine | ⟨ho, whole, n, hgenuine, ⟨j, hj, rfl⟩, hlo, hhi, rfl⟩
  · have heq := hgenuine.decoded.trans hdecode
    exact ⟨Or.inl heq, fun _ => heq⟩
  · have hreach := Instruction.marker_reach (hgenuine.placed hclip) hlo hhi
    have hwhole := hgenuine.decoded.trans hdecode
    refine ⟨Or.inr ⟨ho, rfl, j, ?_, ?_, hlo, hreach, ?_⟩, fun hd => ?_⟩
    · -- whatever was merged later, nothing fits between the marker and its start
      exact hsound.tidy.next_of_reach_eq hi hj hreach
    · apply UInt64.toNat_inj.mp
      rw [(hsound.tidy.placed _ hmem).stop_toNat, hreach]
    · rw [← congrArg Instruction.length hwhole]
      exact hhi
    · exact absurd (ho.symm.trans hd) (by decide)

/-- The first byte of the function makes room for the entry point. -/
theorem decoded_or_marker_overlap :
    ∃ an i, run {} {} overlapImage = .ok an ∧ an.stream[0]? = some i
      ∧ i ≠ decode .x86_64 .little (overlapImage.bytesFrom i.address) i.address
      ∧ i.isInvalid = true ∧ ∃ next, an.stream[1]? = some next ∧ i.stop = next.address := by
  obtain ⟨an, han, hfirst⟩ : ∃ an, run {} {} overlapImage = .ok an
      ∧ (an.stream[0]? == some (.invalid [0xb8] 0x1000 1)) = true :=
    exists_ok_of_any (by decide +kernel)
  have hne : Instruction.invalid [0xb8] 0x1000 1
      ≠ decode .x86_64 .little (overlapImage.bytesFrom 0x1000) 0x1000 := by decide +kernel
  have hi := eq_of_beq hfirst
  obtain ⟨m, hm, hall⟩ := decoded_or_marker han
  obtain rfl := Option.some.inj hm
  obtain ⟨heq | ⟨-, hinvalid, next, hnext, hstop, -, -, -⟩, -⟩ := hall 0 _ hi
  · exact absurd heq hne
  · exact ⟨an, _, han, hi, hne, hinvalid, next, hnext, hstop⟩

end Analysis

end Disassembler
