import Disassembler.Proofs.Disassembly
import Disassembler.Proofs.Termination
import Mathlib.Data.List.DropRight

/-!
# A sweep is a first part of linear disassembly

A sweep and linear disassembly take the same steps. In the section of its seed a sweep has the
entries with which the disassembly of the section's bytes begins, and all that is left to say is
where it stops. Two invariants of its loop say that. The counter of invalid entries is the length of
the invalid end of the run, so no stretch of them is longer than what is tolerated. And the flag of
a delay slot holds exactly behind an entry that ends the sweep, so nothing but the delay slot is
behind such an entry.
-/

namespace Disassembler

/-! ## In one section -/

namespace Image

variable {image : Image} {a b c : UInt64} {s : Section}

/-- What lies between two addresses of a section is in it. -/
theorem sectionFor_between (hahead : image.sections.toList.Pairwise Section.Ahead)
    (ha : image.sectionFor a = some s) (hc : image.sectionFor c = some s)
    (hab : a.toNat ≤ b.toNat) (hbc : b.toNat ≤ c.toNat) : image.sectionFor b = some s := by
  have hacontains := contains_of_sectionFor ha
  have hfits := Section.fits_of_contains hacontains
  have hle := Section.start_le_of_contains hacontains
  have hlt := Section.lt_of_contains (contains_of_sectionFor hc)
  refine (sectionFor_eq_some_iff_of_ahead hahead).mpr ⟨mem_of_sectionFor ha, ?_⟩
  exact hfits.contains_iff.mpr ⟨by omega, by omega⟩

/-- The bytes from an address of the section on are those from an earlier one on, without the first
of them. -/
theorem drop_bytesFrom (ha : image.sectionFor a = some s) (hb : image.sectionFor b = some s)
    {n : Nat} (hab : a.toNat + n = b.toNat) :
    (image.bytesFrom a).drop n = image.bytesFrom b := by
  have hle := Section.start_le_of_contains (contains_of_sectionFor ha)
  rw [bytesFrom_of_sectionFor ha, bytesFrom_of_sectionFor hb, List.drop_drop,
    Section.offset_of_contains (contains_of_sectionFor ha),
    Section.offset_of_contains (contains_of_sectionFor hb)]
  congr 1
  omega

end Image

/-- **Entries without a gap are a first part of linear disassembly** while they are in the section
in which they begin. -/
theorem Contiguous.prefix_disassemble {image : Image} {m : Machine} (hclip : image.Clipped)
    (hahead : image.sections.toList.Pairwise Section.Ahead) {a b : UInt64} {l : List Instruction}
    (h : Contiguous a l b) (hgenuine : ∀ i ∈ l, i.Genuine image m) :
    l.filter (fun i => image.sectionFor i.address = image.sectionFor a)
      <+: disassemble m image.order (image.bytesFrom a) a := by
  induction l generalizing a with
  | nil => exact List.nil_prefix
  | cons i rest ih =>
    obtain ⟨rfl, hrest⟩ := h
    have hi := hgenuine i List.mem_cons_self
    have hrestGenuine := fun j hj => hgenuine j (List.mem_cons_of_mem i hj)
    have hplaced := hi.placed hclip
    obtain ⟨s, hs, -⟩ := Image.inCode_iff.mp hi.inCode
    have hdecode : decode m image.order (image.bytesFrom i.address) i.address = i := by
      rw [← Image.decodeAt_eq_decode, ← hi.decoded]
    have hstop : i.address.toNat + i.length = i.stop.toNat := hplaced.stop_toNat.symm
    rw [disassemble_of_ne_nil hi.backed, hdecode, List.filter_cons_of_pos (by simp),
      List.prefix_cons_inj]
    show _ <+: disassemble m image.order _ i.stop
    by_cases hsame : image.sectionFor i.stop = some s
    · rw [Image.drop_bytesFrom hs hsame hstop, hs, ← hsame]
      exact ih hrest hrestGenuine
    · -- an entry further on in the section would have the end of this one in it
      rw [List.filter_eq_nil_iff.mpr]
      · exact List.nil_prefix
      · intro j hj heq
        rw [decide_eq_true_eq, hs] at heq
        have hle := hrest.le_address (fun k hk => (hrestGenuine k hk).placed hclip) j hj
        exact hsame (Image.sectionFor_between hahead hs heq (by omega) hle)

/-- Entries without a gap, cut in two. -/
theorem Contiguous.append {a c : UInt64} {front back : List Instruction}
    (h : Contiguous a (front ++ back) c) :
    ∃ b, Contiguous a front b ∧ Contiguous b back c := by
  induction front generalizing a with
  | nil => exact ⟨a, rfl, h⟩
  | cons i rest ih =>
    obtain ⟨b, hfront, hback⟩ := ih h.2
    exact ⟨b, ⟨h.1, hfront⟩, hback⟩

/-! ## Where a sweep stops -/

/-- Where confirmed entries are in order, the address of each is a start. -/
theorem Coverage.isStart_of_mem (c : Coverage)
    (h : c.entries.toList.Pairwise fun i j => i.address < j.address) {i : Instruction}
    (hi : i ∈ c.entries) : c.isStart i.address = true := by
  have hfound := (Search.next?_filter_eq_some_iff h (a := i.address)).mpr ⟨hi, rfl⟩
  obtain ⟨hnext, hat⟩ := Option.filter_eq_some_iff.mp hfound
  exact (Option.any_eq_true _ _).mpr ⟨i, hnext, hat⟩

theorem Machine.delaySlots_eq_one {m : Machine} (h : m.delaySlots ≠ 0) :
    m.delaySlots = 1 ∧ m = .mips := by
  cases m <;> simp_all [delaySlots]

namespace Sweep

/-- A sweep ends at returns, and at jumps if it does not go on behind jumps or if they lead into its
own run or to confirmed code. -/
theorem endsAt_iff {s : Sweep} {i : Instruction} : s.endsAt i = true ↔
    i.flow = .ret ∨ ∃ t, i.flow = .jump t ∧ (s.config.pastJumps = false
      ∨ (s.seed.address ≤ t ∧ t < i.stop) ∨ s.coverage.isStart t = true) := by
  unfold endsAt
  split
  · rename_i hflow
    simp [hflow]
  · rename_i t hflow
    simp [hflow, or_assoc]
  · rename_i hret hjump
    simp only [Bool.false_eq_true, false_iff, not_or, not_exists, not_and]
    exact ⟨hret, fun t ht => absurd ht (hjump t)⟩

/-- What ends a sweep is no invalid entry. -/
theorem isInvalid_of_endsAt {s : Sweep} {i : Instruction} (h : s.endsAt i = true) :
    i.isInvalid = false := by
  rw [Bool.eq_false_iff]
  intro hinvalid
  have hflow := (Instruction.silent_of_isInvalid hinvalid).2.2.1
  rcases endsAt_iff.mp h with hret | ⟨t, hjump, -⟩
  · rw [hflow] at hret
    exact absurd hret (by decide)
  · rw [hflow] at hjump
    exact absurd hjump (by simp)

/-- **What a sweep keeps to**, wherever it stops. -/
structure Obeys (s : Sweep) (entries : List Instruction) : Prop where
  /-- So many invalid entries in a row are tolerated. -/
  tolerated : ∀ block, block <:+: entries → (∀ i ∈ block, i.isInvalid = true) →
    block.length ≤ s.config.invalidLimit
  /-- Only delay slots are behind what ends the sweep. -/
  closing : ∀ (k : Nat) (i : Instruction), entries[k]? = some i → s.endsAt i = true →
    entries.length ≤ k + 1 + s.machine.delaySlots
  outside : ∀ i ∈ entries, s.coverage.inside i.address = false
  fresh : ∀ (k : Nat) (i : Instruction), 0 < k → entries[k]? = some i →
    s.coverage.isStart i.address = false

/-- **The state in which a sweep goes on.** -/
structure Going (s : Sweep) (entries : List Instruction) (invalid : Nat) (last : Bool) : Prop where
  obeys : s.Obeys entries
  /-- The counter is the length of the invalid end. -/
  count : (entries.rtakeWhile (·.isInvalid)).length = invalid
  /-- If something ends the sweep, it is the last entry, and a delay slot comes. -/
  closed : ∀ (k : Nat) (i : Instruction), entries[k]? = some i → s.endsAt i = true →
    entries.length = k + 1 ∧ last = true
  /-- And the other way round. -/
  closes : last = true → ∃ k i, entries[k]? = some i ∧ s.endsAt i = true ∧ entries.length = k + 1
  slots : last = true → s.machine.delaySlots ≠ 0

variable {s : Sweep} {entries : List Instruction} {i : Instruction} {invalid : Nat} {last : Bool}

/-- A stretch of invalid entries at the end is part of the invalid end. -/
theorem length_le_rtakeWhile {block : List Instruction} (hblock : block <:+ entries)
    (hall : ∀ i ∈ block, i.isInvalid = true) :
    block.length ≤ (entries.rtakeWhile (·.isInvalid)).length := by
  obtain ⟨front, rfl⟩ := hblock
  have hreverse : ∀ i ∈ block.reverse, i.isInvalid = true := fun i hi =>
    hall i (List.mem_reverse.mp hi)
  rw [List.rtakeWhile, List.reverse_append, List.takeWhile_append_of_pos hreverse,
    List.length_reverse, List.length_append, List.length_reverse]
  exact Nat.le_add_right _ _

/-- An entry behind others is one of these or the one behind them. -/
theorem getElem?_concat_eq_some {k : Nat} {j : Instruction} (h : (entries ++ [i])[k]? = some j) :
    entries[k]? = some j ∨ k = entries.length ∧ i = j := by
  rcases Nat.lt_trichotomy k entries.length with hlt | rfl | hgt
  · rw [List.getElem?_append_left hlt] at h
    exact Or.inl h
  · rw [List.getElem?_concat_length] at h
    exact Or.inr ⟨rfl, Option.some.inj h⟩
  · rw [List.getElem?_eq_none (by simp; omega)] at h
    exact absurd h (by simp)

/-- A first part of what keeps to it does so. -/
theorem Obeys.front (h : s.Obeys entries) {front : List Instruction} (hfront : front <+: entries) :
    s.Obeys front := by
  have hplace : ∀ (k : Nat) (i : Instruction), front[k]? = some i → entries[k]? = some i := by
    intro k i hi
    obtain ⟨rest, rfl⟩ := hfront
    rw [List.getElem?_append_left (List.getElem?_eq_some_iff.mp hi).1]
    exact hi
  refine ⟨fun block hblock => h.tolerated block (hblock.trans hfront.isInfix),
    fun k i hi hends => ?_, fun i hi => h.outside i (hfront.subset hi),
    fun k i hk hi => h.fresh k i hk (hplace k i hi)⟩
  exact Nat.le_trans hfront.length_le (h.closing k i (hplace k i hi) hends)

/-- The invalid end with one more entry. -/
theorem length_rtakeWhile_concat (h : (entries.rtakeWhile (·.isInvalid)).length = invalid) :
    ((entries ++ [i]).rtakeWhile (·.isInvalid)).length
      = if i.isInvalid then invalid + 1 else 0 := by
  rw [List.rtakeWhile_concat]
  split
  · rw [List.length_append, h]
    rfl
  · rfl

/-- **The step of a sweep**: one more entry where it may start. -/
theorem Going.obeys_concat (h : s.Going entries invalid last)
    (hadmits : s.admits entries.isEmpty i.address = true)
    (htolerated : (if i.isInvalid then invalid + 1 else 0) ≤ s.config.invalidLimit) :
    s.Obeys (entries ++ [i]) where
  tolerated := by
    intro block hblock hall
    rcases List.infix_concat_iff.mp hblock with hend | hbefore
    · have hle := length_le_rtakeWhile hend hall
      rw [length_rtakeWhile_concat h.count] at hle
      exact Nat.le_trans hle htolerated
    · exact h.obeys.tolerated block hbefore hall
  closing := by
    intro k j hj hends
    rw [List.length_append, List.length_singleton]
    rcases getElem?_concat_eq_some hj with hj | ⟨rfl, -⟩
    · obtain ⟨hk, hlast⟩ := h.closed k j hj hends
      have hslots := h.slots hlast
      omega
    · omega
  outside := by
    simp only [admits, Bool.and_eq_true, Bool.not_eq_true'] at hadmits
    intro j hj
    rcases List.mem_append.mp hj with hj | hj
    · exact h.obeys.outside j hj
    · rw [List.mem_singleton.mp hj]
      exact hadmits.2
  fresh := by
    simp only [admits, Bool.and_eq_true, Bool.or_eq_true, Bool.not_eq_true'] at hadmits
    intro k j hk hj
    rcases getElem?_concat_eq_some hj with hj | ⟨rfl, rfl⟩
    · exact h.obeys.fresh k j hk hj
    · -- there are entries before it, so it is not the seed
      have hne : entries.isEmpty = false := by
        rw [List.isEmpty_eq_false_iff]
        exact List.length_pos_iff.mp hk
      simpa [hne] using hadmits.1.2

theorem Going.concat (h : s.Going entries invalid last)
    (hadmits : s.admits entries.isEmpty i.address = true) {count : Nat} {ending : Bool}
    (hcount : (if i.isInvalid then invalid + 1 else 0) = count)
    (htolerated : count ≤ s.config.invalidLimit)
    (hending : (!i.isInvalid && s.endsAt i) = ending)
    (hnext : ¬ (last = true ∨ ending = true ∧ s.machine.delaySlots = 0)) :
    s.Going (entries ++ [i]) count ending where
  obeys := h.obeys_concat hadmits (hcount ▸ htolerated)
  count := by rw [length_rtakeWhile_concat h.count, hcount]
  closed := by
    intro k j hj hends
    rcases getElem?_concat_eq_some hj with hj | ⟨rfl, rfl⟩
    · exact absurd (Or.inl (h.closed k j hj hends).2) hnext
    · refine ⟨by simp, ?_⟩
      rw [← hending, hends, isInvalid_of_endsAt hends]
      rfl
  closes := by
    intro hlast
    rw [← hending, Bool.and_eq_true] at hlast
    exact ⟨entries.length, i, List.getElem?_concat_length, hlast.2, by simp⟩
  slots := fun hlast hslots => hnext (Or.inr ⟨hlast, hslots⟩)

theorem going_nil (s : Sweep) : s.Going [] 0 false where
  obeys := ⟨fun block hblock _ => by simp [List.infix_nil.mp hblock], by simp, by simp, by simp⟩
  count := rfl
  closed := by simp
  closes := by simp
  slots := by simp

/-! ## Whole runs -/

section Runs

variable {cancelled : Nat → Bool} {a : UInt64} {visited : List UInt64} {r : Run}
variable {entries : Array Instruction}

/-- An entry may start where a sweep does not stop. -/
theorem admits_of_not_stops (hclip : s.image.Clipped) (hgo : ¬ s.Stops cancelled entries a)
    (hi : s.image.decodeAt s.machine a = i) :
    s.admits entries.toList.isEmpty i.address = true := by
  obtain ⟨haddr, -⟩ := placed_decodeAt hclip hgo
  simp only [Stops, not_or, Decidable.not_not] at hgo
  rw [← hi, haddr, Array.isEmpty_toList]
  exact hgo.2.1

theorem Upto.of_not_stops (h : s.Upto entries a) (hgo : ¬ s.Stops cancelled entries a) :
    s.Upto (entries.push (s.image.decodeAt s.machine a)) (s.image.decodeAt s.machine a).stop := by
  simp only [Stops, not_or, Decidable.not_not] at hgo
  exact h.push hgo.2.1 hgo.2.2

/-- What is left of a run that fell into data are the entries before its invalid end, which with the
entry behind it has one more than what is tolerated. -/
theorem Going.of_data (h : s.Going entries.toList invalid last) {count : Nat}
    (hcount : (if i.isInvalid then invalid + 1 else 0) = count)
    (hdata : s.config.invalidLimit < count) :
    (entries.extract 0 (entries.size + 1 - count)).toList
        = entries.toList.rdropWhile (·.isInvalid)
      ∧ i.isInvalid = true
      ∧ (entries.toList.rtakeWhile (·.isInvalid)).length = s.config.invalidLimit := by
  have hsplit : entries.toList.rdropWhile (·.isInvalid) ++ entries.toList.rtakeWhile (·.isInvalid)
      = entries.toList := List.rdropWhile_append_rtakeWhile
  have hlength := congrArg List.length hsplit
  rw [List.length_append, h.count, entries.length_toList] at hlength
  have htolerated := h.obeys.tolerated _ (List.rtakeWhile_suffix _ _).isInfix
    fun j hj => List.mem_rtakeWhile_imp hj
  rw [h.count] at htolerated
  split at hcount
  · rename_i hinvalid
    refine ⟨?_, hinvalid, by rw [h.count]; omega⟩
    have hsize : entries.size + 1 - count
        = (entries.toList.rdropWhile (·.isInvalid)).length := by omega
    rw [Array.toList_extract, List.extract_eq_take_drop, List.drop_zero, Nat.sub_zero, hsize]
    exact (List.prefix_iff_eq_take.mp (List.rdropWhile_prefix _ _)).symm
  · omega

/-- **Every run keeps to it.** -/
theorem Ends.obeys (hclip : s.image.Clipped)
    (h : s.Ends cancelled entries a invalid last visited r)
    (hgoing : s.Going entries.toList invalid last) : s.Obeys r.entries.toList := by
  induction h with
  | stop hstop => exact hgoing.obeys
  | data hgo hcount hdata =>
    rw [(hgoing.of_data hcount hdata).1]
    exact hgoing.obeys.front (List.rdropWhile_prefix _ _)
  | last hgo hi hcount hcode hending hlast =>
    rw [Array.toList_push]
    exact hgoing.obeys_concat (admits_of_not_stops hclip hgo hi) (hcount ▸ Nat.le_of_not_lt hcode)
  | next hgo hi hcount hcode hending hnext _ ih =>
    refine ih ?_
    rw [Array.toList_push]
    exact hgoing.concat (admits_of_not_stops hclip hgo hi) hcount (Nat.le_of_not_lt hcode) hending
      hnext

/-- **A run that fell into data does not end in it.** -/
theorem Ends.isInvalid_last (hclip : s.image.Clipped)
    (h : s.Ends cancelled entries a invalid last visited r)
    (hgoing : s.Going entries.toList invalid last) (hisData : r.isData = true) :
    ∀ i, r.entries.toList.getLast? = some i → i.isInvalid = false := by
  induction h with
  | stop hstop => exact absurd hisData (by simp)
  | data hgo hcount hdata =>
    rw [(hgoing.of_data hcount hdata).1]
    intro i hi
    have hne := List.ne_nil_of_mem (List.mem_of_getLast? hi)
    rw [List.getLast?_eq_some_getLast hne] at hi
    obtain rfl := Option.some.inj hi
    exact Bool.eq_false_iff.mpr (List.rdropWhile_last_not _ _ hne)
  | last hgo hi hcount hcode hending hlast => exact absurd hisData (by simp)
  | next hgo hi hcount hcode hending hnext _ ih =>
    refine ih ?_ hisData
    rw [Array.toList_push]
    exact hgoing.concat (admits_of_not_stops hclip hgo hi) hcount (Nat.le_of_not_lt hcode) hending
      hnext

/-- **Why a sweep is over** at the address behind its last entry, unless it is cancelled. -/
inductive Over (s : Sweep) (r : Run) (b : UInt64) : Prop where
  /-- No entry may start there, or nothing backs one. -/
  | blocked : r.isData = false →
      (s.admits r.entries.isEmpty b = false ∨ s.image.bytesFrom b = []) → Over s r b
  /-- There is an entry that ends it, with its delay slots. -/
  | closed {k : Nat} {i : Instruction} : r.isData = false → r.entries[k]? = some i →
      s.endsAt i = true → r.entries.size = k + 1 + s.machine.delaySlots → Over s r b
  /-- There are more invalid entries than are tolerated. -/
  | data {block : List Instruction} {c : UInt64} : r.isData = true →
      block.length = s.config.invalidLimit + 1 → Contiguous b block c →
      (∀ i ∈ block, i.isInvalid = true ∧ i.Genuine s.image s.machine) → Over s r b

/-- **Every sweep goes on as far as it can.** -/
theorem Ends.over (hclip : s.image.Clipped) (hrun : ∀ n, cancelled n = false)
    (h : s.Ends cancelled entries a invalid last visited r)
    (hgoing : s.Going entries.toList invalid last) (hupto : s.Upto entries a) :
    ∃ b, Contiguous s.seed.address r.entries.toList b ∧ s.Over r b := by
  induction h with
  | @stop entries a invalid last hstop =>
    refine ⟨a, hupto.gapless, .blocked rfl ?_⟩
    rcases hstop with hcancel | hadmits | hwindow
    · exact absurd hcancel (by simp [hrun])
    · exact Or.inl (Bool.eq_false_iff.mpr hadmits)
    · rw [Image.window_eq_take, List.take_eq_nil_iff] at hwindow
      exact Or.inr (hwindow.resolve_left (by decide))
  | @data entries a invalid count last hgo hcount hdata =>
    obtain ⟨hextract, hinvalid, hlength⟩ := hgoing.of_data hcount hdata
    have hpush := hupto.of_not_stops hgo
    have hgapless := hpush.gapless
    rw [Array.toList_push, ← List.rdropWhile_append_rtakeWhile (p := (·.isInvalid))
      (l := entries.toList), List.append_assoc] at hgapless
    obtain ⟨b, hfront, hback⟩ := hgapless.append
    rw [← hextract] at hfront
    refine ⟨b, hfront, .data rfl ?_ hback fun i hi => ?_⟩
    · rw [List.length_append, hlength]
      rfl
    · rcases List.mem_append.mp hi with hi | hi
      · have hmem := Array.mem_toList_iff.mp ((List.rtakeWhile_suffix _ _).subset hi)
        exact ⟨List.mem_rtakeWhile_imp hi, hupto.genuine i hmem⟩
      · rw [List.mem_singleton.mp hi]
        exact ⟨hinvalid, hpush.genuine _ Array.mem_push_self⟩
  | @last entries a invalid count last ending i hgo hi hcount hcode hending hlast =>
    subst hi
    refine ⟨_, (hupto.of_not_stops hgo).gapless, ?_⟩
    rcases hlast with hlast | ⟨hlast, hslots⟩
    · -- what ends the sweep is the entry before
      obtain ⟨k, j, hj, hends, hsize⟩ := hgoing.closes hlast
      have hslots := (Machine.delaySlots_eq_one (hgoing.slots hlast)).1
      rw [entries.length_toList] at hsize
      rw [Array.getElem?_toList] at hj
      refine .closed (k := k) (i := j) rfl ?_ hends ?_
      · rw [Array.getElem?_push, if_neg (by omega)]
        exact hj
      · rw [Array.size_push, hslots, hsize]
    · rw [← hending, Bool.and_eq_true] at hlast
      refine .closed rfl Array.getElem?_push_size hlast.2 ?_
      rw [Array.size_push, hslots]
  | next hgo hi hcount hcode hending hnext _ ih =>
    subst hi
    refine ih ?_ (hupto.of_not_stops hgo)
    rw [Array.toList_push]
    exact hgoing.concat (admits_of_not_stops hclip hgo rfl) hcount (Nat.le_of_not_lt hcode) hending
      hnext

end Runs

/--
**A sweep is a first part of linear disassembly.**

Take any image that is built, any machine, configuration, coverage and seed, and any cancellation.
The entries of the run that are in the section of the seed are those with which the disassembly of
the section's bytes from the seed on begins. The first entry is at the seed and each other one where
the one before it ends, all of them in executable sections. No more invalid entries follow each
other than are tolerated, and a run that was given up as data does not end with one. Behind a
return, and behind a jump at which sweeps stop, there is nothing but, on MIPS, the delay slot. Only
the first entry may be where a confirmed entry starts, if these are in order; and no entry starts
strictly inside a confirmed one, if these share no byte, as those of an analysis never do. And a
sweep that is not cancelled goes on until one of these reasons stops it.
-/
theorem run_linear (machine : Option Machine) (order : ByteOrder) (entry : UInt64)
    (sections : List Section) (symbols : List Symbol) (m : Machine) (config : Config)
    (coverage : Coverage) (seed : Seed) (cancelled : Nat → Bool) :
    let image := Image.build machine order entry sections symbols
    let s : Sweep := { config, image, machine := m, coverage, seed }
    let r := s.run cancelled
    r.entries.toList.filter
        (fun i => image.sectionFor i.address = image.sectionFor seed.address)
        <+: disassemble m order (image.bytesFrom seed.address) seed.address
      ∧ (∃ b, Contiguous seed.address r.entries.toList b
        ∧ ((∀ n, cancelled n = false) → s.Over r b))
      ∧ (∀ i ∈ r.entries, image.inCode i.address = true)
      ∧ (∀ block, block <:+: r.entries.toList → (∀ i ∈ block, i.isInvalid = true) →
        block.length ≤ config.invalidLimit)
      ∧ (r.isData = true → ∀ i, r.entries.back? = some i → i.isInvalid = false)
      ∧ (∀ (k : Nat) (i : Instruction), r.entries[k]? = some i →
        (i.flow = .ret ∨ ∃ t, i.flow = .jump t ∧ (config.pastJumps = false
          ∨ (seed.address ≤ t ∧ t < i.stop) ∨ coverage.isStart t = true)) →
        r.entries.size = k + 1 ∨ m = .mips ∧ r.entries.size = k + 2)
      ∧ (coverage.Tidy → ∀ i ∈ r.entries, ∀ j ∈ coverage.entries,
        ¬ (j.address < i.address ∧ i.address.toNat < j.reach))
      ∧ (coverage.entries.toList.Pairwise (fun i j => i.address < j.address) →
        ∀ (k : Nat) (i : Instruction), 0 < k → r.entries[k]? = some i →
          ∀ j ∈ coverage.entries, j.address ≠ i.address) := by
  intro image s r
  have hclip : image.Clipped := Image.clipped_build machine order entry sections symbols
  have hahead : image.sections.toList.Pairwise Section.Ahead := Image.pairwise_ahead
  obtain ⟨visited, hends⟩ := s.exists_ends hclip cancelled #[] seed.address 0 false
  have hobeys : s.Obeys r.entries.toList := hends.obeys hclip s.going_nil
  obtain ⟨b, hupto⟩ := s.upto_run cancelled
  have hgenuine : ∀ i ∈ r.entries.toList, i.Genuine image m := fun i hi =>
    hupto.genuine i (Array.mem_toList_iff.mp hi)
  refine ⟨hupto.gapless.prefix_disassemble hclip hahead hgenuine, ?_,
    fun i hi => (hupto.genuine i hi).inCode, hobeys.tolerated, fun hisData i hi => ?_,
    fun k i hi hflow => ?_, fun hc i hi j hj hin => ?_, fun hascending k i hk hi j hj heq => ?_⟩
  · by_cases hrun : ∀ n, cancelled n = false
    · obtain ⟨b, hgapless, hover⟩ := hends.over hclip hrun s.going_nil ⟨by simp, rfl⟩
      exact ⟨b, hgapless, fun _ => hover⟩
    · exact ⟨b, hupto.gapless, fun h => absurd h hrun⟩
  · refine hends.isInvalid_last hclip s.going_nil hisData i ?_
    rw [Array.getLast?_toList]
    exact hi
  · have hends : s.endsAt i = true := endsAt_iff.mpr hflow
    have hle := hobeys.closing k i (by rw [Array.getElem?_toList]; exact hi) hends
    have hlt := (Array.getElem?_eq_some_iff.mp hi).1
    rw [r.entries.length_toList] at hle
    rcases Nat.eq_or_lt_of_le (Nat.succ_le_of_lt hlt) with heq | hbehind
    · exact Or.inl heq.symm
    · -- there is a delay slot
      obtain ⟨hone, hmips⟩ : s.machine.delaySlots = 1 ∧ m = .mips :=
        Machine.delaySlots_eq_one (by omega)
      exact Or.inr ⟨hmips, by omega⟩
  · have hinside := (Coverage.inside_iff hc).mpr ⟨j, hj, hin⟩
    have houtside := hobeys.outside i (Array.mem_toList_iff.mpr hi)
    exact absurd hinside (Bool.eq_false_iff.mp houtside)
  · have hstart := coverage.isStart_of_mem hascending hj
    have hfresh := hobeys.fresh k i hk (by rw [Array.getElem?_toList]; exact hi)
    rw [heq] at hstart
    exact absurd hstart (Bool.eq_false_iff.mp hfresh)

/-- A return with an undefined word in its delay slot, and another return behind that. -/
def slotCode : List Section :=
  [{ name := ".text", start := 0x1000, size := 12
     permissions := { read := true, execute := true }
     bytes := #[0x03, 0xe0, 0x00, 0x08, 0xff, 0xff, 0xff, 0xff, 0x03, 0xe0, 0x00, 0x08] }]

/-- The second return is confirmed when the first one is swept. -/
def slotSweep : Sweep :=
  let image := Image.build (some .mips) .big 0x1000 slotCode []
  { config := {}, image, machine := .mips
    coverage := { entries := #[image.decodeAt .mips 0x1008] }
    seed := { address := 0x1000, origin := .entry } }

/-- The undefined word is the one entry behind the return. -/
theorem run_linear_slot :
    let r := slotSweep.run fun _ => false
    slotSweep.coverage.Tidy ∧ r.entries.size = 2
      ∧ (∃ i, r.entries[0]? = some i ∧ i.flow = .ret ∧ r.entries.size ≠ 0 + 1)
      ∧ (∃ b, Contiguous 0x1000 r.entries.toList b ∧ slotSweep.Over r b)
      ∧ ∀ i ∈ r.entries, ∀ j ∈ slotSweep.coverage.entries,
        ¬ (j.address < i.address ∧ i.address.toNat < j.reach) := by
  intro r
  have htidy : slotSweep.coverage.Tidy := by
    refine ⟨fun i hi => ?_, List.pairwise_singleton _ _⟩
    rw [List.mem_singleton.mp (Array.mem_toList_iff.mpr hi)]
    exact ⟨by decide +kernel, by decide +kernel, by decide +kernel⟩
  have hsize : r.entries.size = 2 := by decide +kernel
  obtain ⟨-, ⟨b, hgapless, hover⟩, -, -, -, -, hconfirmed, -⟩ :=
    run_linear (some .mips) .big 0x1000 slotCode [] .mips {} slotSweep.coverage slotSweep.seed
      fun _ => false
  have hfirst : (r.entries[0]?.any fun i => i.flow = .ret) = true := by decide +kernel
  obtain ⟨i, hi, hflow⟩ := (Option.any_eq_true _ _).mp hfirst
  exact ⟨htidy, hsize, ⟨i, hi, of_decide_eq_true hflow, by rw [hsize]; decide⟩,
    ⟨b, hgapless, hover fun _ => rfl⟩, hconfirmed htidy⟩

end Sweep

end Disassembler
