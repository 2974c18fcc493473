import Disassembler.Proofs.Cancellation

/-!
# Priority

What is confirmed first wins. The seeds of a round are in order of priority, and the runs are merged
in the order of their seeds: a run gives the coverage its longest first part that shares no byte
with what was confirmed before, and a marker at most. Nothing is ever taken away again, neither by
the rest of the run nor by any later one, so all that was confirmed at any time is in the stream.
The run from the entry point is merged into nothing and stays whole.
-/

namespace Disassembler

/-! ## One run -/

namespace Coverage

variable {c : Coverage} {i : Instruction} {n : UInt64} {overlap : Overlap}
variable {entries : List Instruction}

theorem clear_insert {j : Instruction} :
    (c.insert i).Clear j ↔ c.Clear j ∧ (i.reach ≤ j.address.toNat ∨ j.reach ≤ i.address.toNat) := by
  simp only [Clear, mem_insert, forall_eq_or_imp]
  exact and_comm

/-- An entry that starts in a confirmed one shares a byte with it. -/
theorem not_clear_of_covers (hc : c.Tidy) (hi : i.Placed) (h : c.covers i.address = true) :
    ¬ c.Clear i := by
  intro hclear
  obtain ⟨j, hj, hle, hlt⟩ := (covers_iff hc).mp h
  have hle := UInt64.le_iff_toNat_le.mp hle
  have hpos := hi.address_lt
  have hapart := hclear j hj
  omega

theorem Straddles.not_clear (hc : c.Tidy) (h : c.Straddles i n) : ¬ c.Clear i := by
  intro hclear
  obtain ⟨j, hj, rfl⟩ := h.start
  have hlt := UInt64.lt_iff_toNat_lt.mp h.address_lt
  have hreach := h.lt_reach
  have hpos := (hc.placed j hj).address_lt
  have hapart := hclear j hj
  omega

theorem Straddles.of_insert {j : Instruction} (hj : j.Placed) (hji : j.reach ≤ i.address.toNat)
    (h : (c.insert j).Straddles i n) : c.Straddles i n := by
  refine ⟨?_, h.address_lt, h.lt_reach, (clear_insert.mp h.clear).1⟩
  obtain ⟨k, hk, hn⟩ := h.start
  rcases mem_insert.mp hk with rfl | hk
  · -- the new entry lies before the other, which cannot reach into it
    have hlt := UInt64.lt_iff_toNat_lt.mp h.address_lt
    have hpos := hj.address_lt
    rw [← hn] at hlt
    omega
  · exact ⟨k, hk, hn⟩

/-- **What a run contributes**: the longest first part of it that shares no byte with what was
confirmed before it, and at most one marker behind that part. -/
structure Contributes (overlap : Overlap) (before after : Coverage)
    (entries kept : List Instruction) (mark : Option Instruction) : Prop where
  front : kept <+: entries
  clear : ∀ i ∈ kept, before.Clear i
  longest : ∀ i rest, entries = kept ++ i :: rest → ¬ before.Clear i
  mem_iff : ∀ i, i ∈ after.entries ↔ i ∈ before.entries ∨ i ∈ kept ∨ mark = some i
  /-- The marker stands for the entry that collided. -/
  marker : ∀ i, mark = some i → overlap = .keepConfirmed ∧ ∃ whole rest n,
    entries = kept ++ whole :: rest ∧ before.Straddles whole n ∧ i = whole.marker n

/-- Of a run in the clear, everything is kept. -/
theorem Contributes.kept_eq_of_clear {before after : Coverage} {kept : List Instruction}
    {mark : Option Instruction} (h : Contributes overlap before after entries kept mark)
    (hclear : ∀ i ∈ entries, before.Clear i) : kept = entries := by
  obtain ⟨back, hback⟩ := h.front
  cases back with
  | nil => exact (List.append_nil kept).symm.trans hback
  | cons i rest =>
    have hi : i ∈ entries := hback ▸ List.mem_append_right kept List.mem_cons_self
    exact absurd (hclear i hi) (h.longest i rest hback.symm)

/-- A run whose first entry is not clear is not kept at all. -/
theorem contributes_nil {after : Coverage} {mark : Option Instruction} (hnot : ¬ c.Clear i)
    (hmem : ∀ j, j ∈ after.entries ↔ j ∈ c.entries ∨ mark = some j)
    (hmark : ∀ j, mark = some j → overlap = .keepConfirmed
      ∧ ∃ n, c.Straddles i n ∧ j = i.marker n) :
    Contributes overlap c after (i :: entries) [] mark where
  front := List.nil_prefix
  clear := by simp
  longest := by
    intro j rest heq
    obtain rfl := (List.cons.inj heq).1
    exact hnot
  mem_iff := by simpa using hmem
  marker := by
    intro j hj
    obtain ⟨hoverlap, n, hn, hj⟩ := hmark j hj
    exact ⟨hoverlap, i, entries, n, rfl, hn, hj⟩

/-- **The step of a merge**: an entry in the clear is one more that is kept. -/
theorem Contributes.cons {after : Coverage} {kept : List Instruction} {mark : Option Instruction}
    (hi : i.Placed) (hclear : c.Clear i) (hbehind : ∀ j ∈ entries, i.reach ≤ j.address.toNat)
    (h : Contributes overlap (c.insert i) after entries kept mark) :
    Contributes overlap c after (i :: entries) (i :: kept) mark where
  front := (List.prefix_cons_inj i).mpr h.front
  clear := by
    intro j hj
    rcases List.mem_cons.mp hj with rfl | hj
    · exact hclear
    · exact (clear_insert.mp (h.clear j hj)).1
  longest := by
    intro j rest heq hj
    have heq := (List.cons.inj heq).2
    have hmem : j ∈ entries := heq ▸ List.mem_append_right kept List.mem_cons_self
    exact h.longest j rest heq (clear_insert.mpr ⟨hj, Or.inl (hbehind j hmem)⟩)
  mem_iff := by
    intro j
    rw [h.mem_iff, mem_insert, List.mem_cons]
    tauto
  marker := by
    intro j hj
    obtain ⟨hoverlap, whole, rest, n, heq, hstraddles, hmarker⟩ := h.marker j hj
    have hmem : whole ∈ entries := heq ▸ List.mem_append_right kept List.mem_cons_self
    exact ⟨hoverlap, whole, rest, n, congrArg (i :: ·) heq,
      hstraddles.of_insert hi (hbehind whole hmem), hmarker⟩

/-- **What is kept of a run is its longest first part in the clear**, for entries that share no byte
among themselves. -/
theorem exists_contributes_merge (hplaced : ∀ i ∈ entries, i.Placed)
    (hapart : entries.Pairwise fun i j => i.reach ≤ j.address.toNat) (hc : c.Tidy) :
    ∃ mark, Contributes overlap c (c.merge overlap entries).coverage entries
      (c.merge overlap entries).kept mark := by
  induction entries generalizing c with
  | nil =>
    exact ⟨none, List.prefix_rfl, by simp [merge], by simp [merge], by simp [merge], by simp⟩
  | cons i rest ih =>
    have hi := hplaced i List.mem_cons_self
    rcases merge_cons hc hi overlap rest with ⟨hcovers, heq⟩ | ⟨n, hn, heq⟩ | ⟨hclear, heq⟩
    · rw [heq]
      exact ⟨none, contributes_nil (not_clear_of_covers hc hi hcovers) (by simp) (by simp)⟩
    · rw [heq]
      cases overlap with
      | keepConfirmed =>
        refine ⟨some (i.marker n), contributes_nil (hn.not_clear hc) (fun j => ?_) fun j hj => ?_⟩
        · rw [mem_insert, Option.some.injEq, or_comm, eq_comm]
        · exact ⟨rfl, n, hn, (Option.some.inj hj).symm⟩
      | discardRun => exact ⟨none, contributes_nil (hn.not_clear hc) (by simp) (by simp)⟩
    · -- the rest is merged into one entry more, which lies in front of all of it
      rw [heq]
      obtain ⟨hbehind, hrest⟩ := List.pairwise_cons.mp hapart
      obtain ⟨mark, h⟩ := ih (fun j hj => hplaced j (List.mem_cons_of_mem i hj)) hrest
        (tidy_insert hc hi hclear)
      exact ⟨mark, h.cons hi hclear hbehind⟩

/-- What is confirmed by a first part of a run is confirmed by the run. -/
theorem mem_merge_of_mem_take (hplaced : ∀ i ∈ entries, i.Placed) (hc : c.Tidy) {k : Nat}
    (h : i ∈ (c.merge overlap (entries.take k)).coverage.entries) :
    i ∈ (c.merge overlap entries).coverage.entries := by
  have happend := merge_append overlap c (entries.take k) (entries.drop k)
  rw [List.take_append_drop] at happend
  rw [happend]
  dsimp only
  split
  · -- after a collision the rest makes no difference
    exact h
  · have htake : (c.merge overlap (entries.take k)).coverage.Tidy :=
      tidy_merge (fun j hj => hplaced j (List.mem_of_mem_take hj)) hc
    exact mem_merge_of_mem_or_kept (fun j hj => hplaced j (List.mem_of_mem_drop hj)) htake
      (Or.inl h)

theorem drop_eq_cons {k : Nat} (hi : c.entries[k]? = some i) :
    c.entries.toList.drop k = i :: c.entries.toList.drop (k + 1) := by
  obtain ⟨hk, rfl⟩ := Array.getElem?_eq_some_iff.mp hi
  exact List.drop_eq_getElem_cons (by simpa using hk)

/-- Where the first of some entries without a gap is confirmed, the others follow. -/
theorem Tidy.prefix_drop (hc : c.Tidy) {a b : UInt64} (h : Contiguous a (i :: entries) b)
    (hmem : ∀ j ∈ entries, j ∈ c.entries) {k : Nat} (hi : c.entries[k]? = some i) :
    (i :: entries) <+: c.entries.toList.drop k := by
  induction entries generalizing a i k with
  | nil =>
    rw [drop_eq_cons hi]
    exact (List.prefix_cons_inj i).mpr List.nil_prefix
  | cons j rest ih =>
    -- the next entry starts where this one ends, so it is also the next one there
    have hplaced := hc.placed i (Array.mem_of_getElem? hi)
    have hreach : i.reach = j.address.toNat := by rw [← hplaced.stop_toNat, h.2.1]
    have hnext := hc.next_of_reach_eq hi (hmem j List.mem_cons_self) hreach
    rw [drop_eq_cons hi]
    exact (List.prefix_cons_inj i).mpr
      (ih h.2 (fun l hl => hmem l (List.mem_cons_of_mem j hl)) hnext)

/-- Entries without a gap that are all confirmed are one piece of the coverage. -/
theorem Tidy.infix_of_contiguous (hc : c.Tidy) {a b : UInt64} (h : Contiguous a entries b)
    (hmem : ∀ i ∈ entries, i ∈ c.entries) : entries <:+: c.entries.toList := by
  cases entries with
  | nil => exact List.nil_infix
  | cons i rest =>
    obtain ⟨k, hk, hi⟩ := Array.mem_iff_getElem.mp (hmem i List.mem_cons_self)
    have hprefix := hc.prefix_drop h (fun j hj => hmem j (List.mem_cons_of_mem i hj))
      (Array.getElem?_eq_some_iff.mpr ⟨hk, hi⟩)
    exact hprefix.isInfix.trans (List.drop_suffix k _).isInfix

end Coverage

/-! ## Rounds -/

namespace Progress

variable {c : Conditions} {config : Config} {image : Image} {m : Machine}
variable {p q : Progress} {pending : List Seed} {i : Instruction}

/-- **What is confirmed in a round stays to its end.** -/
theorem mem_round_of_mem_afterMerges (hclip : image.Clipped)
    (hp : p.coverage.Sound image m config.overlap) {k : Nat}
    (h : i ∈ (p.afterMerges c config image m pending k).coverage.entries) :
    i ∈ (p.round c config image m pending).coverage.entries := by
  rw [round_eq_foldl_drop k]
  -- an entry stays in a coverage that is in order, so the invariant is carried along
  refine (List.foldlRecOn (motive := fun q : Progress =>
    q.coverage.Sound image m config.overlap ∧ i ∈ q.coverage.entries) _ _
    ⟨sound_afterMerges hclip hp k, h⟩ fun q hq r hr => ?_).2
  have hr := List.mem_of_mem_drop hr
  exact ⟨sound_merge hclip hr hq.1, Coverage.mem_merge_of_mem_or_kept
    (placed_of_mem_sweepAll hclip hr) hq.1.tidy (Or.inl hq.2)⟩

/-- And so does what is confirmed in the middle of a run. -/
theorem mem_round_of_mem_afterSteps (hclip : image.Clipped)
    (hp : p.coverage.Sound image m config.overlap) {k n : Nat}
    (h : i ∈ (p.afterSteps c config image m pending k n).entries) :
    i ∈ (p.round c config image m pending).coverage.entries := by
  rcases hr : (p.sweepAll c config image m pending)[k]? with _ | r
  · -- all runs are merged
    simp only [afterSteps, hr, Option.map_none, Option.getD_none, List.take_nil] at h
    exact mem_round_of_mem_afterMerges hclip hp h
  · refine mem_round_of_mem_afterMerges hclip hp (k := k + 1) ?_
    rw [afterMerges_succ hr]
    simp only [afterSteps, hr, Option.map_some, Option.getD_some] at h
    exact Coverage.mem_merge_of_mem_take
      (placed_of_mem_sweepAll hclip (List.mem_of_getElem? hr))
      (sound_afterMerges hclip hp k).tidy h

/-- **What is confirmed before a round stays to the end of the loop.** -/
theorem Ends.mem_of_mem (hclip : image.Clipped) {r : Option Progress}
    (h : Ends c config image m p pending r) (hp : p.coverage.Sound image m config.overlap)
    (hi : i ∈ p.coverage.entries) : ∀ q, r = some q → i ∈ q.coverage.entries := by
  induction h with
  | done =>
    intro q hq
    obtain rfl := Option.some.inj hq
    exact hi
  | cancelled => exact fun q hq => absurd hq (by simp)
  | round _ _ _ ih =>
    exact ih (sound_round hclip hp) (mem_round_of_mem_afterMerges (k := 0) hclip hp hi)

/-- **All that is ever confirmed is there in the end.** -/
theorem Ends.mem_of_mem_afterSteps (hclip : image.Clipped)
    (h : Ends c config image m p pending (some q)) (hp : p.coverage.Sound image m config.overlap)
    {k n : Nat} (hi : i ∈ (p.afterSteps c config image m pending k n).entries) :
    i ∈ q.coverage.entries := by
  have hround := mem_round_of_mem_afterSteps hclip hp hi
  cases pending with
  | nil =>
    -- a round of nothing merges nothing
    have hsame : (p.round c config image m []).coverage = p.coverage := by
      rw [Progress.round, sweepAll_eq_mapIdx]
      rfl
    exact h.mem_of_mem hclip hp (hsame ▸ hround) q rfl
  | cons s rest =>
    have hnext := (h.of_ne_nil (List.cons_ne_nil s rest)).2
    exact hnext.mem_of_mem hclip (sound_round hclip hp) hround q rfl

/-! ## The order of a round -/

theorem map_seed_sweepAll : (p.sweepAll c config image m pending).map (·.seed) = pending := by
  rw [sweepAll_eq_mapIdx]
  apply List.ext_getElem
  · simp
  · intro k h1 h2
    simp only [List.getElem_map, List.getElem_mapIdx, Sweep.run, Sweep.seed_sweepFrom]

/-- **The merges of a round in order of priority**: by origin, within one origin by address, and
each with what it contributes. -/
structure InPriority (c : Conditions) (config : Config) (image : Image) (m : Machine)
    (p : Progress) (pending : List Seed) : Prop where
  ordered : pending.Pairwise fun s t =>
    s.origin.rank < t.origin.rank ∨ s.origin = t.origin ∧ s.address ≤ t.address
  /-- The runs that are merged one after another are those of the seeds. -/
  swept : (p.sweepAll c config image m pending).map (·.seed) = pending
  contributes : ∀ k r, (p.sweepAll c config image m pending)[k]? = some r →
    ∃ kept mark, Coverage.Contributes config.overlap
      (p.afterMerges c config image m pending k).coverage
      (p.afterMerges c config image m pending (k + 1)).coverage r.entries.toList kept mark

theorem exists_contributes (hclip : image.Clipped) (hp : p.coverage.Sound image m config.overlap)
    {k : Nat} {r : Run} (hr : (p.sweepAll c config image m pending)[k]? = some r) :
    ∃ kept mark, Coverage.Contributes config.overlap
      (p.afterMerges c config image m pending k).coverage
      (p.afterMerges c config image m pending (k + 1)).coverage r.entries.toList kept mark := by
  have hmem := List.mem_of_getElem? hr
  have hplaced := placed_of_mem_sweepAll hclip hmem
  obtain ⟨-, s, -, b, hcontiguous⟩ := of_mem_sweepAll hmem
  rw [afterMerges_succ hr]
  exact ⟨_, Coverage.exists_contributes_merge hplaced (hcontiguous.apart hplaced)
    (sound_afterMerges hclip hp k).tidy⟩

/-- **All rounds are merged in order of priority.** -/
theorem inPriority_of_reached {machine : Option Machine} {order : ByteOrder} {entry : UInt64}
    {sections : List Section} {symbols : List Symbol}
    (hp : Reached c config (Image.build machine order entry sections symbols) m p pending) :
    p.InPriority c config (Image.build machine order entry sections symbols) m pending where
  ordered := by
    cases hp with
    | start => exact Image.pairwise_precedes_initialSeeds.imp Seed.precedes_iff.mp
    | round => exact (Seed.pairwise_precedes_arrange _).imp Seed.precedes_iff.mp
  swept := map_seed_sweepAll
  contributes := by
    have hclip := Image.clipped_build machine order entry sections symbols
    exact fun k r hr => exists_contributes hclip (sound_of_reached hclip hp) hr

end Progress

/-! ## The run from the entry point -/

namespace Image

/-- What is swept from the entry point when nothing is confirmed. -/
def entrySweep (image : Image) (config : Config) (m : Machine) : Sweep :=
  { config, image, machine := m, coverage := {}
    seed := { address := image.entry, origin := .entry } }

theorem initialSeeds_of_inCode {image : Image} (h : image.inCode image.entry = true) :
    ∃ rest, image.initialSeeds = { address := image.entry, origin := .entry } :: rest := by
  have hnamed : ∃ rest, image.namedSeeds = { address := image.entry, origin := .entry } :: rest :=
    ⟨_, by rw [namedSeeds, if_pos h, List.singleton_append]⟩
  obtain ⟨rest, hrest⟩ := hnamed
  exact ⟨rest, by rw [initialSeeds, hrest]; rfl⟩

end Image

namespace Progress

variable {c : Conditions} {config : Config} {image : Image} {m : Machine} {q : Progress}

/-- **The run from the entry point is confirmed as a whole.** -/
theorem mem_round_of_mem_entrySweep (hclip : image.Clipped)
    (hentry : image.inCode image.entry = true) {i : Instruction}
    (h : i ∈ ((image.entrySweep config m).run fun e => c.cancelled (.sweep 0 0 e)).entries) :
    i ∈ (({} : Progress).round c config image m image.initialSeeds).coverage.entries := by
  obtain ⟨rest, hrest⟩ := image.initialSeeds_of_inCode hentry
  have hr : (({} : Progress).sweepAll c config image m image.initialSeeds)[0]?
      = some ((image.entrySweep config m).run fun e => c.cancelled (.sweep 0 0 e)) := by
    rw [sweepAll_eq_mapIdx, hrest, List.mapIdx_cons]
    rfl
  obtain ⟨kept, mark, hcontributes⟩ := exists_contributes hclip Coverage.sound_empty hr
  -- nothing is confirmed yet, so nothing collides
  have hkept := hcontributes.kept_eq_of_clear fun _ _ j hj => absurd hj (Array.not_mem_empty _)
  refine mem_round_of_mem_afterMerges (k := 1) hclip Coverage.sound_empty ?_
  refine (hcontributes.mem_iff i).mpr (Or.inr (Or.inl ?_))
  rw [hkept]
  exact Array.mem_toList_iff.mpr h

end Progress

/-! ## What an analysis gives -/

namespace Analysis

variable {c : Conditions} {config : Config} {machine : Option Machine} {order : ByteOrder}
variable {entry : UInt64} {sections : List Section} {symbols : List Symbol} {an : Analysis}

/--
**What is confirmed is never displaced.**

In an analysis of an image that is built, and that gives a result, every entry that any step of any
merge puts into the coverage is in the final stream. The runs of every round are merged by origin,
within one origin by address, and each contributes its longest first part that shares no byte with
what was confirmed before it, with one marker at most. If the entry point lies in code, the run from
it is one piece of the final stream, and with a flag that stays set it is the complete run.
-/
theorem confirmed_stays
    (h : run c config (Image.build machine order entry sections symbols) = .ok an) :
    let image := Image.build machine order entry sections symbols
    image.machine = some an.machine
      ∧ (∀ p pending, Progress.Reached c config image an.machine p pending →
        p.InPriority c config image an.machine pending
          ∧ ∀ k n, ∀ i ∈ (p.afterSteps c config image an.machine pending k n).entries,
            i ∈ an.stream)
      ∧ (image.inCode image.entry = true →
        let entryRun := (image.entrySweep config an.machine).run fun e => c.cancelled (.sweep 0 0 e)
        entryRun.entries.toList <:+: an.stream.toList
          ∧ (c.Persistent →
            entryRun = (image.entrySweep config an.machine).run fun _ => false)) := by
  intro image
  have hclip : image.Clipped := Image.clipped_build machine order entry sections symbols
  obtain ⟨m, q, hm, hends, rfl⟩ := ends_of_run h
  have hsound := Progress.sound_of_reached hclip (hends.reached Progress.Reached.start q rfl)
  -- with an entry point in code there is a first round
  have hne : image.inCode image.entry = true → image.initialSeeds ≠ [] := by
    intro hentry hnil
    obtain ⟨rest, hrest⟩ := image.initialSeeds_of_inCode hentry
    exact absurd (hrest.symm.trans hnil) (List.cons_ne_nil _ _)
  refine ⟨hm, fun p pending hp => ⟨Progress.inPriority_of_reached hp, fun k n i hi => ?_⟩,
    fun hentry => ⟨?_, fun hc => ?_⟩⟩
  · exact (hends.of_reached hp).mem_of_mem_afterSteps hclip (Progress.sound_of_reached hclip hp) hi
  · -- its entries are all confirmed in the first round, and no other entry fits between them
    obtain ⟨b, hb⟩ := (image.entrySweep config m).upto_run fun e => c.cancelled (.sweep 0 0 e)
    refine hsound.tidy.infix_of_contiguous hb.gapless fun i hi => ?_
    have hround := Progress.mem_round_of_mem_entrySweep hclip hentry (Array.mem_toList_iff.mp hi)
    exact (hends.of_ne_nil (hne hentry)).2.mem_of_mem hclip
      (Progress.sound_round hclip Coverage.sound_empty) hround q rfl
  · -- a flag that cut the run short would have cancelled the first round
    have hend : c.cancelled (.roundEnd 0) = false :=
      Bool.eq_false_iff.mpr fun hset => (hends.of_ne_nil (hne hentry)).1 (Or.inr hset)
    simp only [hc.sweep_eq_false hend]

/-- The function that starts before the entry point gives way to it, and both the run from there
and the marker stay. -/
theorem confirmed_stays_overlap : ∃ an, run {} {} overlapImage = .ok an ∧ an.stream.size = 2
    ∧ (∀ i ∈ (Progress.afterSteps {} {} overlapImage .x86_64 {}
      overlapImage.initialSeeds 1 1).entries, i ∈ an.stream)
    ∧ overlapImage.inCode overlapImage.entry = true
    ∧ ((overlapImage.entrySweep {} .x86_64).run fun _ => false).entries.size = 1
    ∧ ((overlapImage.entrySweep {} .x86_64).run fun _ => false).entries.toList
      <:+: an.stream.toList := by
  obtain ⟨an, han, hsize⟩ : ∃ an, run {} {} overlapImage = .ok an ∧ (an.stream.size == 2) = true :=
    exists_ok_of_any (by decide +kernel)
  obtain ⟨hm, hsteps, hentry⟩ := confirmed_stays han
  have hcode : overlapImage.inCode overlapImage.entry = true := by decide +kernel
  have hmachine : Machine.x86_64 = an.machine := Option.some.inj hm
  rw [hmachine]
  refine ⟨an, han, eq_of_beq hsize, (hsteps _ _ Progress.Reached.start).2 1 1, hcode, ?_,
    (hentry hcode).1⟩
  rw [← hmachine]
  decide +kernel

end Analysis

end Disassembler
