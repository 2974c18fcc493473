import Disassembler.Proofs.Debug.Span

/-!
# The first to claim an address keeps it

Records are settled one after another, each beside the ranges that those before it have kept. Those
ranges are always in order, and an address is in one of them exactly if a record that was
registered before holds it. So a piece that is kept holds only addresses for which its record is the
first, and a linear scan of the records, in the order in which they were registered, finds at every
address the record that the sorted table finds.
-/

namespace Disassembler.Debug

/-- The addresses of a record. -/
def Record.span (r : Record) : Span := { start := r.start, stop := r.stop }

/-- What a record says of its addresses, which all its pieces say as well. -/
def Record.content (r : Record) : Text × UInt32 × Text × Text :=
  (r.file, r.line, r.symbol, r.function)

/-- The part of a record on a range. -/
def Record.on (r : Record) (s : Span) : Record := { r with start := s.start, stop := s.stop }

@[simp] theorem Record.span_on (r : Record) (s : Span) : (r.on s).span = s := rfl

@[simp] theorem Record.content_on (r : Record) (s : Span) : (r.on s).content = r.content := rfl

/-- The first record that holds an address. -/
def firstHolding (a : UInt64) (rs : List Record) : Option Record :=
  rs.find? fun r => r.start ≤ a ∧ a < r.stop

theorem firstHolding_cons (a : UInt64) (r : Record) (rs : List Record) :
    (r.span.Holds a → firstHolding a (r :: rs) = some r)
      ∧ (¬ r.span.Holds a → firstHolding a (r :: rs) = firstHolding a rs) := by
  rw [Span.holds_iff]
  refine ⟨fun h => ?_, fun h => ?_⟩
  · exact List.find?_cons_of_pos (decide_eq_true h)
  · exact List.find?_cons_of_neg (mt of_decide_eq_true h)

/-! ## Settling records -/

/-- What is left of a record beside the ranges that are taken. -/
def Record.pieces (r : Record) (before : List Span) : List Record :=
  (r.span.uncovered before).map r.on

/-- Records without an address keep nothing, and others what is left of them. -/
theorem keepRecords_cons (before : List Span) (r : Record) (rs : List Record) :
    (keepRecords before (r :: rs)).1 = if r.stop.toNat ≤ r.start.toNat then
        (keepRecords before rs).1
      else r.pieces before ++ (keepRecords (taken (r.span.uncovered before) before) rs).1 := by
  simp only [keepRecords, UInt64.le_iff_toNat_le]
  split <;> rfl

variable {before : List Span} {rs : List Record}

theorem ordered_taken_uncovered (h : Span.Ordered before) (s : Span) :
    Span.Ordered (taken (s.uncovered before) before) :=
  ordered_taken (Span.ordered_uncovered h) h fun _ hp _ hk => Span.apart_of_mem_uncovered h hp hk

/-- An address is taken afterwards if it was before, or is one of the record. -/
theorem not_taken_iff (h : Span.Ordered before) (s : Span) (a : UInt64) :
    (∀ k ∈ taken (s.uncovered before) before, ¬ k.Holds a)
      ↔ ¬ s.Holds a ∧ ∀ k ∈ before, ¬ k.Holds a := by
  have hpieces := Span.exists_mem_uncovered h (s := s) (a := a)
  constructor
  · intro hnone
    have hbefore : ∀ k ∈ before, ¬ k.Holds a := fun k hk => hnone k (mem_taken.mpr (Or.inr hk))
    refine ⟨fun hs => ?_, hbefore⟩
    obtain ⟨p, hp, hpa⟩ := hpieces.mpr ⟨hs, hbefore⟩
    exact hnone p (mem_taken.mpr (Or.inl hp)) hpa
  · rintro ⟨hs, hbefore⟩ k hk hka
    rcases mem_taken.mp hk with hk | hk
    · exact hs (hpieces.mp ⟨k, hk, hka⟩).1
    · exact hbefore k hk hka

/-- **What is kept has addresses, and none that was taken before or is kept twice.** -/
theorem apart_keepRecords (h : Span.Ordered before) :
    (∀ p ∈ (keepRecords before rs).1, p.span.start.toNat < p.span.stop.toNat)
      ∧ (∀ p ∈ (keepRecords before rs).1, ∀ k ∈ before, p.span.Apart k)
      ∧ (keepRecords before rs).1.Pairwise fun p q => p.span.Apart q.span := by
  induction rs generalizing before with
  | nil =>
    refine ⟨fun p hp => ?_, fun p hp => ?_, List.Pairwise.nil⟩
    · exact absurd hp List.not_mem_nil
    · exact absurd hp List.not_mem_nil
  | cons r rs ih =>
    rw [keepRecords_cons]
    split
    · exact ih h
    · obtain ⟨hpos, hbefore, hpairwise⟩ := ih (ordered_taken_uncovered h r.span)
      have hpieces := Span.ordered_uncovered h (s := r.span)
      refine ⟨fun p hp => ?_, fun p hp k hk => ?_, ?_⟩
      · rcases List.mem_append.mp hp with hp | hp
        · obtain ⟨s, hs, rfl⟩ := List.mem_map.mp hp
          exact hpieces.pos s hs
        · exact hpos p hp
      · rcases List.mem_append.mp hp with hp | hp
        · obtain ⟨s, hs, rfl⟩ := List.mem_map.mp hp
          exact Span.apart_of_mem_uncovered h hs hk
        · exact hbefore p hp k (mem_taken.mpr (Or.inr hk))
      · refine List.pairwise_append.mpr ⟨?_, hpairwise, fun p hp q hq => ?_⟩
        · rw [Record.pieces, List.pairwise_map]
          exact hpieces.before.imp fun hst => Or.inl hst
        · -- the pieces of the record are taken when the later ones are settled
          obtain ⟨s, hs, rfl⟩ := List.mem_map.mp hp
          exact (hbefore q hq s (mem_taken.mpr (Or.inl hs))).symm

/-- **What is kept at an address is a piece of the first record that holds it.** -/
theorem firstHolding_of_mem_keepRecords (h : Span.Ordered before) {p : Record} {a : UInt64}
    (hp : p ∈ (keepRecords before rs).1) (ha : p.span.Holds a) :
    ∃ r, firstHolding a rs = some r ∧ p = r.on p.span := by
  -- along the records; that what is taken is in order is all that is known of it
  induction rs generalizing before with
  | nil => exact absurd hp List.not_mem_nil
  | cons r rs ih =>
    rw [keepRecords_cons] at hp
    by_cases hempty : r.stop.toNat ≤ r.start.toNat
    · rw [if_pos hempty] at hp
      have hr : ¬ r.span.Holds a := by
        intro hra
        have hle : r.start.toNat ≤ a.toNat := hra.1
        have hlt : a.toNat < r.stop.toNat := hra.2
        omega
      rw [(firstHolding_cons a r rs).2 hr]
      exact ih h hp
    · rw [if_neg hempty] at hp
      rcases List.mem_append.mp hp with hp | hp
      · obtain ⟨s, hs, rfl⟩ := List.mem_map.mp hp
        have hr := ((Span.exists_mem_uncovered h).mp ⟨s, hs, ha⟩).1
        exact ⟨r, (firstHolding_cons a r rs).1 hr, rfl⟩
      · -- a later record keeps nothing that this one holds
        have hordered := ordered_taken_uncovered h r.span
        have hnot : ∀ k ∈ taken (r.span.uncovered before) before, ¬ k.Holds a := by
          intro k hk hka
          have hapart := (apart_keepRecords hordered).2.1 p hp k hk
          have hple := ha.1
          have hplt := ha.2
          have hkle := hka.1
          have hklt := hka.2
          rw [Span.Apart] at hapart
          omega
        rw [(firstHolding_cons a r rs).2 ((not_taken_iff h r.span a).mp hnot).1]
        exact ih hordered hp

/-- **At every address that a record holds and that was not taken before, something is kept.** -/
theorem exists_mem_keepRecords (h : Span.Ordered before) {r : Record} {a : UInt64}
    (hr : firstHolding a rs = some r) (ha : ∀ k ∈ before, ¬ k.Holds a) :
    ∃ p ∈ (keepRecords before rs).1, p.span.Holds a := by
  induction rs generalizing before with
  | nil => exact absurd hr (by simp [firstHolding])
  | cons q rs ih =>
    rw [keepRecords_cons]
    by_cases hq : q.span.Holds a
    · -- the address is one of the first record, and is in a piece that is left of it
      have hpos : ¬ q.stop.toNat ≤ q.start.toNat := by
        have hle : q.start.toNat ≤ a.toNat := hq.1
        have hlt : a.toNat < q.stop.toNat := hq.2
        omega
      rw [if_neg hpos]
      obtain ⟨s, hs, hsa⟩ := (Span.exists_mem_uncovered h).mpr ⟨hq, ha⟩
      exact ⟨q.on s, List.mem_append_left _ (List.mem_map_of_mem hs), hsa⟩
    · rw [(firstHolding_cons a q rs).2 hq] at hr
      split
      · exact ih h hr ha
      · obtain ⟨p, hp, hpa⟩ := ih (ordered_taken_uncovered h q.span) hr
          ((not_taken_iff h q.span a).mpr ⟨hq, ha⟩)
        exact ⟨p, List.mem_append_right _ hp, hpa⟩

/-! ## The sorted table -/

namespace Index

variable {rs : Records} {image : Option Image}

theorem mem_records_build {p : Record} :
    p ∈ (build rs image).records ↔ p ∈ (keepRecords [] rs.records.toList).1 := by
  simp only [build, List.mem_toArray, List.mem_mergeSort]

theorem ordered_records_build : Span.Ordered ((build rs image).records.toList.map Record.span) := by
  obtain ⟨hpos, -, hapart⟩ := @apart_keepRecords [] rs.records.toList Span.ordered_nil
  exact ordered_mergeSort hpos hapart

/-- The record that is found for an address is the one that holds it. -/
theorem recordAt_build_eq_some_iff {a : UInt64} {p : Record} :
    (build rs image).recordAt a = some p ↔ p ∈ (build rs image).records ∧ p.span.Holds a :=
  last?_filter_eq_some_iff ordered_records_build

/-- **The sorted table says of every address what the first record that holds it says.** -/
theorem map_content_recordAt_build (a : UInt64) :
    ((build rs image).recordAt a).map Record.content
      = (firstHolding a rs.records.toList).map Record.content := by
  rcases hfirst : firstHolding a rs.records.toList with _ | r
  · -- what is found would be a piece of a record that holds the address
    rcases hat : (build rs image).recordAt a with _ | p
    · rfl
    · obtain ⟨hp, ha⟩ := recordAt_build_eq_some_iff.mp hat
      obtain ⟨r, hr, -⟩ :=
        firstHolding_of_mem_keepRecords Span.ordered_nil (mem_records_build.mp hp) ha
      rw [hfirst] at hr
      exact absurd hr (by simp)
  · obtain ⟨p, hp, ha⟩ := exists_mem_keepRecords Span.ordered_nil hfirst (by simp)
    obtain ⟨r', hr', heq⟩ := firstHolding_of_mem_keepRecords Span.ordered_nil hp ha
    obtain rfl : r = r' := Option.some.inj (hfirst.symm.trans hr')
    rw [recordAt_build_eq_some_iff.mpr ⟨mem_records_build.mpr hp, ha⟩]
    show some p.content = some r.content
    rw [heq, Record.content_on]

/-- Where a record is found, the function only completes what the record says. -/
theorem lookup_of_recordAt {v : Index} {a : UInt64} {p : Record} (h : v.recordAt a = some p) :
    ∃ loc, v.lookup a = some loc ∧ loc.file = p.file ∧ loc.line = p.line
      ∧ loc.function = orElse p.function (((v.functionAt a).map (·.name)).getD [])
      ∧ loc.symbol = orElse p.symbol loc.function := by
  rw [lookup, h]
  exact ⟨_, rfl, rfl, rfl, rfl, rfl⟩

/--
**The first to be registered wins.**

Whatever records are registered, the records of the index are in order and share no address. The one
that is found for an address is the one that holds it, and it says what the first record says that
was registered and holds the address; there is one exactly if there is such a record. A lookup takes
the file and the line from there, and the function and the symbol as far as they are given.
-/
theorem first_registration_wins (rs : Records) (image : Option Image) (a : UInt64) :
    let v := build rs image
    (v.records.toList.Pairwise fun p q => p.start < q.start ∧ p.stop ≤ q.start)
      ∧ (∀ p ∈ v.records, p.start < p.stop)
      ∧ (∀ p, v.recordAt a = some p ↔ p ∈ v.records ∧ p.start ≤ a ∧ a < p.stop)
      ∧ (v.recordAt a).map Record.content
        = (firstHolding a rs.records.toList).map Record.content
      ∧ ((∃ p ∈ v.records, p.start ≤ a ∧ a < p.stop)
        ↔ ∃ r ∈ rs.records, r.start ≤ a ∧ a < r.stop)
      ∧ ∀ r, firstHolding a rs.records.toList = some r → ∃ loc, v.lookup a = some loc
        ∧ loc.file = r.file ∧ loc.line = r.line
        ∧ loc.function = orElse r.function (((v.functionAt a).map (·.name)).getD [])
        ∧ loc.symbol = orElse r.symbol loc.function := by
  intro v
  have hordered : Span.Ordered (v.records.toList.map Record.span) := ordered_records_build
  have hpos : ∀ p ∈ v.records, p.start < p.stop := fun p hp =>
    UInt64.lt_iff_toNat_lt.mpr
      (hordered.pos _ (List.mem_map_of_mem (Array.mem_toList_iff.mpr hp)))
  have hat : ∀ p, v.recordAt a = some p ↔ p ∈ v.records ∧ p.start ≤ a ∧ a < p.stop := by
    intro p
    rw [recordAt_build_eq_some_iff, Span.holds_iff]
    rfl
  have hcontent : (v.recordAt a).map Record.content
      = (firstHolding a rs.records.toList).map Record.content := map_content_recordAt_build a
  refine ⟨?_, hpos, hat, hcontent, ?_, fun r hr => ?_⟩
  · refine (List.pairwise_map.mp hordered.before).imp_of_mem fun {p q} hp _ hpq => ?_
    have hle : p.stop ≤ q.start := UInt64.le_iff_toNat_le.mpr hpq
    exact ⟨UInt64.lt_of_lt_of_le (hpos p (Array.mem_toList_iff.mp hp)) hle, hle⟩
  · -- something is found on both sides or on none
    have hsome := congrArg Option.isSome hcontent
    rw [Option.isSome_map, Option.isSome_map, Bool.eq_iff_iff, Option.isSome_iff_exists,
      firstHolding, List.find?_isSome] at hsome
    simpa only [hat, decide_eq_true_eq, Array.mem_toList_iff] using hsome
  · rw [hr] at hcontent
    obtain ⟨p, hp, heq⟩ := Option.map_eq_some_iff.mp hcontent
    simp only [Record.content, Prod.mk.injEq] at heq
    obtain ⟨hfile, hline, hsymbol, hfunction⟩ := heq
    rw [← hfile, ← hline, ← hsymbol, ← hfunction]
    exact lookup_of_recordAt hp

end Index

end Disassembler.Debug
