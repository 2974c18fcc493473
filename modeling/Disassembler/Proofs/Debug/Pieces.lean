import Disassembler.Proofs.Debug.Records

/-!
# Pieces

What a range may keep beside the ranges that are kept already are its *pieces*: the longest
stretches of it without an address that is taken. A record keeps all of them, a function only the
first. Apart from that the two are settled alike, so this module speaks of lists of ranges and of a
function `keep` that chooses among the pieces. The ranges that are kept after some have been
registered are then one list, in which what the next one keeps can be looked up.
-/

namespace Disassembler.Debug

namespace Span

/-- The two ranges have an address in common. -/
def Meets (s t : Span) : Prop := ∃ a, s.Holds a ∧ t.Holds a

/-- A longest stretch of a range in which no address is taken. -/
structure IsPiece (taken : Span → Prop) (s p : Span) : Prop where
  pos : p.start.toNat < p.stop.toNat
  start_le : s.start.toNat ≤ p.start.toNat
  stop_le : p.stop.toNat ≤ s.stop.toNat
  free : ∀ k, taken k → ¬ p.Meets k
  /-- It begins where the range does, or behind one that is taken. -/
  begins : p.start = s.start ∨ ∃ k, taken k ∧ k.stop = p.start
  /-- It ends where the range does, or in front of one that is taken. -/
  ends : p.stop = s.stop ∨ ∃ k, taken k ∧ k.start = p.stop

/-- The piece before all others. -/
structure IsFirstPiece (taken : Span → Prop) (s p : Span) : Prop where
  isPiece : IsPiece taken s p
  first : ∀ q, IsPiece taken s q → p.start.toNat ≤ q.start.toNat

variable {taken : Span → Prop} {s p q k : Span} {ks : List Span}

/-- Ranges that are not empty have an address in common if each starts before the other ends. -/
theorem meets_iff (hs : s.start.toNat < s.stop.toNat) (hp : p.start.toNat < p.stop.toNat) :
    s.Meets p ↔ s.start.toNat < p.stop.toNat ∧ p.start.toNat < s.stop.toNat := by
  constructor
  · rintro ⟨a, ha, hpa⟩
    simp only [Holds] at ha hpa
    omega
  · -- the later of the two starts is in both
    rintro ⟨hsp, hps⟩
    rcases Nat.le_total s.start.toNat p.start.toNat with hle | hle
    · exact ⟨p.start, ⟨hle, hps⟩, Nat.le_refl _, hp⟩
    · exact ⟨s.start, ⟨Nat.le_refl _, hs⟩, hle, hsp⟩

theorem meets_eq_true_iff (hs : s.start.toNat < s.stop.toNat)
    (hp : p.start.toNat < p.stop.toNat) : s.meets p = true ↔ s.Meets p := by
  rw [meets_iff hs hp, meets, Bool.and_eq_true, decide_eq_true_eq, decide_eq_true_eq,
    UInt64.lt_iff_toNat_lt, UInt64.lt_iff_toNat_lt]

theorem Meets.pos (h : s.Meets p) : p.start.toNat < p.stop.toNat := by
  obtain ⟨a, -, ha⟩ := h
  exact Nat.lt_of_le_of_lt ha.1 ha.2

theorem Apart.not_meets (h : s.Apart p) : ¬ s.Meets p := by
  rintro ⟨a, hs, hp⟩
  simp only [Apart, Holds] at h hs hp
  omega

theorem Ordered.sublist (h : Ordered ks) {ls : List Span} (hsublist : ls.Sublist ks) :
    Ordered ls :=
  ⟨fun k hk => h.pos k (hsublist.subset hk), h.before.sublist hsublist⟩

/-! ## The pieces of a range -/

/-- A range without an address has no piece. -/
theorem IsPiece.range_pos (h : IsPiece taken s p) : s.start.toNat < s.stop.toNat :=
  Nat.lt_of_le_of_lt h.start_le (Nat.lt_of_lt_of_le h.pos h.stop_le)

/-- No piece begins or ends in the middle of another one. -/
theorem IsPiece.edges_le (hpos : ∀ k, taken k → k.start.toNat < k.stop.toNat)
    (hp : IsPiece taken s p) (hq : IsPiece taken s q) (h : p.Meets q) :
    q.start.toNat ≤ p.start.toNat ∧ p.stop.toNat ≤ q.stop.toNat := by
  -- the taken range at the edge of the second piece would have an address of the first
  have hfree : ∀ k, taken k → ¬ (p.start.toNat < k.stop.toNat ∧ k.start.toNat < p.stop.toNat) :=
    fun k hk => mt (meets_iff hp.pos (hpos k hk)).mpr (hp.free k hk)
  have hpq := (meets_iff hp.pos hq.pos).mp h
  have hstart := hp.start_le
  have hstop := hp.stop_le
  constructor
  · rcases hq.begins with heq | ⟨k, hk, heq⟩
    · rw [heq]
      exact hstart
    · have hfree := hfree k hk
      have hkpos := hpos k hk
      rw [heq] at hfree hkpos
      omega
  · rcases hq.ends with heq | ⟨k, hk, heq⟩
    · rw [heq]
      exact hstop
    · have hfree := hfree k hk
      have hkpos := hpos k hk
      rw [heq] at hfree hkpos
      omega

/-- **Pieces that have an address in common are the same.** -/
theorem IsPiece.eq_of_meets (hpos : ∀ k, taken k → k.start.toNat < k.stop.toNat)
    (hp : IsPiece taken s p) (hq : IsPiece taken s q) (h : p.Meets q) : p = q := by
  obtain ⟨a, hpa, hqa⟩ := h
  have hpq := hp.edges_le hpos hq ⟨a, hpa, hqa⟩
  have hqp := hq.edges_le hpos hp ⟨a, hqa, hpa⟩
  obtain ⟨pstart, pstop⟩ := p
  obtain ⟨qstart, qstop⟩ := q
  rw [Span.mk.injEq]
  exact ⟨UInt64.toNat_inj.mp (Nat.le_antisymm hqp.1 hpq.1),
    UInt64.toNat_inj.mp (Nat.le_antisymm hpq.2 hqp.2)⟩

theorem edges_of_mem_uncovered (hp : p ∈ s.uncovered ks) :
    (p.start = s.start ∨ ∃ k, k ∈ ks ∧ k.stop = p.start)
      ∧ (p.stop = s.stop ∨ ∃ k, k ∈ ks ∧ k.start = p.stop) := by
  induction ks generalizing s with
  | nil =>
    obtain ⟨rfl, -⟩ := mem_nonempty.mp hp
    exact ⟨Or.inl rfl, Or.inl rfl⟩
  | cons k ks ih =>
    have hlift : ∀ {P : Span → Prop}, (∃ l, l ∈ ks ∧ P l) → ∃ l, l ∈ k :: ks ∧ P l :=
      fun ⟨l, hl, hP⟩ => ⟨l, List.mem_cons_of_mem k hl, hP⟩
    rw [uncovered_cons] at hp
    split at hp
    · obtain ⟨hbegins, hends⟩ := ih hp
      exact ⟨hbegins.imp_right hlift, hends.imp_right hlift⟩
    split at hp
    · obtain ⟨rfl, -⟩ := mem_nonempty.mp hp
      exact ⟨Or.inl rfl, Or.inl rfl⟩
    · -- the taken range is at an edge of what is on both sides of it
      rcases List.mem_append.mp hp with hp | hp
      · obtain ⟨rfl, -⟩ := mem_nonempty.mp hp
        exact ⟨Or.inl rfl, Or.inr ⟨k, List.mem_cons_self, rfl⟩⟩
      · obtain ⟨hbegins, hends⟩ := ih hp
        refine ⟨Or.inr ?_, hends.imp_right hlift⟩
        rcases hbegins with heq | hbegins
        · exact ⟨k, List.mem_cons_self, heq.symm⟩
        · exact hlift hbegins

/-- **The pieces of a range are what is left uncovered of it.** -/
theorem mem_uncovered_iff (h : Ordered ks) : p ∈ s.uncovered ks ↔ IsPiece (· ∈ ks) s p := by
  have hpiece : ∀ {q}, q ∈ s.uncovered ks → IsPiece (· ∈ ks) s q := by
    intro q hq
    obtain ⟨hstart, hpos, hstop⟩ := bounds_of_mem_uncovered h hq
    obtain ⟨hbegins, hends⟩ := edges_of_mem_uncovered hq
    exact ⟨hpos, hstart, hstop, fun k hk => (apart_of_mem_uncovered h hq hk).not_meets,
      hbegins, hends⟩
  refine ⟨hpiece, fun hp => ?_⟩
  -- the start of the piece is in something that is left uncovered, which is a piece as well
  have hstart : p.Holds p.start := ⟨Nat.le_refl _, hp.pos⟩
  have hrange : s.Holds p.start := ⟨hp.start_le, Nat.lt_of_lt_of_le hp.pos hp.stop_le⟩
  obtain ⟨q, hq, hqstart⟩ := (exists_mem_uncovered h).mpr
    ⟨hrange, fun k hk hkstart => hp.free k hk ⟨p.start, hstart, hkstart⟩⟩
  rwa [hp.eq_of_meets h.pos (hpiece hq) ⟨p.start, hstart, hqstart⟩]

/-- The first piece is the first of what is left uncovered. -/
theorem head?_uncovered_eq_some_iff (h : Ordered ks) :
    (s.uncovered ks).head? = some p ↔ IsFirstPiece (· ∈ ks) s p := by
  have hordered := ordered_uncovered h (s := s)
  constructor
  · intro hhead
    obtain ⟨rest, hrest⟩ := List.head?_eq_some_iff.mp hhead
    refine ⟨(mem_uncovered_iff h).mp (List.mem_of_head? hhead), fun q hq => ?_⟩
    have hq := (mem_uncovered_iff h).mpr hq
    rw [hrest] at hordered hq
    obtain ⟨hpos, hbefore, -⟩ := ordered_cons.mp hordered
    rcases List.mem_cons.mp hq with rfl | hq
    · exact Nat.le_refl _
    · have hle := hbefore q hq
      omega
  · rintro ⟨hp, hfirst⟩
    have hmem := (mem_uncovered_iff h).mpr hp
    rcases hpieces : s.uncovered ks with _ | ⟨q, rest⟩
    · exact absurd (hpieces ▸ hmem) List.not_mem_nil
    · have hq := hfirst q ((mem_uncovered_iff h).mp (by rw [hpieces]; exact List.mem_cons_self))
      rw [hpieces] at hordered hmem
      obtain ⟨hpos, hbefore, -⟩ := ordered_cons.mp hordered
      rcases List.mem_cons.mp hmem with rfl | hmem
      · rfl
      · have hle := hbefore p hmem
        omega

/-- Every address of a range in front of its first piece is taken. -/
theorem IsFirstPiece.taken_of_lt (h : Ordered ks) (hp : IsFirstPiece (· ∈ ks) s p) {a : UInt64}
    (hle : s.start.toNat ≤ a.toNat) (hlt : a.toNat < p.start.toNat) : ∃ k ∈ ks, k.Holds a := by
  refine Classical.byContradiction fun hnone => ?_
  have hs : s.Holds a := by
    have hpos := hp.isPiece.pos
    have hstop := hp.isPiece.stop_le
    exact ⟨hle, by omega⟩
  obtain ⟨q, hq, hqa⟩ := (exists_mem_uncovered h).mpr
    ⟨hs, fun k hk hka => hnone ⟨k, hk, hka⟩⟩
  have hfirst := hp.first q ((mem_uncovered_iff h).mp hq)
  have hqstart := hqa.1
  omega

end Span

/-! ## Settling ranges -/

theorem Span.insert_perm (s : Span) (ks : List Span) : (s.insert ks).Perm (s :: ks) := by
  have hmiddle : (s.insert ks).Perm
      (s :: (ks.takeWhile (·.start < s.start) ++ ks.dropWhile (·.start < s.start))) :=
    List.perm_middle
  rwa [List.takeWhile_append_dropWhile] at hmiddle

theorem taken_perm (pieces before : List Span) : (taken pieces before).Perm (pieces ++ before) := by
  induction pieces generalizing before with
  | nil => exact List.Perm.refl _
  | cons s rest ih =>
    have hrest : (rest ++ s.insert before).Perm (rest ++ s :: before) :=
      (Span.insert_perm s before).append_left rest
    exact ((ih (s.insert before)).trans hrest).trans List.perm_middle

/-- How ranges of a kind are settled: what a range keeps beside those that were kept before. -/
structure Keeper where
  keep : Span → List Span → List Span
  /-- It is some of what is left uncovered. -/
  sublist : ∀ s ks, (keep s ks).Sublist (s.uncovered ks)

namespace Keeper

/-- Records keep all of their pieces. -/
def ofRecords : Keeper where
  keep := Span.uncovered
  sublist := fun _ _ => List.Sublist.refl _

/-- Functions keep the first of their pieces. -/
def ofFunctions : Keeper where
  keep := fun s ks => (s.uncovered ks).head?.toList
  sublist := by
    intro s ks
    cases s.uncovered ks with
    | nil => exact List.Sublist.refl _
    | cons p rest => exact (List.nil_sublist rest).cons_cons p

variable (K : Keeper)

/-- All ranges that are kept, one registered range after another. -/
def kept (before : List Span) : List Span → List Span
  | [] => []
  | s :: rest =>
    if s.stop ≤ s.start then kept before rest
    else K.keep s before ++ kept (taken (K.keep s before) before) rest

/-- The ranges that are taken when some have been registered. -/
def takenAfter (before : List Span) : List Span → List Span
  | [] => before
  | s :: rest =>
    if s.stop ≤ s.start then takenAfter before rest
    else takenAfter (taken (K.keep s before) before) rest

variable {K} {before registered : List Span} {s p : Span}

/-- What a range keeps can be taken as well. -/
theorem ordered_taken_keep (h : Span.Ordered before) (s : Span) :
    Span.Ordered (taken (K.keep s before) before) := by
  have hsublist := K.sublist s before
  refine ordered_taken ((Span.ordered_uncovered h).sublist hsublist) h fun p hp k hk => ?_
  exact Span.apart_of_mem_uncovered h (hsublist.subset hp) hk

theorem ordered_takenAfter (h : Span.Ordered before) :
    Span.Ordered (K.takenAfter before registered) := by
  induction registered generalizing before with
  | nil => exact h
  | cons s rest ih =>
    unfold takenAfter
    split
    · exact ih h
    · exact ih (ordered_taken_keep h s)

/-- **What is taken** is what was taken before and what has been kept, each range once. -/
theorem takenAfter_perm (K : Keeper) (before registered : List Span) :
    (K.takenAfter before registered).Perm (K.kept before registered ++ before) := by
  induction registered generalizing before with
  | nil => exact List.Perm.refl _
  | cons s rest ih =>
    unfold takenAfter kept
    split
    · exact ih before
    · refine (ih _).trans ?_
      have hrest := (taken_perm (K.keep s before) before).append_left
        (K.kept (taken (K.keep s before) before) rest)
      rw [← List.append_assoc] at hrest
      exact hrest.trans (List.perm_append_comm.append_right before)

theorem mem_takenAfter :
    p ∈ K.takenAfter before registered ↔ p ∈ before ∨ p ∈ K.kept before registered := by
  rw [(takenAfter_perm K before registered).mem_iff, List.mem_append, or_comm]

/-- **What is kept has addresses, and shares none.** -/
theorem apart_kept (K : Keeper) (registered : List Span) :
    (∀ p ∈ K.kept [] registered, p.start.toNat < p.stop.toNat)
      ∧ (K.kept [] registered).Pairwise Span.Apart := by
  have hordered : Span.Ordered (K.takenAfter [] registered) := ordered_takenAfter Span.ordered_nil
  have hperm := takenAfter_perm K [] registered
  rw [List.append_nil] at hperm
  refine ⟨fun p hp => hordered.pos p (hperm.mem_iff.mpr hp), ?_⟩
  exact hperm.pairwise (hordered.before.imp Or.inl) Span.Apart.symm

theorem kept_concat (s : Span) : K.kept before (registered ++ [s]) = K.kept before registered
    ++ if s.stop ≤ s.start then [] else K.keep s (K.takenAfter before registered) := by
  induction registered generalizing before with
  | nil =>
    show K.kept before [s] = _
    unfold kept
    split
    · rfl
    · exact List.append_nil _
  | cons t rest ih =>
    rw [List.cons_append]
    unfold kept takenAfter
    split
    · exact ih
    · rw [ih, List.append_assoc]

/-- **One range more** takes what it keeps beside all that is taken when it comes. -/
theorem mem_takenAfter_take_succ {k : Nat} (hs : registered[k]? = some s) :
    p ∈ K.takenAfter before (registered.take (k + 1))
      ↔ p ∈ K.takenAfter before (registered.take k)
        ∨ s.start.toNat < s.stop.toNat
          ∧ p ∈ K.keep s (K.takenAfter before (registered.take k)) := by
  rw [mem_takenAfter, @mem_takenAfter K before (registered.take k), List.take_add_one, hs,
    Option.toList_some, kept_concat, List.mem_append, ← or_assoc]
  refine or_congr_right ?_
  split
  · rename_i hempty
    have hempty := UInt64.le_iff_toNat_le.mp hempty
    exact iff_of_false List.not_mem_nil fun h => Nat.not_lt.mpr hempty h.1
  · rename_i hpos
    rw [UInt64.le_iff_toNat_le] at hpos
    rw [and_iff_right (Nat.lt_of_not_le hpos)]

/-- A record that is not empty keeps its pieces, and an empty one has none. -/
theorem mem_keep_ofRecords (h : Span.Ordered before) :
    s.start.toNat < s.stop.toNat ∧ p ∈ ofRecords.keep s before
      ↔ Span.IsPiece (· ∈ before) s p := by
  have hkeep : p ∈ ofRecords.keep s before ↔ _ := Span.mem_uncovered_iff h
  rw [hkeep, and_iff_right_of_imp Span.IsPiece.range_pos]

/-- And a function keeps its first piece. -/
theorem mem_keep_ofFunctions (h : Span.Ordered before) :
    s.start.toNat < s.stop.toNat ∧ p ∈ ofFunctions.keep s before
      ↔ Span.IsFirstPiece (· ∈ before) s p := by
  have hkeep : p ∈ ofFunctions.keep s before ↔ _ :=
    Option.mem_toList.trans (Span.head?_uncovered_eq_some_iff h)
  rw [hkeep, and_iff_right_of_imp fun hp => hp.isPiece.range_pos]

end Keeper

/-! ## Records and functions -/

/-- The addresses of a function. -/
def FunctionRange.span (f : FunctionRange) : Span := { start := f.start, stop := f.stop }

/-- The part of a function on a range. -/
def FunctionRange.on (f : FunctionRange) (s : Span) : FunctionRange :=
  { f with start := s.start, stop := s.stop }

/-- A record that is not empty is settled beside what is taken, and the others beside that. -/
theorem keepRecords_eq (before : List Span) (r : Record) (rs : List Record) :
    keepRecords before (r :: rs) = if r.span.stop ≤ r.span.start then keepRecords before rs else
      let pieces := Keeper.ofRecords.keep r.span before
      let rest := keepRecords (taken pieces before) rs
      (pieces.map r.on ++ rest.1, (conflict? r before).toList ++ rest.2) := rfl

/-- And a function likewise. -/
theorem keepFunctions_eq (before : List Span) (f : FunctionRange) (fs : List FunctionRange) :
    keepFunctions before (f :: fs) = if f.span.stop ≤ f.span.start then keepFunctions before fs else
      let pieces := Keeper.ofFunctions.keep f.span before
      let rest := keepFunctions (taken pieces before) fs
      (pieces.map f.on ++ rest.1, (conflict? f.record before).toList ++ rest.2) := by
  have hpieces : (Keeper.ofFunctions.keep f.span before).map f.on
      = ((f.span.uncovered before).head?.map f.on).toList := Option.toList_map.symm
  dsimp only
  rw [hpieces]
  rfl

theorem map_span_keepRecords (before : List Span) (rs : List Record) :
    (keepRecords before rs).1.map Record.span
      = Keeper.ofRecords.kept before (rs.map Record.span) := by
  induction rs generalizing before with
  | nil => rfl
  | cons r rest ih =>
    rw [keepRecords_eq, List.map_cons, Keeper.kept]
    split
    · exact ih before
    · dsimp only
      rw [List.map_append, ih, List.map_map]
      congr 1
      exact List.map_id _

theorem map_span_keepFunctions (before : List Span) (fs : List FunctionRange) :
    (keepFunctions before fs).1.map FunctionRange.span
      = Keeper.ofFunctions.kept before (fs.map FunctionRange.span) := by
  induction fs generalizing before with
  | nil => rfl
  | cons f rest ih =>
    rw [keepFunctions_eq, List.map_cons, Keeper.kept]
    split
    · exact ih before
    · dsimp only
      rw [List.map_append, ih, List.map_map]
      congr 1
      exact List.map_id _

/-- **What functions keep** are the pieces that are chosen when their turn comes. -/
theorem mem_keepFunctions_iff {before : List Span} {fs : List FunctionRange} {p : FunctionRange} :
    p ∈ (keepFunctions before fs).1 ↔ ∃ (k : Nat) (f : FunctionRange), fs[k]? = some f
      ∧ p = f.on p.span ∧ f.span.start.toNat < f.span.stop.toNat
      ∧ p.span ∈ Keeper.ofFunctions.keep f.span
        (Keeper.ofFunctions.takenAfter before ((fs.take k).map FunctionRange.span)) := by
  induction fs generalizing before with
  | nil => simp [keepFunctions]
  | cons f rest ih =>
    -- either the first function keeps it, or one of those behind it
    rw [keepFunctions_eq, ← Nat.or_exists_add_one]
    simp only [List.getElem?_cons_zero, List.getElem?_cons_succ, List.take_zero,
      List.take_succ_cons, List.map_nil, List.map_cons, Keeper.takenAfter, Option.some.injEq,
      exists_eq_left']
    split
    · rename_i hempty
      have hempty := UInt64.le_iff_toNat_le.mp hempty
      rw [ih, or_iff_right fun h => Nat.not_lt.mpr hempty h.2.1]
    · rename_i hpos
      rw [UInt64.le_iff_toNat_le] at hpos
      rw [List.mem_append, List.mem_map, ih, and_iff_right (Nat.lt_of_not_le hpos)]
      refine or_congr_left ⟨?_, fun ⟨hp, hs⟩ => ⟨p.span, hs, hp.symm⟩⟩
      rintro ⟨s, hs, rfl⟩
      exact ⟨rfl, hs⟩

/-! ## What is kept when some have been registered -/

namespace Records

/-- The records and functions that are registered before others. -/
def first (rs : Records) (k : Nat) : Records :=
  { rs with records := rs.records.extract 0 k, functions := rs.functions.extract 0 k }

/-- A range that the first records keep. -/
def KeptRecord (rs : Records) (k : Nat) (s : Span) : Prop :=
  ∃ p ∈ (Index.build (rs.first k) none).records, p.span = s

/-- A range that one of the first functions keeps. -/
def KeptFunction (rs : Records) (k : Nat) (s : Span) : Prop :=
  ∃ p ∈ (Index.build (rs.first k) none).functions, p.span = s

variable {rs : Records} {image : Option Image} {k : Nat} {s : Span}

theorem mem_functions_build {p : FunctionRange} :
    p ∈ (Index.build rs image).functions ↔ p ∈ (keepFunctions [] rs.functions.toList).1 := by
  simp only [Index.build, List.mem_toArray, List.mem_mergeSort]

theorem keptRecord_eq (rs : Records) (k : Nat) : rs.KeptRecord k =
    (· ∈ Keeper.ofRecords.takenAfter [] ((rs.records.toList.take k).map Record.span)) := by
  funext s
  rw [Keeper.mem_takenAfter, or_iff_right List.not_mem_nil, ← map_span_keepRecords, List.mem_map]
  simp only [KeptRecord, Index.mem_records_build, first, Array.toList_extract,
    List.extract_eq_take_drop, List.drop_zero, Nat.sub_zero]

theorem keptFunction_eq (rs : Records) (k : Nat) : rs.KeptFunction k =
    (· ∈ Keeper.ofFunctions.takenAfter []
      ((rs.functions.toList.take k).map FunctionRange.span)) := by
  funext s
  rw [Keeper.mem_takenAfter, or_iff_right List.not_mem_nil, ← map_span_keepFunctions, List.mem_map]
  simp only [KeptFunction, mem_functions_build, first, Array.toList_extract,
    List.extract_eq_take_drop, List.drop_zero, Nat.sub_zero]

/-- **One record more** keeps all of its pieces. -/
theorem keptRecord_succ_iff {r : Record} (hr : rs.records[k]? = some r) :
    rs.KeptRecord (k + 1) s ↔ rs.KeptRecord k s ∨ Span.IsPiece (rs.KeptRecord k) r.span s := by
  have hat : (rs.records.toList.map Record.span)[k]? = some r.span := by
    rw [List.getElem?_map, Array.getElem?_toList, hr, Option.map_some]
  simp only [keptRecord_eq, List.map_take, Keeper.mem_takenAfter_take_succ hat]
  exact or_congr_right (Keeper.mem_keep_ofRecords (Keeper.ordered_takenAfter Span.ordered_nil))

/-- **One function more** keeps the first of its pieces. -/
theorem keptFunction_succ_iff {f : FunctionRange} (hf : rs.functions[k]? = some f) :
    rs.KeptFunction (k + 1) s
      ↔ rs.KeptFunction k s ∨ Span.IsFirstPiece (rs.KeptFunction k) f.span s := by
  have hat : (rs.functions.toList.map FunctionRange.span)[k]? = some f.span := by
    rw [List.getElem?_map, Array.getElem?_toList, hf, Option.map_some]
  simp only [keptFunction_eq, List.map_take, Keeper.mem_takenAfter_take_succ hat]
  exact or_congr_right (Keeper.mem_keep_ofFunctions (Keeper.ordered_takenAfter Span.ordered_nil))

end Records

end Disassembler.Debug
