import Disassembler.Proofs.Debug.Pieces
import Mathlib.Data.List.Forall2

/-!
# The log of conflicts

A record has a conflict if it has an address in common with a range that is kept when its turn
comes. The log has one entry for each such record, in the order in which they were registered, and
the same for functions behind that. Since the ranges that are taken are always in order, the first
of them that the record meets is the lowest, and the record is rejected if no piece of it is left.
-/

namespace Disassembler.Debug

/-- The conflict of a record with the ranges that are kept when its turn comes. -/
structure IsConflict (kept : Span → Prop) (r : Record) (c : Conflict) : Prop where
  incoming : c.incoming = r
  isKept : kept c.kept
  meets : c.kept.Meets r.span
  lowest : ∀ k, kept k → k.Meets r.span → c.kept.start ≤ k.start
  /-- It is rejected if all of its addresses are taken. -/
  rejected_iff : c.rejected = true ↔ ∀ a, r.span.Holds a → ∃ k, kept k ∧ k.Holds a

/-- **A log of registered records**, when some ranges are kept before the record at each place: the
conflicts of all records that meet such a range, one for each and in order of their places. -/
def Logs (registered : List Record) (kept : Nat → Span → Prop) (log : List Conflict) : Prop :=
  ∃ places : List Nat, places.Pairwise (· < ·)
    ∧ (∀ k, k ∈ places ↔ ∃ r, registered[k]? = some r ∧ ∃ s, kept k s ∧ s.Meets r.span)
    ∧ List.Forall₂ (fun k c => ∃ r, registered[k]? = some r ∧ IsConflict (kept k) r c) places log

/-! ## One conflict -/

section Conflict

variable {before : List Span} {r : Record} {c : Conflict}

theorem conflict?_eq (r : Record) (before : List Span) :
    conflict? r before = (before.find? r.span.meets).map fun k =>
      { incoming := r, kept := k, rejected := (r.span.uncovered before).isEmpty } := rfl

/-- Nothing is left of a range if all of its addresses are taken. -/
theorem uncovered_eq_nil_iff {s : Span} (h : Span.Ordered before) :
    s.uncovered before = [] ↔ ∀ a, s.Holds a → ∃ k, k ∈ before ∧ k.Holds a := by
  rw [List.eq_nil_iff_forall_not_mem]
  constructor
  · intro hnone a ha
    refine Classical.byContradiction fun hfree => ?_
    obtain ⟨p, hp, -⟩ := (Span.exists_mem_uncovered h).mpr
      ⟨ha, fun k hk hka => hfree ⟨k, hk, hka⟩⟩
    exact hnone p hp
  · intro htaken p hp
    have hstart : p.Holds p.start := ⟨Nat.le_refl _, (Span.ordered_uncovered h).pos p hp⟩
    obtain ⟨ha, hfree⟩ := (Span.exists_mem_uncovered h).mp ⟨p, hp, hstart⟩
    obtain ⟨k, hk, hka⟩ := htaken p.start ha
    exact hfree k hk hka

/-- A record without a conflict meets nothing. -/
theorem not_meets_of_conflict?_eq_none (h : Span.Ordered before)
    (hpos : r.span.start.toNat < r.span.stop.toNat) (hc : conflict? r before = none) :
    ¬ ∃ s, s ∈ before ∧ s.Meets r.span := by
  rw [conflict?_eq] at hc
  rintro ⟨s, hs, a, hsa, hra⟩
  have hnone := List.find?_eq_none.mp (Option.map_eq_none_iff.mp hc) s hs
  exact hnone ((Span.meets_eq_true_iff hpos (h.pos s hs)).mpr ⟨a, hra, hsa⟩)

/-- A conflict is with the lowest range of those that the record meets. -/
theorem isConflict_of_conflict? (h : Span.Ordered before)
    (hpos : r.span.start.toNat < r.span.stop.toNat) (hc : conflict? r before = some c) :
    IsConflict (· ∈ before) r c := by
  rw [conflict?_eq] at hc
  obtain ⟨k, hfind, rfl⟩ := Option.map_eq_some_iff.mp hc
  obtain ⟨hmeets, front, back, rfl, hfront⟩ := List.find?_eq_some_iff_append.mp hfind
  have hk : k ∈ front ++ k :: back := by simp
  obtain ⟨a, hra, hka⟩ := (Span.meets_eq_true_iff hpos (h.pos k hk)).mp hmeets
  refine ⟨rfl, hk, ⟨a, hka, hra⟩, ?_, List.isEmpty_iff.trans (uncovered_eq_nil_iff h)⟩
  rintro l hl ⟨b, hlb, hrb⟩
  show k.start ≤ l.start
  rcases List.mem_append.mp hl with hl' | hl'
  · have hnot := hfront l hl'
    rw [(Span.meets_eq_true_iff hpos (h.pos l hl)).mpr ⟨b, hrb, hlb⟩] at hnot
    exact absurd hnot (by decide)
  · -- the ranges behind it start where it ends or later
    obtain ⟨hkpos, hbehind, -⟩ :=
      Span.ordered_cons.mp (h.sublist (List.sublist_append_right front (k :: back)))
    rcases List.mem_cons.mp hl' with rfl | hl'
    · exact UInt64.le_refl _
    · have hle := hbehind l hl'
      exact UInt64.le_iff_toNat_le.mpr (by omega)

end Conflict

/-! ## The log -/

section Log

variable {registered : List Record} {kept : Nat → Span → Prop} {log : List Conflict}
variable {r : Record} {c : Conflict}

theorem logs_nil : Logs [] kept [] :=
  ⟨[], List.Pairwise.nil, by simp, .nil⟩

/-- The places count on behind one more record. -/
theorem Logs.shift (h : Logs registered (fun k => kept (k + 1)) log) :
    ∃ places : List Nat, (0 :: places).Pairwise (· < ·)
      ∧ (∀ k, k ∈ places ↔ k ≠ 0 ∧ ∃ q, (r :: registered)[k]? = some q
        ∧ ∃ s, kept k s ∧ s.Meets q.span)
      ∧ List.Forall₂ (fun k c => ∃ q, (r :: registered)[k]? = some q ∧ IsConflict (kept k) q c)
        places log := by
  obtain ⟨places, hascending, hmem, hlog⟩ := h
  refine ⟨places.map (· + 1), ?_, fun k => ?_, ?_⟩
  · rw [List.pairwise_cons, List.pairwise_map]
    exact ⟨by simp, hascending.imp Nat.succ_lt_succ⟩
  · cases k with
    | zero => simp
    | succ k => simp [hmem]
  · rw [List.forall₂_map_left_iff]
    exact hlog

/-- A record that meets nothing is not in the log. -/
theorem Logs.cons_of_not_meets (h : Logs registered (fun k => kept (k + 1)) log)
    (hr : ¬ ∃ s, kept 0 s ∧ s.Meets r.span) : Logs (r :: registered) kept log := by
  obtain ⟨places, hascending, hmem, hlog⟩ := h.shift (r := r)
  refine ⟨places, (List.pairwise_cons.mp hascending).2, fun k => ?_, hlog⟩
  rw [hmem, and_iff_right_of_imp]
  rintro ⟨q, hq, hmeets⟩ rfl
  obtain rfl := Option.some.inj hq
  exact hr hmeets

/-- A record with a conflict is the first in the log. -/
theorem Logs.cons (h : Logs registered (fun k => kept (k + 1)) log)
    (hc : IsConflict (kept 0) r c) : Logs (r :: registered) kept (c :: log) := by
  obtain ⟨places, hascending, hmem, hlog⟩ := h.shift (r := r)
  refine ⟨0 :: places, hascending, fun k => ?_, .cons ⟨r, rfl, hc⟩ hlog⟩
  rw [List.mem_cons, hmem]
  cases k with
  | zero => exact iff_of_true (Or.inl rfl) ⟨r, rfl, c.kept, hc.isKept, hc.incoming ▸ hc.meets⟩
  | succ k => simp

end Log

namespace Keeper

variable (K : Keeper)

/-- The conflicts of records, when some ranges are taken already. -/
def log (before : List Span) : List Record → List Conflict
  | [] => []
  | r :: rest =>
    if r.span.stop ≤ r.span.start then log before rest
    else (conflict? r before).toList ++ log (taken (K.keep r.span before) before) rest

/-- **The log of all records**, by induction on the records and for any ranges in order. -/
theorem logs_log {before : List Span} (h : Span.Ordered before) (registered : List Record) :
    Logs registered
      (fun k s => s ∈ K.takenAfter before ((registered.take k).map Record.span))
      (K.log before registered) := by
  induction registered generalizing before with
  | nil => exact logs_nil
  | cons r rest ih =>
    have hshift : ∀ k, K.takenAfter before (((r :: rest).take (k + 1)).map Record.span)
        = if r.span.stop ≤ r.span.start then
            K.takenAfter before ((rest.take k).map Record.span)
          else K.takenAfter (taken (K.keep r.span before) before)
            ((rest.take k).map Record.span) := fun _ => rfl
    unfold log
    split
    · rename_i hempty
      simp only [if_pos hempty] at hshift
      have hempty := UInt64.le_iff_toNat_le.mp hempty
      refine Logs.cons_of_not_meets ?_ ?_
      · simp only [hshift]
        exact ih h
      · -- an empty record meets nothing
        rintro ⟨s, -, hmeets⟩
        have hpos := hmeets.pos
        omega
    · rename_i hpos
      simp only [if_neg hpos] at hshift
      rw [UInt64.le_iff_toNat_le, Nat.not_le] at hpos
      have hrest := ih (ordered_taken_keep (K := K) h r.span)
      rcases hc : conflict? r before with _ | c
      · refine Logs.cons_of_not_meets ?_ (not_meets_of_conflict?_eq_none h hpos hc)
        simp only [hshift]
        exact hrest
      · refine Logs.cons ?_ (isConflict_of_conflict? h hpos hc)
        simp only [hshift]
        exact hrest

end Keeper

theorem log_keepRecords (before : List Span) (rs : List Record) :
    (keepRecords before rs).2 = Keeper.ofRecords.log before rs := by
  induction rs generalizing before with
  | nil => rfl
  | cons r rest ih =>
    rw [keepRecords_eq, Keeper.log]
    split
    · exact ih before
    · dsimp only
      rw [ih]

theorem log_keepFunctions (before : List Span) (fs : List FunctionRange) :
    (keepFunctions before fs).2 = Keeper.ofFunctions.log before (fs.map FunctionRange.record) := by
  induction fs generalizing before with
  | nil => rfl
  | cons f rest ih =>
    rw [keepFunctions_eq, List.map_cons, Keeper.log]
    show _ = if f.span.stop ≤ f.span.start then _ else _
    split
    · exact ih before
    · dsimp only
      rw [ih]
      rfl

namespace Index

/--
**The log of conflicts is exact.**

For all records and functions that are registered, the conflicts are those of the records and then
those of the functions, each in the order in which they were registered. A record or function has a
conflict exactly if it has an address in common with a range of its kind that is kept when its turn
comes, and then one. The conflict is the record as it was registered, with the lowest range that it
meets, and says that it was rejected if and only if all of its addresses are in ranges that are
kept. And these ranges are, after each record, those that were kept before and all pieces of the
record, and after each function, those that were kept before and the first piece of the function.
-/
theorem conflicts_exact (rs : Records) (image : Option Image) :
    (∃ recordLog functionLog, (build rs image).conflicts = recordLog ++ functionLog
        ∧ Logs rs.records.toList rs.KeptRecord recordLog
        ∧ Logs (rs.functions.toList.map FunctionRange.record) rs.KeptFunction functionLog)
      ∧ (∀ s, ¬ rs.KeptRecord 0 s ∧ ¬ rs.KeptFunction 0 s)
      ∧ (∀ (k : Nat) (r : Record), rs.records[k]? = some r → ∀ s, rs.KeptRecord (k + 1) s ↔
        rs.KeptRecord k s ∨ Span.IsPiece (rs.KeptRecord k) r.span s)
      ∧ ∀ (k : Nat) (f : FunctionRange), rs.functions[k]? = some f → ∀ s,
        rs.KeptFunction (k + 1) s ↔
          rs.KeptFunction k s ∨ Span.IsFirstPiece (rs.KeptFunction k) f.span s := by
  have hfunctions : rs.KeptFunction = fun k => (· ∈ Keeper.ofFunctions.takenAfter []
      (((rs.functions.toList.map FunctionRange.record).take k).map Record.span)) := by
    funext k
    rw [Records.keptFunction_eq, ← List.map_take, List.map_map]
    rfl
  refine ⟨⟨_, _, rfl, ?_, ?_⟩, fun s => ?_, fun k r hr s => Records.keptRecord_succ_iff hr,
    fun k f hf s => Records.keptFunction_succ_iff hf⟩
  · rw [log_keepRecords, funext rs.keptRecord_eq]
    exact Keeper.ofRecords.logs_log Span.ordered_nil _
  · rw [log_keepFunctions, hfunctions]
    exact Keeper.ofFunctions.logs_log Span.ordered_nil _
  · rw [Records.keptRecord_eq, Records.keptFunction_eq]
    exact ⟨List.not_mem_nil, List.not_mem_nil⟩

end Index

end Disassembler.Debug
