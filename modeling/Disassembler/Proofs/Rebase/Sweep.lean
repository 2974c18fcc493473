import Disassembler.Proofs.Stream
import Disassembler.Proofs.Rebase.Coverage
import Disassembler.Proofs.Rebase.Symbols

/-!
# The same sweep elsewhere

A sweep asks whether an address may be entered and whether control goes on, and decodes what is
there. Each of these has the same answer in the image elsewhere. The only addresses that it compares
as numbers are those of genuine entries and of its seed, which do not wrap; the target of a jump
may, but it is only asked whether that lies in the part that was swept. So the sweep from the moved
seed takes the same steps, and its entries are the same ones, moved.
-/

namespace Disassembler

/-- What a sweep has decoded, moved by a distance. -/
def Run.rebase (d : Int) (r : Run) : Run :=
  { seed := r.seed.rebase d, entries := r.entries.map (·.rebase d), isData := r.isData }

namespace Instruction

variable {d : Int} {image moved : Image} {m : Machine} {i : Instruction}

theorem flow_rebase (d : Int) (i : Instruction) :
    (i.rebase d).flow = i.flow.moveTarget (UInt64.ofInt d) := by
  unfold flow rebase
  rcases i.operation with _ | op <;> rfl

theorem target?_rebase (d : Int) (i : Instruction) :
    (i.rebase d).flow.target? = i.flow.target?.map (moveBy · d) := by
  rw [flow_rebase]
  cases i.flow <;> rfl

/-- A genuine entry ends with the section, and can be moved with it. -/
theorem Genuine.movable (himage : Image.Rebased d image moved) (hclip : image.Clipped)
    (h : i.Genuine image m) : i.Movable d := by
  obtain ⟨s, hs, -⟩ := Image.inCode_iff.mp h.inCode
  have hmem := Image.mem_of_sectionFor hs
  have hstart := Section.start_le_of_contains (Image.contains_of_sectionFor hs)
  have hreach := h.reach_le hs
  have hsize := hclip s hmem
  have hlo := (himage.movable s hmem).start_nonneg
  have hhi := (himage.movable s hmem).fits_moved
  constructor <;> omega

end Instruction

theorem Coverage.Sound.movable {d : Int} {image moved : Image} {m : Machine} {overlap : Overlap}
    {c : Coverage} (himage : Image.Rebased d image moved) (hclip : image.Clipped)
    (h : c.Sound image m overlap) : c.Movable d := by
  intro i hi
  rcases h.honest i hi with hgenuine | ⟨-, whole, n, hgenuine, -, hlo, hhi, rfl⟩
  · exact hgenuine.movable himage hclip
  · -- a marker ends before the entry that it stands for
    have hwhole := hgenuine.movable himage hclip
    have hreach := Instruction.marker_reach (hgenuine.placed hclip) hlo hhi
    have hlt := hwhole.reach_lt
    exact ⟨hwhole.address_nonneg, by omega⟩

namespace Sweep

/-- The sweep from the moved seed in an image elsewhere. -/
def rebase (d : Int) (moved : Image) (s : Sweep) : Sweep :=
  { config := s.config, image := moved, machine := s.machine
    coverage := s.coverage.rebase d, seed := s.seed.rebase d }

/-- Everything that a sweep works on can be moved by a distance. -/
structure Movable (d : Int) (moved : Image) (s : Sweep) : Prop where
  image : Image.Rebased d s.image moved
  clipped : s.image.Clipped
  machine : s.machine.Rebasable d
  tidy : s.coverage.Tidy
  coverage : s.coverage.Movable d
  seed : Disassembler.Movable d s.seed.address

variable {d : Int} {s : Sweep} {moved : Image}

theorem admits_rebase (h : s.Movable d moved) (isSeed : Bool) (a : UInt64) :
    (s.rebase d moved).admits isSeed (moveBy a d) = s.admits isSeed a := by
  show (moved.inCode (moveBy a d)
    && (isSeed || !(s.coverage.rebase d).isStart (moveBy a d))
    && !(s.coverage.rebase d).inside (moveBy a d)) = _
  rw [h.image.inCode, Coverage.isStart_rebase h.tidy h.coverage,
    Coverage.inside_rebase h.tidy h.coverage]
  rfl

/-- Control ends at the same entries. -/
theorem endsAt_rebase (h : s.Movable d moved) {i : Instruction}
    (hstop : Disassembler.Movable d i.stop) :
    (s.rebase d moved).endsAt (i.rebase d) = s.endsAt i := by
  unfold endsAt
  rw [Instruction.flow_rebase, Instruction.stop_rebase]
  rcases i.flow with _ | t | t | t | _ | _
  · rfl
  · -- whether the jump leads into the run is a question of a range
    have hrange : (decide (moveBy s.seed.address d ≤ moveBy t d)
          && decide (moveBy t d < moveBy i.stop d))
        = (decide (s.seed.address ≤ t) && decide (t < i.stop)) := by
      rw [← Bool.decide_and, ← Bool.decide_and]
      exact decide_eq_decide.mpr (h.seed.range_iff hstop)
    show (!s.config.pastJumps
      || (decide (moveBy s.seed.address d ≤ moveBy t d) && decide (moveBy t d < moveBy i.stop d))
      || (s.coverage.rebase d).isStart (moveBy t d)) = _
    rw [hrange, Coverage.isStart_rebase h.tidy h.coverage]
  · rfl
  · rfl
  · rfl
  · rfl

theorem stops_rebase (h : s.Movable d moved) {cancelled : Nat → Bool}
    {entries : Array Instruction} {a : UInt64} :
    (s.rebase d moved).Stops cancelled (entries.map (·.rebase d)) (moveBy a d)
      ↔ s.Stops cancelled entries a := by
  have hempty : (entries.map (·.rebase d)).isEmpty = entries.isEmpty := by
    rw [Array.isEmpty, Array.isEmpty, Array.size_map]
  have hwindow : (s.rebase d moved).image.window (moveBy a d) 1 = s.image.window a 1 :=
    h.image.window a 1
  rw [Stops, Stops, Array.size_map, hempty, admits_rebase h, hwindow]

section

variable {cancelled : Nat → Bool} {entries : Array Instruction} {a : UInt64} {invalid count : Nat}
variable {last ending : Bool} {i : Instruction}

/-- The same step of the sweep elsewhere. -/
theorem sweepFrom_rebase_eq (h : s.Movable d moved) (hgo : ¬ s.Stops cancelled entries a)
    (hi : s.image.decodeAt s.machine a = i)
    (hcount : (if i.isInvalid then invalid + 1 else 0) = count)
    (hending : (!i.isInvalid && s.endsAt i) = ending) :
    (s.rebase d moved).sweepFrom cancelled (entries.map (·.rebase d)) (moveBy a d) invalid last =
      if s.config.invalidLimit < count then
        Run.rebase d { seed := s.seed, entries := entries.extract 0 (entries.size + 1 - count)
                       isData := true }
      else if a < i.stop ∧ ¬ last ∧ ¬ (ending ∧ s.machine.delaySlots = 0) then
        (s.rebase d moved).sweepFrom cancelled ((entries.push i).map (·.rebase d))
          (moveBy i.stop d) count ending
      else Run.rebase d { seed := s.seed, entries := entries.push i } := by
  -- the entry is genuine, so neither its address nor its end wraps
  have hgoes := hgo
  simp only [Stops, not_or, Decidable.not_not] at hgoes
  obtain ⟨haddress, hgenuine⟩ := genuine_decodeAt hgoes.2.1 hgoes.2.2
  rw [hi] at haddress hgenuine
  have hmovable := hgenuine.movable h.image h.clipped
  have hstop := hmovable.stop (hgenuine.placed h.clipped)
  have hlt : moveBy a d < moveBy i.stop d ↔ a < i.stop :=
    (haddress ▸ hmovable.address).lt_iff hstop
  have hdecode : (s.rebase d moved).image.decodeAt (s.rebase d moved).machine (moveBy a d)
      = i.rebase d := (h.image.decodeAt h.machine a).trans (congrArg _ hi)
  have hcount : (if (i.rebase d).isInvalid then invalid + 1 else 0) = count := by
    rw [Instruction.isInvalid_rebase, hcount]
  have hending : (!(i.rebase d).isInvalid && (s.rebase d moved).endsAt (i.rebase d)) = ending := by
    rw [Instruction.isInvalid_rebase, endsAt_rebase h hstop, hending]
  have hpush : (entries.map (·.rebase d)).push (i.rebase d)
      = (entries.push i).map (·.rebase d) := Array.map_push.symm
  have hextract : (entries.map (·.rebase d)).extract 0 (entries.size + 1 - count)
      = (entries.extract 0 (entries.size + 1 - count)).map (·.rebase d) := Array.map_extract.symm
  rw [sweepFrom_eq (mt (stops_rebase h).mp hgo) hdecode hcount hending, Instruction.stop_rebase,
    Array.size_map, hpush, hextract]
  simp only [hlt]
  rfl

/-- **A sweep elsewhere takes the same steps**, wherever it is taken up. -/
theorem sweepFrom_rebase (h : s.Movable d moved) (cancelled : Nat → Bool)
    (entries : Array Instruction) (a : UInt64) (invalid : Nat) (last : Bool) :
    (s.rebase d moved).sweepFrom cancelled (entries.map (·.rebase d)) (moveBy a d) invalid last
      = (s.sweepFrom cancelled entries a invalid last).rebase d := by
  fun_induction sweepFrom s cancelled entries a invalid last with
  | case1 entries a invalid last hstop =>
    rw [sweepFrom_of_stops ((stops_rebase h).mpr hstop)]
    rfl
  | case2 entries a invalid last hgo i count hdata =>
    have hi : s.image.decodeAt s.machine a = i := rfl
    have hcount : (if i.isInvalid then invalid + 1 else 0) = count := rfl
    rw [sweepFrom_rebase_eq h hgo hi hcount rfl, if_pos hdata]
  | case3 entries a invalid last hgo i count hdata ending hnext ih =>
    have hi : s.image.decodeAt s.machine a = i := rfl
    have hcount : (if i.isInvalid then invalid + 1 else 0) = count := rfl
    have hending : (!i.isInvalid && s.endsAt i) = ending := rfl
    rw [sweepFrom_rebase_eq h hgo hi hcount hending, if_neg hdata, if_pos hnext, ← ih]
  | case4 entries a invalid last hgo i count hdata ending hnext =>
    have hi : s.image.decodeAt s.machine a = i := rfl
    have hcount : (if i.isInvalid then invalid + 1 else 0) = count := rfl
    have hending : (!i.isInvalid && s.endsAt i) = ending := rfl
    rw [sweepFrom_rebase_eq h hgo hi hcount hending, if_neg hdata, if_neg hnext]

end

/-- **The run from a seed is the same run elsewhere.** -/
theorem run_rebase (h : s.Movable d moved) (cancelled : Nat → Bool) :
    (s.rebase d moved).run cancelled = (s.run cancelled).rebase d := by
  have hfrom := sweepFrom_rebase h cancelled #[] s.seed.address 0 false
  rwa [Array.map_empty] at hfrom

end Sweep

end Disassembler
