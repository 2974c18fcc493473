import Disassembler.Proofs.Discovery
import Disassembler.Proofs.Rebase.Sweep

/-!
# The same analysis elsewhere

An analysis of the image elsewhere goes the same way, round for round. The seeds that are pending
always lie in code, so that they stand in the same order; the runs of a round are the same ones,
moved, and so is what merging them comes to; and of the targets that are proposed only those in code
remain, which are again the same ones. Addresses outside of the image may wrap, but nothing depends
on their order.
-/

namespace Disassembler

/-! ## Seeds in order -/

namespace Seed

variable {d : Int} {seeds : List Seed}

theorem firstOfEach_rebase (d : Int) (seeds : List Seed) :
    firstOfEach (seeds.map (·.rebase d)) = (firstOfEach seeds).map (·.rebase d) := by
  fun_induction firstOfEach seeds with
  | case1 => rw [List.map_nil, firstOfEach]
  | case2 s => rw [List.map_singleton, firstOfEach]
  | case3 s t rest heq ih =>
    have heq : (s.rebase d).address = (t.rebase d).address := moveBy_inj.mpr heq
    rw [← ih, List.map_cons, List.map_cons, firstOfEach, if_pos heq, List.map_cons]
  | case4 s t rest hne ih =>
    have hne : ¬ (s.rebase d).address = (t.rebase d).address := fun h => hne (moveBy_inj.mp h)
    rw [List.map_cons, List.map_cons, List.map_cons, firstOfEach, if_neg hne, ← ih, List.map_cons]

theorem precedes_rebase {s t : Seed} (hs : Movable d s.address) (ht : Movable d t.address) :
    (s.rebase d).precedes (t.rebase d) = s.precedes t := by
  have hle : decide (moveBy s.address d ≤ moveBy t.address d) = decide (s.address ≤ t.address) :=
    decide_eq_decide.mpr (hs.le_iff ht)
  unfold precedes
  show (if s.origin = t.origin then decide (moveBy s.address d ≤ moveBy t.address d) else _) = _
  rw [hle]
  rfl

theorem precedesByAddress_rebase {s t : Seed} (hs : Movable d s.address)
    (ht : Movable d t.address) :
    (s.rebase d).precedesByAddress (t.rebase d) = s.precedesByAddress t := by
  have hle : decide (moveBy s.address d ≤ moveBy t.address d) = decide (s.address ≤ t.address) :=
    decide_eq_decide.mpr (hs.le_iff ht)
  unfold precedesByAddress
  by_cases heq : s.address = t.address
  · have hmoved : (s.rebase d).address = (t.rebase d).address := moveBy_inj.mpr heq
    rw [if_pos heq, if_pos hmoved]
    rfl
  · have hmoved : ¬ (s.rebase d).address = (t.rebase d).address := fun h => heq (moveBy_inj.mp h)
    rw [if_neg heq, if_neg hmoved]
    exact hle

/-- **Seeds that do not wrap stand in the same order.** -/
theorem arrange_rebase (h : ∀ s ∈ seeds, Movable d s.address) :
    arrange (seeds.map (·.rebase d)) = (arrange seeds).map (·.rebase d) := by
  have hbyAddress : (seeds.map (·.rebase d)).mergeSort precedesByAddress
      = (seeds.mergeSort precedesByAddress).map (·.rebase d) :=
    (List.map_mergeSort fun s hs t ht => (precedesByAddress_rebase (h s hs) (h t ht)).symm).symm
  have hfirst : ∀ s ∈ firstOfEach (seeds.mergeSort precedesByAddress), Movable d s.address :=
    fun s hs => h s (List.mem_mergeSort.mp (mem_of_mem_firstOfEach hs))
  rw [arrange, arrange, hbyAddress, firstOfEach_rebase]
  exact (List.map_mergeSort fun s hs t ht =>
    (precedes_rebase (hfirst s hs) (hfirst t ht)).symm).symm

end Seed

variable {d : Int} {image moved : Image} {m : Machine} {config : Config}

/-- The targets of an instruction elsewhere are the same ones, moved. -/
theorem Instruction.seeds_rebase (hignore : config.indirection = .ignore) (i : Instruction) :
    (i.rebase d).seeds config moved m = (i.seeds config image m).map (·.rebase d) := by
  unfold seeds
  rw [hignore, if_neg (by decide), if_neg (by decide), target?_rebase]
  rcases i.flow.target? with _ | t <;> rfl

/-- The seeds at which an analysis starts do not wrap. -/
theorem Image.Rebased.movable_of_mem_initialSeeds (h : Rebased d image moved) {s : Seed}
    (hs : s ∈ image.initialSeeds) : Movable d s.address := by
  unfold initialSeeds at hs
  split at hs
  · obtain ⟨t, ht, rfl⟩ := List.mem_map.mp hs
    exact (h.movable t (Array.mem_toList_iff.mp (List.mem_filter.mp ht).1)).start
  rw [namedSeeds_eq] at hs
  rcases List.mem_append.mp hs with hs | hs
  · split at hs
    · rename_i hcode
      obtain rfl := List.mem_singleton.mp hs
      exact h.movable_of_inCode hcode
    · exact absurd hs List.not_mem_nil
  · obtain ⟨t, ht, hseed⟩ := List.mem_filterMap.mp hs
    have hselected := (List.mem_filter.mp ht).2
    rw [selects, Bool.and_eq_true] at hselected
    unfold seedOf? at hseed
    split at hseed
    · obtain rfl := Option.some.inj hseed
      exact h.movable_of_inCode hselected.2
    · exact absurd hseed (by simp)

/-! ## Rounds -/

namespace Progress

/-- An analysis under way, moved by a distance. -/
def rebase (d : Int) (p : Progress) : Progress :=
  { coverage := p.coverage.rebase d, seeds := p.seeds.map (·.rebase d)
    proposed := p.proposed.map (·.rebase d), stats := p.stats }

variable {p : Progress} {pending : List Seed} {c c' : Conditions}

variable (himage : Image.Rebased d image moved) (hclip : image.Clipped)
include himage hclip

/-- **The merge of a run.** -/
theorem merge_rebase (hignore : config.indirection = .ignore)
    (hp : p.coverage.Sound image m config.overlap) {r : Run}
    (hr : ∀ i ∈ r.entries, i.Genuine image m) :
    (p.rebase d).merge config moved m (r.rebase d) = (p.merge config image m r).rebase d := by
  have hmerge : (p.coverage.rebase d).merge config.overlap (r.rebase d).entries.toList
      = (p.coverage.merge config.overlap r.entries.toList).rebase d := by
    have hentries : (r.rebase d).entries.toList = r.entries.toList.map (·.rebase d) :=
      Array.toList_map
    rw [hentries]
    exact Coverage.merge_rebase hp.tidy (hp.movable himage hclip)
      (fun i hi => (hr i (Array.mem_toList_iff.mp hi)).placed hclip)
      (fun i hi => (hr i (Array.mem_toList_iff.mp hi)).movable himage hclip)
  have hseeds : ∀ l : List Instruction, (l.map (·.rebase d)).flatMap (·.seeds config moved m)
      = (l.flatMap (·.seeds config image m)).map (·.rebase d) := by
    intro l
    rw [List.flatMap_map, List.map_flatMap]
    exact congrArg (l.flatMap ·) (funext (Instruction.seeds_rebase hignore))
  have hproposed : (p.rebase d).proposed = p.proposed.map (·.rebase d) := rfl
  have hsize : (r.rebase d).entries.size = r.entries.size := Array.size_map
  have hkept : ∀ merged : Merged, (merged.rebase d).kept = merged.kept.map (·.rebase d) :=
    fun _ => rfl
  unfold merge
  dsimp only
  rw [show (p.rebase d).coverage = p.coverage.rebase d from rfl, hmerge, hproposed, hsize, hkept,
    hseeds, List.length_map, ← List.map_append]
  rfl

/-- The seeds of the next round. -/
theorem nextSeeds_rebase (hp : p.coverage.Sound image m config.overlap) :
    (p.rebase d).nextSeeds moved = (p.nextSeeds image).map (·.rebase d) := by
  have hselect : ∀ s : Seed, (moved.inCode (s.rebase d).address
        && !(p.rebase d).seeds.any (·.address == (s.rebase d).address)
        && !(p.rebase d).coverage.covers (s.rebase d).address)
      = (image.inCode s.address && !p.seeds.any (·.address == s.address)
        && !p.coverage.covers s.address) := by
    intro s
    have hcode : moved.inCode (s.rebase d).address = image.inCode s.address :=
      himage.inCode s.address
    have hswept : (p.rebase d).seeds.any (·.address == (s.rebase d).address)
        = p.seeds.any (·.address == s.address) := by
      rw [rebase, Array.any_map]
      exact congrArg (p.seeds.any ·) (funext fun t => moveBy_beq t.address s.address d)
    have hcovers : (p.rebase d).coverage.covers (s.rebase d).address
        = p.coverage.covers s.address :=
      Coverage.covers_rebase hp.tidy (hp.movable himage hclip) s.address
    rw [hcode, hswept, hcovers]
  have hproposed : (p.rebase d).proposed = p.proposed.map (·.rebase d) := rfl
  unfold nextSeeds
  rw [hproposed, List.filter_map, Function.comp_def, List.filter_congr fun s _ => hselect s]
  refine Seed.arrange_rebase fun s hs => ?_
  have hcode := (List.mem_filter.mp hs).2
  rw [Bool.and_eq_true, Bool.and_eq_true] at hcode
  exact himage.movable_of_inCode hcode.1.1

/-- The runs of a round. -/
theorem sweepAll_rebase (hmachine : m.Rebasable d) (hcancelled : c'.cancelled = c.cancelled)
    (hp : p.coverage.Sound image m config.overlap)
    (hpending : ∀ s ∈ pending, Movable d s.address) :
    (p.rebase d).sweepAll c' config moved m (pending.map (·.rebase d))
      = (p.sweepAll c config image m pending).map (·.rebase d) := by
  rw [sweepAll_eq_mapIdx, sweepAll_eq_mapIdx, hcancelled]
  apply List.ext_getElem
  · simp
  · intro k h1 h2
    have hk : k < pending.length := by simpa using h1
    have hsweep : Sweep.Movable d moved
        { config, image, machine := m, coverage := p.coverage, seed := pending[k] } :=
      ⟨himage, hclip, hmachine, hp.tidy, hp.movable himage hclip,
        hpending _ (List.getElem_mem hk)⟩
    rw [List.getElem_mapIdx, List.getElem_map, List.getElem_map, List.getElem_mapIdx]
    exact Sweep.run_rebase hsweep _

/-- Merging runs one after another, of which every state in between is sound. -/
theorem foldl_merge_rebase (hignore : config.indirection = .ignore)
    (hp : p.coverage.Sound image m config.overlap) {runs : List Run}
    (hruns : ∀ r ∈ runs, ∀ i ∈ r.entries, i.Genuine image m) :
    (runs.map (·.rebase d)).foldl (merge config moved m) (p.rebase d)
      = (runs.foldl (merge config image m) p).rebase d := by
  induction runs generalizing p with
  | nil => rfl
  | cons r rest ih =>
    have hr := hruns r List.mem_cons_self
    have hsound : (p.merge config image m r).coverage.Sound image m config.overlap :=
      Coverage.sound_merge hclip (fun i hi => hr i (Array.mem_toList_iff.mp hi)) hp
    rw [List.map_cons, List.foldl_cons, List.foldl_cons, merge_rebase himage hclip hignore hp hr,
      ih hsound fun r' hr' => hruns r' (List.mem_cons_of_mem r hr')]

/-- **A round.** -/
theorem round_rebase (hmachine : m.Rebasable d) (hignore : config.indirection = .ignore)
    (hcancelled : c'.cancelled = c.cancelled) (hp : p.coverage.Sound image m config.overlap)
    (hpending : ∀ s ∈ pending, Movable d s.address) :
    (p.rebase d).round c' config moved m (pending.map (·.rebase d))
      = (p.round c config image m pending).rebase d := by
  have hruns := sweepAll_rebase himage hclip hmachine hcancelled hp hpending
  have hbegun : (p.rebase d).begun c' config moved m (pending.map (·.rebase d))
      = (p.begun c config image m pending).rebase d := by
    have hseeds : p.seeds.map (·.rebase d) ++ (pending.map (·.rebase d)).toArray
        = (p.seeds ++ pending.toArray).map (·.rebase d) := by simp
    unfold begun
    rw [hruns, List.length_map, show (p.rebase d).seeds = p.seeds.map (·.rebase d) from rfl, hseeds]
    rfl
  show ((p.rebase d).sweepAll c' config moved m (pending.map (·.rebase d))).foldl
      (merge config moved m) ((p.rebase d).begun c' config moved m (pending.map (·.rebase d))) = _
  rw [hruns, hbegun]
  have hsound : (p.begun c config image m pending).coverage.Sound image m config.overlap := hp
  exact foldl_merge_rebase himage hclip hignore hsound fun r hr => (of_mem_sweepAll hr).1

/-- **Any number of rounds**, whether they are cancelled or not. -/
theorem rounds_rebase (hmachine : m.Rebasable d) (hignore : config.indirection = .ignore)
    (hcancelled : c'.cancelled = c.cancelled) (n : Nat)
    (hp : p.coverage.Sound image m config.overlap)
    (hpending : ∀ s ∈ pending, Movable d s.address) :
    rounds c' config moved m n (p.rebase d) (pending.map (·.rebase d))
      = (rounds c config image m n p pending).map (·.rebase d) := by
  induction n generalizing p pending with
  | zero => cases pending <;> rfl
  | succ n ih =>
    cases pending with
    | nil => rfl
    | cons s rest =>
      have hround := round_rebase himage hclip hmachine hignore hcancelled hp hpending
      have hsound :
          (p.round c config image m (s :: rest)).coverage.Sound image m config.overlap :=
        sound_round hclip hp
      have hnext := nextSeeds_rebase himage hclip hsound
      have hmovable : ∀ t ∈ (p.round c config image m (s :: rest)).nextSeeds image,
          Movable d t.address :=
        fun t ht => himage.movable_of_inCode (mem_nextSeeds ht).2.1
      rw [List.map_cons] at hround ⊢
      rw [rounds, rounds, hcancelled]
      dsimp only
      rw [hround, hnext, ih hsound hmovable]
      show (if c.cancelled (.roundStart p.stats.rounds) ∨ c.cancelled (.roundEnd p.stats.rounds)
        then none else _) = _
      split <;> rfl

end Progress

/-! ## The whole analysis -/

namespace Analysis

/-- The result for an image elsewhere that matches a result, moved by a distance. -/
def rebase (d : Int) (moved : Image) (an : Analysis) : Analysis :=
  { image := moved, machine := an.machine, stream := an.stream.map (·.rebase d)
    seeds := an.seeds.map (·.rebase d), stats := an.stats }

theorem finish_rebase (p : Progress) :
    (p.rebase d).finish moved m = (p.finish image m).rebase d moved := by
  have hstream : (p.rebase d).coverage.entries = p.coverage.entries.map (·.rebase d) := rfl
  have hinvalid : (p.coverage.entries.map (·.rebase d)).countP (·.isInvalid)
      = p.coverage.entries.countP (·.isInvalid) := by
    rw [Array.countP_map]
    exact congrArg (p.coverage.entries.countP ·) (funext (Instruction.isInvalid_rebase d))
  unfold Progress.finish
  rw [hstream]
  dsimp only
  rw [hinvalid, Array.size_map]
  rfl

theorem codeSize_rebase (himage : Image.Rebased d image moved) :
    moved.codeSize = image.codeSize := by
  rw [Image.codeSize, himage.sections, Array.toList_map, List.filter_map, List.map_map]
  rfl

/--
**Rebasing commutes with analysis.**

Let no section wrap, neither where it is nor when it is moved by a distance, and let code pointers
be ignored. Then an image that is built of the moved sections, symbols and entry point has the
result of the image before, moved: the same obstacle or the same statistics, and the same seeds and
entries with their addresses and targets moved. Entry point, symbols and targets may wrap, and the
workers may be scheduled in another way.
-/
theorem rebasing_commutes {m : Machine} {d : Int} (hmachine : m.Rebasable d) {config : Config}
    (hignore : config.indirection = .ignore) (cancelled : Poll → Bool)
    (schedule schedule' : Nat → Nat → Nat) (order : ByteOrder) (entry : UInt64)
    {sections : List Section} (hsections : ∀ s ∈ sections, s.Movable d) (symbols : List Symbol) :
    let image := Image.build (some m) order entry sections symbols
    let moved := Image.build (some m) order (moveBy entry d) (sections.map (·.rebase d))
      (symbols.map (·.rebase d))
    run { cancelled, schedule := schedule' } config moved
      = (run { cancelled, schedule } config image).map (·.rebase d moved) := by
  intro image moved
  have himage : Image.Rebased d image moved := Image.rebased_build hsections
  have hclip : image.Clipped := Image.clipped_build _ _ _ _ _
  have hseeds : moved.initialSeeds = image.initialSeeds.map (·.rebase d) :=
    Image.initialSeeds_rebase hsections
  have hstart : ({} : Progress) = Progress.rebase d {} := by
    simp [Progress.rebase, Coverage.rebase]
  have hrounds := @Progress.rounds_rebase d image moved m config {} image.initialSeeds
    { cancelled, schedule } { cancelled, schedule := schedule' } himage hclip hmachine hignore rfl
    (image.codeSize + 1) Coverage.sound_empty fun s hs => himage.movable_of_mem_initialSeeds hs
  rw [← hstart, ← hseeds] at hrounds
  have hmachines : image.machine = some m ∧ moved.machine = some m := ⟨rfl, rfl⟩
  rw [run_eq hmachines.1, run_eq hmachines.2, himage.any_executable, codeSize_rebase himage,
    hrounds]
  split
  · rcases Progress.rounds { cancelled, schedule } config image m (image.codeSize + 1) {}
      image.initialSeeds with _ | p
    · rfl
    · exact congrArg Except.ok (finish_rebase p)
  · rfl

/-- A jump and what follows its target, two kilobytes further down. -/
theorem rebasing_commutes_down :
    let moved := Image.build (some .x86_64) .little 0x800 (pointerCode.map (·.rebase (-0x800))) []
    (∀ s ∈ pointerCode, s.Movable (-0x800))
      ∧ ∃ an, run {} {} pointerImage = .ok an
        ∧ an.stream.map (fun i => (i.address, i.flow))
          = #[(0x1000, .jump 0x1010), (0x1010, .indirect), (0x1016, .ret)]
        ∧ run {} {} moved = .ok (an.rebase (-0x800) moved)
        ∧ (an.rebase (-0x800) moved).stream.map (fun i => (i.address, i.flow))
          = #[(0x800, .jump 0x810), (0x810, .indirect), (0x816, .ret)] := by
  intro moved
  have hsections : ∀ s ∈ pointerCode, s.Movable (-0x800) := by
    intro s hs
    obtain rfl := List.mem_singleton.mp hs
    exact ⟨by decide, by decide, by decide⟩
  obtain ⟨an, han, hstream⟩ : ∃ an, run {} {} pointerImage = .ok an
      ∧ (an.stream.map (fun i => (i.address, i.flow))
          == #[(0x1000, .jump 0x1010), (0x1010, .indirect), (0x1016, .ret)]
        && (an.rebase (-0x800) moved).stream.map (fun i => (i.address, i.flow))
          == #[(0x800, .jump 0x810), (0x810, .indirect), (0x816, .ret)]) = true :=
    exists_ok_of_any (by decide +kernel)
  obtain ⟨hbefore, hafter⟩ := (Bool.and_eq_true _ _).mp hstream
  have hmoved := @rebasing_commutes .x86_64 (-0x800) trivial {} rfl (fun _ => false)
    (fun _ _ => 0) (fun _ _ => 0) .little 0x1000 pointerCode hsections []
  refine ⟨hsections, an, han, eq_of_beq hbefore, ?_, eq_of_beq hafter⟩
  exact hmoved.trans (congrArg _ han)

end Analysis

end Disassembler
