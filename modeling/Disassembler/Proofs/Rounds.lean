import Disassembler.Analysis
import Disassembler.Proofs.Merge
import Disassembler.Proofs.Pool
import Disassembler.Proofs.Seeds
import Disassembler.Proofs.Sweep

/-!
# From round to round

A round sweeps what is pending and merges the runs one after another, so what survives the merge of
a run survives a round, and what survives a round holds of every state that is reached. The rounds
end by themselves: each one after the first sweeps an address in code that was not swept before,
and there are no more such addresses than rounds are allowed. An analysis that gives a result has
therefore come to a state in which nothing is pending.
-/

namespace Disassembler

namespace Progress

variable {c : Conditions} {config : Config} {image : Image} {m : Machine}
variable {p : Progress} {pending : List Seed}

/-- Was an address swept? -/
def Swept (p : Progress) (a : UInt64) : Prop := ∃ s ∈ p.seeds, s.address = a

theorem not_any_iff_not_swept {a : UInt64} :
    (!p.seeds.any (·.address == a)) = true ↔ ¬ p.Swept a := by
  simp only [Bool.not_eq_true', ← Bool.not_eq_true, Array.any_eq_true', beq_iff_eq]
  rfl

/-! ## The seeds of the next round -/

theorem mem_nextSeeds {s : Seed} (h : s ∈ p.nextSeeds image) :
    s ∈ p.proposed ∧ image.inCode s.address = true ∧ ¬ p.Swept s.address := by
  obtain ⟨hmem, hnew⟩ := List.mem_filter.mp (Seed.mem_of_mem_arrange h)
  simp only [Bool.and_eq_true] at hnew
  exact ⟨hmem, hnew.1.1, not_any_iff_not_swept.mp hnew.1.2⟩

/-- What is proposed in code is swept, covered or pending next. -/
theorem exists_mem_nextSeeds {s : Seed} (h : s ∈ p.proposed) (hcode : image.inCode s.address = true)
    (hswept : ¬ p.Swept s.address) (hcovers : ¬ p.coverage.covers s.address = true) :
    ∃ t ∈ p.nextSeeds image, t.address = s.address := by
  refine Seed.exists_mem_arrange (List.mem_filter.mpr ⟨h, ?_⟩)
  simp only [Bool.and_eq_true]
  exact ⟨⟨hcode, not_any_iff_not_swept.mpr hswept⟩, by simpa using hcovers⟩

/-! ## The runs of a round -/

/-- However the workers are scheduled, the runs are those of one seed after another. -/
theorem sweepAll_eq_mapIdx :
    p.sweepAll c config image m pending = pending.mapIdx fun k seed =>
      Sweep.run { config, image, machine := m, coverage := p.coverage, seed }
        fun entry => c.cancelled (.sweep p.stats.rounds k entry) := by
  rw [sweepAll, Pool.run_eq_map]
  apply List.ext_getElem
  · simp
  · intro i h1 h2
    simp

/-- A run of a round is genuine and without a gap from a seed that was pending. -/
theorem of_mem_sweepAll {r : Run} (h : r ∈ p.sweepAll c config image m pending) :
    (∀ i ∈ r.entries, i.Genuine image m)
      ∧ ∃ s ∈ pending, ∃ b, Contiguous s.address r.entries.toList b := by
  rw [sweepAll_eq_mapIdx] at h
  obtain ⟨k, hk, rfl⟩ := List.mem_mapIdx.mp h
  obtain ⟨b, hb⟩ := Sweep.upto_run
    { config, image, machine := m, coverage := p.coverage, seed := pending[k] }
    fun entry => c.cancelled (.sweep p.stats.rounds k entry)
  exact ⟨hb.genuine, pending[k], List.getElem_mem hk, b, hb.gapless⟩

/-! ## The merges of a round -/

/-- A round of which nothing is merged yet. -/
def begun (c : Conditions) (config : Config) (image : Image) (m : Machine) (p : Progress)
    (pending : List Seed) : Progress :=
  { p with
    seeds := p.seeds ++ pending.toArray
    proposed := []
    stats := { p.stats with
      rounds := p.stats.rounds + 1
      sweeps := p.stats.sweeps + (p.sweepAll c config image m pending).length } }

/-- A round of which the first `k` runs are merged. -/
def afterMerges (c : Conditions) (config : Config) (image : Image) (m : Machine) (p : Progress)
    (pending : List Seed) (k : Nat) : Progress :=
  ((p.sweepAll c config image m pending).take k).foldl (merge config image m)
    (p.begun c config image m pending)

theorem afterMerges_succ {k : Nat} {r : Run}
    (hr : (p.sweepAll c config image m pending)[k]? = some r) :
    p.afterMerges c config image m pending (k + 1)
      = (p.afterMerges c config image m pending k).merge config image m r := by
  simp only [afterMerges, List.take_add_one, hr, Option.toList_some, List.foldl_append,
    List.foldl_cons, List.foldl_nil]

/-- The coverage of a round of which the first `k` runs and `n` entries of the next are merged. -/
def afterSteps (c : Conditions) (config : Config) (image : Image) (m : Machine) (p : Progress)
    (pending : List Seed) (k n : Nat) : Coverage :=
  let next := ((p.sweepAll c config image m pending)[k]?.map (·.entries.toList)).getD []
  ((p.afterMerges c config image m pending k).coverage.merge config.overlap (next.take n)).coverage

theorem afterSteps_zero {k : Nat} : p.afterSteps c config image m pending k 0
    = (p.afterMerges c config image m pending k).coverage := by
  simp only [afterSteps, List.take_zero, Coverage.merge]

/-- After the last step of a merge the run is merged. -/
theorem afterSteps_of_size_le {k n : Nat} {r : Run}
    (hr : (p.sweepAll c config image m pending)[k]? = some r) (hn : r.entries.size ≤ n) :
    p.afterSteps c config image m pending k n
      = (p.afterMerges c config image m pending (k + 1)).coverage := by
  have hall : r.entries.toList.take n = r.entries.toList := List.take_of_length_le hn
  rw [afterMerges_succ hr]
  simp only [afterSteps, hr, Option.map_some, Option.getD_some, hall]
  rfl

theorem round_eq_afterMerges :
    p.round c config image m pending
      = p.afterMerges c config image m pending (p.sweepAll c config image m pending).length := by
  rw [afterMerges, List.take_length]
  rfl

/-- What is left of a round of which `k` runs are merged. -/
theorem round_eq_foldl_drop (k : Nat) :
    p.round c config image m pending
      = ((p.sweepAll c config image m pending).drop k).foldl (merge config image m)
        (p.afterMerges c config image m pending k) := by
  rw [afterMerges, ← List.foldl_append, List.take_append_drop]
  rfl

/-- **What survives the merge of a run survives any number of them.** -/
theorem afterMerges_preserves {I : Progress → Prop} (hbegun : I (p.begun c config image m pending))
    (hmerge : ∀ q, ∀ r ∈ p.sweepAll c config image m pending, I q → I (q.merge config image m r))
    (k : Nat) : I (p.afterMerges c config image m pending k) :=
  List.foldlRecOn _ _ hbegun fun q hq r hr => hmerge q r (List.mem_of_mem_take hr) hq

theorem round_preserves {I : Progress → Prop} (hbegun : I (p.begun c config image m pending))
    (hmerge : ∀ q, ∀ r ∈ p.sweepAll c config image m pending, I q → I (q.merge config image m r)) :
    I (p.round c config image m pending) := by
  rw [round_eq_afterMerges]
  exact afterMerges_preserves hbegun hmerge _

/-- A round sweeps what was pending. -/
theorem seeds_round : (p.round c config image m pending).seeds = p.seeds ++ pending.toArray :=
  round_preserves (I := fun q => q.seeds = p.seeds ++ pending.toArray) rfl fun _ _ _ h => h

theorem swept_round {a : UInt64} :
    (p.round c config image m pending).Swept a ↔ p.Swept a ∨ ∃ s ∈ pending, s.address = a := by
  simp only [Swept, seeds_round, Array.mem_append, List.mem_toArray, or_and_right, exists_or]

theorem rounds_round : (p.round c config image m pending).stats.rounds = p.stats.rounds + 1 :=
  round_preserves (I := fun q => q.stats.rounds = p.stats.rounds + 1) rfl fun _ _ _ h => h

/-! ## The states between rounds -/

/-- The states between the rounds of an analysis, with the seeds that are pending there. -/
inductive Reached (c : Conditions) (config : Config) (image : Image) (m : Machine) :
    Progress → List Seed → Prop where
  | start : Reached c config image m {} image.initialSeeds
  | round {p : Progress} {pending : List Seed} : Reached c config image m p pending →
      pending ≠ [] →
      Reached c config image m (p.round c config image m pending)
        ((p.round c config image m pending).nextSeeds image)

end Progress

/-! ## The end of the rounds -/

namespace Image

/-- The addresses of all executable sections, with those where a section wraps. -/
def codeAddresses (image : Image) : List UInt64 :=
  (image.sections.toList.filter (·.executable)).flatMap fun s =>
    (List.range s.size.toNat).map fun k => s.start + UInt64.ofNat k

theorem length_codeAddresses (image : Image) : image.codeAddresses.length = image.codeSize := by
  simp only [codeAddresses, codeSize, List.length_flatMap, List.length_map, List.length_range]
  rfl

theorem mem_codeAddresses {image : Image} {a : UInt64} (h : image.inCode a = true) :
    a ∈ image.codeAddresses := by
  obtain ⟨s, hs, hexec⟩ := inCode_iff.mp h
  have hcontains := contains_of_sectionFor hs
  have hstart := Section.start_le_of_contains hcontains
  have hlt := Section.lt_of_contains hcontains
  refine List.mem_flatMap.mpr ⟨s, ?_, List.mem_map.mpr ⟨a.toNat - s.start.toNat, ?_, ?_⟩⟩
  · exact List.mem_filter.mpr ⟨Array.mem_toList_iff.mpr (mem_of_sectionFor hs), hexec⟩
  · exact List.mem_range.mpr (by omega)
  · -- the section does not wrap, as it holds the address
    apply UInt64.toNat_inj.mp
    have ha := a.toNat_lt
    simp only [UInt64.toNat_add, UInt64.toNat_ofNat']
    omega

end Image

/-- A stronger property that excludes an entry holds of fewer. -/
theorem countP_lt_countP {α : Type} {p q : α → Bool} {l : List α}
    (himp : ∀ x, q x = true → p x = true) {x : α} (hx : x ∈ l) (hp : p x = true)
    (hq : ¬ q x = true) : l.countP q < l.countP p := by
  -- the smaller selection can be made from the larger one
  have hboth : l.filter q = (l.filter p).filter q := by
    rw [List.filter_filter]
    refine List.filter_congr fun y _ => ?_
    rcases hy : q y with _ | _
    · rfl
    · simp [himp y hy]
  rw [List.countP_eq_length_filter, List.countP_eq_length_filter, hboth]
  exact List.length_filter_lt_length_iff_exists.mpr ⟨x, List.mem_filter.mpr ⟨hx, hp⟩, hq⟩

namespace Progress

variable {c : Conditions} {config : Config} {image : Image} {m : Machine}
variable {p q : Progress} {pending : List Seed}

/-- The number of addresses in executable sections that were not swept. -/
def unswept (image : Image) (p : Progress) : Nat :=
  image.codeAddresses.countP fun a => !p.seeds.any (·.address == a)

theorem unswept_le_codeSize : p.unswept image ≤ image.codeSize := by
  rw [← Image.length_codeAddresses]
  exact List.countP_le_length

/-- A round that sweeps a new address in code leaves fewer. -/
theorem unswept_round_lt {s : Seed} (hs : s ∈ pending) (hcode : image.inCode s.address = true)
    (hnew : ¬ p.Swept s.address) :
    (p.round c config image m pending).unswept image < p.unswept image := by
  refine countP_lt_countP (fun a ha => ?_) (Image.mem_codeAddresses hcode) ?_ ?_
  · have ha := not_any_iff_not_swept.mp ha
    exact not_any_iff_not_swept.mpr fun hold => ha (swept_round.mpr (Or.inl hold))
  · exact not_any_iff_not_swept.mpr hnew
  · exact fun h => not_any_iff_not_swept.mp h (swept_round.mpr (Or.inr ⟨s, hs, rfl⟩))

/-- **The loop of rounds ends with a result**, which is nothing if it is cancelled. It goes on for
as long as seeds are pending, and counts nothing. -/
inductive Ends (c : Conditions) (config : Config) (image : Image) (m : Machine) :
    Progress → List Seed → Option Progress → Prop where
  | done {p : Progress} : Ends c config image m p [] (some p)
  | cancelled {p : Progress} {pending : List Seed} : pending ≠ [] →
      (c.cancelled (.roundStart p.stats.rounds) = true
        ∨ c.cancelled (.roundEnd p.stats.rounds) = true) →
      Ends c config image m p pending none
  | round {p : Progress} {pending : List Seed} {r : Option Progress} : pending ≠ [] →
      ¬ (c.cancelled (.roundStart p.stats.rounds) = true
        ∨ c.cancelled (.roundEnd p.stats.rounds) = true) →
      Ends c config image m (p.round c config image m pending)
        ((p.round c config image m pending).nextSeeds image) r →
      Ends c config image m p pending r

/-- A loop that ends without being cancelled has come to where nothing is pending. -/
theorem Ends.reached {r : Option Progress} (h : Ends c config image m p pending r)
    (hp : Reached c config image m p pending) :
    ∀ q, r = some q → Reached c config image m q [] := by
  induction h with
  | done =>
    intro q hq
    obtain rfl := Option.some.inj hq
    exact hp
  | cancelled => exact fun q hq => absurd hq (by simp)
  | round hne _ _ ih => exact ih (hp.round hne)

/-- A loop in which something is pending ends like the one behind its next round. -/
theorem Ends.of_ne_nil (h : Ends c config image m p pending (some q)) (hne : pending ≠ []) :
    ¬ (c.cancelled (.roundStart p.stats.rounds) = true
        ∨ c.cancelled (.roundEnd p.stats.rounds) = true)
      ∧ Ends c config image m (p.round c config image m pending)
        ((p.round c config image m pending).nextSeeds image) (some q) := by
  cases h with
  | done => exact absurd rfl hne
  | round _ hgo hrest => exact ⟨hgo, hrest⟩

/-- All states that are reached come to the same end. -/
theorem Ends.of_reached (h : Ends c config image m {} image.initialSeeds (some q))
    (hp : Reached c config image m p pending) : Ends c config image m p pending (some q) := by
  induction hp with
  | start => exact h
  | round _ hne ih => exact (ih.of_ne_nil hne).2

/-- The loop has one result at most. -/
theorem Ends.unique {r r' : Option Progress} (h : Ends c config image m p pending r)
    (h' : Ends c config image m p pending r') : r = r' := by
  induction h with
  | done =>
    cases h' with
    | done => rfl
    | cancelled hne => exact absurd rfl hne
    | round hne => exact absurd rfl hne
  | cancelled hne hcancelled =>
    cases h' with
    | done => exact absurd rfl hne
    | cancelled => rfl
    | round _ hgo => exact absurd hcancelled hgo
  | round hne hgo _ ih =>
    cases h' with
    | done => exact absurd rfl hne
    | cancelled _ hcancelled => exact absurd hcancelled hgo
    | round _ _ hrest => exact ih hrest

/-- Rounds that begin with new addresses in code end before as many rounds as such addresses. -/
theorem ends_rounds_of_new {n : Nat}
    (hnew : ∀ s ∈ pending, image.inCode s.address = true ∧ ¬ p.Swept s.address)
    (hn : p.unswept image ≤ n) :
    Ends c config image m p pending (rounds c config image m n p pending) := by
  induction n generalizing p pending with
  | zero =>
    rcases pending with _ | ⟨s, rest⟩
    · exact Ends.done
    · -- a new address would still be left
      obtain ⟨hcode, hswept⟩ := hnew s List.mem_cons_self
      have hlt : (p.round c config image m (s :: rest)).unswept image < p.unswept image :=
        unswept_round_lt List.mem_cons_self hcode hswept
      omega
  | succ n ih =>
    rcases pending with _ | ⟨s, rest⟩
    · exact Ends.done
    · obtain ⟨hcode, hswept⟩ := hnew s List.mem_cons_self
      rw [rounds]
      split
      · rename_i hcancelled
        exact Ends.cancelled (List.cons_ne_nil s rest) hcancelled
      · rename_i hgo
        have hlt : (p.round c config image m (s :: rest)).unswept image < p.unswept image :=
          unswept_round_lt List.mem_cons_self hcode hswept
        exact Ends.round (List.cons_ne_nil s rest) hgo
          (ih (fun t ht => (mem_nextSeeds ht).2) (by omega))

/-- **The rounds that an analysis is allowed are enough.** -/
theorem ends_rounds : Ends c config image m {} image.initialSeeds
    (rounds c config image m (image.codeSize + 1) {} image.initialSeeds) := by
  rcases image.initialSeeds with _ | ⟨s, rest⟩
  · exact Ends.done
  · -- the first seeds need not lie in code, so the first round is set apart
    rw [rounds]
    split
    · rename_i hcancelled
      exact Ends.cancelled (List.cons_ne_nil s rest) hcancelled
    · rename_i hgo
      exact Ends.round (List.cons_ne_nil s rest) hgo
        (ends_rounds_of_new (fun t ht => (mem_nextSeeds ht).2) unswept_le_codeSize)

end Progress

namespace Analysis

/-- An analysis of an image whose machine is known. -/
theorem run_eq {c : Conditions} {config : Config} {image : Image} {m : Machine}
    (hm : image.machine = some m) : run c config image =
    if image.sections.any (·.executable) then
      (Progress.rounds c config image m (image.codeSize + 1) {} image.initialSeeds).elim
        (.error .cancelled) fun p => .ok (p.finish image m)
    else .error .noCode := by
  unfold run
  split
  · rename_i hnone
    exact absurd (hnone.symm.trans hm) (by simp)
  · rename_i m' hm'
    obtain rfl : m' = m := Option.some.inj (hm'.symm.trans hm)
    split
    · cases Progress.rounds c config image m' (image.codeSize + 1) {} image.initialSeeds <;> rfl
    · rfl

/-- An analysis that gives a result is made from the end of its rounds. -/
theorem ends_of_run {c : Conditions} {config : Config} {image : Image} {an : Analysis}
    (h : run c config image = .ok an) : ∃ m p, image.machine = some m
      ∧ Progress.Ends c config image m {} image.initialSeeds (some p) ∧ an = p.finish image m := by
  unfold run at h
  split at h
  · exact absurd h (by simp)
  · rename_i m hm
    split at h
    · split at h
      · rename_i p hp
        exact ⟨m, p, hm, hp ▸ Progress.ends_rounds, (Except.ok.inj h).symm⟩
      · exact absurd h (by simp)
    · exact absurd h (by simp)

/-- **An analysis that gives a result has come to where nothing is pending.** -/
theorem reached_of_run {c : Conditions} {config : Config} {image : Image} {an : Analysis}
    (h : run c config image = .ok an) :
    ∃ m p, image.machine = some m ∧ Progress.Reached c config image m p []
      ∧ an = p.finish image m := by
  obtain ⟨m, p, hm, hends, han⟩ := ends_of_run h
  exact ⟨m, p, hm, hends.reached Progress.Reached.start p rfl, han⟩

end Analysis

end Disassembler
