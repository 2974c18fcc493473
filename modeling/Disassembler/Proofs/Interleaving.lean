import Disassembler.Proofs.Cancellation

/-!
# Workers cannot be told apart

An analysis has one pool of workers, which sweeps the seeds of one round after another. Here its
workers make their moves one by one and in any order that is possible, while the analysis submits
the seeds of the round, waits until the pool is idle, and merges. However that goes, the runs of
each round are those of one seed after another, so the analysis comes to the same end, and it does
come to an end.

A move can be taken for one step because the pool hands out tasks and counts the active ones under
one lock, and because a sweep reads only what no one writes during a round and writes its run alone.
-/

namespace Disassembler

/-! ## Settings that do not matter -/

/-- A sweep does not ask how many workers there are. -/
theorem Sweep.sweepFrom_workers (s : Sweep) (workers : Nat) (cancelled : Nat → Bool)
    (entries : Array Instruction) (a : UInt64) (invalid : Nat) (last : Bool) :
    { s with config := { s.config with workers } }.sweepFrom cancelled entries a invalid last
      = s.sweepFrom cancelled entries a invalid last := by
  have hadmits : Sweep.admits { s with config := { s.config with workers } } = s.admits := rfl
  have hends : Sweep.endsAt { s with config := { s.config with workers } } = s.endsAt := rfl
  fun_induction sweepFrom s cancelled entries a invalid last with
  | case1 entries a invalid last hstop =>
    rw [sweepFrom, hadmits, if_pos hstop]
  | case2 entries a invalid last hgo i count hdata =>
    rw [sweepFrom, hadmits, if_neg hgo]
    simp only [hends]
    exact if_pos hdata
  | case3 entries a invalid last hgo i count hdata ending hnext ih =>
    rw [sweepFrom, hadmits, if_neg hgo]
    simp only [hends]
    exact (if_neg hdata).trans ((dif_pos hnext).trans ih)
  | case4 entries a invalid last hgo i count hdata ending hnext =>
    rw [sweepFrom, hadmits, if_neg hgo]
    simp only [hends]
    exact (if_neg hdata).trans (dif_neg hnext)

namespace Progress

variable {c : Conditions} {config : Config} {image : Image} {m : Machine}
variable {p : Progress} {pending : List Seed}

/-- A round depends neither on the number of workers nor on their schedule. -/
theorem round_workers (workers : Nat) (schedule : Nat → Nat → Nat) :
    p.round { c with schedule } { config with workers } image m pending
      = p.round c config image m pending := by
  have hruns : p.sweepAll { c with schedule } { config with workers } image m pending
      = p.sweepAll c config image m pending := by
    rw [sweepAll_eq_mapIdx, sweepAll_eq_mapIdx]
    refine congrArg (List.mapIdx · pending) (funext fun k => funext fun seed => ?_)
    exact Sweep.sweepFrom_workers { config, image, machine := m, coverage := p.coverage, seed }
      workers _ _ _ _ _
  unfold round
  rw [hruns]
  rfl

theorem rounds_workers (workers : Nat) (schedule : Nat → Nat → Nat) (n : Nat) :
    rounds { c with schedule } { config with workers } image m n p pending
      = rounds c config image m n p pending := by
  induction n generalizing p pending with
  | zero => cases pending <;> rfl
  | succ n ih => cases pending with
    | nil => rfl
    | cons s rest => simp only [rounds, round_workers, ih]

end Progress

/-- **An analysis depends neither on the number of workers nor on their schedule.** -/
theorem Analysis.run_workers (c : Conditions) (config : Config) (image : Image) (workers : Nat)
    (schedule : Nat → Nat → Nat) :
    run { c with schedule } { config with workers } image = run c config image := by
  simp only [run, Progress.rounds_workers]

/-! ## Analyses under way -/

namespace Progress

/-- The run of a seed, by its place among the seeds that are pending. -/
def sweepOne (c : Conditions) (config : Config) (image : Image) (m : Machine) (p : Progress)
    (t : Nat × Seed) : Run :=
  Sweep.run { config, image, machine := m, coverage := p.coverage, seed := t.2 }
    fun entry => c.cancelled (.sweep p.stats.rounds t.1 entry)

/-- A round whose runs are known. -/
def collect (config : Config) (image : Image) (m : Machine) (p : Progress) (pending : List Seed)
    (runs : List Run) : Progress :=
  runs.foldl (merge config image m) { p with
    seeds := p.seeds ++ pending.toArray
    proposed := []
    stats := { p.stats with
      rounds := p.stats.rounds + 1, sweeps := p.stats.sweeps + runs.length } }

theorem round_eq_collect (c : Conditions) (config : Config) (image : Image) (m : Machine)
    (p : Progress) (pending : List Seed) : p.round c config image m pending
      = p.collect config image m pending (p.sweepAll c config image m pending) := rfl

end Progress

/-- An analysis whose workers are under way: what was merged, the seeds that are pending, and the
pool that sweeps them. -/
structure Underway where
  progress : Progress
  pending : List Seed
  pool : Pool (Nat × Seed) Run

namespace Underway

variable {c : Conditions} {config : Config} {image : Image} {m : Machine} {n : Nat}
variable {s t : Underway}

/-- An analysis that has a pool of `n` workers and has not begun its first round. -/
def start (image : Image) (n : Nat) : Underway where
  progress := {}
  pending := image.initialSeeds
  pool := Pool.ofTasks n (Pool.slotted image.initialSeeds)

/-- Is a round under way? -/
def Open (c : Conditions) (s : Underway) : Prop :=
  s.pending ≠ [] ∧ c.cancelled (.roundStart s.progress.stats.rounds) = false

/-- All seeds of the round are submitted, and the wait for the pool is over. -/
def Settled (s : Underway) : Prop := s.pool.waiting = [] ∧ s.pool.Idle

/-- The runs that the pool leaves, in the order of the seeds. -/
def runs (s : Underway) : List Run := s.pool.results s.pending.length

/-- The analysis after a move of the pool. -/
def moved (c : Conditions) (config : Config) (image : Image) (m : Machine) (s : Underway)
    (mv : Pool.Move) : Underway :=
  { s with pool := s.pool.after (s.progress.sweepOne c config image m) mv }

/-- The analysis after the runs are merged, with the same pool for the next round. -/
def merged (config : Config) (image : Image) (m : Machine) (s : Underway) : Underway :=
  let progress := s.progress.collect config image m s.pending s.runs
  let pending := progress.nextSeeds image
  { progress, pending, pool := s.pool.refill (Pool.slotted pending) }

/-- **A step of an analysis**: any move of its pool that is possible in a round, or the merge of a
round that is settled. -/
inductive Step (c : Conditions) (config : Config) (image : Image) (m : Machine) :
    Underway → Underway → Prop where
  | move {s : Underway} {mv : Pool.Move} : s.Open c → mv ∈ s.pool.moves →
      Step c config image m s (s.moved c config image m mv)
  | merge {s : Underway} : s.Open c → s.Settled →
      c.cancelled (.roundEnd s.progress.stats.rounds) = false →
      Step c config image m s (s.merged config image m)

/-- What an analysis returns: its result once no seed is pending, and nothing if it finds itself
cancelled at the beginning or the end of a round. -/
inductive Returns (c : Conditions) (image : Image) (m : Machine) (s : Underway) :
    Except Obstacle Analysis → Prop where
  | found : s.pending = [] → Returns c image m s (.ok (s.progress.finish image m))
  | cancelledBefore : s.pending ≠ [] →
      c.cancelled (.roundStart s.progress.stats.rounds) = true →
      Returns c image m s (.error .cancelled)
  | cancelledAfter : s.Open c → s.Settled →
      c.cancelled (.roundEnd s.progress.stats.rounds) = true →
      Returns c image m s (.error .cancelled)

/-- The states of an analysis with `n` workers. -/
inductive Reachable (c : Conditions) (config : Config) (image : Image) (m : Machine) (n : Nat) :
    Underway → Prop where
  | start : Reachable c config image m n (start image n)
  | step {s t : Underway} : Reachable c config image m n s → Step c config image m s t →
      Reachable c config image m n t

/-! ## Rounds -/

/-- The pool serves the seeds that are pending. -/
def Serving (c : Conditions) (config : Config) (image : Image) (m : Machine) (n : Nat)
    (s : Underway) : Prop :=
  Pool.Serves n (s.progress.sweepOne c config image m) (Pool.slotted s.pending) s.pool

theorem Serving.moved (h : s.Serving c config image m n) {mv : Pool.Move}
    (hmv : mv ∈ s.pool.moves) : (s.moved c config image m mv).Serving c config image m n :=
  Pool.Serves.move h hmv

theorem Serving.merged (h : s.Serving c config image m n) (hsettled : s.Settled) :
    (s.merged config image m).Serving c config image m n :=
  Pool.Serves.refill _ _ h hsettled.1 hsettled.2

/-- **A step keeps the pool with the seeds that are pending.** -/
theorem Serving.step (h : s.Serving c config image m n) (hstep : Step c config image m s t) :
    t.Serving c config image m n := by
  cases hstep with
  | move _ hmv => exact h.moved hmv
  | merge _ hsettled => exact h.merged hsettled

theorem Reachable.serving (h : Reachable c config image m n s) : s.Serving c config image m n := by
  induction h with
  | start => exact Pool.Serves.new _ _
  | step _ hstep ih => exact ih.step hstep

/-- **The runs of a settled round are those of one seed after another.** -/
theorem Serving.runs_eq (h : s.Serving c config image m n) (hsettled : s.Settled) :
    s.runs = s.pending.mapIdx fun k seed => s.progress.sweepOne c config image m (k, seed) := by
  have hlength : (Pool.slotted s.pending).length = s.pending.length := by simp [Pool.slotted]
  have hresults := Pool.Serves.results_eq h hsettled.1 hsettled.2
  rw [hlength] at hresults
  rw [runs, hresults]
  apply List.ext_getElem
  · simp [Pool.slotted]
  · intro i h1 h2
    simp [Pool.slotted]

/-- So the merge of a settled round completes the round. -/
theorem Serving.progress_merged (h : s.Serving c config image m n) (hsettled : s.Settled) :
    (s.merged config image m).progress = s.progress.round c config image m s.pending := by
  rw [Progress.round_eq_collect, Progress.sweepAll_eq_mapIdx]
  exact congrArg (s.progress.collect config image m s.pending) (h.runs_eq hsettled)

/-- How the rounds of an analysis end from a state on. -/
def Ends (c : Conditions) (config : Config) (image : Image) (m : Machine) (s : Underway)
    (r : Option Progress) : Prop :=
  Progress.Ends c config image m s.progress s.pending r

/-- **After a step the rounds end as they would have ended before it.** -/
theorem Serving.ends_of_step (h : s.Serving c config image m n)
    (hstep : Step c config image m s t) {r : Option Progress} (hends : t.Ends c config image m r) :
    s.Ends c config image m r := by
  cases hstep with
  | move _ _ =>
    -- only the pool has changed
    exact hends
  | merge hopen hsettled hend =>
    have hpending : (s.merged config image m).pending
        = (s.merged config image m).progress.nextSeeds image := rfl
    rw [Ends, hpending, h.progress_merged hsettled] at hends
    exact Progress.Ends.round hopen.1 (by simp [hopen.2, hend]) hends

/-- The rounds end as those of the analysis. -/
theorem Reachable.ends_eq (h : Reachable c config image m n s) {r : Option Progress}
    (hends : s.Ends c config image m r) :
    r = Progress.rounds c config image m (image.codeSize + 1) {} image.initialSeeds := by
  induction h with
  | start => exact Progress.Ends.unique hends Progress.ends_rounds
  | step hs hstep ih => exact ih (hs.serving.ends_of_step hstep hends)

/-! ## Results -/

/-- What is returned is where the rounds end. -/
theorem Returns.ends (config : Config) {r : Except Obstacle Analysis}
    (h : s.Returns c image m r) :
    ∃ o, s.Ends c config image m o
      ∧ r = o.elim (.error .cancelled) fun p => .ok (p.finish image m) := by
  cases h with
  | found hnil =>
    refine ⟨some s.progress, ?_, rfl⟩
    rw [Ends, hnil]
    exact Progress.Ends.done
  | cancelledBefore hne hset => exact ⟨none, Progress.Ends.cancelled hne (Or.inl hset), rfl⟩
  | cancelledAfter hopen _ hset => exact ⟨none, Progress.Ends.cancelled hopen.1 (Or.inr hset), rfl⟩

/-- **Whatever the moves were, an analysis returns what the program returns.** -/
theorem Reachable.returns_eq_run (h : Reachable c config image m n s)
    (hm : image.machine = some m) (hcode : image.sections.any (·.executable) = true)
    {r : Except Obstacle Analysis} (hr : s.Returns c image m r) :
    r = Analysis.run c config image := by
  obtain ⟨o, hends, rfl⟩ := hr.ends config
  rw [Analysis.run_eq hm, if_pos hcode, h.ends_eq hends]

/-- A result is that of an analysis which is never cancelled. -/
theorem run_eq_of_persistent (hc : c.Persistent) (schedule : Nat → Nat → Nat) {an : Analysis}
    (h : Analysis.run c config image = .ok an) :
    Analysis.run { schedule } config image = .ok an := by
  obtain ⟨m, q, hm, -, -⟩ := Analysis.ends_of_run h
  rw [Analysis.run_eq hm] at h ⊢
  split at h
  · rename_i hcode
    rw [if_pos hcode]
    obtain ⟨q, hq⟩ : ∃ q, Progress.rounds { schedule } config image m (image.codeSize + 1) {}
        image.initialSeeds = some q := Progress.exists_rounds _ _ _
    rcases Progress.rounds_of_persistent hc hq with ⟨hcancelled, -⟩ | ⟨hsame, -⟩
    · rw [hcancelled] at h
      exact absurd h (by simp)
    · rw [hq, ← hsame]
      exact h
  · exact absurd h (by simp)

/-! ## Progress and termination -/

/-- As long as nothing is returned, a step is possible. -/
theorem Serving.returns_or_step (h : s.Serving c config image m n) :
    (∃ r, s.Returns c image m r) ∨ ∃ t, Step c config image m s t := by
  by_cases hnil : s.pending = []
  · exact Or.inl ⟨_, .found hnil⟩
  rcases hset : c.cancelled (.roundStart s.progress.stats.rounds) with _ | _
  · have hopen : s.Open c := ⟨hnil, hset⟩
    by_cases hmoves : s.pool.moves = []
    · have hsettled : s.Settled := (Pool.moves_eq_nil_iff (Pool.Serves.workers_pos h)).mp hmoves
      rcases hend : c.cancelled (.roundEnd s.progress.stats.rounds) with _ | _
      · exact Or.inr ⟨_, .merge hopen hsettled hend⟩
      · exact Or.inl ⟨_, .cancelledAfter hopen hsettled hend⟩
    · obtain ⟨mv, hmv⟩ := List.exists_mem_of_ne_nil _ hmoves
      exact Or.inr ⟨_, .move hopen hmv⟩
  · exact Or.inl ⟨_, .cancelledBefore hnil hset⟩

/-- No sequence of steps from a state goes on for ever. -/
def Terminates (c : Conditions) (config : Config) (image : Image) (m : Machine)
    (s : Underway) : Prop :=
  Acc (fun t s => Step c config image m s t) s

/-- A round ends, since each move leaves fewer of them. What comes then begins with a merge. -/
theorem Serving.terminates_of_merged (h : s.Serving c config image m n)
    (hmerged : ∀ s' : Underway, s'.progress = s.progress → s'.pending = s.pending →
      s'.Serving c config image m n → s'.Open c → s'.Settled →
      c.cancelled (.roundEnd s'.progress.stats.rounds) = false →
      (s'.merged config image m).Terminates c config image m) :
    s.Terminates c config image m := by
  induction hleft : s.pool.left using Nat.strongRecOn generalizing s with
  | _ left ih =>
    refine Acc.intro _ fun t hstep => ?_
    cases hstep with
    | move _ hmv =>
      exact ih _ (hleft ▸ Pool.left_after_lt _ _ hmv) (h.moved hmv) hmerged rfl
    | merge hopen hsettled hend => exact hmerged s rfl rfl h hopen hsettled hend

theorem Serving.terminates_of_ends {p : Progress} {pending : List Seed} {r : Option Progress}
    (hends : Progress.Ends c config image m p pending r) {s : Underway} (hp : s.progress = p)
    (hpending : s.pending = pending) (h : s.Serving c config image m n) :
    s.Terminates c config image m := by
  induction hends generalizing s with
  | done =>
    -- no round is open without a seed
    refine h.terminates_of_merged fun s' _ hpending' _ hopen _ _ => ?_
    exact absurd (hpending'.trans hpending) hopen.1
  | cancelled _ hset =>
    -- and what is cancelled is not merged
    refine h.terminates_of_merged fun s' hp' _ _ hopen _ hend => ?_
    rw [← hp, ← hp', hopen.2, hend] at hset
    exact absurd hset (by simp)
  | round _ _ _ ih =>
    refine h.terminates_of_merged fun s' hp' hpending' h' _ hsettled _ => ?_
    have hround := h'.progress_merged hsettled
    rw [hp', hpending', hp, hpending] at hround
    refine ih hround ?_ (h'.merged hsettled)
    rw [← hround]
    rfl

/-- **Every analysis comes to an end**, whichever moves are made. -/
theorem Reachable.terminates (h : Reachable c config image m n s) :
    s.Terminates c config image m := by
  induction h with
  | start =>
    have hserving : (Underway.start image n).Serving c config image m n := Pool.Serves.new _ _
    exact hserving.terminates_of_ends Progress.ends_rounds rfl rfl
  | step _ hstep ih => exact ih.inv hstep

end Underway

/--
**Workers cannot be told apart.**

Take a pool of any positive number of workers that serves some batch of tasks, after any number of
other batches, with its moves in any order. No more tasks are active than there are workers, and
whenever the pool is idle each task of the batch that was submitted has been carried out once.

So it is with the pool of an analysis, whichever steps the analysis has made. The runs of a round
that is settled are those of sweeping one seed after another. The analysis goes on as long as it has
not returned, and not for ever, and what it returns is what the program returns with any setting for
the workers and any schedule. If it returns a result, that is the one of an analysis that is never
cancelled.
-/
theorem Analysis.interleaving_unobservable {c : Conditions} {config : Config} {image : Image}
    {m : Machine} {n : Nat} (hn : 1 ≤ n) (hm : image.machine = some m)
    (hcode : image.sections.any (·.executable) = true) {s : Underway}
    (hs : Underway.Reachable c config image m n s) :
    (∀ {α β : Type} {work : α → β} {tasks : List α} {p : Pool α β}, Pool.Serves n work tasks p →
      p.active.length ≤ n ∧ (p.Idle → ∃ k, k + p.waiting.length = tasks.length
        ∧ p.finished.Perm ((tasks.take k).mapIdx fun i t => (i, work t))))
      ∧ (s.Serving c config image m n ∧ (s.Settled → s.runs = s.pending.mapIdx fun k seed =>
        Sweep.run { config, image, machine := m, coverage := s.progress.coverage, seed }
          fun entry => c.cancelled (.sweep s.progress.stats.rounds k entry)))
      ∧ (((∃ r, s.Returns c image m r) ∨ ∃ t, Underway.Step c config image m s t)
        ∧ s.Terminates c config image m)
      ∧ ∀ r, s.Returns c image m r → ∀ workers schedule,
        run { c with schedule } { config with workers } image = r
          ∧ ∀ an, r = .ok an → c.Persistent →
            run { schedule } { config with workers } image = .ok an := by
  have hserving := hs.serving
  refine ⟨fun {α β work tasks p} h => ⟨?_, h.finished_perm⟩, ⟨hserving, hserving.runs_eq⟩,
    ⟨hserving.returns_or_step, hs.terminates⟩, fun r hr workers schedule => ⟨?_, ?_⟩⟩
  · have hworkers := h.workers_eq
    have hactive := h.length_active_le
    omega
  · rw [run_workers, hs.returns_eq_run hm hcode hr]
  · rintro an rfl hc
    have hrun := (hs.returns_eq_run hm hcode hr).symm
    exact (run_workers { schedule } config image workers schedule).trans
      (Underway.run_eq_of_persistent hc schedule hrun)

/-- Two functions that return at once. -/
def twoFunctions : Image where
  machine := some .x86_64
  order := .little
  entry := 0x1000
  sections := #[{ name := ".text", start := 0x1000, size := 2
                  permissions := { read := true, execute := true }, bytes := #[0xc3, 0xc3] }]
  symbols := #[{ address := 0x1001, name := "second", kind := .function }]

/-- Two workers sweep them at a time, and the second sweep is finished first. -/
theorem Analysis.interleaving_unobservable_two :
    ∃ (s : Underway) (an : Analysis), Underway.Reachable {} {} twoFunctions .x86_64 2 s
      ∧ s.Returns {} twoFunctions .x86_64 (.ok an) ∧ an.stream.size = 2
      ∧ ∀ workers schedule, run { schedule } { workers } twoFunctions = .ok an := by
  let move (mv : Pool.Move) (s : Underway) : Underway := s.moved {} {} twoFunctions .x86_64 mv
  let s₀ : Underway := .start twoFunctions 2
  let s₁ := move .start (move .submit (move .start (move .submit s₀)))
  let s₂ := move (.finish 0) (move (.finish 1) s₁)
  have hopen : s₀.Open {} := ⟨by decide +kernel, rfl⟩
  have h₁ : Underway.Reachable {} {} twoFunctions .x86_64 2 s₁ :=
    (((Underway.Reachable.start.step (.move hopen (by decide +kernel))).step
      (.move hopen (by decide +kernel))).step (.move hopen (by decide +kernel))).step
        (.move hopen (by decide +kernel))
  have h₂ : Underway.Reachable {} {} twoFunctions .x86_64 2 s₂ :=
    (h₁.step (.move hopen (by decide +kernel))).step (.move hopen (by decide +kernel))
  have hsettled : s₂.Settled := ⟨by decide +kernel, by decide +kernel, by decide +kernel⟩
  have h := h₂.step (.merge hopen hsettled rfl)
  have hreturns : (s₂.merged {} twoFunctions .x86_64).Returns {} twoFunctions .x86_64 _ :=
    .found (by decide +kernel)
  have hnever : Conditions.Persistent {} := fun _ _ _ h => h
  obtain ⟨-, -, -, hresult⟩ := interleaving_unobservable (by decide) rfl
    (by decide +kernel) h
  refine ⟨_, _, h, hreturns, by decide +kernel, fun workers schedule => ?_⟩
  exact (hresult _ hreturns workers schedule).2 _ rfl hnever

end Disassembler
