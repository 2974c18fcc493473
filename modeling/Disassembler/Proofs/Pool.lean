import Disassembler.Pool
import Mathlib.Data.List.Perm.Basic

/-!
# A pool loses no task

A pool serves one batch of tasks after another: tasks are submitted, workers take and finish them in
any order that is possible, and once the pool is idle it may be given the next batch. What will have
been finished of a batch in the end is settled from its beginning: a move takes a task one place
further, and does not change what becomes of it. So whenever the pool is idle, what was submitted
has been finished, each task once. The results are those of working off the tasks one after another,
whatever the number of workers, and whatever moves were made.
-/

namespace Disassembler.Pool

variable {α β : Type} {work : α → β} {p : Pool α β} {tasks : List α} {n : Nat}

/-! ## What is promised -/

/-- What is finished, and what will come of the tasks on their way. -/
def promised (work : α → β) (p : Pool α β) : List (Nat × β) :=
  p.finished ++ (p.active ++ p.queue ++ p.waiting).map fun t => (t.1, work t.2)

@[simp] theorem workers_after (p : Pool α β) (m : Move) : (p.after work m).workers = p.workers := by
  cases m <;> simp only [after] <;> split <;> rfl

/-- **A move does not change what is promised.** -/
theorem promised_after (p : Pool α β) (m : Move) :
    ((p.after work m).promised work).Perm (p.promised work) := by
  cases m with
  | submit =>
    rcases hw : p.waiting with _ | ⟨t, ts⟩
    · simp [after, hw]
    · simp [after, promised, hw]
  | start =>
    rcases hq : p.queue with _ | ⟨t, ts⟩
    · simp [after, hq]
    · simp [after, promised, hq]
  | finish k =>
    rcases hk : p.active[k]? with _ | t
    · simp [after, hk]
    · -- the task leaves its place among the active ones
      obtain ⟨hlt, rfl⟩ := List.getElem?_eq_some_iff.mp hk
      have hperm := (List.getElem_cons_eraseIdx_perm hlt).map fun t => (t.1, work t.2)
      simp only [after, hk, promised, List.map_append, List.append_assoc, List.singleton_append]
      refine List.Perm.append_left _ ?_
      rw [← List.cons_append]
      exact hperm.append_right _

/-- The tasks that are not submitted yet are the last ones. -/
theorem exists_waiting_after (p : Pool α β) (m : Move) :
    ∃ k, (p.after work m).waiting = p.waiting.drop k := by
  cases m with
  | submit =>
    rcases hw : p.waiting with _ | ⟨t, ts⟩
    · exact ⟨0, by simp [after, hw]⟩
    · exact ⟨1, by simp [after, hw]⟩
  | start | finish =>
    refine ⟨0, ?_⟩
    simp only [after]
    split <;> rfl

/-- A task is taken only by a worker that is free. -/
theorem length_active_after_le {m : Move} (hm : m ∈ p.moves) (h : p.active.length ≤ p.workers) :
    (p.after work m).active.length ≤ p.workers := by
  cases m with
  | submit =>
    simp only [after]
    split <;> exact h
  | start =>
    have hfree : p.active.length < p.workers := by
      simp only [moves, List.mem_append, List.mem_map, reduceCtorEq, and_false, exists_false,
        or_false] at hm
      rcases hm with hm | hm
      · split at hm <;> simp at hm
      · split at hm
        · simp at hm
        · omega
    simp only [after]
    split
    · rw [List.length_append]
      exact hfree
    · exact h
  | finish k =>
    simp only [after]
    split
    · exact Nat.le_trans (List.length_eraseIdx_le _ _) h
    · exact h

/-! ## Idle pools -/

/-- No task is queued and none is active. This is what a wait for the pool waits for. -/
structure Idle (p : Pool α β) : Prop where
  queue : p.queue = []
  active : p.active = []

/-- With a worker at hand, nothing stops before all tasks are submitted and finished. -/
theorem moves_eq_nil_iff (hworkers : 0 < p.workers) :
    p.moves = [] ↔ p.waiting = [] ∧ p.Idle := by
  constructor
  · intro h
    simp only [moves, List.append_eq_nil_iff, List.map_eq_nil_iff, List.range_eq_nil] at h
    obtain ⟨⟨hwaiting, hqueue⟩, hactive⟩ := h
    have hactive := List.length_eq_zero_iff.mp hactive
    refine ⟨?_, ?_, hactive⟩
    · rcases hw : p.waiting with _ | ⟨t, ts⟩
      · rfl
      · simp [hw] at hwaiting
    · rcases hq : p.queue with _ | ⟨t, ts⟩
      · rfl
      · -- a free worker would start the first task
        simp only [hq, hactive] at hqueue
        simp at hqueue
        omega
  · rintro ⟨hwaiting, hqueue, hactive⟩
    simp [moves, hwaiting, hqueue, hactive]

theorem Idle.promised_eq (h : p.Idle) :
    p.promised work = p.finished ++ p.waiting.map fun t => (t.1, work t.2) := by
  rw [promised, h.active, h.queue]
  rfl

/-! ## Batches -/

/-- Tasks with the slots of their results. -/
def slotted (tasks : List α) : List (Nat × α) := tasks.mapIdx fun k t => (k, t)

/-- A pool that is given new tasks, none of which is submitted yet. -/
def refill (p : Pool α β) (tasks : List α) : Pool α β :=
  { p with waiting := slotted tasks, finished := [] }

/-- The results of the first `n` slots, as far as they are filled. -/
def results (p : Pool α β) (n : Nat) : List β :=
  (List.range n).filterMap fun k => p.finished.lookup k

/-- **A pool of `n` workers serves a batch of tasks.** It is new, or it was given the batch when it
had served another one and was idle; and since then anything may have happened that is possible. -/
inductive Serves (n : Nat) : (α → β) → List α → Pool α β → Prop where
  | new (work : α → β) (tasks : List α) : Serves n work tasks (ofTasks n tasks)
  | move {work : α → β} {tasks : List α} {p : Pool α β} {m : Move} :
      Serves n work tasks p → m ∈ p.moves → Serves n work tasks (p.after work m)
  | refill {work : α → β} {tasks : List α} {p : Pool α β} (work' : α → β) (tasks' : List α) :
      Serves n work tasks p → p.waiting = [] → p.Idle → Serves n work' tasks' (p.refill tasks')

theorem Serves.workers_eq (h : Serves n work tasks p) : p.workers = max 1 n := by
  induction h with
  | new => rfl
  | move _ _ ih => rw [workers_after, ih]
  | refill _ _ _ _ _ ih => exact ih

theorem Serves.workers_pos (h : Serves n work tasks p) : 0 < p.workers := by
  rw [h.workers_eq]
  exact Nat.le_max_left 1 n

theorem Serves.length_active_le (h : Serves n work tasks p) : p.active.length ≤ p.workers := by
  induction h with
  | new => exact Nat.zero_le _
  | move _ hm ih =>
    rw [workers_after]
    exact length_active_after_le hm ih
  | refill _ _ _ _ _ ih => exact ih

theorem Serves.exists_waiting_eq (h : Serves n work tasks p) :
    ∃ k, p.waiting = (slotted tasks).drop k := by
  induction h with
  | new => exact ⟨0, rfl⟩
  | move h hm ih =>
    obtain ⟨k, hk⟩ := ih
    obtain ⟨j, hj⟩ := exists_waiting_after _ _
    exact ⟨k + j, by rw [hj, hk, List.drop_drop]⟩
  | refill => exact ⟨0, rfl⟩

/-- **What is promised is each task of the batch once.** -/
theorem Serves.promised_perm (h : Serves n work tasks p) :
    (p.promised work).Perm ((slotted tasks).map fun t => (t.1, work t.2)) := by
  induction h with
  | new work tasks => exact List.Perm.refl _
  | move _ _ ih => exact (promised_after _ _).trans ih
  | refill work' tasks' _ _ hidle _ =>
    have hidle' : (Pool.refill _ tasks').Idle := ⟨hidle.queue, hidle.active⟩
    rw [hidle'.promised_eq]
    exact List.Perm.refl _

/-- **Whenever the pool is idle, each task that was submitted has been carried out once.** -/
theorem Serves.finished_perm (h : Serves n work tasks p) (hidle : p.Idle) :
    ∃ k, k + p.waiting.length = tasks.length
      ∧ p.finished.Perm ((tasks.take k).mapIdx fun i t => (i, work t)) := by
  have hpromised := h.promised_perm
  obtain ⟨k, hk⟩ := h.exists_waiting_eq
  have hlength : p.waiting.length = tasks.length - k := by simp [hk, slotted]
  refine ⟨min k tasks.length, by omega, ?_⟩
  have hfront : (tasks.take (min k tasks.length)).mapIdx (fun i t => (i, work t))
      = ((slotted tasks).take k).map fun t => (t.1, work t.2) := by
    apply List.ext_getElem
    · simp [slotted]
    · intro i h1 h2
      simp [slotted]
  -- what is promised beyond the submitted tasks is what waits
  rw [hidle.promised_eq, ← List.take_append_drop k (slotted tasks), List.map_append, ← hk]
    at hpromised
  rw [hfront]
  exact (List.perm_append_right_iff _).mp hpromised

/-- A key that stands once in an association list leads to its value. -/
theorem lookup_of_mem {l : List (Nat × β)} (hkeys : (l.map Prod.fst).Nodup) {k : Nat} {v : β}
    (h : (k, v) ∈ l) : l.lookup k = some v := by
  induction l with
  | nil => exact absurd h (by simp)
  | cons x l ih =>
    obtain ⟨j, u⟩ := x
    obtain ⟨hj, hkeys⟩ := List.nodup_cons.mp hkeys
    rcases List.mem_cons.mp h with heq | hmem
    · obtain ⟨rfl, rfl⟩ := Prod.mk.inj heq
      simp
    · have hne : k ≠ j := by
        rintro rfl
        exact hj (List.mem_map.mpr ⟨_, hmem, rfl⟩)
      rw [List.lookup_cons, beq_false_of_ne hne]
      exact ih hkeys hmem

/-- Slots that were filled once each hold the results in the order of the slots. -/
theorem results_of_perm (h : p.finished.Perm (tasks.mapIdx fun k t => (k, work t))) :
    p.results tasks.length = tasks.map work := by
  have hslots : (tasks.mapIdx fun k t => (k, work t)).map Prod.fst = List.range tasks.length := by
    apply List.ext_getElem
    · simp
    · intro i h1 h2
      simp
  have hkeys : (p.finished.map Prod.fst).Nodup := by
    rw [(h.map Prod.fst).nodup_iff, hslots]
    exact List.nodup_range
  have hlookup : ∀ x ∈ tasks.mapIdx fun k t => (k, work t),
      p.finished.lookup x.1 = some x.2 := fun x hx => lookup_of_mem hkeys (h.mem_iff.mpr hx)
  rw [results, ← hslots, List.filterMap_map]
  calc (tasks.mapIdx fun k t => (k, work t)).filterMap
        ((fun k => p.finished.lookup k) ∘ Prod.fst)
      = (tasks.mapIdx fun k t => (k, work t)).filterMap fun x => some x.2 :=
        List.filterMap_congr hlookup
    _ = (tasks.mapIdx fun k t => (k, work t)).map Prod.snd := by rw [List.filterMap_eq_map']
    _ = tasks.map work := by
      apply List.ext_getElem
      · simp
      · intro i h1 h2
        simp

/-- **Once all tasks are submitted and the pool is idle, the results are those of one task after
another.** -/
theorem Serves.results_eq (h : Serves n work tasks p) (hwaiting : p.waiting = [])
    (hidle : p.Idle) : p.results tasks.length = tasks.map work := by
  obtain ⟨k, hk, hperm⟩ := h.finished_perm hidle
  rw [hwaiting, List.length_nil, Nat.add_zero] at hk
  rw [hk, List.take_length] at hperm
  exact results_of_perm hperm

/-! ## Scheduled pools -/

/-- A schedule is one way in which moves can be made. -/
theorem Serves.drain (h : Serves n work tasks p) (schedule : Nat → Nat) :
    Serves n work tasks (p.drain work schedule) := by
  fun_induction Pool.drain work schedule p with
  | case1 => exact h
  | case2 p hne hlt ih => exact ih (h.move (List.getElem_mem hlt))

theorem moves_drain (schedule : Nat → Nat) (p : Pool α β) :
    (p.drain work schedule).moves = [] := by
  fun_induction drain work schedule p with
  | case1 p h => exact h
  | case2 p h hlt ih => exact ih

/-- **The results of a pool are those of one task after another.** -/
theorem run_eq_map (workers : Nat) (schedule : Nat → Nat) (work : α → β) (tasks : List α) :
    Pool.run workers schedule work tasks = tasks.map work := by
  have h : Serves workers work tasks ((ofTasks workers tasks).drain work schedule) :=
    (Serves.new work tasks).drain schedule
  obtain ⟨hwaiting, hidle⟩ := (moves_eq_nil_iff h.workers_pos).mp (moves_drain schedule _)
  exact h.results_eq hwaiting hidle

end Disassembler.Pool
