/-!
# A pool of workers

Tasks are submitted to a queue, from which a number of workers take them in order. A worker that
has taken a task finishes it sooner or later, and stores the result in the slot of the task. Which
of the moves that are possible happens next is up to a schedule. Since a task writes to its own slot
alone, the results do not depend on it.
-/

namespace Disassembler

/-- Tasks on their way through a pool, each with the slot of its result. -/
structure Pool (α β : Type) where
  workers : Nat
  /-- Tasks that are not submitted yet. -/
  waiting : List (Nat × α)
  /-- Tasks that are submitted and not taken yet, oldest first. -/
  queue : List (Nat × α) := []
  /-- Tasks that workers have taken. -/
  active : List (Nat × α) := []
  finished : List (Nat × β) := []

namespace Pool

variable {α β : Type}

/-- What can happen in a pool. -/
inductive Move where
  /-- The next task is submitted. -/
  | submit
  /-- A free worker takes the oldest task of the queue. -/
  | start
  /-- The task at a place among the active ones is finished. -/
  | finish (k : Nat)
  deriving DecidableEq

/-- What can happen next. -/
def moves (p : Pool α β) : List Move :=
  (if p.waiting.isEmpty then [] else [.submit])
    ++ (if p.queue.isEmpty ∨ p.workers ≤ p.active.length then [] else [.start])
    ++ (List.range p.active.length).map .finish

/-- The pool after a move. One that is not possible changes nothing. -/
def after (work : α → β) (p : Pool α β) : Move → Pool α β
  | .submit =>
    match p.waiting with
    | t :: ts => { p with waiting := ts, queue := p.queue ++ [t] }
    | [] => p
  | .start =>
    match p.queue with
    | t :: ts => { p with queue := ts, active := p.active ++ [t] }
    | [] => p
  | .finish k =>
    match p.active[k]? with
    | some t =>
      { p with active := p.active.eraseIdx k, finished := p.finished ++ [(t.1, work t.2)] }
    | none => p

/-- How many moves are left: three to a task that waits, two to one in the queue, one to one that
is active. -/
def left (p : Pool α β) : Nat := 3 * p.waiting.length + 2 * p.queue.length + p.active.length

/-- A move that is possible leaves fewer moves. -/
theorem left_after_lt (work : α → β) (p : Pool α β) {m : Move} (h : m ∈ p.moves) :
    (p.after work m).left < p.left := by
  simp only [moves, List.mem_append, List.mem_map, List.mem_range] at h
  rcases h with (h | h) | ⟨k, hk, rfl⟩
  · split at h
    · simp at h
    · next hw =>
      obtain rfl : m = .submit := by simpa using h
      cases hp : p.waiting with
      | nil => simp [hp] at hw
      | cons t ts => simp [after, left, hp]; omega
  · split at h
    · simp at h
    · next hq =>
      obtain rfl : m = .start := by simpa using h
      cases hp : p.queue with
      | nil => simp [hp] at hq
      | cons t ts => simp [after, left, hp]; omega
  · have he : (p.active.eraseIdx k).length = p.active.length - 1 := by
      rw [List.length_eraseIdx]; simp [hk]
    simp only [after, List.getElem?_eq_getElem hk, left, he]
    omega

/-- Lets the pool work until nothing is left to happen. -/
def drain (work : α → β) (schedule : Nat → Nat) (p : Pool α β) : Pool α β :=
  if h : p.moves = [] then p
  else
    have hlt : schedule p.left % p.moves.length < p.moves.length :=
      Nat.mod_lt _ (List.length_pos_iff.mpr h)
    drain work schedule (p.after work p.moves[schedule p.left % p.moves.length])
termination_by p.left
decreasing_by exact left_after_lt work p (List.getElem_mem hlt)

/-- The pool before any of some tasks is submitted. There is at least one worker. -/
def ofTasks (workers : Nat) (tasks : List α) : Pool α β :=
  { workers := max 1 workers, waiting := tasks.mapIdx fun k t => (k, t) }

/-- The results of some tasks in the order of the tasks. -/
def run (workers : Nat) (schedule : Nat → Nat) (work : α → β) (tasks : List α) : List β :=
  let finished := ((ofTasks workers tasks).drain work schedule).finished
  (List.range tasks.length).filterMap fun k => finished.lookup k

end Pool

end Disassembler
