import Disassembler.Proofs.Discovery

/-!
# Cancelled analyses

Whether an analysis is cancelled is asked before each entry of each sweep, but a sweep that is cut
short does not say so, and its run looks like any other. What keeps such a run out of every result
is that the question is asked again when all sweeps of the round have ended, and that a flag which
was set by then is still set. So a round of which anything is merged was swept to the end, and is
the round of an analysis that is never cancelled.
-/

namespace Disassembler

/-! ## Flags -/

/-- One poll is made before another one, however the workers are scheduled. The sweeps of a round
run side by side, so their polls are in order only within each of them. -/
inductive Poll.Before : Poll → Poll → Prop where
  | opening (round seed entry : Nat) : Before (.roundStart round) (.sweep round seed entry)
  | within (round seed : Nat) {entry entry' : Nat} : entry < entry' →
      Before (.sweep round seed entry) (.sweep round seed entry')
  | closing (round seed entry : Nat) : Before (.sweep round seed entry) (.roundEnd round)
  | next (round : Nat) : Before (.roundEnd round) (.roundStart (round + 1))

namespace Conditions

/-- **The flag is set at some instant, or never, and stays set**: no poll that finds it set is made
before one that does not. -/
def Persistent (c : Conditions) : Prop :=
  ∀ p q : Poll, p.Before q → c.cancelled p = true → c.cancelled q = true

variable {c : Conditions}

theorem Persistent.roundEnd (h : c.Persistent) {round : Nat}
    (hset : c.cancelled (.roundStart round) = true ∨ c.cancelled (.roundEnd round) = true) :
    c.cancelled (.roundEnd round) = true := by
  rcases hset with hset | hset
  · exact h _ _ (.closing round 0 0) (h _ _ (.opening round 0 0) hset)
  · exact hset

/-- A flag that is not set at the end of a round cut no sweep of the round short. -/
theorem Persistent.sweep_eq_false (h : c.Persistent) {round : Nat}
    (hend : c.cancelled (.roundEnd round) = false) (seed entry : Nat) :
    c.cancelled (.sweep round seed entry) = false := by
  rcases hset : c.cancelled (.sweep round seed entry) with _ | _
  · rfl
  · have hend' := h _ _ (.closing round seed entry) hset
    exact absurd (hend.symm.trans hend') Bool.false_ne_true

/-- A flag that is set in a round before an entry, in all sweeps of the round alike. -/
def setAt (round entry : Nat) : Conditions where
  cancelled
    | .roundStart r => decide (round < r)
    | .sweep r _ e => decide (round < r ∨ round = r ∧ entry ≤ e)
    | .roundEnd r => decide (round ≤ r)

theorem persistent_setAt (round entry : Nat) : (setAt round entry).Persistent := by
  intro p q hbefore hset
  cases hbefore with
  | opening r s e =>
    simp only [setAt, decide_eq_true_eq] at hset ⊢
    omega
  | within r s hlt =>
    simp only [setAt, decide_eq_true_eq] at hset ⊢
    omega
  | closing r s e =>
    simp only [setAt, decide_eq_true_eq] at hset ⊢
    omega
  | next r =>
    simp only [setAt, decide_eq_true_eq] at hset ⊢
    omega

end Conditions

/-! ## Rounds -/

namespace Progress

variable {c : Conditions} {schedule : Nat → Nat → Nat} {config : Config} {image : Image}
variable {m : Machine} {p q : Progress} {pending : List Seed}

/-- A round whose sweeps were not cut short is that of an analysis that is never cancelled. -/
theorem round_eq_of_not_cancelled
    (h : ∀ seed entry, c.cancelled (.sweep p.stats.rounds seed entry) = false) :
    p.round c config image m pending = p.round { schedule } config image m pending := by
  have hruns : p.sweepAll c config image m pending
      = p.sweepAll { schedule } config image m pending := by
    simp only [sweepAll_eq_mapIdx, h]
  unfold round
  rw [hruns]

/-- Without a flag, any number of rounds has a result. -/
theorem exists_rounds (n : Nat) (p : Progress) (pending : List Seed) :
    ∃ q, rounds { schedule } config image m n p pending = some q := by
  induction n generalizing p pending with
  | zero => cases pending with
    | nil => exact ⟨p, rfl⟩
    | cons s rest => exact ⟨p, rfl⟩
  | succ n ih => cases pending with
    | nil => exact ⟨p, rfl⟩
    | cons s rest =>
      rw [rounds, if_neg (by simp)]
      exact ih _ _

theorem rounds_le {n : Nat} (h : rounds c config image m n p pending = some q) :
    p.stats.rounds ≤ q.stats.rounds := by
  induction n generalizing p pending with
  | zero => cases pending with
    | nil => exact (congrArg (·.stats.rounds) (Option.some.inj h)).le
    | cons s rest => exact (congrArg (·.stats.rounds) (Option.some.inj h)).le
  | succ n ih => cases pending with
    | nil => exact (congrArg (·.stats.rounds) (Option.some.inj h)).le
    | cons s rest =>
      rw [rounds] at h
      split at h
      · exact absurd h (by simp)
      · have hle := ih h
        rw [rounds_round] at hle
        omega

/-- **Any number of rounds comes to nothing or to what it would have come to**, depending on whether
the flag is set at the end of one of them. -/
theorem rounds_of_persistent (hc : c.Persistent) {n : Nat}
    (hq : rounds { schedule } config image m n p pending = some q) :
    (rounds c config image m n p pending = none
        ∧ ∃ k, p.stats.rounds ≤ k ∧ k < q.stats.rounds ∧ c.cancelled (.roundEnd k) = true)
      ∨ (rounds c config image m n p pending = some q
        ∧ ∀ k, p.stats.rounds ≤ k → k < q.stats.rounds → c.cancelled (.roundEnd k) = false) := by
  -- where the loop ends there is no round for which the flag would be asked
  have hnone : ∀ p : Progress, some p = some q → ∀ k, p.stats.rounds ≤ k → k < q.stats.rounds →
      c.cancelled (.roundEnd k) = false := by
    intro p hpq k hle hlt
    obtain rfl := Option.some.inj hpq
    omega
  induction n generalizing p pending with
  | zero => cases pending with
    | nil => exact Or.inr ⟨hq, hnone p hq⟩
    | cons s rest => exact Or.inr ⟨hq, hnone p hq⟩
  | succ n ih => cases pending with
    | nil => exact Or.inr ⟨hq, hnone p hq⟩
    | cons s rest =>
      rw [rounds, if_neg (by simp)] at hq
      have hlt := rounds_le hq
      rw [rounds_round] at hlt
      rw [rounds]
      by_cases hset : c.cancelled (.roundStart p.stats.rounds) = true
          ∨ c.cancelled (.roundEnd p.stats.rounds) = true
      · exact Or.inl ⟨if_pos hset, p.stats.rounds, Nat.le_refl _, hlt, hc.roundEnd hset⟩
      · -- the round was swept to the end, so it is the same, and the rest follows from it
        have hend : c.cancelled (.roundEnd p.stats.rounds) = false :=
          Bool.eq_false_iff.mpr fun h => hset (Or.inr h)
        have hround : p.round c config image m (s :: rest)
            = p.round { schedule } config image m (s :: rest) :=
          round_eq_of_not_cancelled (hc.sweep_eq_false hend)
        rw [if_neg hset]
        dsimp only
        rw [hround]
        rcases ih hq with ⟨hcancelled, k, hle, hk, hkset⟩ | ⟨hsame, hclear⟩
        · rw [rounds_round] at hle
          exact Or.inl ⟨hcancelled, k, by omega, hk, hkset⟩
        · refine Or.inr ⟨hsame, fun k hle hk => ?_⟩
          rcases Nat.eq_or_lt_of_le hle with rfl | hnext
          · exact hend
          · exact hclear k (by rw [rounds_round]; exact hnext) hk

end Progress

/-! ## Results -/

namespace Analysis

/--
**Cancellation is all or nothing.**

An analysis that is not cancelled never ends as cancelled. Whenever the flag is set, and however the
workers are scheduled, the analysis of the same image either ends as cancelled or gives the same
result or obstacle. It is cancelled if and only if the flag is set at the end of one of the rounds
that it takes to find the code.
-/
theorem cancelled_or_unaffected {c : Conditions} (hc : c.Persistent)
    (schedule : Nat → Nat → Nat) (config : Config) (image : Option Image) :
    runOption { schedule } config image ≠ .error .cancelled
      ∧ (runOption c config image = .error .cancelled
        ∨ runOption c config image = runOption { schedule } config image)
      ∧ ∀ an, runOption { schedule } config image = .ok an →
        (runOption c config image = .error .cancelled
          ↔ ∃ k, k < an.stats.rounds ∧ c.cancelled (.roundEnd k) = true) := by
  rcases image with _ | image
  · exact ⟨by simp [runOption], Or.inr rfl, fun an h => absurd h (by simp [runOption])⟩
  simp only [runOption]
  rcases hm : image.machine with _ | m
  · simp [run, hm]
  -- only the rounds look at the flag
  rw [run_eq hm, run_eq hm]
  split
  · obtain ⟨q, hq⟩ : ∃ q, Progress.rounds { schedule } config image m (image.codeSize + 1) {}
        image.initialSeeds = some q := Progress.exists_rounds _ _ _
    rw [hq]
    rcases Progress.rounds_of_persistent hc hq with ⟨hcancelled, k, -, hk, hset⟩ | ⟨hsame, hclear⟩
    · rw [hcancelled]
      refine ⟨by simp, Or.inl rfl, fun an h => ?_⟩
      obtain rfl := Except.ok.inj h
      exact ⟨fun _ => ⟨k, hk, hset⟩, fun _ => rfl⟩
    · rw [hsame]
      refine ⟨by simp, Or.inr rfl, fun an h => ?_⟩
      obtain rfl := Except.ok.inj h
      refine ⟨fun h => absurd h (by simp), fun ⟨k, hk, hset⟩ => ?_⟩
      exact absurd (hset.symm.trans (hclear k (Nat.zero_le k) hk)) (by simp)
  · simp

/-- An analysis of three rounds is cancelled where the sweep of the second is cut short, but not by
a flag that is set behind the third. -/
theorem cancelled_or_unaffected_pointer :
    (Conditions.setAt 1 1).Persistent ∧ (Conditions.setAt 3 0).Persistent
      ∧ runOption (.setAt 1 1) { indirection := .followPointers } (some pointerImage)
        = .error .cancelled
      ∧ ∃ an, runOption {} { indirection := .followPointers } (some pointerImage) = .ok an
        ∧ an.stats.rounds = 3
        ∧ runOption (.setAt 3 0) { indirection := .followPointers } (some pointerImage)
          = .ok an := by
  obtain ⟨an, han, hrounds⟩ : ∃ an,
      runOption {} { indirection := .followPointers } (some pointerImage) = .ok an
        ∧ (an.stats.rounds == 3) = true :=
    exists_ok_of_any (by decide +kernel)
  have hrounds := eq_of_beq hrounds
  have hcut := Conditions.persistent_setAt 1 1
  have hbehind := Conditions.persistent_setAt 3 0
  obtain ⟨-, -, hcutiff⟩ := cancelled_or_unaffected hcut (fun _ _ => 0)
    { indirection := .followPointers } (some pointerImage)
  obtain ⟨-, hor, hiff⟩ := cancelled_or_unaffected hbehind (fun _ _ => 0)
    { indirection := .followPointers } (some pointerImage)
  refine ⟨hcut, hbehind, (hcutiff an han).mpr ⟨1, by omega, by decide⟩, an, han, hrounds, ?_⟩
  rcases hor with hcancelled | hsame
  · -- it would have to be set in one of the three rounds
    obtain ⟨k, hk, hset⟩ := (hiff an han).mp hcancelled
    simp only [Conditions.setAt, decide_eq_true_eq] at hset
    omega
  · exact hsame.trans han

end Analysis

end Disassembler
