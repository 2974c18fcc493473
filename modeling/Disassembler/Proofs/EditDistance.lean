import Disassembler.Proofs.Console.Words

/-!
# Counting edits

The distances of all pairs of beginnings of two texts are given by a recursion: the last edit
deletes a byte, inserts one, substitutes one or swaps two neighbours, and the edits before it turn
shorter beginnings into each other. The table of distances never holds more than three rows of it.
The invariant is that a row which is being filled agrees with the recursion as far as it goes, while
the two rows above it agree over their whole length; so what is read for a swap is indeed the row
two above.
-/

namespace Disassembler

namespace EditDistance

/-! ## The recursion -/

/-- What it costs that the byte behind the first `i` of one text becomes the one behind the first `j`
of another. -/
def substitution (s t : Text) (i j : Nat) : Nat := if s[i]? = t[j]? then 0 else 1

/-- The bytes behind the first `i` of one text and the first `j` of another, each with the byte
before it, are the same two in the other order. -/
def Swapped (s t : Text) (i j : Nat) : Prop :=
  1 ≤ i ∧ 1 ≤ j ∧ s[i]? = t[j - 1]? ∧ s[i - 1]? = t[j]?

instance (s t : Text) (i j : Nat) : Decidable (Swapped s t i j) :=
  inferInstanceAs (Decidable (_ ∧ _))

/-- The edits that turn the first `i` bytes of `s` into the first `j` bytes of `t`, by recursion on
what the last edit is. -/
def ofPrefixes (s t : Text) : Nat → Nat → Nat
  | 0, j => j
  | i + 1, 0 => i + 1
  | i + 1, j + 1 =>
    let single := min (ofPrefixes s t i j + substitution s t i j)
      (min (ofPrefixes s t i (j + 1) + 1) (ofPrefixes s t (i + 1) j + 1))
    if Swapped s t i j then min single (ofPrefixes s t (i - 1) (j - 1) + 1) else single
termination_by i j => i + j

variable {s t : Text} {i j : Nat}

theorem substitution_comm (s t : Text) (i j : Nat) : substitution t s j i = substitution s t i j := by
  rw [substitution, substitution]
  simp only [eq_comm]

theorem substitution_le_one (s t : Text) (i j : Nat) : substitution s t i j ≤ 1 := by
  rw [substitution]
  split <;> omega

theorem substitution_eq_zero_iff : substitution s t i j = 0 ↔ s[i]? = t[j]? := by
  rw [substitution]
  by_cases h : s[i]? = t[j]?
  · simp [h]
  · simp [h]

theorem swapped_comm : Swapped t s j i ↔ Swapped s t i j := by
  rw [Swapped, Swapped]
  constructor
  · rintro ⟨hj, hi, hlast, hfirst⟩
    exact ⟨hi, hj, hfirst.symm, hlast.symm⟩
  · rintro ⟨hi, hj, hlast, hfirst⟩
    exact ⟨hj, hi, hfirst.symm, hlast.symm⟩

@[simp] theorem ofPrefixes_zero_left (s t : Text) (j : Nat) : ofPrefixes s t 0 j = j := by
  rw [ofPrefixes]

@[simp] theorem ofPrefixes_zero_right (s t : Text) (i : Nat) : ofPrefixes s t i 0 = i := by
  cases i with
  | zero => rw [ofPrefixes]
  | succ i => rw [ofPrefixes]

/-- **Edits can be undone**, so it does not matter which text is turned into which. -/
theorem ofPrefixes_comm (s t : Text) (i j : Nat) : ofPrefixes t s j i = ofPrefixes s t i j := by
  fun_induction ofPrefixes s t i j with
  | case1 j => exact ofPrefixes_zero_right t s j
  | case2 i => exact ofPrefixes_zero_left t s (i + 1)
  | case3 i j single hswapped hboth hleft hright hshort =>
    rw [ofPrefixes, if_pos (swapped_comm.mpr hswapped), hboth, hleft, hright, hshort,
      substitution_comm]
    dsimp only [single]
    omega
  | case4 i j single hswapped hboth hleft hright =>
    rw [ofPrefixes, if_neg fun h => hswapped (swapped_comm.mp h), hboth, hleft, hright,
      substitution_comm]
    dsimp only [single]
    omega

/-- Each edit changes the length by one at most, and as many edits as there are bytes suffice. -/
theorem ofPrefixes_bounds (s t : Text) (i j : Nat) :
    i ≤ ofPrefixes s t i j + j ∧ j ≤ ofPrefixes s t i j + i ∧ ofPrefixes s t i j ≤ max i j := by
  fun_induction ofPrefixes s t i j with
  | case1 j => omega
  | case2 i => omega
  | case3 i j single hswapped hboth hleft hright hshort =>
    obtain ⟨hi, hj, -⟩ := hswapped
    have hone := substitution_le_one s t i j
    dsimp only [single]
    omega
  | case4 i j single hswapped hboth hleft hright =>
    have hone := substitution_le_one s t i j
    dsimp only [single]
    omega

/-- Beginnings that are one byte longer are equal if the shorter ones are and the bytes are. -/
theorem take_succ_eq_iff (hi : i < s.length) (hj : j < t.length) :
    s.take (i + 1) = t.take (j + 1) ↔ s.take i = t.take j ∧ s[i]? = t[j]? := by
  rw [List.take_add_one, List.take_add_one, List.getElem?_eq_getElem hi,
    List.getElem?_eq_getElem hj, Option.toList_some, Option.toList_some]
  constructor
  · intro h
    obtain ⟨hfront, hlast⟩ := List.append_inj' h rfl
    exact ⟨hfront, congrArg some (List.singleton_inj.mp hlast)⟩
  · rintro ⟨hfront, hlast⟩
    rw [hfront, Option.some.inj hlast]

theorem take_eq_nil_iff_of_le (hi : i ≤ s.length) : s.take i = [] ↔ i = 0 := by
  rw [List.take_eq_nil_iff]
  constructor
  · rintro (hzero | rfl)
    · exact hzero
    · exact Nat.le_zero.mp hi
  · exact Or.inl

/-- **Only equal beginnings need no edit.** -/
theorem ofPrefixes_eq_zero_iff (hi : i ≤ s.length) (hj : j ≤ t.length) :
    ofPrefixes s t i j = 0 ↔ s.take i = t.take j := by
  fun_induction ofPrefixes s t i j with
  | case1 j => rw [List.take_zero, eq_comm (a := []), take_eq_nil_iff_of_le hj]
  | case2 i => rw [List.take_zero, take_eq_nil_iff_of_le hi]
  | case3 i j single hswapped hboth hleft hright hshort =>
    -- a swap costs something, like every edit but a substitution by the same byte
    rw [take_succ_eq_iff hi hj, ← hboth (Nat.le_of_lt hi) (Nat.le_of_lt hj),
      ← substitution_eq_zero_iff]
    dsimp only [single]
    omega
  | case4 i j single hswapped hboth hleft hright =>
    rw [take_succ_eq_iff hi hj, ← hboth (Nat.le_of_lt hi) (Nat.le_of_lt hj),
      ← substitution_eq_zero_iff]
    dsimp only [single]
    omega

/-! ## The table -/

/-- A row of the table up to a column agrees with the recursion. -/
structure IsRow (s t : Text) (i n : Nat) (row : Array Nat) : Prop where
  size : row.size = n + 1
  entry : ∀ j ≤ n, row[j]?.getD 0 = ofPrefixes s t i j

theorem isRow_zero (s t : Text) : IsRow s t 0 t.length (List.range (t.length + 1)).toArray where
  size := by simp
  entry := by
    intro j hj
    rw [List.getElem?_toArray, List.getElem?_range (Nat.lt_succ_of_le hj),
      ofPrefixes_zero_left, Option.getD_some]

theorem IsRow.push {n : Nat} {row : Array Nat} (h : IsRow s t i n row) :
    IsRow s t i (n + 1) (row.push (ofPrefixes s t i (n + 1))) where
  size := by rw [Array.size_push, h.size]
  entry := by
    intro j hj
    rw [Array.getElem?_push, h.size]
    by_cases hlast : j = n + 1
    · rw [if_pos hlast, hlast, Option.getD_some]
    · rw [if_neg hlast]
      exact h.entry j (by omega)

/-- **An entry is computed from the entries of the rows above and of its own row.** -/
theorem cell_eq {before above row : Array Nat} (habove : IsRow s t i t.length above)
    (hbefore : 1 ≤ i → IsRow s t (i - 1) t.length before) (hrow : IsRow s t (i + 1) j row)
    (hj : j < t.length) :
    cell s.toArray t.toArray before above row (i + 1) (j + 1) = ofPrefixes s t (i + 1) (j + 1) := by
  have hswapped : (1 < i + 1 ∧ 1 < j + 1 ∧ s[i]? = t[j + 1 - 2]? ∧ s[i + 1 - 2]? = t[j]?)
      ↔ Swapped s t i j := by
    rw [Swapped, Nat.lt_add_left_iff_pos, Nat.lt_add_left_iff_pos]
    rfl
  rw [cell, ofPrefixes, substitution]
  simp only [List.getElem?_toArray, Nat.add_sub_cancel, hswapped, habove.entry j (Nat.le_of_lt hj),
    habove.entry (j + 1) hj, hrow.entry j (Nat.le_refl j)]
  by_cases h : Swapped s t i j
  · -- the row two above is there, and it is whole
    have hshort := (hbefore h.1).entry (j + 1 - 2) (by omega)
    rw [if_pos h, if_pos h, hshort]
    rfl
  · rw [if_neg h, if_neg h]

theorem isRow_nextRow {before above : Array Nat} (habove : IsRow s t i t.length above)
    (hbefore : 1 ≤ i → IsRow s t (i - 1) t.length before) :
    IsRow s t (i + 1) t.length (nextRow s.toArray t.toArray before above (i + 1)) := by
  -- along the columns that are filled already
  have hfilled : ∀ n ≤ t.length, IsRow s t (i + 1) n ((List.range n).foldl
      (fun row j => row.push (cell s.toArray t.toArray before above row (i + 1) (j + 1)))
      #[i + 1]) := by
    intro n hn
    induction n with
    | zero =>
      refine ⟨rfl, fun j hj => ?_⟩
      obtain rfl := Nat.le_zero.mp hj
      rw [ofPrefixes_zero_right]
      rfl
    | succ n ih =>
      have hrow := ih (Nat.le_of_succ_le hn)
      rw [List.range_succ, List.foldl_append, List.foldl_cons, List.foldl_nil,
        cell_eq habove hbefore hrow hn]
      exact hrow.push
  exact hfilled t.length (Nat.le_refl _)

/-- **The two rows that are kept agree with the recursion.** -/
theorem isRow_rows (s t : Text) (i : Nat) :
    IsRow s t i t.length (rows s.toArray t.toArray i).2
      ∧ (1 ≤ i → IsRow s t (i - 1) t.length (rows s.toArray t.toArray i).1) := by
  induction i with
  | zero => exact ⟨isRow_zero s t, fun h => absurd h (by omega)⟩
  | succ i ih =>
    obtain ⟨habove, hbefore⟩ := ih
    exact ⟨isRow_nextRow habove hbefore, fun _ => habove⟩

theorem ofArrays_eq (s t : Text) :
    ofArrays s.toArray t.toArray = ofPrefixes s t s.length t.length :=
  (isRow_rows s t s.length).1.entry t.length (Nat.le_refl _)

end EditDistance

theorem editDistance_eq {s t : Text} (hs : 0 ∉ s) (ht : 0 ∉ t) :
    editDistance s t = EditDistance.ofPrefixes s t s.length t.length := by
  rw [editDistance, Text.untilNul_of_notMem hs, Text.untilNul_of_notMem ht,
    EditDistance.ofArrays_eq]

/-! ## The closest command -/

namespace Command

variable {t : Text} {cs : List Command} {c : Command} {n : Nat}

/-- A command is the first one in a list that is as close to a word as any. -/
def IsFirstClosest (t : Text) (cs : List Command) (c : Command) : Prop :=
  ∃ front back, cs = front ++ c :: back
    ∧ (∀ e ∈ front, editDistance t c.name < editDistance t e.name)
    ∧ ∀ e ∈ back, editDistance t c.name ≤ editDistance t e.name

theorem IsFirstClosest.le (h : IsFirstClosest t cs c) {e : Command} (he : e ∈ cs) :
    editDistance t c.name ≤ editDistance t e.name := by
  obtain ⟨front, back, rfl, hfront, hback⟩ := h
  rcases List.mem_append.mp he with he | he
  · exact Nat.le_of_lt (hfront e he)
  rcases List.mem_cons.mp he with rfl | he
  · exact Nat.le_refl _
  · exact hback e he

/-- The first one is the closest if nothing behind it is closer, and else it does not count. -/
theorem isFirstClosest_cons {d : Command} : IsFirstClosest t (d :: cs) c ↔
    (c = d ∧ ∀ e ∈ cs, editDistance t d.name ≤ editDistance t e.name)
      ∨ IsFirstClosest t cs c ∧ editDistance t c.name < editDistance t d.name := by
  constructor
  · rintro ⟨front, back, heq, hfront, hback⟩
    cases front with
    | nil =>
      obtain ⟨rfl, rfl⟩ := List.cons.inj heq
      exact Or.inl ⟨rfl, hback⟩
    | cons e front =>
      obtain ⟨rfl, rfl⟩ := List.cons.inj heq
      refine Or.inr ⟨⟨front, back, rfl, fun x hx => ?_, hback⟩, hfront d List.mem_cons_self⟩
      exact hfront x (List.mem_cons_of_mem d hx)
  · rintro (⟨rfl, hrest⟩ | ⟨⟨front, back, rfl, hfront, hback⟩, hless⟩)
    · exact ⟨[], cs, rfl, fun e he => absurd he List.not_mem_nil, hrest⟩
    · refine ⟨d :: front, back, rfl, fun e he => ?_, hback⟩
      rcases List.mem_cons.mp he with rfl | he
      · exact hless
      · exact hfront e he

theorem IsFirstClosest.mem (h : IsFirstClosest t cs c) : c ∈ cs := by
  obtain ⟨front, back, rfl, -, -⟩ := h
  exact List.mem_append_right _ List.mem_cons_self

theorem not_isFirstClosest_nil : ¬ IsFirstClosest t [] c := fun h => absurd h.mem List.not_mem_nil

theorem closest_cons_ne_none (d : Command) (rest : List Command) :
    closest t (d :: rest) ≠ none := by
  rw [closest]
  split
  · split <;> exact Option.some_ne_none _
  · exact Option.some_ne_none _

/-- **What is found among commands is the first one at the least distance.** -/
theorem closest_eq_some_iff :
    closest t cs = some (c, n) ↔ IsFirstClosest t cs c ∧ n = editDistance t c.name := by
  induction cs generalizing c n with
  | nil =>
    constructor
    · intro h
      exact absurd h (by simp [closest])
    · rintro ⟨hfirst, -⟩
      exact absurd hfirst not_isFirstClosest_nil
  | cons d rest ih =>
    rw [closest, isFirstClosest_cons]
    rcases hrest : closest t rest with _ | ⟨e, m⟩
    · -- nothing is found where there is nothing
      cases rest with
      | nil =>
        simp only [Option.some.injEq, Prod.mk.injEq, List.not_mem_nil, IsEmpty.forall_iff,
          implies_true, and_true, not_isFirstClosest_nil, false_and, or_false]
        constructor
        · rintro ⟨rfl, rfl⟩
          exact ⟨rfl, rfl⟩
        · rintro ⟨rfl, rfl⟩
          exact ⟨rfl, rfl⟩
      | cons e rest => exact absurd hrest (closest_cons_ne_none e rest)
    · obtain ⟨hfirst, rfl⟩ := ih.mp hrest
      -- the one that is found behind the first one is the only one of its kind there
      have hunique : ∀ c, IsFirstClosest t rest c → c = e := by
        intro c hc
        have hfound := ih.mpr ⟨hc, rfl⟩
        rw [hrest] at hfound
        exact (Prod.mk.inj (Option.some.inj hfound)).1.symm
      by_cases hless : editDistance t e.name < editDistance t d.name
      · simp only [hless, if_true, Option.some.injEq, Prod.mk.injEq]
        constructor
        · rintro ⟨rfl, rfl⟩
          exact ⟨Or.inr ⟨hfirst, hless⟩, rfl⟩
        · rintro ⟨⟨rfl, hall⟩ | ⟨hc, -⟩, rfl⟩
          · exact absurd hless (Nat.not_lt.mpr (hall e hfirst.mem))
          · obtain rfl := hunique c hc
            exact ⟨rfl, rfl⟩
      · simp only [hless, if_false, Option.some.injEq, Prod.mk.injEq]
        constructor
        · rintro ⟨rfl, rfl⟩
          refine ⟨Or.inl ⟨rfl, fun x hx => ?_⟩, rfl⟩
          exact Nat.le_trans (Nat.le_of_not_lt hless) (hfirst.le hx)
        · rintro ⟨⟨rfl, -⟩ | ⟨hc, hlt⟩, rfl⟩
          · exact ⟨rfl, rfl⟩
          · obtain rfl := hunique c hc
            exact absurd hlt hless

/-- **A command is suggested if it is the first closest one, and close.** -/
theorem suggest_eq_some_iff :
    suggest t = some c ↔ IsFirstClosest t all c ∧ editDistance t c.name ≤ closeness := by
  rw [suggest]
  constructor
  · intro h
    obtain ⟨⟨d, n⟩, hfound, h⟩ := Option.bind_eq_some_iff.mp h
    obtain ⟨hfirst, rfl⟩ := closest_eq_some_iff.mp hfound
    have h : (if editDistance t d.name ≤ closeness then some d else none) = some c := h
    split at h
    · rename_i hclose
      obtain rfl := Option.some.inj h
      exact ⟨hfirst, hclose⟩
    · exact absurd h (by simp)
  · rintro ⟨hfirst, hclose⟩
    have hfound := closest_eq_some_iff.mpr ⟨hfirst, rfl⟩
    rw [hfound]
    exact if_pos hclose

theorem mem_all (c : Command) : c ∈ all := by
  cases c <;> decide

/-- Of all commands one is the first that is as close to a word as any. -/
theorem exists_isFirstClosest (t : Text) : ∃ c, IsFirstClosest t all c := by
  rcases hfound : closest t all with _ | ⟨c, n⟩
  · exact absurd hfound (closest_cons_ne_none _ _)
  · exact ⟨c, (closest_eq_some_iff.mp hfound).1⟩

/-- Something is suggested if any command is close. -/
theorem exists_suggest_iff :
    (∃ c, suggest t = some c) ↔ ∃ c : Command, editDistance t c.name ≤ closeness := by
  constructor
  · rintro ⟨c, h⟩
    exact ⟨c, (suggest_eq_some_iff.mp h).2⟩
  · rintro ⟨e, he⟩
    obtain ⟨c, hc⟩ := exists_isFirstClosest t
    exact ⟨c, suggest_eq_some_iff.mpr ⟨hc, Nat.le_trans (hc.le (mem_all e)) he⟩⟩

end Command

end Disassembler
