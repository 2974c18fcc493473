/-!
# Parts of lists in order

Selecting entries and bringing a list in order do not get in each other's way. Where a property
never comes back once it is lost, the entries that have it stand in front. And sorting is stable, so
the part of a sorted list with a property is the sorted part.
-/

namespace Disassembler

variable {α : Type}

/-- In a list where a property once lost does not come back, those that have it stand in front. -/
theorem filter_append_filter_not {p : α → Bool} {l : List α}
    (h : l.Pairwise fun x y => p y = true → p x = true) :
    l.filter p ++ l.filter (!p ·) = l := by
  induction l with
  | nil => rfl
  | cons x l ih =>
    obtain ⟨hx, hl⟩ := List.pairwise_cons.mp h
    rcases hp : p x with _ | _
    · -- nothing behind the first one without the property has it
      have hnone : ∀ y ∈ l, p y = false := fun y hy => by
        rcases hy' : p y with _ | _
        · rfl
        · exact absurd (hx y hy hy') (by simp [hp])
      have hfilter : l.filter p = [] :=
        List.filter_eq_nil_iff.mpr fun y hy => by simp [hnone y hy]
      have hrest := ih hl
      rw [hfilter, List.nil_append] at hrest
      simp [hp, hfilter, hrest]
    · simp [hp, ih hl]

/-- The numbers below a bound that lie in a range are a range. -/
theorem filter_range (low high n : Nat) :
    (List.range n).filter (fun i => low ≤ i ∧ i < high)
      = List.range' low (min n high - low) := by
  induction n with
  | zero => rw [Nat.zero_min, Nat.zero_sub, List.range_zero, List.filter_nil, List.range'_zero]
  | succ n ih =>
    rw [List.range_succ, List.filter_append, ih]
    by_cases h : low ≤ n ∧ n < high
    · -- the new number is the next one of the range
      have hmin : min (n + 1) high - low = min n high - low + 1 := by omega
      have hlast : low + 1 * (min n high - low) = n := by omega
      rw [hmin, List.range'_concat, hlast, List.filter_cons_of_pos (by simpa using h),
        List.filter_nil]
    · have hmin : min (n + 1) high - low = min n high - low := by omega
      rw [hmin, List.filter_cons_of_neg (by simpa using h), List.filter_nil,
        List.append_nil]

/-- An entry of lists that are put together is in one of them. -/
theorem exists_of_getElem?_flatMap {β : Type} {f : α → List β} {xs : List α} {k : Nat} {y : β}
    (h : (xs.flatMap f)[k]? = some y) : ∃ front x back sub, xs = front ++ x :: back
      ∧ k = (front.flatMap f).length + sub ∧ (f x)[sub]? = some y := by
  induction xs generalizing k with
  | nil => exact absurd h (by simp)
  | cons x xs ih =>
    rw [List.flatMap_cons] at h
    by_cases hhere : k < (f x).length
    · rw [List.getElem?_append_left hhere] at h
      exact ⟨[], x, xs, k, rfl, (Nat.zero_add k).symm, h⟩
    · have hle := Nat.le_of_not_lt hhere
      rw [List.getElem?_append_right hle] at h
      obtain ⟨front, z, back, sub, rfl, hk, hz⟩ := ih h
      refine ⟨x :: front, z, back, sub, rfl, ?_, hz⟩
      rw [List.flatMap_cons, List.length_append]
      omega

variable {le : α → α → Bool}

/-- Sorting puts an entry behind all that must come before it, and before the rest. -/
theorem mergeSort_cons_eq_filter (htrans : ∀ a b c, le a b = true → le b c = true → le a c = true)
    (htotal : ∀ a b, (le a b || le b a) = true) (a : α) (l : List α) :
    (a :: l).mergeSort le
      = (l.mergeSort le).filter (!le a ·) ++ a :: (l.mergeSort le).filter (le a ·) := by
  obtain ⟨front, back, hcons, hl, hfront⟩ := List.mergeSort_cons htrans htotal a l
  have hsorted := List.pairwise_mergeSort htrans htotal (a :: l)
  rw [hcons] at hsorted
  have hback : ∀ b ∈ back, le a b = true :=
    (List.pairwise_cons.mp (List.pairwise_append.mp hsorted).2.1).1
  have hfirst : (front ++ back).filter (!le a ·) = front := by
    rw [List.filter_append, List.filter_eq_self.mpr hfront, List.filter_eq_nil_iff.mpr,
      List.append_nil]
    intro b hb
    simp [hback b hb]
  have hsecond : (front ++ back).filter (le a ·) = back := by
    rw [List.filter_append, List.filter_eq_self.mpr hback, List.filter_eq_nil_iff.mpr,
      List.nil_append]
    intro b hb
    simpa using hfront b hb
  rw [hcons, hl, hfirst, hsecond]

/-- **Sorting is stable**: the part of a sorted list with a property is the sorted part. -/
theorem filter_mergeSort (htrans : ∀ a b c, le a b = true → le b c = true → le a c = true)
    (htotal : ∀ a b, (le a b || le b a) = true) (p : α → Bool) (l : List α) :
    (l.mergeSort le).filter p = (l.filter p).mergeSort le := by
  induction l with
  | nil => simp
  | cons a l ih =>
    rcases hp : p a with _ | _
    · -- the parts before and behind an entry that is not selected make up the rest
      obtain ⟨front, back, hcons, hl, -⟩ := List.mergeSort_cons htrans htotal a l
      rw [List.filter_cons_of_neg (by simp [hp]), ← ih, hcons, hl, List.filter_append,
        List.filter_cons_of_neg (by simp [hp]), List.filter_append]
    · have hswap : ∀ q : α → Bool,
          ((l.mergeSort le).filter q).filter p = ((l.filter p).mergeSort le).filter q := by
        intro q
        rw [← ih, List.filter_filter, List.filter_filter]
        exact List.filter_congr fun b _ => Bool.and_comm _ _
      rw [mergeSort_cons_eq_filter htrans htotal, List.filter_append, List.filter_cons_of_pos hp,
        hswap, hswap, List.filter_cons_of_pos hp, mergeSort_cons_eq_filter htrans htotal]

end Disassembler
