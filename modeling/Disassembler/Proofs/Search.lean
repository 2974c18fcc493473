import Disassembler.Search

/-!
# Halving finds where a property ends

When a property holds of a first part of a table and of nothing behind it, the place that halving
finds is the border between the two parts. What is searched for is then the last entry of the first
part or the first entry of the second, whatever way the halving took.
-/

namespace Disassembler.Search

variable {α : Type} {p : α → Bool} {xs : Array α}

/-- No entry with the property stands behind one without it. -/
def Falling (p : α → Bool) (xs : Array α) : Prop :=
  xs.toList.Pairwise fun x y => p y = true → p x = true

/-- A property that holds at a place holds at every place before it. -/
theorem Falling.at_le (h : Falling p xs) {i j : Nat} {x y : α} (hij : i ≤ j)
    (hx : xs[i]? = some x) (hy : xs[j]? = some y) (hp : p y = true) : p x = true := by
  rcases Nat.lt_or_eq_of_le hij with hlt | rfl
  · obtain ⟨hi, rfl⟩ := Array.getElem?_eq_some_iff.mp hx
    obtain ⟨hj, rfl⟩ := Array.getElem?_eq_some_iff.mp hy
    exact List.pairwise_iff_getElem.mp h i j (by simpa using hi) (by simpa using hj) hlt hp
  · obtain rfl : x = y := Option.some.inj (hx.symm.trans hy)
    exact hp

/-- What is at most a bound comes first if the keys ascend. -/
theorem falling_le {κ : Type} [LE κ] [DecidableLE κ] [Std.IsPreorder κ] {key : α → κ}
    {a : κ} (h : xs.toList.Pairwise fun x y => key x ≤ key y) : Falling (fun x => key x ≤ a) xs :=
  h.imp fun hxy hy => decide_eq_true (Std.IsPreorder.le_trans _ _ _ hxy (of_decide_eq_true hy))

/-- So does what is below an address. -/
theorem falling_lt {key : α → UInt64} {a : UInt64}
    (h : xs.toList.Pairwise fun x y => key x ≤ key y) : Falling (fun x => key x < a) xs :=
  h.imp fun hxy hy => decide_eq_true (UInt64.lt_of_le_of_lt hxy (of_decide_eq_true hy))

/-- The invariant of the halving: the border never leaves the part that is still searched. -/
theorem endFrom_border (h : Falling p xs) (first n : Nat)
    (hfront : ∀ i x, i < first → xs[i]? = some x → p x = true)
    (hback : ∀ i x, first + n ≤ i → xs[i]? = some x → p x = false) :
    (∀ i x, i < endFrom p xs first n → xs[i]? = some x → p x = true)
      ∧ (∀ i x, endFrom p xs first n ≤ i → xs[i]? = some x → p x = false) := by
  fun_induction endFrom p xs first n with
  | case1 first => exact ⟨hfront, fun i x hi => hback i x (by omega)⟩
  | case2 first n hn half hany ih =>
    refine ih (fun i x hi hx => ?_) (fun i x hi => hback i x (by omega))
    obtain ⟨y, hy, hp⟩ := (Option.any_eq_true _ _).mp hany
    exact h.at_le (Nat.le_of_lt_succ hi) hx hy hp
  | case3 first n hn half hany ih =>
    refine ih hfront (fun i x hi hx => ?_)
    rcases hp : p x with _ | _
    · rfl
    · -- the entry in the middle would have the property as well
      exfalso
      obtain ⟨hlt, rfl⟩ := Array.getElem?_eq_some_iff.mp hx
      have hmid : first + half < xs.size := by omega
      refine hany ((Option.any_eq_true _ _).mpr ⟨xs[first + half], ?_, ?_⟩)
      · exact Array.getElem?_eq_getElem hmid
      · exact h.at_le hi (Array.getElem?_eq_getElem hmid) hx hp

/-- Every entry before the border has the property. -/
theorem of_mem_take_endOf (h : Falling p xs) {x : α} (hx : x ∈ xs.toList.take (endOf p xs)) :
    p x = true := by
  obtain ⟨i, hi, rfl⟩ := List.getElem_of_mem hx
  have hlt : i < xs.size ∧ i < endOf p xs := by
    simp only [List.length_take, Array.length_toList] at hi
    omega
  refine (endFrom_border h 0 xs.size (by simp) (fun i x hi hx => ?_)).1 i _ hlt.2 ?_
  · rw [Array.getElem?_eq_none (by omega)] at hx
    exact absurd hx (by simp)
  · simp [hlt.1]

/-- No entry from the border on has the property. -/
theorem of_mem_drop_endOf (h : Falling p xs) {x : α} (hx : x ∈ xs.toList.drop (endOf p xs)) :
    p x = false := by
  obtain ⟨i, hi, rfl⟩ := List.getElem_of_mem hx
  have hlt : endOf p xs + i < xs.size := by
    simp only [List.length_drop, Array.length_toList] at hi
    omega
  refine (endFrom_border h 0 xs.size (by simp) (fun i x hi hx => ?_)).2 (endOf p xs + i) _
    (Nat.le_add_right _ _) ?_
  · rw [Array.getElem?_eq_none (by omega)] at hx
    exact absurd hx (by simp)
  · simp [hlt]

/-- The entries before the border are those with the property. -/
theorem take_endOf_eq_filter (h : Falling p xs) :
    xs.toList.take (endOf p xs) = xs.toList.filter p := by
  conv => rhs; rw [← List.take_append_drop (endOf p xs) xs.toList]
  have hback : ∀ x ∈ xs.toList.drop (endOf p xs), ¬ p x = true := fun x hx => by
    simp [of_mem_drop_endOf h hx]
  rw [List.filter_append, List.filter_eq_self.mpr fun x hx => of_mem_take_endOf h hx,
    List.filter_eq_nil_iff.mpr hback, List.append_nil]

/-- The places before the border are those whose entries have the property. -/
theorem lt_endOf_iff (h : Falling p xs) {k : Nat} {x : α} (hx : xs[k]? = some x) :
    k < endOf p xs ↔ p x = true := by
  obtain ⟨hk, rfl⟩ := Array.getElem?_eq_some_iff.mp hx
  have hk' : k < xs.toList.length := hk
  constructor
  · intro hlt
    refine of_mem_take_endOf h (List.mem_take_iff_getElem.mpr ⟨k, ?_, rfl⟩)
    exact Nat.lt_min.mpr ⟨hlt, hk'⟩
  · intro hp
    refine Nat.lt_of_not_le fun hle => ?_
    have hmem : xs[k] ∈ xs.toList.drop (endOf p xs) :=
      List.mem_drop_iff_getElem.mpr ⟨k - endOf p xs, by omega, by simp [Nat.add_sub_cancel' hle]⟩
    exact absurd hp (by simp [of_mem_drop_endOf h hmem])

/-- The border is at an entry without the property if all entries before that one have it. -/
theorem endOf_eq_of_getElem? (h : Falling p xs) {k : Nat} {x : α} (hk : xs[k]? = some x)
    (hx : p x = false) (hfront : ∀ j y, j < k → xs[j]? = some y → p y = true) :
    endOf p xs = k := by
  have hle : endOf p xs ≤ k := Nat.le_of_not_lt fun hlt => by
    simp [(lt_endOf_iff h hk).mp hlt] at hx
  have hge : k ≤ endOf p xs := Nat.le_of_not_lt fun hlt => by
    -- the entry at the border has the property, so the border would lie behind it
    have hsize := (Array.getElem?_eq_some_iff.mp hk).1
    have hy : xs[endOf p xs]? = some xs[endOf p xs] := Array.getElem?_eq_getElem (by omega)
    exact Nat.lt_irrefl _ ((lt_endOf_iff h hy).mpr (hfront _ _ hlt hy))
  exact Nat.le_antisymm hle hge

/-- **The border is where a linear scan finds the first entry without the property.** -/
theorem endOf_eq_findIdx (h : Falling p xs) : endOf p xs = xs.findIdx (!p ·) := by
  rcases Nat.lt_or_eq_of_le (endOf_le p xs) with hlt | hend
  · refine ((Array.findIdx_eq hlt).mpr ⟨?_, fun j hj => ?_⟩).symm
    · have hborder := lt_endOf_iff h (Array.getElem?_eq_getElem hlt)
      simpa using mt hborder.mpr (Nat.lt_irrefl _)
    · have hfront := (lt_endOf_iff h (Array.getElem?_eq_getElem (by omega))).mp hj
      simpa using hfront
  · rw [hend, eq_comm, Array.findIdx_eq_size]
    intro x hx
    obtain ⟨j, hj, rfl⟩ := Array.mem_iff_getElem.mp hx
    have hfront := (lt_endOf_iff h (Array.getElem?_eq_getElem hj)).mp (by omega)
    simpa using hfront

/-- The first entry without the property, as a linear scan finds it. -/
theorem next?_eq_head? (p : α → Bool) (xs : Array α) :
    next? p xs = (xs.toList.drop (endOf p xs)).head? := by
  simp [next?, List.head?_drop]

/-- The last entry with the property, as a linear scan finds it. -/
theorem last?_eq_getLast? (p : α → Bool) (xs : Array α) :
    last? p xs = (xs.toList.take (endOf p xs)).getLast? := by
  have hle := endOf_le p xs
  unfold last?
  split
  · rename_i h0
    simp [h0]
  · rename_i k hk
    rw [hk] at hle ⊢
    simp [List.getLast?_take, Array.getElem?_eq_getElem (show k < xs.size by omega)]

/-- Whatever table is searched, what is found is in it. -/
theorem mem_of_last? {x : α} (hx : last? p xs = some x) : x ∈ xs := by
  rw [last?_eq_getLast?] at hx
  exact Array.mem_toList_iff.mp (List.mem_of_mem_take (List.mem_of_getLast? hx))

/-! ## Tables in order -/

variable {R : α → α → Prop}

/-- Every entry is before the border and has the property, or behind it and has not. -/
theorem mem_take_or_mem_drop {x : α} (hx : x ∈ xs) (k : Nat) :
    x ∈ xs.toList.take k ∨ x ∈ xs.toList.drop k := by
  rw [← List.mem_append, List.take_append_drop]
  exact Array.mem_toList_iff.mpr hx

/-- In a table in order, what is found is the first of all entries without the property. -/
theorem next?_eq_some (h : Falling p xs) (hR : xs.toList.Pairwise R) {x : α}
    (hx : next? p xs = some x) :
    x ∈ xs ∧ p x = false ∧ ∀ y ∈ xs, p y = false → y = x ∨ R x y := by
  rw [next?_eq_head?] at hx
  have hdrop := List.mem_of_head? hx
  refine ⟨Array.mem_toList_iff.mp (List.mem_of_mem_drop hdrop), of_mem_drop_endOf h hdrop, ?_⟩
  intro y hy hp
  rcases mem_take_or_mem_drop hy (endOf p xs) with hmem | hmem
  · exact absurd (of_mem_take_endOf h hmem) (by simp [hp])
  · obtain ⟨rest, hrest⟩ := List.head?_eq_some_iff.mp hx
    have hasc := hR.sublist (List.drop_sublist (endOf p xs) xs.toList)
    rw [hrest] at hmem hasc
    rcases List.mem_cons.mp hmem with rfl | hmem
    · exact Or.inl rfl
    · exact Or.inr ((List.pairwise_cons.mp hasc).1 y hmem)

/-- If nothing is found, every entry has the property. -/
theorem next?_eq_none (h : Falling p xs) (hx : next? p xs = none) : ∀ y ∈ xs, p y = true := by
  intro y hy
  rw [next?_eq_head?, List.head?_eq_none_iff] at hx
  rcases mem_take_or_mem_drop hy (endOf p xs) with hmem | hmem
  · exact of_mem_take_endOf h hmem
  · exact absurd (hx ▸ hmem) (by simp)

/-- In a table in order, what is found is the last of all entries with the property. -/
theorem last?_eq_some (h : Falling p xs) (hR : xs.toList.Pairwise R) {x : α}
    (hx : last? p xs = some x) :
    x ∈ xs ∧ p x = true ∧ ∀ y ∈ xs, p y = true → y = x ∨ R y x := by
  refine ⟨mem_of_last? hx, ?_⟩
  rw [last?_eq_getLast?] at hx
  refine ⟨of_mem_take_endOf h (List.mem_of_getLast? hx), ?_⟩
  intro y hy hp
  rcases mem_take_or_mem_drop hy (endOf p xs) with hmem | hmem
  · obtain ⟨front, hfront⟩ := List.getLast?_eq_some_iff.mp hx
    have hasc := hR.sublist (List.take_sublist (endOf p xs) xs.toList)
    rw [hfront] at hmem hasc
    rcases List.mem_append.mp hmem with hmem | hmem
    · exact Or.inr ((List.pairwise_append.mp hasc).2.2 y hmem x (List.mem_singleton_self x))
    · exact Or.inl (List.mem_singleton.mp hmem)
  · exact absurd hp (by simp [of_mem_drop_endOf h hmem])

/-- If nothing is found, no entry has the property. -/
theorem last?_eq_none (h : Falling p xs) (hx : last? p xs = none) : ∀ y ∈ xs, p y = false := by
  intro y hy
  rw [last?_eq_getLast?, List.getLast?_eq_none_iff] at hx
  rcases mem_take_or_mem_drop hy (endOf p xs) with hmem | hmem
  · exact absurd (hx ▸ hmem) (by simp)
  · exact of_mem_drop_endOf h hmem

/-- What is found on the two sides of the border stands side by side. -/
theorem rel_of_last?_of_next? (hR : xs.toList.Pairwise R) {x y : α} (hx : last? p xs = some x)
    (hy : next? p xs = some y) : R x y := by
  unfold last? at hx
  split at hx
  · exact absurd hx (by simp)
  · rename_i i hborder
    rw [next?, hborder] at hy
    obtain ⟨hi, rfl⟩ := Array.getElem?_eq_some_iff.mp hx
    obtain ⟨hj, rfl⟩ := Array.getElem?_eq_some_iff.mp hy
    exact List.pairwise_iff_getElem.mp hR i (i + 1) (by simpa using hi) (by simpa using hj)
      (Nat.lt_succ_self i)

/-- In a table whose keys ascend, the entry of a key is the one that is found for it. -/
theorem next?_filter_eq_some_iff {key : α → UInt64} {a : UInt64}
    (hasc : xs.toList.Pairwise fun x y => key x < key y) {x : α} :
    (next? (fun y => decide (key y < a)) xs).filter (key · == a) = some x ↔ x ∈ xs ∧ key x = a := by
  have hfalling : Falling (fun y => decide (key y < a)) xs :=
    falling_lt (hasc.imp UInt64.le_of_lt)
  rw [Option.filter_eq_some_iff, beq_iff_eq]
  refine ⟨fun ⟨hx, ha⟩ => ⟨(next?_eq_some hfalling hasc hx).1, ha⟩, fun ⟨hx, ha⟩ => ⟨?_, ha⟩⟩
  rcases hnext : next? (fun y => decide (key y < a)) xs with _ | y
  · -- the key would have to be less than itself
    have hlt := of_decide_eq_true (next?_eq_none hfalling hnext x hx)
    exact absurd (ha ▸ hlt) (UInt64.lt_irrefl _)
  · obtain ⟨-, hy, hfirst⟩ := next?_eq_some hfalling hasc hnext
    have hfirst := hfirst x hx (by simp [ha])
    rcases hfirst with rfl | hlt
    · rfl
    · exact absurd (ha ▸ hlt) (of_decide_eq_false hy)

/-! ## Searching on from a place -/

/-- What a search from a place on finds is the first entry from there on with the property. -/
theorem findIdx?_extract_eq_some {n j : Nat}
    (h : (xs.extract n xs.size).findIdx? p = some j) :
    ∃ x, xs[n + j]? = some x ∧ p x = true
      ∧ ∀ k y, n ≤ k → k < n + j → xs[k]? = some y → p y = false := by
  obtain ⟨hj, hp, hfirst⟩ := Array.findIdx?_eq_some_iff_getElem.mp h
  rw [Array.getElem_extract] at hp
  rw [Array.size_extract] at hj
  have hlt : n + j < xs.size := by omega
  refine ⟨xs[n + j], Array.getElem?_eq_getElem hlt, hp, fun k y hle hkj hk => ?_⟩
  obtain ⟨hsize, rfl⟩ := Array.getElem?_eq_some_iff.mp hk
  have hnot := hfirst (k - n) (by omega)
  rw [Array.getElem_extract] at hnot
  simpa only [Nat.add_sub_cancel' hle, Bool.not_eq_true] using hnot

/-- If nothing is found, no entry from there on has the property. -/
theorem findIdx?_extract_eq_none {n k : Nat} {y : α}
    (h : (xs.extract n xs.size).findIdx? p = none) (hle : n ≤ k) (hk : xs[k]? = some y) :
    p y = false := by
  have hsize := (Array.getElem?_eq_some_iff.mp hk).1
  refine Array.findIdx?_eq_none_iff.mp h y (Array.mem_iff_getElem?.mpr ⟨k - n, ?_⟩)
  rw [Array.getElem?_extract, if_pos (by omega), Nat.add_sub_cancel' hle, hk]

/-- Where one place at most has an entry with the property, a linear scan finds that place. -/
theorem findIdx?_eq_some_iff_of_unique
    (h : ∀ (j k : Nat) x y, xs[j]? = some x → xs[k]? = some y → p x = true → p y = true → j = k)
    {k : Nat} :
    xs.findIdx? p = some k ↔ ∃ x, xs[k]? = some x ∧ p x = true := by
  rw [Array.findIdx?_eq_some_iff_getElem]
  constructor
  · rintro ⟨hk, hx, -⟩
    exact ⟨xs[k], Array.getElem?_eq_getElem hk, hx⟩
  · rintro ⟨x, hk, hx⟩
    obtain ⟨hsize, rfl⟩ := Array.getElem?_eq_some_iff.mp hk
    refine ⟨hsize, hx, fun j hj hy => ?_⟩
    have hjk := h j k _ _ (Array.getElem?_eq_getElem (by omega)) hk hy hx
    omega

/-! ## Two tables of one shape -/

variable {β : Type} {f : α → β} {q : β → Bool}

theorem endFrom_map (h : ∀ x ∈ xs, q (f x) = p x) (first n : Nat) :
    endFrom q (xs.map f) first n = endFrom p xs first n := by
  have hask : ∀ k : Nat, (xs.map f)[k]?.any q = xs[k]?.any p := by
    intro k
    rw [Array.getElem?_map, Option.any_map]
    rcases hx : xs[k]? with _ | x
    · rfl
    · exact h x (Array.mem_of_getElem? hx)
  fun_induction endFrom p xs first n with
  | case1 => rw [endFrom, if_pos rfl]
  | case2 first n hn half hany ih =>
    rw [endFrom, if_neg hn]
    dsimp only
    rw [hask, if_pos hany, ih]
  | case3 first n hn half hany ih =>
    rw [endFrom, if_neg hn]
    dsimp only
    rw [hask, if_neg hany, ih]

/-- **The border is at the same place** in a table of other entries with the same answers. -/
theorem endOf_map (h : ∀ x ∈ xs, q (f x) = p x) : endOf q (xs.map f) = endOf p xs := by
  rw [endOf, endOf, Array.size_map, endFrom_map h]

end Disassembler.Search
