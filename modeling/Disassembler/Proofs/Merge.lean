import Disassembler.Proofs.Coverage

/-!
# What a merge can do

`merge_cons` says once what becomes of the first entry of a run: it is taken by a confirmed one, it
would reach into a confirmed one, or it shares no byte with any and is confirmed itself. All that is
ever added to a coverage is thus an entry of the run or the marker of one, and it is clear of what
was there. `merge_induction` carries this over a whole run, for whatever is to be shown of a merge.
-/

namespace Disassembler

/-! ## Markers -/

namespace Instruction

variable {i : Instruction} {n : UInt64}

/-- A marker has the bytes of its entry up to where it stops. -/
theorem marker_bytes (hi : i.Placed) (hlo : i.address < n) (hhi : n.toNat < i.reach) :
    (i.marker n).bytes = i.bytes.take (n.toNat - i.address.toNat) := by
  have hne : i.bytes ≠ [] := List.length_pos_iff.mp hi.pos
  have hmax := hi.le_max
  have hsub := UInt64.toNat_sub_of_le n i.address (UInt64.le_of_lt hlo)
  have hlo := UInt64.lt_iff_toNat_lt.mp hlo
  simp only [reach] at hhi
  rw [marker, invalid_bytes hne, hsub]
  congr 1
  omega

theorem marker_reach (hi : i.Placed) (hlo : i.address < n) (hhi : n.toNat < i.reach) :
    (i.marker n).reach = n.toNat := by
  have hlo' := UInt64.lt_iff_toNat_lt.mp hlo
  have hhi' := hhi
  simp only [reach] at hhi'
  have hlen : (i.marker n).length = n.toNat - i.address.toNat := by
    rw [length, marker_bytes hi hlo hhi, List.length_take]
    simp only [length] at hhi'
    omega
  show i.address.toNat + (i.marker n).length = n.toNat
  omega

theorem marker_placed (hi : i.Placed) (hlo : i.address < n) (hhi : n.toNat < i.reach) :
    (i.marker n).Placed := by
  have hreach := marker_reach hi hlo hhi
  have hlo := UInt64.lt_iff_toNat_lt.mp hlo
  have hmax := hi.le_max
  have hfits := hi.fits
  have haddr : (i.marker n).address = i.address := rfl
  simp only [reach, haddr] at hreach hhi hfits ⊢
  refine ⟨by omega, by omega, ?_⟩
  simp only [reach, haddr]
  omega

end Instruction

/-! ## One entry -/

namespace Coverage

/-- An entry that starts in the clear and would reach into the confirmed one that starts next. -/
structure Straddles (c : Coverage) (i : Instruction) (n : UInt64) : Prop where
  start : ∃ j ∈ c.entries, j.address = n
  address_lt : i.address < n
  lt_reach : n.toNat < i.reach
  /-- The bytes before that one are free. -/
  clear : c.Clear (i.marker n)

/-- **What becomes of the first entry of a run.** -/
theorem merge_cons {c : Coverage} {i : Instruction} (hc : c.Tidy) (hi : i.Placed)
    (overlap : Overlap) (rest : List Instruction) :
    (c.covers i.address = true
        ∧ c.merge overlap (i :: rest) = { coverage := c, collided := true })
      ∨ (∃ n, c.Straddles i n ∧ c.merge overlap (i :: rest)
          = { coverage := match overlap with
                | .keepConfirmed => c.insert (i.marker n)
                | .discardRun => c
              collided := true })
      ∨ (c.Clear i ∧ c.merge overlap (i :: rest)
          = { (c.insert i).merge overlap rest with
              kept := i :: ((c.insert i).merge overlap rest).kept }) := by
  by_cases hcovers : c.covers i.address = true
  · exact Or.inl ⟨hcovers, by rw [merge, if_pos hcovers]⟩
  -- what starts before the entry ends before it
  have hbefore : ∀ j ∈ c.entries, j.address ≤ i.address → j.reach ≤ i.address.toNat := by
    intro j hj hle
    rcases Nat.lt_or_ge i.address.toNat j.reach with hlt | hge
    · exact absurd ((covers_iff hc).mpr ⟨j, hj, hle, hlt⟩) hcovers
    · exact hge
  have hstop := hi.stop_toNat
  rcases hnext : (c.nextStart i.address).filter (· < i.stop) with _ | n
  · -- what starts behind it starts at its end or later
    refine Or.inr (Or.inr ⟨fun j hj => ?_, by rw [merge, if_neg hcovers, hnext]⟩)
    rcases Decidable.em (j.address ≤ i.address) with hle | hgt
    · exact Or.inl (hbefore j hj hle)
    · have hgt := UInt64.not_le.mp hgt
      rcases hn : c.nextStart i.address with _ | n
      · exact absurd (nextStart_eq_none hc hn j hj) (UInt64.not_le.mpr hgt)
      · obtain ⟨-, -, hleast⟩ := nextStart_eq_some hc hn
        have hnot := Option.filter_eq_none_iff.mp hnext n hn
        have hle := UInt64.le_iff_toNat_le.mp (hleast j hj hgt)
        have hge := UInt64.le_iff_toNat_le.mp (UInt64.not_lt.mp (by simpa using hnot))
        exact Or.inr (by omega)
  · obtain ⟨hn, hlt⟩ := Option.filter_eq_some_iff.mp hnext
    obtain ⟨hstart, hlo, hleast⟩ := nextStart_eq_some hc hn
    have hhi : n.toNat < i.reach := by
      have hlt := UInt64.lt_iff_toNat_lt.mp (of_decide_eq_true hlt)
      omega
    refine Or.inr (Or.inl ⟨n, ⟨hstart, hlo, hhi, fun j hj => ?_⟩, ?_⟩)
    · rcases Decidable.em (j.address ≤ i.address) with hle | hgt
      · exact Or.inl (hbefore j hj hle)
      · rw [Instruction.marker_reach hi hlo hhi]
        exact Or.inr (UInt64.le_iff_toNat_le.mp (hleast j hj (UInt64.not_le.mp hgt)))
    · cases overlap with
      | keepConfirmed => rw [merge, if_neg hcovers, hnext]
      | discardRun => rw [merge, if_neg hcovers, hnext]

/-! ## All entries of a run -/

variable {c : Coverage} {overlap : Overlap} {entries : List Instruction}

/--
**The cases of a merge**, with the invariant in each of them: it stops and adds nothing, it stops at
a marker, or it confirms an entry and goes on.
-/
theorem merge_induction {motive : Coverage → List Instruction → Merged → Prop}
    (stop : ∀ c entries collided, c.Tidy → motive c entries { coverage := c, collided })
    (mark : overlap = .keepConfirmed → ∀ c i n rest, c.Tidy → i.Placed → c.Straddles i n →
      motive c (i :: rest) { coverage := c.insert (i.marker n), collided := true })
    (confirm : ∀ c i rest m, c.Tidy → i.Placed → c.Clear i → motive (c.insert i) rest m →
      motive c (i :: rest) { m with kept := i :: m.kept })
    (hplaced : ∀ i ∈ entries, i.Placed) (hc : c.Tidy) :
    motive c entries (c.merge overlap entries) := by
  induction entries generalizing c with
  | nil => exact stop c [] false hc
  | cons i rest ih =>
    have hi := hplaced i List.mem_cons_self
    rcases merge_cons hc hi overlap rest with ⟨-, heq⟩ | ⟨n, hn, heq⟩ | ⟨hclear, heq⟩
    · rw [heq]
      exact stop c (i :: rest) true hc
    · rw [heq]
      cases overlap with
      | keepConfirmed => exact mark rfl c i n rest hc hi hn
      | discardRun => exact stop c (i :: rest) true hc
    · rw [heq]
      have hrest := ih (fun j hj => hplaced j (List.mem_cons_of_mem i hj))
        (tidy_insert hc hi hclear)
      exact confirm c i rest _ hc hi hclear hrest

/-- A merge keeps the order. -/
theorem tidy_merge (hplaced : ∀ i ∈ entries, i.Placed) (hc : c.Tidy) :
    (c.merge overlap entries).coverage.Tidy := by
  refine merge_induction (motive := fun _ _ m => m.coverage.Tidy) ?_ ?_ ?_ hplaced hc
  · intro c _ _ hc
    exact hc
  · intro _ c i n _ hc hi hn
    exact tidy_insert hc (Instruction.marker_placed hi hn.address_lt hn.lt_reach) hn.clear
  · intro c i rest m _ _ _ h
    exact h

/-- **What is confirmed stays**, and what is kept of a run is confirmed. -/
theorem mem_merge_of_mem_or_kept (hplaced : ∀ i ∈ entries, i.Placed) (hc : c.Tidy)
    {j : Instruction} (hj : j ∈ c.entries ∨ j ∈ (c.merge overlap entries).kept) :
    j ∈ (c.merge overlap entries).coverage.entries := by
  refine merge_induction (motive := fun c _ m => j ∈ c.entries ∨ j ∈ m.kept →
    j ∈ m.coverage.entries) ?_ ?_ ?_ hplaced hc hj
  · rintro c _ _ - (hj | hj)
    · exact hj
    · exact absurd hj List.not_mem_nil
  · rintro - c i n _ - - - (hj | hj)
    · exact mem_insert.mpr (Or.inr hj)
    · exact absurd hj List.not_mem_nil
  · -- the entry that is confirmed here is there for the rest of the run
    rintro c i rest m - - - ih (hj | hj)
    · exact ih (Or.inl (mem_insert.mpr (Or.inr hj)))
    · rcases List.mem_cons.mp hj with rfl | hj
      · exact ih (Or.inl (mem_insert.mpr (Or.inl rfl)))
      · exact ih (Or.inr hj)

/-- What a merge confirms beside what was there is kept of the run or invalid. -/
theorem mem_merge (hplaced : ∀ i ∈ entries, i.Placed) (hc : c.Tidy) {j : Instruction}
    (hj : j ∈ (c.merge overlap entries).coverage.entries) :
    j ∈ c.entries ∨ j ∈ (c.merge overlap entries).kept ∨ j.isInvalid = true := by
  refine merge_induction (motive := fun c _ m => j ∈ m.coverage.entries →
    j ∈ c.entries ∨ j ∈ m.kept ∨ j.isInvalid = true) ?_ ?_ ?_ hplaced hc hj
  · intro c _ _ _ hj
    exact Or.inl hj
  · intro _ c i n _ _ _ _ hj
    rcases mem_insert.mp hj with rfl | hj
    · exact Or.inr (Or.inr rfl)
    · exact Or.inl hj
  · intro c i rest m _ _ _ ih hj
    rcases ih hj with hmem | hkept | hinvalid
    · rcases mem_insert.mp hmem with rfl | hmem
      · exact Or.inr (Or.inl List.mem_cons_self)
      · exact Or.inl hmem
    · exact Or.inr (Or.inl (List.mem_cons_of_mem i hkept))
    · exact Or.inr (Or.inr hinvalid)

/-- A merge of two parts of a run is that of the first, and of the second if nothing collided. -/
theorem merge_append (overlap : Overlap) (c : Coverage) (l l' : List Instruction) :
    c.merge overlap (l ++ l') =
      let front := c.merge overlap l
      let back := front.coverage.merge overlap l'
      if front.collided then front else { back with kept := front.kept ++ back.kept } := by
  induction l generalizing c with
  | nil => rfl
  | cons i rest ih =>
    simp only [List.cons_append, merge]
    by_cases hcovers : c.covers i.address = true
    · simp only [if_pos hcovers, if_true]
    · simp only [if_neg hcovers]
      rcases (c.nextStart i.address).filter (· < i.stop) with _ | n
      · simp only [ih]
        split <;> rfl
      · rfl

end Coverage

end Disassembler
