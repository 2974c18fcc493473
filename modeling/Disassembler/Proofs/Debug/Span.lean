import Disassembler.Debug.Index
import Disassembler.Proofs.Search

/-!
# Ranges that are taken

A list of ranges in order says of each address whether it is taken. What is uncovered of a range
holds the addresses of the range that are not taken, in pieces that are in order again, and putting
these pieces among the ranges takes exactly the range. That is all that later modules know of the
pieces: how many there are, and where a range was cut, does not matter to them.
-/

namespace Disassembler.Debug

namespace Span

/-- The address is one of the range. -/
def Holds (s : Span) (a : UInt64) : Prop := s.start.toNat ≤ a.toNat ∧ a.toNat < s.stop.toNat

theorem holds_iff {s : Span} {a : UInt64} : s.Holds a ↔ s.start ≤ a ∧ a < s.stop := by
  rw [Holds, UInt64.le_iff_toNat_le, UInt64.lt_iff_toNat_lt]

def Apart (s t : Span) : Prop := s.stop.toNat ≤ t.start.toNat ∨ t.stop.toNat ≤ s.start.toNat

/-- Ranges that have addresses and lie one behind the other. -/
structure Ordered (ks : List Span) : Prop where
  pos : ∀ k ∈ ks, k.start.toNat < k.stop.toNat
  before : ks.Pairwise fun k l => k.stop.toNat ≤ l.start.toNat

theorem ordered_nil : Ordered [] where
  pos := fun _ hk => absurd hk List.not_mem_nil
  before := List.Pairwise.nil

theorem ordered_cons {k : Span} {ks : List Span} : Ordered (k :: ks) ↔
    k.start.toNat < k.stop.toNat ∧ (∀ l ∈ ks, k.stop.toNat ≤ l.start.toNat) ∧ Ordered ks := by
  constructor
  · intro h
    obtain ⟨hk, hks⟩ := List.pairwise_cons.mp h.before
    exact ⟨h.pos k List.mem_cons_self, hk, ⟨fun l hl => h.pos l (List.mem_cons_of_mem k hl), hks⟩⟩
  · rintro ⟨hpos, hk, hks⟩
    refine ⟨fun l hl => ?_, List.pairwise_cons.mpr ⟨hk, hks.before⟩⟩
    rcases List.mem_cons.mp hl with rfl | hl
    · exact hpos
    · exact hks.pos l hl

/-- Ranges that share no address are apart. -/
theorem apart_of_not_holds {s t : Span} (hs : s.start.toNat < s.stop.toNat)
    (ht : t.start.toNat < t.stop.toNat) (h : ∀ a, s.Holds a → ¬ t.Holds a) : s.Apart t := by
  -- otherwise the later of the two starts would be in both
  rcases Nat.le_total s.start.toNat t.start.toNat with hle | hle
  · refine Or.inl (Nat.le_of_not_lt fun hlt => ?_)
    exact h t.start ⟨hle, hlt⟩ ⟨Nat.le_refl _, ht⟩
  · refine Or.inr (Nat.le_of_not_lt fun hlt => ?_)
    exact h s.start ⟨Nat.le_refl _, hs⟩ ⟨hle, hlt⟩

theorem Apart.symm {s t : Span} (h : s.Apart t) : t.Apart s := Or.symm h

/-! ## What is left of a range -/

theorem mem_nonempty {s p : Span} : p ∈ s.nonempty ↔ p = s ∧ s.start.toNat < s.stop.toNat := by
  unfold nonempty
  split
  · rename_i hlt
    rw [List.mem_singleton, and_iff_left (UInt64.lt_iff_toNat_lt.mp hlt)]
  · rename_i hge
    refine iff_of_false List.not_mem_nil fun h => hge (UInt64.lt_iff_toNat_lt.mpr h.2)

theorem exists_mem_nonempty {s : Span} {a : UInt64} :
    (∃ p ∈ s.nonempty, p.Holds a) ↔ s.Holds a := by
  constructor
  · rintro ⟨p, hp, ha⟩
    obtain ⟨rfl, -⟩ := mem_nonempty.mp hp
    exact ha
  · intro ha
    exact ⟨s, mem_nonempty.mpr ⟨rfl, Nat.lt_of_le_of_lt ha.1 ha.2⟩, ha⟩

theorem uncovered_cons (s k : Span) (ks : List Span) : s.uncovered (k :: ks) =
    if k.stop.toNat ≤ s.start.toNat then s.uncovered ks
    else if s.stop.toNat ≤ k.start.toNat then s.nonempty
    else nonempty { start := s.start, stop := k.start }
      ++ uncovered { s with start := k.stop } ks := by
  simp only [uncovered, UInt64.le_iff_toNat_le]

/-- **The pieces of a range hold what is not taken of it.** -/
theorem exists_mem_uncovered {s : Span} {ks : List Span} (h : Ordered ks) {a : UInt64} :
    (∃ p ∈ s.uncovered ks, p.Holds a) ↔ s.Holds a ∧ ∀ k ∈ ks, ¬ k.Holds a := by
  induction ks generalizing s with
  | nil =>
    rw [uncovered, exists_mem_nonempty]
    simp
  | cons k ks ih =>
    obtain ⟨hpos, hbefore, hks⟩ := ordered_cons.mp h
    rw [uncovered_cons, List.forall_mem_cons]
    by_cases hfront : k.stop.toNat ≤ s.start.toNat
    · -- the taken range lies before this one
      rw [if_pos hfront, ih hks]
      have hk : s.Holds a → ¬ k.Holds a := by
        intro hs hk
        have hle := hs.1
        have hlt := hk.2
        omega
      exact and_congr_right fun hs => (and_iff_right (hk hs)).symm
    by_cases hback : s.stop.toNat ≤ k.start.toNat
    · -- it lies behind this one, and so do all others
      rw [if_neg hfront, if_pos hback, exists_mem_nonempty]
      have hnone : s.Holds a → ∀ l ∈ k :: ks, ¬ l.Holds a := by
        intro hs l hl hla
        have hlt := hs.2
        have hle := hla.1
        rcases List.mem_cons.mp hl with rfl | hl
        · omega
        · have hkl := hbefore l hl
          omega
      exact (and_iff_left_of_imp fun hs => List.forall_mem_cons.mp (hnone hs)).symm
    · -- it cuts this one in two, of which only the second may be cut again
      rw [if_neg hfront, if_neg hback]
      simp only [List.mem_append, or_and_right, exists_or]
      rw [exists_mem_nonempty, ih hks]
      have hleft : a.toNat < k.start.toNat → ∀ l ∈ ks, ¬ l.Holds a := by
        intro hlt l hl hla
        have hle := hla.1
        have hkl := hbefore l hl
        omega
      simp only [Holds] at hleft ⊢
      constructor
      · rintro (⟨hle, hlt⟩ | ⟨⟨hle, hlt⟩, hrest⟩)
        · exact ⟨⟨hle, by omega⟩, by omega, hleft hlt⟩
        · exact ⟨⟨by omega, hlt⟩, by omega, hrest⟩
      · rintro ⟨⟨hle, hlt⟩, hk, hrest⟩
        rcases Nat.lt_or_ge a.toNat k.start.toNat with hka | hka
        · exact Or.inl ⟨hle, hka⟩
        · exact Or.inr ⟨⟨by omega, hlt⟩, hrest⟩

theorem bounds_of_mem_uncovered {s p : Span} {ks : List Span} (h : Ordered ks)
    (hp : p ∈ s.uncovered ks) :
    s.start.toNat ≤ p.start.toNat ∧ p.start.toNat < p.stop.toNat ∧ p.stop.toNat ≤ s.stop.toNat := by
  induction ks generalizing s with
  | nil =>
    obtain ⟨rfl, hlt⟩ := mem_nonempty.mp hp
    exact ⟨Nat.le_refl _, hlt, Nat.le_refl _⟩
  | cons k ks ih =>
    obtain ⟨hpos, -, hks⟩ := ordered_cons.mp h
    rw [uncovered_cons] at hp
    by_cases hfront : k.stop.toNat ≤ s.start.toNat
    · rw [if_pos hfront] at hp
      exact ih hks hp
    by_cases hback : s.stop.toNat ≤ k.start.toNat
    · rw [if_neg hfront, if_pos hback] at hp
      obtain ⟨rfl, hlt⟩ := mem_nonempty.mp hp
      exact ⟨Nat.le_refl _, hlt, Nat.le_refl _⟩
    · rw [if_neg hfront, if_neg hback] at hp
      rcases List.mem_append.mp hp with hp | hp
      · obtain ⟨rfl, hlt⟩ := mem_nonempty.mp hp
        exact ⟨Nat.le_refl _, hlt, by dsimp only; omega⟩
      · obtain ⟨hle, hlt, hstop⟩ := ih hks hp
        exact ⟨by dsimp only at hle; omega, hlt, hstop⟩

/-- **The pieces of a range are in order.** -/
theorem ordered_uncovered {s : Span} {ks : List Span} (h : Ordered ks) :
    Ordered (s.uncovered ks) where
  pos := fun p hp => (bounds_of_mem_uncovered h hp).2.1
  before := by
    have hone : ∀ t : Span, t.nonempty.Pairwise fun k l => k.stop.toNat ≤ l.start.toNat := by
      intro t
      unfold nonempty
      split
      · exact List.pairwise_singleton _ _
      · exact List.Pairwise.nil
    induction ks generalizing s with
    | nil => exact hone s
    | cons k ks ih =>
      obtain ⟨hpos, -, hks⟩ := ordered_cons.mp h
      rw [uncovered_cons]
      split
      · exact ih hks
      split
      · exact hone s
      · refine List.pairwise_append.mpr ⟨hone _, ih hks, fun p hp q hq => ?_⟩
        -- the first piece ends where the taken range starts, the others start at its end
        obtain ⟨rfl, -⟩ := mem_nonempty.mp hp
        have hq := (bounds_of_mem_uncovered hks hq).1
        dsimp only at hq ⊢
        omega

theorem apart_of_mem_uncovered {s p k : Span} {ks : List Span} (h : Ordered ks)
    (hp : p ∈ s.uncovered ks) (hk : k ∈ ks) : p.Apart k := by
  refine apart_of_not_holds (bounds_of_mem_uncovered h hp).2.1 (h.pos k hk) fun a ha => ?_
  exact ((exists_mem_uncovered h).mp ⟨p, hp, ha⟩).2 k hk

/-! ## Taking a range -/

theorem mem_insert {s p : Span} {ks : List Span} : p ∈ s.insert ks ↔ p = s ∨ p ∈ ks := by
  have hsplit := List.takeWhile_append_dropWhile (p := fun k : Span => k.start < s.start) (l := ks)
  conv => rhs; rw [← hsplit, List.mem_append]
  rw [insert, List.mem_append, List.mem_cons, or_left_comm]

/-- A range that is apart from all others can be put among them. -/
theorem ordered_insert {s : Span} {ks : List Span} (h : Ordered ks)
    (hpos : s.start.toNat < s.stop.toNat) (hs : ∀ k ∈ ks, s.Apart k) : Ordered (s.insert ks) where
  pos := by
    intro p hp
    rcases mem_insert.mp hp with rfl | hp
    · exact hpos
    · exact h.pos p hp
  before := by
    rw [insert]
    induction ks with
    | nil => exact List.pairwise_singleton _ _
    | cons k ks ih =>
      obtain ⟨hk, hbefore, hks⟩ := ordered_cons.mp h
      have hapart := hs k List.mem_cons_self
      rw [Apart] at hapart
      by_cases hlt : k.start < s.start
      · have hlt' := UInt64.lt_iff_toNat_lt.mp hlt
        simp only [List.takeWhile_cons, List.dropWhile_cons, decide_eq_true hlt, if_true,
          List.cons_append]
        refine List.pairwise_cons.mpr ⟨fun p hp => ?_,
          ih hks fun l hl => hs l (List.mem_cons_of_mem k hl)⟩
        rcases mem_insert.mp hp with rfl | hp
        · omega
        · exact hbefore p hp
      · have hge := UInt64.le_iff_toNat_le.mp (UInt64.not_lt.mp hlt)
        simp only [List.takeWhile_cons, List.dropWhile_cons, decide_eq_false hlt,
          Bool.false_eq_true, if_false, List.nil_append]
        refine List.pairwise_cons.mpr ⟨fun p hp => ?_, h.before⟩
        rcases List.mem_cons.mp hp with rfl | hp
        · omega
        · have hkp := hbefore p hp
          omega

end Span

theorem mem_taken {pieces before : List Span} {p : Span} :
    p ∈ taken pieces before ↔ p ∈ pieces ∨ p ∈ before := by
  induction pieces generalizing before with
  | nil => simp [taken]
  | cons s pieces ih =>
    show p ∈ taken pieces (s.insert before) ↔ _
    rw [ih, Span.mem_insert, List.mem_cons, ← or_assoc, @or_comm (p ∈ pieces)]

/-- Ranges in order that are apart from what is taken can be taken as well. -/
theorem ordered_taken {pieces before : List Span} (hpieces : Span.Ordered pieces)
    (hbefore : Span.Ordered before) (h : ∀ p ∈ pieces, ∀ k ∈ before, p.Apart k) :
    Span.Ordered (taken pieces before) := by
  induction pieces generalizing before with
  | nil => exact hbefore
  | cons s pieces ih =>
    obtain ⟨hpos, hs, hrest⟩ := Span.ordered_cons.mp hpieces
    show Span.Ordered (taken pieces (s.insert before))
    refine ih hrest (Span.ordered_insert hbefore hpos (h s List.mem_cons_self)) ?_
    intro p hp k hk
    rcases Span.mem_insert.mp hk with rfl | hk
    · exact Or.inr (hs p hp)
    · exact h p (List.mem_cons_of_mem s hp) k hk

/-! ## Tables by range -/

section Table

variable {α : Type} {span : α → Span}

/-- **Entries that are apart lie one behind the other when they are sorted by their starts.** -/
theorem ordered_mergeSort {xs : List α}
    (hpos : ∀ x ∈ xs, (span x).start.toNat < (span x).stop.toNat)
    (hapart : xs.Pairwise fun x y => (span x).Apart (span y)) :
    Span.Ordered ((xs.mergeSort fun x y => (span x).start ≤ (span y).start).map span) where
  pos := by
    intro k hk
    obtain ⟨x, hx, rfl⟩ := List.mem_map.mp hk
    exact hpos x (List.mem_mergeSort.mp hx)
  before := by
    have hsorted : (xs.mergeSort fun x y => (span x).start ≤ (span y).start).Pairwise
        fun x y => (span x).start.toNat ≤ (span y).start.toNat := by
      refine (List.pairwise_mergeSort (fun x y z hxy hyz => ?_) (fun x y => ?_) xs).imp fun h => ?_
      · exact decide_eq_true (UInt64.le_trans (of_decide_eq_true hxy) (of_decide_eq_true hyz))
      · rw [Bool.or_eq_true, decide_eq_true_eq, decide_eq_true_eq]
        exact UInt64.le_total _ _
      · exact UInt64.le_iff_toNat_le.mp (of_decide_eq_true h)
    have hapart := ((List.mergeSort_perm xs fun x y => (span x).start ≤ (span y).start).pairwise_iff
      fun h => Span.Apart.symm h).mpr hapart
    rw [List.pairwise_map]
    refine (hsorted.and hapart).imp_of_mem fun {x y} hx hy h => ?_
    -- of two that are apart, the one with the smaller start ends first
    have hx := hpos x (List.mem_mergeSort.mp hx)
    have hy := hpos y (List.mem_mergeSort.mp hy)
    obtain ⟨hle, hxy | hyx⟩ := h
    · exact hxy
    · omega

/-- **In a table in order, searching finds the entry that holds an address.** -/
theorem last?_filter_eq_some_iff {xs : Array α} (h : Span.Ordered (xs.toList.map span))
    {a : UInt64} {x : α} :
    (Search.last? (fun x => (span x).start ≤ a) xs).filter (fun x => a < (span x).stop) = some x
      ↔ x ∈ xs ∧ (span x).Holds a := by
  have hbefore := List.pairwise_map.mp h.before
  have hpos : ∀ x ∈ xs, (span x).start.toNat < (span x).stop.toNat := fun x hx =>
    h.pos _ (List.mem_map_of_mem (Array.mem_toList_iff.mpr hx))
  have hfalling : Search.Falling (fun x => (span x).start ≤ a) xs := by
    refine Search.falling_le (hbefore.imp_of_mem fun {x y} hx _ hxy => ?_)
    have hx := hpos x (Array.mem_toList_iff.mp hx)
    exact UInt64.le_iff_toNat_le.mpr (by omega)
  rw [Option.filter_eq_some_iff, decide_eq_true_eq, Span.holds_iff]
  constructor
  · rintro ⟨hlast, hlt⟩
    obtain ⟨hx, hle, -⟩ := Search.last?_eq_some hfalling hbefore hlast
    exact ⟨hx, of_decide_eq_true hle, hlt⟩
  · rintro ⟨hx, hle, hlt⟩
    refine ⟨?_, hlt⟩
    rcases hlast : Search.last? (fun x => decide ((span x).start ≤ a)) xs with _ | y
    · exact absurd hle (of_decide_eq_false (Search.last?_eq_none hfalling hlast x hx))
    · obtain ⟨hy, hya, hall⟩ := Search.last?_eq_some hfalling hbefore hlast
      rcases hall x hx (decide_eq_true hle) with rfl | hxy
      · rfl
      · -- the entry would end before another one that starts at the address or before it
        have hya := UInt64.le_iff_toNat_le.mp (of_decide_eq_true hya)
        have hlt := UInt64.lt_iff_toNat_lt.mp hlt
        omega

end Table

end Disassembler.Debug
