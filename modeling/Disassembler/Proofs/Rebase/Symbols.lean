import Disassembler.Proofs.Order
import Disassembler.Proofs.Rebase.Image
import Disassembler.Proofs.Seeds

/-!
# The same first seeds elsewhere

A symbol may wrap when an image is moved, and then the table of symbols comes in another order. But
a symbol is a seed only if it lies in code, and addresses in code do not wrap. Selecting symbols by
their addresses can be done before the table is made as well as after it, since sorting is stable
and of one address all symbols are selected or none. The symbol that an entry point may be given
does not count, as the entry point is a seed of its own.
-/

namespace Disassembler

/-- The symbol of the same name, moved by a distance. -/
def Symbol.rebase (d : Int) (s : Symbol) : Symbol := { s with address := moveBy s.address d }

/-- The seed of the same origin, moved by a distance. -/
def Seed.rebase (d : Int) (s : Seed) : Seed := { s with address := moveBy s.address d }

namespace Image

/-! ## Tables of symbols -/

section

variable {p : Symbol → Bool}

/-- What is selected by address stays the first of its run. -/
theorem filter_firstOfEach (hp : ∀ s t, s.address = t.address → p s = p t) {l : List Symbol}
    (hl : l.Pairwise fun s t => s.address ≤ t.address) :
    (firstOfEach l).filter p = firstOfEach (l.filter p) := by
  fun_induction firstOfEach l with
  | case1 => rw [List.filter_nil, firstOfEach]
  | case2 s =>
    rcases hs : p s with _ | _
    · rw [List.filter_cons_of_neg (by simp [hs]), List.filter_nil, firstOfEach]
    · rw [List.filter_cons_of_pos hs, List.filter_nil, firstOfEach]
  | case3 s t rest heq ih =>
    rw [ih (hl.sublist ((List.sublist_cons_self t rest).cons_cons s))]
    rcases hs : p s with _ | _
    · have ht : ¬ p t = true := by rw [← hp s t heq, hs]; simp
      rw [List.filter_cons_of_neg (by simp [hs]), List.filter_cons_of_neg (by simp [hs]),
        List.filter_cons_of_neg ht]
    · have ht : p t = true := by rw [← hp s t heq, hs]
      rw [List.filter_cons_of_pos hs, List.filter_cons_of_pos hs, List.filter_cons_of_pos ht,
        firstOfEach, if_pos heq]
  | case4 s t rest hne ih =>
    obtain ⟨hs, hrest⟩ := List.pairwise_cons.mp hl
    rcases hps : p s with _ | _
    · rw [List.filter_cons_of_neg (by simp [hps]), List.filter_cons_of_neg (by simp [hps]),
        ih hrest]
    · rw [List.filter_cons_of_pos hps, List.filter_cons_of_pos hps, ih hrest]
      rcases hselected : (t :: rest).filter p with _ | ⟨u, us⟩
      · rw [firstOfEach, firstOfEach]
      · -- what comes next is at the next address or behind it
        have hu : u ∈ t :: rest := (List.mem_filter.mp (hselected ▸ List.mem_cons_self)).1
        have htu : t.address ≤ u.address := by
          rcases List.mem_cons.mp hu with rfl | hu
          · exact UInt64.le_refl _
          · exact (List.pairwise_cons.mp hrest).1 u hu
        have hsu : s.address ≠ u.address := by
          intro heq
          exact hne (UInt64.le_antisymm (hs t List.mem_cons_self) (heq ▸ htu))
        rw [firstOfEach, if_neg hsu]

/-- A symbol that is put in place of others is of no account where its address is not selected. -/
theorem filter_withSymbol {e : Symbol} (hp : ∀ s, s.address = e.address → p s = false)
    {l : List Symbol} (hl : l.Pairwise fun s t => s.address ≤ t.address) :
    (withSymbol e l).filter p = l.filter p := by
  have hcut : (l.filter fun s => s.address < e.address)
      ++ (l.filter fun s => !decide (s.address < e.address)) = l :=
    filter_append_filter_not (hl.imp fun hst ht =>
      decide_eq_true (UInt64.lt_of_le_of_lt hst (of_decide_eq_true ht)))
  have hbehind : (l.filter fun s => e.address < s.address).filter p
      = (l.filter fun s => !decide (s.address < e.address)).filter p := by
    rw [List.filter_filter, List.filter_filter]
    refine List.filter_congr fun s _ => ?_
    rcases hs : p s with _ | _
    · rfl
    · -- a symbol that is selected is not at the address
      have hne : ¬ s.address = e.address := fun heq => by simp [hp s heq] at hs
      rw [← UInt64.toNat_inj] at hne
      rw [Bool.true_and, Bool.true_and, ← decide_not, decide_eq_decide, UInt64.lt_iff_toNat_lt,
        UInt64.lt_iff_toNat_lt]
      omega
  rw [withSymbol, List.filter_append, List.filter_cons_of_neg (by simp [hp e rfl]), hbehind,
    ← List.filter_append, hcut]

/-- **Selecting symbols of an image by address**, other than at its entry point. -/
theorem filter_symbols_build (machine : Option Machine) (order : ByteOrder) {entry : UInt64}
    (sections : List Section) (symbols : List Symbol)
    (hp : ∀ s t, s.address = t.address → p s = p t)
    (hentry : ∀ s, s.address = entry → p s = false) :
    (build machine order entry sections symbols).symbols.toList.filter p
      = firstOfEach ((symbols.filter p).mergeSort Symbol.precedes) := by
  have hsorted := pairwise_mergeSort_precedes symbols
  have htable : (symbolTable symbols).filter p
      = firstOfEach ((symbols.filter p).mergeSort Symbol.precedes) := by
    rw [symbolTable, filter_firstOfEach hp hsorted,
      filter_mergeSort precedes_trans precedes_total]
  unfold build
  dsimp only
  split
  · rw [← htable]
    exact filter_withSymbol hentry (hsorted.sublist (firstOfEach_sublist _))
  · exact htable

end

/-! ## Seeds -/

theorem firstOfEach_rebase (d : Int) (l : List Symbol) :
    firstOfEach (l.map (·.rebase d)) = (firstOfEach l).map (·.rebase d) := by
  fun_induction firstOfEach l with
  | case1 => rw [List.map_nil, firstOfEach]
  | case2 s => rw [List.map_singleton, firstOfEach]
  | case3 s t rest heq ih =>
    have heq : (s.rebase d).address = (t.rebase d).address := moveBy_inj.mpr heq
    rw [← ih, List.map_cons, List.map_cons, firstOfEach, if_pos heq, List.map_cons]
  | case4 s t rest hne ih =>
    have hne : ¬ (s.rebase d).address = (t.rebase d).address := fun h => hne (moveBy_inj.mp h)
    rw [List.map_cons, List.map_cons, List.map_cons, firstOfEach, if_neg hne, ← ih, List.map_cons]

variable {d : Int} {machine : Option Machine} {order : ByteOrder} {entry : UInt64}
variable {sections : List Section} {symbols : List Symbol}

/-- An image of sections that do not wrap, and the same one elsewhere. -/
theorem rebased_build (h : ∀ s ∈ sections, s.Movable d) :
    Rebased d (build machine order entry sections symbols)
      (build machine order (moveBy entry d) (sections.map (·.rebase d))
        (symbols.map (·.rebase d))) := by
  have hmovable : ∀ s ∈ sectionTable sections, s.Movable d :=
    forall_mem_sectionTable (P := (·.Movable d)) fun s hs _ =>
      ⟨(h s hs).start_nonneg, (h s hs).fits, (h s hs).fits_moved⟩
  exact ⟨rfl, rfl, sectionTable_rebase h, hmovable,
    pairwise_before fun s hs => (hmovable s hs).fits⟩

theorem selects_eq_of_address_eq (image : Image) (s t : Symbol) (h : s.address = t.address) :
    image.selects s = image.selects t := by
  rw [selects, selects, h]

theorem selects_entry (image : Image) (s : Symbol) (h : s.address = image.entry) :
    image.selects s = false := by
  rw [selects, h, bne_self_eq_false, Bool.false_and]

/-- **The symbols that may be seeds are the same, moved.** -/
theorem filter_symbols_rebase (h : ∀ s ∈ sections, s.Movable d) :
    let image := build machine order entry sections symbols
    let moved := build machine order (moveBy entry d) (sections.map (·.rebase d))
      (symbols.map (·.rebase d))
    moved.symbols.toList.filter moved.selects
      = (image.symbols.toList.filter image.selects).map (·.rebase d) := by
  intro image moved
  have hrebased : Rebased d image moved := rebased_build h
  have hselects : moved.selects ∘ (·.rebase d) = image.selects := by
    funext s
    show (!(moveBy s.address d == moveBy entry d) && moved.inCode (moveBy s.address d)) = _
    rw [moveBy_beq, hrebased.inCode]
    rfl
  have hsort : ((symbols.filter image.selects).mergeSort Symbol.precedes).map (·.rebase d)
      = ((symbols.filter image.selects).map (·.rebase d)).mergeSort Symbol.precedes := by
    refine List.map_mergeSort fun s hs t ht => ?_
    have hcode : ∀ u ∈ symbols.filter image.selects, Movable d u.address := fun u hu => by
      have hselected := (List.mem_filter.mp hu).2
      rw [selects, Bool.and_eq_true] at hselected
      exact hrebased.movable_of_inCode hselected.2
    have hs := (hcode s hs).toNat
    have ht := (hcode t ht).toNat
    rw [Bool.eq_iff_iff, precedes_iff, precedes_iff]
    show _ ↔ (moveBy s.address d).toNat < (moveBy t.address d).toNat
      ∨ (moveBy s.address d).toNat = (moveBy t.address d).toNat ∧ s.rank ≤ t.rank
    omega
  calc moved.symbols.toList.filter moved.selects
      = firstOfEach
          (((symbols.map (·.rebase d)).filter moved.selects).mergeSort Symbol.precedes) :=
        filter_symbols_build machine order _ _ moved.selects_eq_of_address_eq moved.selects_entry
    _ = (firstOfEach ((symbols.filter image.selects).mergeSort Symbol.precedes)).map
          (·.rebase d) := by
        rw [List.filter_map, hselects, ← hsort, firstOfEach_rebase]
    _ = (image.symbols.toList.filter image.selects).map (·.rebase d) :=
        congrArg (List.map _) (filter_symbols_build machine order _ _
          image.selects_eq_of_address_eq image.selects_entry).symm

theorem seedOf?_rebase (d : Int) (s : Symbol) :
    seedOf? (s.rebase d) = (seedOf? s).map (·.rebase d) := by
  unfold seedOf?
  show (if s.kind = .function ∨ s.kind = .entry then _ else _) = _
  split <;> rfl

theorem namedSeeds_rebase {image moved : Image} (h : Rebased d image moved)
    (hselected : moved.symbols.toList.filter moved.selects
      = (image.symbols.toList.filter image.selects).map (·.rebase d)) :
    moved.namedSeeds = image.namedSeeds.map (·.rebase d) := by
  have hseeds : ((image.symbols.toList.filter image.selects).map (·.rebase d)).filterMap seedOf?
      = ((image.symbols.toList.filter image.selects).filterMap seedOf?).map (·.rebase d) := by
    rw [List.filterMap_map, List.map_filterMap]
    exact congrArg (List.filterMap · _) (funext (seedOf?_rebase d))
  rw [namedSeeds_eq, namedSeeds_eq, hselected, hseeds, List.map_append, h.entry, h.inCode]
  split <;> rfl

/-- **The analysis of the image elsewhere starts at the same seeds, moved.** -/
theorem initialSeeds_rebase (h : ∀ s ∈ sections, s.Movable d) :
    (build machine order (moveBy entry d) (sections.map (·.rebase d))
        (symbols.map (·.rebase d))).initialSeeds
      = (build machine order entry sections symbols).initialSeeds.map (·.rebase d) := by
  have hrebased : Rebased d (build machine order entry sections symbols) _ := rebased_build h
  have hnamed := namedSeeds_rebase hrebased (filter_symbols_rebase h)
  unfold initialSeeds
  rw [hnamed, List.isEmpty_map, hrebased.sections]
  split
  · rw [Array.toList_map, List.filter_map, List.map_map, List.map_map]
    rfl
  · rfl

end Image

end Disassembler
