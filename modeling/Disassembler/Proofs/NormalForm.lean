import Disassembler.Proofs.Rebase.Symbols

/-!
# The normal form of an image

The table of symbols has one symbol for each address that a symbol is given for. Sorting is stable,
so of the symbols at one address the first of the best rank comes first in the sorted list, and the
first of each run is what is kept. Only the entry point may get a symbol that was not given, namely
if it lies in a section and nothing but intrinsic symbols is there.

Tables in normal form are made again from themselves: they are sorted, no two symbols share an
address, no section starts inside the one before it, and the entry point has its name already.
-/

namespace Disassembler

/-! ## The first entry of a sorted list -/

section

variable {α : Type} {le : α → α → Bool}

/-- An entry comes before all others in an order, and before those of its kind in a list. -/
def IsFirst (le : α → α → Bool) (l : List α) (x : α) : Prop :=
  ∃ front back, l = front ++ x :: back ∧ (∀ y ∈ front, le y x = false) ∧ ∀ y ∈ back, le x y = true

theorem IsFirst.mem {l : List α} {x : α} (h : IsFirst le l x) : x ∈ l := by
  obtain ⟨front, back, rfl, -, -⟩ := h
  exact List.mem_append_right front List.mem_cons_self

theorem isFirst_cons_iff {a x : α} {l : List α} : IsFirst le (a :: l) x ↔
    (x = a ∧ ∀ y ∈ l, le a y = true) ∨ (le a x = false ∧ IsFirst le l x) := by
  constructor
  · rintro ⟨_ | ⟨b, front⟩, back, hl, hfront, hback⟩
    · obtain ⟨rfl, rfl⟩ := List.cons.inj hl
      exact Or.inl ⟨rfl, hback⟩
    · obtain ⟨rfl, rfl⟩ := List.cons.inj hl
      exact Or.inr ⟨hfront a List.mem_cons_self, front, back, rfl,
        fun y hy => hfront y (List.mem_cons_of_mem a hy), hback⟩
  · rintro (⟨rfl, hback⟩ | ⟨ha, front, back, rfl, hfront, hback⟩)
    · exact ⟨[], l, rfl, fun y hy => absurd hy List.not_mem_nil, hback⟩
    · refine ⟨a :: front, back, rfl, fun y hy => ?_, hback⟩
      rcases List.mem_cons.mp hy with rfl | hy
      · exact ha
      · exact hfront y hy

/-- **The head of a sorted list** is the first of those that come before all others. -/
theorem head?_mergeSort_eq_some_iff
    (htrans : ∀ a b c, le a b = true → le b c = true → le a c = true)
    (htotal : ∀ a b, (le a b || le b a) = true) {l : List α} {x : α} :
    (l.mergeSort le).head? = some x ↔ IsFirst le l x := by
  induction l with
  | nil =>
    rw [List.mergeSort_nil, List.head?_nil]
    exact ⟨fun h => absurd h (by simp), fun h => absurd h.mem List.not_mem_nil⟩
  | cons a l ih =>
    rw [mergeSort_cons_eq_filter htrans htotal, isFirst_cons_iff, ← ih]
    have hsorted := List.pairwise_mergeSort htrans htotal l
    have hmem : ∀ y, y ∈ l.mergeSort le ↔ y ∈ l := fun y => List.mem_mergeSort
    generalize l.mergeSort le = sorted at hsorted hmem
    rcases sorted with _ | ⟨b, rest⟩
    · have hl : l = [] := List.eq_nil_iff_forall_not_mem.mpr fun y hy =>
        List.not_mem_nil ((hmem y).mpr hy)
      rw [List.filter_nil, List.filter_nil, List.nil_append, List.head?_cons, List.head?_nil,
        Option.some_inj]
      constructor
      · rintro rfl
        exact Or.inl ⟨rfl, fun y hy => absurd hy (hl ▸ List.not_mem_nil)⟩
      · rintro (⟨h, -⟩ | ⟨-, h⟩)
        · exact h.symm
        · cases h
    · rcases hab : le a b with _ | _
      · -- the old head stays in front
        have hb : ¬ ∀ y ∈ l, le a y = true := fun h => by
          rw [h b ((hmem b).mp List.mem_cons_self)] at hab
          cases hab
        rw [List.filter_cons_of_pos (by simp [hab]), List.cons_append, List.head?_cons,
          List.head?_cons, Option.some_inj]
        constructor
        · rintro rfl
          exact Or.inr ⟨hab, rfl⟩
        · rintro (⟨-, h⟩ | ⟨-, h⟩)
          · exact absurd h hb
          · exact h
      · -- nothing that is there comes before the new one
        have hall : ∀ y ∈ b :: rest, le a y = true := by
          intro y hy
          rcases List.mem_cons.mp hy with rfl | hy
          · exact hab
          · exact htrans a b y hab ((List.pairwise_cons.mp hsorted).1 y hy)
        have hnone : (b :: rest).filter (!le a ·) = [] :=
          List.filter_eq_nil_iff.mpr fun y hy => by simp [hall y hy]
        rw [hnone, List.nil_append, List.head?_cons, List.head?_cons, Option.some_inj,
          Option.some_inj]
        constructor
        · rintro rfl
          exact Or.inl ⟨rfl, fun y hy => hall y ((hmem y).mpr hy)⟩
        · rintro (⟨h, -⟩ | ⟨h, rfl⟩)
          · exact h.symm
          · rw [hab] at h
            cases h

end

/-! ## The preferred symbol of an address -/

namespace Symbol

/-- Of the symbols of a list at its address, a symbol is the first one of the best rank. -/
def IsPreferred (symbols : List Symbol) (s : Symbol) : Prop :=
  ∃ front back, symbols = front ++ s :: back
    ∧ (∀ t ∈ front, t.address = s.address → s.rank < t.rank)
    ∧ ∀ t ∈ back, t.address = s.address → s.rank ≤ t.rank

theorem IsPreferred.mem {symbols : List Symbol} {s : Symbol} (h : s.IsPreferred symbols) :
    s ∈ symbols := by
  obtain ⟨front, back, rfl, -, -⟩ := h
  exact List.mem_append_right front List.mem_cons_self

/-- A preferred symbol is of the best rank at its address. -/
theorem IsPreferred.rank_le {symbols : List Symbol} {s t : Symbol} (h : s.IsPreferred symbols)
    (ht : t ∈ symbols) (haddress : t.address = s.address) : s.rank ≤ t.rank := by
  obtain ⟨front, back, rfl, hfront, hback⟩ := h
  rcases List.mem_append.mp ht with ht | ht
  · exact Nat.le_of_lt (hfront t ht haddress)
  · rcases List.mem_cons.mp ht with rfl | ht
    · exact Nat.le_refl _
    · exact hback t ht haddress

/-- Intrinsic symbols, and no others, are of the last rank. -/
theorem rank_lt_three_iff {s : Symbol} : s.rank < 3 ↔ s.isIntrinsic = false := by
  unfold rank
  rcases s.isIntrinsic with _ | _
  · cases s.kind <;> simp
  · simp

theorem isIntrinsic_of_rank_le {s t : Symbol} (h : s.rank ≤ t.rank) (ht : t.isIntrinsic = false) :
    s.isIntrinsic = false :=
  rank_lt_three_iff.mp (Nat.lt_of_le_of_lt h (rank_lt_three_iff.mpr ht))

/-- At one address, symbols are in order by their ranks. -/
theorem precedes_of_address_eq {s t : Symbol} (h : s.address = t.address) :
    s.precedes t = decide (s.rank ≤ t.rank) := by
  rw [precedes, if_pos h]

/-- What is preferred in a list is what comes first among the symbols at the address. -/
theorem isPreferred_iff_isFirst {symbols : List Symbol} {s : Symbol} {a : UInt64} :
    IsFirst precedes (symbols.filter (·.address == a)) s ↔
      s.address = a ∧ s.IsPreferred symbols := by
  have hmem : ∀ {l : List Symbol} {t : Symbol}, t ∈ l.filter (·.address == a) ↔
      t ∈ l ∧ t.address = a := fun {l t} => by rw [List.mem_filter, beq_iff_eq]
  constructor
  · intro h
    have hs : s.address = a := (hmem.mp h.mem).2
    obtain ⟨front, back, hl, hfront, hback⟩ := h
    obtain ⟨front', rest, rfl, rfl, hrest⟩ := List.filter_eq_append_iff.mp hl
    obtain ⟨between, back', rfl, hbetween, -, rfl⟩ := List.filter_eq_cons_iff.mp hrest
    refine ⟨hs, front' ++ between, back', by simp, fun t ht haddress => ?_, fun t ht haddress => ?_⟩
    · rcases List.mem_append.mp ht with ht | ht
      · have hlt := hfront t (hmem.mpr ⟨ht, haddress.trans hs⟩)
        rw [precedes_of_address_eq haddress, decide_eq_false_iff_not] at hlt
        omega
      · exact absurd (beq_iff_eq.mpr (haddress.trans hs)) (hbetween t ht)
    · have hle := hback t (hmem.mpr ⟨ht, haddress.trans hs⟩)
      rwa [precedes_of_address_eq haddress.symm, decide_eq_true_iff] at hle
  · rintro ⟨hs, front, back, rfl, hfront, hback⟩
    refine ⟨front.filter (·.address == a), back.filter (·.address == a), ?_, fun t ht => ?_,
      fun t ht => ?_⟩
    · rw [List.filter_append, List.filter_cons_of_pos (by simpa using hs)]
    · obtain ⟨ht, haddress⟩ := hmem.mp ht
      have haddress := haddress.trans hs.symm
      have hlt := hfront t ht haddress
      rw [precedes_of_address_eq haddress, decide_eq_false_iff_not]
      omega
    · obtain ⟨ht, haddress⟩ := hmem.mp ht
      have haddress := haddress.trans hs.symm
      rw [precedes_of_address_eq haddress.symm, decide_eq_true_iff]
      exact hback t ht haddress

end Symbol

namespace Image

/-! ## The table of symbols -/

theorem firstOfEach_of_address_eq {a : UInt64} {l : List Symbol} (h : ∀ s ∈ l, s.address = a) :
    firstOfEach l = l.head?.toList := by
  fun_induction firstOfEach l with
  | case1 => rfl
  | case2 s => rfl
  | case3 s t rest heq ih =>
    refine ih fun u hu => h u ?_
    rcases List.mem_cons.mp hu with rfl | hu
    · exact List.mem_cons_self
    · exact List.mem_cons_of_mem s (List.mem_cons_of_mem t hu)
  | case4 s t rest hne ih =>
    have ht := h t (List.mem_cons_of_mem s List.mem_cons_self)
    exact absurd ((h s List.mem_cons_self).trans ht.symm) hne

/-- The table has the symbol of an address that comes first in the sorted list. -/
theorem filter_symbolTable (symbols : List Symbol) (a : UInt64) :
    (symbolTable symbols).filter (·.address == a)
      = ((symbols.filter (·.address == a)).mergeSort Symbol.precedes).head?.toList := by
  have haddress : ∀ s t : Symbol, s.address = t.address → (s.address == a) = (t.address == a) :=
    fun s t h => by rw [h]
  rw [symbolTable, filter_firstOfEach haddress (pairwise_mergeSort_precedes symbols),
    filter_mergeSort precedes_trans precedes_total]
  refine firstOfEach_of_address_eq (a := a) fun s hs => ?_
  exact beq_iff_eq.mp (List.mem_filter.mp (List.mem_mergeSort.mp hs)).2

/-- **The table keeps the preferred symbol of each address.** -/
theorem mem_symbolTable_iff {symbols : List Symbol} {s : Symbol} :
    s ∈ symbolTable symbols ↔ s.IsPreferred symbols := by
  have hself : s ∈ symbolTable symbols ↔
      s ∈ (symbolTable symbols).filter (·.address == s.address) := by simp
  rw [hself, filter_symbolTable, Option.mem_toList,
    head?_mergeSort_eq_some_iff precedes_trans precedes_total, Symbol.isPreferred_iff_isFirst]
  exact and_iff_right rfl

/-- Where a symbol is given, one of them is preferred. -/
theorem exists_isPreferred {symbols : List Symbol} {t : Symbol} (h : t ∈ symbols) :
    ∃ s : Symbol, s.address = t.address ∧ s.IsPreferred symbols := by
  rcases hhead : ((symbols.filter (·.address == t.address)).mergeSort
      Symbol.precedes).head? with _ | s
  · have hnil := List.head?_eq_none_iff.mp hhead
    have ht : t ∈ (symbols.filter (·.address == t.address)).mergeSort Symbol.precedes :=
      List.mem_mergeSort.mpr (List.mem_filter.mpr ⟨h, beq_self_eq_true _⟩)
    rw [hnil] at ht
    exact absurd ht List.not_mem_nil
  · rw [head?_mergeSort_eq_some_iff precedes_trans precedes_total] at hhead
    exact ⟨s, Symbol.isPreferred_iff_isFirst.mp hhead⟩

/-- A symbol that is put in place of others is the only one at its address. -/
theorem mem_withSymbol_iff {e s : Symbol} {l : List Symbol} :
    s ∈ withSymbol e l ↔ if s.address = e.address then s = e else s ∈ l := by
  rw [withSymbol, List.mem_append, List.mem_cons, List.mem_filter, List.mem_filter,
    decide_eq_true_iff, decide_eq_true_iff]
  split
  · rename_i heq
    rw [heq]
    simp [UInt64.lt_irrefl]
  · rename_i hne
    have hcases : s.address < e.address ∨ e.address < s.address := by
      rw [← UInt64.toNat_inj] at hne
      rw [UInt64.lt_iff_toNat_lt, UInt64.lt_iff_toNat_lt]
      omega
    have hse : s ≠ e := fun h => hne (congrArg Symbol.address h)
    tauto

/-! ## The entry point -/

/-- Nothing but intrinsic symbols is given for an entry point that lies in a section. -/
def Unnamed (image : Image) (symbols : List Symbol) : Prop :=
  (image.sectionFor image.entry).isSome = true
    ∧ ∀ s ∈ symbols, s.address = image.entry → s.isIntrinsic = true

variable {machine : Option Machine} {order : ByteOrder} {entry : UInt64}
variable {sections : List Section} {symbols : List Symbol}

/-- The table names the entry point if one of the given symbols does. -/
theorem any_symbolTable_iff {a : UInt64} :
    ((symbolTable symbols).any fun s => s.address = a ∧ ¬ s.isIntrinsic) = true ↔
      ∃ s ∈ symbols, s.address = a ∧ s.isIntrinsic = false := by
  rw [List.any_eq_true]
  constructor
  · rintro ⟨s, hs, hname⟩
    obtain ⟨ha, hname⟩ := of_decide_eq_true hname
    exact ⟨s, (mem_symbolTable_iff.mp hs).mem, ha, Bool.eq_false_iff.mpr hname⟩
  · rintro ⟨t, ht, rfl, hname⟩
    obtain ⟨s, hs, hpreferred⟩ := exists_isPreferred ht
    have hs' := Symbol.isIntrinsic_of_rank_le (hpreferred.rank_le ht hs.symm) hname
    exact ⟨s, mem_symbolTable_iff.mpr hpreferred, decide_eq_true ⟨hs, by simp [hs']⟩⟩

theorem unnamed_iff : (build machine order entry sections symbols).Unnamed symbols ↔
    (sectionOf? (sectionTable sections) entry).isSome = true
      ∧ ¬ ((symbolTable symbols).any fun s => s.address = entry ∧ ¬ s.isIntrinsic) = true := by
  rw [any_symbolTable_iff]
  refine and_congr_right fun _ => ?_
  simp only [not_exists, not_and, Bool.not_eq_false]
  rfl

/-- An unnamed entry point gets a symbol of its own. -/
theorem symbols_of_unnamed (h : (build machine order entry sections symbols).Unnamed symbols) :
    (build machine order entry sections symbols).symbols.toList
      = withSymbol (Symbol.entryPoint entry) (symbolTable symbols) :=
  if_pos (unnamed_iff.mp h)

/-- In any other image the symbols are those of the table. -/
theorem symbols_of_not_unnamed
    (h : ¬ (build machine order entry sections symbols).Unnamed symbols) :
    (build machine order entry sections symbols).symbols.toList = symbolTable symbols :=
  if_neg (mt unnamed_iff.mpr h)

variable {s : Symbol}

/-- **Away from an unnamed entry point, an image has the preferred symbols.** -/
theorem mem_symbols_iff_isPreferred
    (h : ¬ (s.address = entry ∧ (build machine order entry sections symbols).Unnamed symbols)) :
    s ∈ (build machine order entry sections symbols).symbols ↔ s.IsPreferred symbols := by
  rw [← Array.mem_toList_iff, ← mem_symbolTable_iff]
  by_cases hunnamed : (build machine order entry sections symbols).Unnamed symbols
  · have hne : ¬ s.address = (Symbol.entryPoint entry).address := fun hs => h ⟨hs, hunnamed⟩
    rw [symbols_of_unnamed hunnamed, mem_withSymbol_iff, if_neg hne]
  · rw [symbols_of_not_unnamed hunnamed]

/-- At an unnamed entry point it has a symbol that was not given. -/
theorem mem_symbols_iff_entryPoint
    (h : (build machine order entry sections symbols).Unnamed symbols) (hs : s.address = entry) :
    s ∈ (build machine order entry sections symbols).symbols ↔ s = Symbol.entryPoint entry := by
  have hs : s.address = (Symbol.entryPoint entry).address := hs
  rw [← Array.mem_toList_iff, symbols_of_unnamed h, mem_withSymbol_iff, if_pos hs]

/-- The symbol at an address is the one that the image has there. -/
theorem symbolAt_eq_some_iff {a : UInt64} :
    (build machine order entry sections symbols).symbolAt a = some s ↔
      s ∈ (build machine order entry sections symbols).symbols ∧ s.address = a :=
  Search.next?_filter_eq_some_iff pairwise_lt_symbols

/-- **Which addresses carry a symbol.** -/
theorem isSome_symbolAt_iff {a : UInt64} :
    ((build machine order entry sections symbols).symbolAt a).isSome = true ↔
      (∃ s ∈ symbols, s.address = a)
        ∨ (a = entry ∧ ((build machine order entry sections symbols).sectionFor entry).isSome) := by
  rw [Option.isSome_iff_exists]
  by_cases h : a = entry ∧ (build machine order entry sections symbols).Unnamed symbols
  · -- the entry point has a symbol of its own, and it lies in a section
    have hentry : (Symbol.entryPoint entry).address = a := h.1.symm
    refine iff_of_true ⟨Symbol.entryPoint entry, ?_⟩ (Or.inr ⟨h.1, h.2.1⟩)
    exact symbolAt_eq_some_iff.mpr ⟨(mem_symbols_iff_entryPoint h.2 rfl).mpr rfl, hentry⟩
  · constructor
    · rintro ⟨s, hs⟩
      obtain ⟨hmem, rfl⟩ := symbolAt_eq_some_iff.mp hs
      exact Or.inl ⟨s, ((mem_symbols_iff_isPreferred h).mp hmem).mem, rfl⟩
    · intro hgiven
      have hgiven : ∃ t ∈ symbols, t.address = a := by
        rcases hgiven with hgiven | ⟨rfl, hsection⟩
        · exact hgiven
        · -- the entry point is named, so something is given for it
          by_contra hnone
          exact h ⟨rfl, hsection, fun t ht hta => absurd ⟨t, ht, hta⟩ hnone⟩
      obtain ⟨t, ht, rfl⟩ := hgiven
      obtain ⟨s, hst, hs⟩ := exists_isPreferred ht
      exact ⟨s, symbolAt_eq_some_iff.mpr ⟨(mem_symbols_iff_isPreferred (hst ▸ h)).mpr hs, hst⟩⟩

theorem isIntrinsic_entryPoint (a : UInt64) : (Symbol.entryPoint a).isIntrinsic = false := by
  show Symbol.isIntrinsicName (Text.ofString "entry") = false
  decide +kernel

/-- **An entry point in a section has a name.** -/
theorem exists_symbolAt_entry
    (h : ((build machine order entry sections symbols).sectionFor entry).isSome = true) :
    ∃ s, (build machine order entry sections symbols).symbolAt entry = some s
      ∧ s.isIntrinsic = false := by
  by_cases hunnamed : (build machine order entry sections symbols).Unnamed symbols
  · refine ⟨Symbol.entryPoint entry, ?_, isIntrinsic_entryPoint entry⟩
    exact symbolAt_eq_some_iff.mpr ⟨(mem_symbols_iff_entryPoint hunnamed rfl).mpr rfl, rfl⟩
  · -- one of the given symbols names it, and the preferred one is no worse
    obtain ⟨t, ht, hentry, hname⟩ : ∃ t ∈ symbols, t.address = entry ∧ t.isIntrinsic = false := by
      by_contra hnone
      refine hunnamed ⟨h, fun t ht hentry => ?_⟩
      by_contra hname
      exact hnone ⟨t, ht, hentry, Bool.eq_false_iff.mpr hname⟩
    obtain ⟨s, hst, hs⟩ := exists_isPreferred ht
    have hmem : s ∈ (build machine order entry sections symbols).symbols :=
      (mem_symbols_iff_isPreferred fun h => hunnamed h.2).mpr hs
    exact ⟨s, symbolAt_eq_some_iff.mpr ⟨hmem, hst.trans hentry⟩,
      Symbol.isIntrinsic_of_rank_le (hs.rank_le ht hst.symm) hname⟩

/-! ## Tables that are made again -/

/-- In a table that ascends strictly, each symbol is a run of its own. -/
theorem symbolTable_of_pairwise_lt {l : List Symbol}
    (h : l.Pairwise fun s t => s.address < t.address) : symbolTable l = l := by
  have hsorted : l.Pairwise fun s t => s.precedes t = true :=
    h.imp fun hst => precedes_iff.mpr (Or.inl (UInt64.lt_iff_toNat_lt.mp hst))
  rw [symbolTable, List.mergeSort_of_pairwise hsorted, firstOfEach_eq_destutter]
  exact List.destutter_of_isChain _ l (h.imp fun hst => UInt64.ne_of_lt hst).isChain

theorem clipped_clipped (s : Section) : s.clipped.clipped = s.clipped := by
  simp [Section.clipped]

/-- No section of a table starts inside the one before it. -/
theorem isChain_keepDisjoint {kept : Array Section} {ss : List Section}
    (h : kept.toList.IsChain fun s t => ¬ t.start < s.stop) :
    (keepDisjoint kept ss).toList.IsChain fun s t => ¬ t.start < s.stop := by
  induction ss generalizing kept with
  | nil => exact h
  | cons t rest ih =>
    unfold keepDisjoint
    split
    · exact ih h
    · rename_i hbehind
      refine ih ?_
      rw [Array.toList_push]
      refine List.isChain_append.mpr ⟨h, List.isChain_singleton _, fun s hs u hu => ?_⟩
      rw [Array.getLast?_toList] at hs
      rw [List.head?_cons, Option.mem_some_iff] at hu
      subst hu
      have hstart : ¬ t.start < s.stop := by simpa [Option.mem_def.mp hs] using hbehind
      exact hstart

/-- Where no section starts inside the one before it, all are kept. -/
theorem keepDisjoint_of_isChain {kept : Array Section} {ss : List Section}
    (h : (kept.toList ++ ss).IsChain fun s t => ¬ t.start < s.stop)
    (hss : ∀ s ∈ ss, s.clipped = s) : (keepDisjoint kept ss).toList = kept.toList ++ ss := by
  induction ss generalizing kept with
  | nil => rw [keepDisjoint, List.append_nil]
  | cons t rest ih =>
    have hbehind : ¬ (kept.back?.any fun last => t.start < last.stop) = true := by
      obtain ⟨-, -, hlast⟩ := List.isChain_append.mp h
      rw [Array.getLast?_toList] at hlast
      rcases hback : kept.back? with _ | last
      · simp
      · simpa using hlast last hback t (by simp)
    have hpush : (kept.push t.clipped).toList ++ rest = kept.toList ++ t :: rest := by
      rw [Array.toList_push, hss t List.mem_cons_self, List.append_assoc, List.singleton_append]
    rw [keepDisjoint, if_neg hbehind, ih (hpush ▸ h) fun s hs => hss s (List.mem_cons_of_mem t hs),
      hpush]

/-- A table of sections is made again from its own sections. -/
theorem sectionTable_sectionTable (sections : List Section) :
    sectionTable (sectionTable sections).toList = sectionTable sections := by
  have hsorted : (sectionTable sections).toList.Pairwise fun s t => s.start ≤ t.start :=
    @pairwise_start_sections none default 0 sections []
  have hsize : ∀ s ∈ (sectionTable sections).toList, decide (s.size ≠ 0) = true := fun s hs =>
    decide_eq_true (forall_mem_sectionTable (P := fun s => s.size ≠ 0) (fun _ _ hsize => hsize) s
      (Array.mem_toList_iff.mp hs))
  have hclipped : ∀ s ∈ (sectionTable sections).toList, s.clipped = s := fun s hs =>
    forall_mem_sectionTable (P := fun s => s.clipped = s) (fun t _ _ => clipped_clipped t) s
      (Array.mem_toList_iff.mp hs)
  have hchain : (sectionTable sections).toList.IsChain fun s t => ¬ t.start < s.stop :=
    isChain_keepDisjoint List.isChain_nil
  have hagain : sectionTable (sectionTable sections).toList
      = keepDisjoint #[] (sectionTable sections).toList := by
    show keepDisjoint #[] (((sectionTable sections).toList.mergeSort _).filter _) = _
    rw [List.mergeSort_of_pairwise (hsorted.imp decide_eq_true), List.filter_eq_self.mpr hsize]
  rw [hagain, ← Array.toList_inj]
  exact keepDisjoint_of_isChain hchain hclipped

/-- **An image is built again from its own sections and symbols.** -/
theorem build_self :
    let image := build machine order entry sections symbols
    build machine order entry image.sections.toList image.symbols.toList = image := by
  intro image
  have hsections : sectionTable image.sections.toList = image.sections :=
    sectionTable_sectionTable sections
  have hsymbols : symbolTable image.symbols.toList = image.symbols.toList :=
    symbolTable_of_pairwise_lt pairwise_lt_symbols
  -- the entry point has its name already
  have hnamed : ¬ (build machine order entry image.sections.toList image.symbols.toList).Unnamed
      image.symbols.toList := by
    rintro ⟨hsection, hnone⟩
    have hsection : (image.sectionFor entry).isSome = true := by
      unfold sectionFor at hsection ⊢
      exact hsections ▸ hsection
    obtain ⟨s, hs, hname⟩ := exists_symbolAt_entry hsection
    obtain ⟨hmem, haddress⟩ := symbolAt_eq_some_iff.mp hs
    rw [hnone s (Array.mem_toList_iff.mpr hmem) haddress] at hname
    cases hname
  have hagain := symbols_of_not_unnamed hnamed
  rw [hsymbols] at hagain
  have himage : ∀ {i j : Image}, i.machine = j.machine → i.order = j.order → i.entry = j.entry →
      i.sections = j.sections → i.symbols = j.symbols → i = j := by
    rintro ⟨⟩ ⟨⟩ rfl rfl rfl rfl rfl
    rfl
  exact himage rfl rfl rfl hsections (Array.toList_inj.mp hagain)

/-- **The normal form of an image.** The symbols ascend strictly by address. An address carries one
if and only if one is given for it, or it is the entry point and lies in a section. It is the first
of the best rank, but for an unnamed entry point, which gets a symbol of its own; so an entry point
in a section has a symbol that is not intrinsic. And the image is built again from its own
tables. -/
theorem normal_build (machine : Option Machine) (order : ByteOrder) (entry : UInt64)
    (sections : List Section) (symbols : List Symbol) :
    let image := build machine order entry sections symbols
    image.symbols.toList.Pairwise (fun s t => s.address < t.address)
      ∧ (∀ a s, image.symbolAt a = some s ↔ s ∈ image.symbols ∧ s.address = a)
      ∧ (∀ a, (∃ s ∈ image.symbols, s.address = a) ↔
          (∃ s ∈ symbols, s.address = a) ∨ (a = entry ∧ (image.sectionFor entry).isSome))
      ∧ (∀ s, ¬ (s.address = entry ∧ image.Unnamed symbols) →
          (s ∈ image.symbols ↔ s.IsPreferred symbols))
      ∧ (image.Unnamed symbols → image.symbolAt entry = some (Symbol.entryPoint entry))
      ∧ ((image.sectionFor entry).isSome →
          ∃ s, image.symbolAt entry = some s ∧ s.isIntrinsic = false)
      ∧ build machine order entry image.sections.toList image.symbols.toList = image := by
  intro image
  refine ⟨pairwise_lt_symbols, fun a s => symbolAt_eq_some_iff, fun a => ?_,
    fun s h => mem_symbols_iff_isPreferred h, fun h => ?_, exists_symbolAt_entry, build_self⟩
  · rw [← isSome_symbolAt_iff, Option.isSome_iff_exists]
    exact exists_congr fun s => symbolAt_eq_some_iff.symm
  · exact symbolAt_eq_some_iff.mpr ⟨(mem_symbols_iff_entryPoint h rfl).mpr rfl, rfl⟩

end Image

end Disassembler
