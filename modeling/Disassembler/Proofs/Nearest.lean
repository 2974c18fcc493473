import Disassembler.Proofs.Debug.Names
import Disassembler.Proofs.NormalForm
import Disassembler.Proofs.Partition

/-!
# The nearest name

An address inside a section is named after the last symbol before it, with the distance from there.
Intrinsic symbols are passed over, however many there are, and the scan ends at the start of the
section. Symbols ascend strictly, so what the scan comes to is the greatest of all symbols that may
name the address, and a distance neither wraps nor reaches out of the section. The section is the one
that is found for the address. So the symbols of a section that reaches up to `2 ^ 64` name nothing,
and that is all that is missing.
-/

namespace Disassembler

namespace Symbol

/-- A symbol may name an address in what begins at a lower bound: it is not intrinsic, and it lies
between the two. -/
def MayName (low a : UInt64) (s : Symbol) : Prop :=
  s.isIntrinsic = false ∧ low ≤ s.address ∧ s.address ≤ a

instance (low a : UInt64) (s : Symbol) : Decidable (s.MayName low a) :=
  inferInstanceAs (Decidable (_ ∧ _ ∧ _))

/-- Of the symbols of a table that may name an address, the one with the greatest address. -/
structure IsNearest (symbols : Array Symbol) (low a : UInt64) (s : Symbol) : Prop where
  mem : s ∈ symbols
  mayName : s.MayName low a
  greatest : ∀ t ∈ symbols, t.MayName low a → t.address ≤ s.address

end Symbol

namespace Section

variable {sec : Section} {a : UInt64} {s : Symbol}

/-- A symbol that may name an address of a section lies in the section itself. -/
theorem Covers.of_mayName (h : sec.Covers a) (hs : s.MayName sec.start a) :
    sec.Covers s.address := by
  obtain ⟨-, hlow, hle⟩ := hs
  rw [UInt64.le_iff_toNat_le] at hlow hle
  simp only [Covers] at h ⊢
  omega

/-- A section that does not end below `2 ^ 64` covers all addresses from its start on. -/
theorem covers_of_not_fits (h : ¬ sec.Fits) (ha : sec.start.toNat ≤ a.toNat) : sec.Covers a := by
  have hlt := a.toNat_lt
  simp only [Fits, Covers, UInt64.size] at h ⊢
  omega

/-- None that does covers the greatest address. -/
theorem Fits.not_covers_greatest (h : sec.Fits) : ¬ sec.Covers 0xffffffffffffffff := by
  simp only [Fits, Covers, UInt64.size, UInt64.reduceToNat] at h ⊢
  omega

end Section

/-! ## Going back in a table -/

/-- In a list whose keys ascend strictly, the last entry is the one with the greatest key. -/
theorem getLast?_eq_some_iff_of_pairwise_lt {α : Type} {key : α → UInt64} {l : List α}
    (h : l.Pairwise fun x y => key x < key y) {x : α} :
    l.getLast? = some x ↔ x ∈ l ∧ ∀ y ∈ l, key y ≤ key x := by
  constructor
  · intro hx
    obtain ⟨front, rfl⟩ := List.getLast?_eq_some_iff.mp hx
    refine ⟨by simp, fun y hy => ?_⟩
    rcases List.mem_append.mp hy with hy | hy
    · exact UInt64.le_of_lt ((List.pairwise_append.mp h).2.2 y hy x (List.mem_singleton_self x))
    · obtain rfl := List.mem_singleton.mp hy
      exact UInt64.le_refl _
  · rintro ⟨hx, hall⟩
    obtain ⟨front, z, rfl⟩ : ∃ front z, l = front ++ [z] :=
      ⟨_, _, (List.dropLast_concat_getLast (List.ne_nil_of_mem hx)).symm⟩
    rw [List.getLast?_concat]
    rcases List.mem_append.mp hx with hfront | hlast
    · -- the last key would be greater
      have hlt := (List.pairwise_append.mp h).2.2 x hfront z (List.mem_singleton_self z)
      exact absurd hlt (UInt64.not_lt.mpr (hall z (by simp)))
    · rw [List.mem_singleton.mp hlast]

namespace Image

/-- **The scan back comes to the last symbol above a bound that is not intrinsic.** -/
theorem lastNamed_eq_getLast? {symbols : Array Symbol} {low : UInt64} {n : Nat}
    (h : symbols.toList.Pairwise fun s t => s.address < t.address) (hn : n ≤ symbols.size) :
    lastNamed symbols low n
      = ((symbols.toList.take n).filter fun s => !s.isIntrinsic && low ≤ s.address).getLast? := by
  induction n with
  | zero => rfl
  | succ n ih =>
    have hlt : n < symbols.toList.length := hn
    obtain ⟨s, hs⟩ : ∃ s, symbols.toList[n] = s := ⟨_, rfl⟩
    have hget : symbols[n]? = some s := by
      rw [← hs, ← Array.getElem?_toList]
      exact List.getElem?_eq_getElem hlt
    have htake : symbols.toList.take (n + 1) = symbols.toList.take n ++ [s] := by
      rw [List.take_succ_eq_append_getElem hlt, hs]
    rw [lastNamed, hget, Option.bind_eq_bind, Option.bind_some, htake, List.filter_append]
    by_cases hlow : s.address < low
    · -- all symbols before this one are below the bound as well
      have hfront : ∀ t ∈ symbols.toList.take n,
          ¬ (!t.isIntrinsic && decide (low ≤ t.address)) = true := by
        intro t ht hmay
        have hasc := h.sublist (List.take_sublist (n + 1) _)
        rw [htake] at hasc
        have hts := (List.pairwise_append.mp hasc).2.2 t ht s (List.mem_singleton_self s)
        have hle := of_decide_eq_true (Bool.and_eq_true_iff.mp hmay).2
        exact UInt64.not_lt.mpr hle (UInt64.lt_trans hts hlow)
      have hlast : [s].filter (fun s => !s.isIntrinsic && low ≤ s.address) = [] := by
        simp [UInt64.not_le.mpr hlow]
      rw [if_pos hlow, List.filter_eq_nil_iff.mpr hfront, hlast]
      rfl
    · have hle := UInt64.not_lt.mp hlow
      rw [if_neg hlow]
      rcases hname : s.isIntrinsic with _ | _
      · rw [if_neg (by simp), List.filter_cons_of_pos (by simp [hname, hle]), List.filter_nil,
          List.getLast?_concat]
      · rw [if_pos rfl, List.filter_cons_of_neg (by simp [hname]), List.filter_nil,
          List.append_nil, ih (by omega)]

/-- What is found before an address is the last of the symbols that may name it in its section. -/
theorem symbolBefore_eq {image : Image}
    (h : image.symbols.toList.Pairwise fun s t => s.address < t.address) (a : UInt64) :
    image.symbolBefore a = (image.sectionFor a).bind fun sec =>
      (image.symbols.toList.filter (·.MayName sec.start a)).getLast? := by
  have hfalling : Search.Falling (fun t : Symbol => t.address ≤ a) image.symbols :=
    Search.falling_le (h.imp UInt64.le_of_lt)
  unfold symbolBefore
  rw [Option.bind_eq_bind]
  refine congrArg (Option.bind (image.sectionFor a)) (funext fun sec => ?_)
  rw [lastNamed_eq_getLast? h (Search.endOf_le _ _), Search.take_endOf_eq_filter hfalling,
    List.filter_filter]
  refine congrArg List.getLast? (List.filter_congr fun s _ => ?_)
  rw [Bool.eq_iff_iff, decide_eq_true_iff, Symbol.MayName]
  simp [and_assoc]

variable {machine : Option Machine} {order : ByteOrder} {entry : UInt64}
variable {sections : List Section} {symbols : List Symbol} {a : UInt64} {s : Symbol}

/-- **What is found before an address is the nearest symbol of the section that is found for it.** -/
theorem symbolBefore_build_eq_some_iff :
    (build machine order entry sections symbols).symbolBefore a = some s
      ↔ ∃ sec ∈ (build machine order entry sections symbols).sections, sec.Fits ∧ sec.Covers a
        ∧ s.IsNearest (build machine order entry sections symbols).symbols sec.start a := by
  rw [symbolBefore_eq pairwise_lt_symbols, Option.bind_eq_some_iff]
  refine exists_congr fun sec => ?_
  rw [sectionFor_build_eq_some_iff, and_assoc, and_assoc,
    getLast?_eq_some_iff_of_pairwise_lt (pairwise_lt_symbols.filter _)]
  simp only [List.mem_filter, Array.mem_toList_iff, decide_eq_true_eq]
  refine and_congr_right fun _ => and_congr_right fun _ => and_congr_right fun _ => ?_
  exact ⟨fun ⟨⟨hmem, hmay⟩, hall⟩ => ⟨hmem, hmay, fun t ht hmay' => hall t ⟨ht, hmay'⟩⟩,
    fun hs => ⟨⟨hs.mem, hs.mayName⟩, fun t ht => hs.greatest t ht.1 ht.2⟩⟩

/-- Nothing is found where no section is found, or no symbol of it may name the address. -/
theorem symbolBefore_build_eq_none_iff :
    (build machine order entry sections symbols).symbolBefore a = none
      ↔ ∀ sec ∈ (build machine order entry sections symbols).sections, sec.Fits → sec.Covers a →
        ∀ t ∈ (build machine order entry sections symbols).symbols, ¬ t.MayName sec.start a := by
  rw [symbolBefore_eq pairwise_lt_symbols, Option.bind_eq_none_iff]
  simp only [sectionFor_build_eq_some_iff, List.getLast?_eq_none_iff, List.filter_eq_nil_iff,
    Array.mem_toList_iff, decide_eq_true_eq, and_imp]

/-! ## Sections and names -/

/-- Sections name their addresses: what is found before an address is the nearest symbol in a section
that covers it, and nothing is found only if no section covers it or no symbol there may name it. -/
structure NamesSections (image : Image) : Prop where
  found : ∀ a s, image.symbolBefore a = some s
    ↔ ∃ sec ∈ image.sections, sec.Covers a ∧ s.IsNearest image.symbols sec.start a
  missing : ∀ a, image.symbolBefore a = none
    ↔ ∀ sec ∈ image.sections, sec.Covers a → ∀ t ∈ image.symbols, ¬ t.MayName sec.start a

/-- **Sections name their addresses if those with a name end below `2 ^ 64`**, and only then. -/
theorem namesSections_iff : (build machine order entry sections symbols).NamesSections
    ↔ ∀ sec ∈ (build machine order entry sections symbols).sections,
      ∀ t ∈ (build machine order entry sections symbols).symbols,
      t.isIntrinsic = false → sec.Covers t.address → sec.Fits := by
  constructor
  · intro h sec hsec t ht hname hcovers
    by_contra hfits
    -- nothing is found before the greatest address, which such a section covers
    have hnone : (build machine order entry sections symbols).symbolBefore 0xffffffffffffffff = none :=
      symbolBefore_build_eq_none_iff.mpr fun _ _ hfits' hcovers' =>
        absurd hcovers' hfits'.not_covers_greatest
    have hlow := UInt64.le_iff_toNat_le.mpr hcovers.1
    have hgreatest : t.address ≤ 0xffffffffffffffff :=
      UInt64.le_iff_toNat_le.mpr (Nat.le_of_lt_succ t.address.toNat_lt)
    have htop : sec.Covers 0xffffffffffffffff := Section.covers_of_not_fits hfits
      (UInt64.le_iff_toNat_le.mp (UInt64.le_trans hlow hgreatest))
    exact (h.missing _).mp hnone sec hsec htop t ht ⟨hname, hlow, hgreatest⟩
  · intro h
    constructor
    · intro a s
      rw [symbolBefore_build_eq_some_iff]
      refine exists_congr fun sec => and_congr_right fun hsec => and_iff_right_of_imp ?_
      rintro ⟨hcovers, hnearest⟩
      exact h sec hsec s hnearest.mem hnearest.mayName.1 (hcovers.of_mayName hnearest.mayName)
    · intro a
      rw [symbolBefore_build_eq_none_iff]
      refine forall_congr' fun sec => forall_congr' fun hsec => ⟨fun hnone hcovers t ht hmay => ?_,
        fun hnone _ => hnone⟩
      have hfits := h sec hsec t ht hmay.1 (hcovers.of_mayName hmay)
      exact hnone hfits hcovers t ht hmay

/-- **No distance reaches out of a section**: every section that covers the symbol found before an
address covers the address as well. -/
theorem covers_of_symbolBefore
    (h : (build machine order entry sections symbols).symbolBefore a = some s) {other : Section}
    (hother : other ∈ (build machine order entry sections symbols).sections)
    (hcovers : other.Covers s.address) : other.Covers a := by
  obtain ⟨sec, hsec, hfits, ha, hnearest⟩ := symbolBefore_build_eq_some_iff.mp h
  have hs := ha.of_mayName hnearest.mayName
  have hle := UInt64.le_iff_toNat_le.mp hnearest.mayName.2.2
  by_cases hsame : other = sec
  · rwa [hsame]
  have hsymm : Std.Symm fun s t : Section => s.Ahead t ∨ t.Ahead s := ⟨fun _ _ => Or.symm⟩
  have hpairs : (build machine order entry sections symbols).sections.toList.Pairwise
      fun s t => s.Ahead t ∨ t.Ahead s := pairwise_ahead.imp Or.inl
  have hahead := hpairs.forall (Array.mem_toList_iff.mpr hsec) (Array.mem_toList_iff.mpr hother)
    (Ne.symm hsame)
  have hoverlaps : sec.Overlaps other := ⟨s.address, hs, hcovers⟩
  rcases hahead with hahead | hahead
  · exact absurd hoverlaps (hahead.before_of_fits hfits).not_overlaps
  · -- a section in front that overlaps this one reaches up to the end of all addresses
    have hunfit : ¬ other.Fits := fun hfits' =>
      (hahead.before_of_fits hfits').not_overlaps ⟨s.address, hcovers, hs⟩
    exact Section.covers_of_not_fits hunfit (Nat.le_trans hcovers.1 hle)

/-- The distance from what is found before an address does not wrap. -/
theorem toNat_sub_of_symbolBefore
    (h : (build machine order entry sections symbols).symbolBefore a = some s) :
    s.address.toNat + (a - s.address).toNat = a.toNat := by
  obtain ⟨sec, -, -, -, hnearest⟩ := symbolBefore_build_eq_some_iff.mp h
  have hle := hnearest.mayName.2.2
  rw [UInt64.toNat_sub_of_le _ _ hle]
  exact Nat.add_sub_cancel' (UInt64.le_iff_toNat_le.mp hle)

end Image

/-- Outside what functions keep, the nearest name is that of the image's symbol. -/
theorem Debug.Index.nearest_of_functionAt {rs : Debug.Records} {image : Image} {a : UInt64}
    (h : (build rs (some image)).functionAt a = none) :
    (build rs (some image)).nearest a = (image.symbolBefore a).map fun s =>
      { name := s.display, offset := a - s.address } := by
  rw [nearest_eq, h, Option.map_none, Option.none_or, Option.map_eq_bind]
  rfl

namespace Image

/--
**The nearest name is found in the section, unless that reaches up to `2 ^ 64`.**

In every image that is built, what is found before an address is the symbol that is not intrinsic and
has the greatest address of those from the start of the section up to the address, where the section
is one that covers the address and ends below `2 ^ 64`. Nothing is found if and only if there is no
such section or no such symbol. So sections name their addresses if and only if no section that
reaches up to `2 ^ 64` or beyond has a symbol that is not intrinsic. Outside what functions keep, an
index over the image gives the source form of that symbol and the distance from it, which is not
negative, and every section that covers the symbol covers the address as well.
-/
theorem nearest_in_section_iff (machine : Option Machine) (order : ByteOrder) (entry : UInt64)
    (sections : List Section) (symbols : List Symbol) :
    let image := build machine order entry sections symbols
    (∀ a s, image.symbolBefore a = some s ↔ ∃ sec ∈ image.sections, sec.Fits ∧ sec.Covers a
        ∧ s.IsNearest image.symbols sec.start a)
      ∧ (∀ a, image.symbolBefore a = none ↔ ∀ sec ∈ image.sections, sec.Fits → sec.Covers a →
        ∀ t ∈ image.symbols, ¬ t.MayName sec.start a)
      ∧ (image.NamesSections ↔ ∀ sec ∈ image.sections, ∀ t ∈ image.symbols,
        t.isIntrinsic = false → sec.Covers t.address → sec.Fits)
      ∧ (∀ rs a, (Debug.Index.build rs (some image)).functionAt a = none →
        (Debug.Index.build rs (some image)).nearest a = (image.symbolBefore a).map fun s =>
          { name := s.display, offset := a - s.address })
      ∧ ∀ a s, image.symbolBefore a = some s →
        s.address.toNat + (a - s.address).toNat = a.toNat
          ∧ ∀ sec ∈ image.sections, sec.Covers s.address → sec.Covers a := by
  intro image
  refine ⟨fun a s => symbolBefore_build_eq_some_iff, fun a => symbolBefore_build_eq_none_iff,
    namesSections_iff, fun rs a => Debug.Index.nearest_of_functionAt, fun a s h => ?_⟩
  exact ⟨toNat_sub_of_symbolBefore h, fun sec hsec => covers_of_symbolBefore h hsec⟩

/-- Two sections with free addresses between them. -/
def parted : List Section :=
  let code : Permissions := { read := true, execute := true }
  [{ name := ".text", start := 0x1000, size := 0x20, permissions := code, bytes := #[] },
    { name := ".init", start := 0x2000, size := 2, permissions := code, bytes := #[] }]

/-- A function and an intrinsic label behind it. -/
def passedOver : List Symbol :=
  [{ address := 0x1000, name := "first", kind := .function },
    { address := 0x1010, name := ".L1", kind := .label }]

theorem sections_build_parted :
    (build (some .x86_64) .little 0x2000 parted passedOver).sections = parted.toArray := by
  have hsorted : parted.mergeSort (fun s t => s.start ≤ t.start) = parted :=
    List.mergeSort_of_pairwise (by decide)
  show sectionTable parted = _
  rw [sectionTable, hsorted]
  decide

theorem symbols_build_parted :
    (build (some .x86_64) .little 0x2000 parted passedOver).symbols
      = (passedOver ++ [Symbol.entryPoint 0x2000]).toArray := by
  have htable : symbolTable passedOver = passedOver := symbolTable_of_pairwise_lt (by decide)
  have hunnamed : (build (some .x86_64) .little 0x2000 parted passedOver).Unnamed passedOver := by
    refine ⟨?_, by decide⟩
    rw [sectionFor, sections_build_parted]
    decide +kernel
  rw [← Array.toList_inj, symbols_of_unnamed hunnamed, htable]
  decide

/-- The label is passed over, the section behind has a name of its own, and between the two there is
none. -/
theorem nearest_in_section_iff_parted :
    let image := build (some .x86_64) .little 0x2000 parted passedOver
    image.NamesSections ∧ image.symbolBefore 0x1018 = passedOver.head?
      ∧ image.symbolBefore 0x2001 = some (Symbol.entryPoint 0x2000)
      ∧ image.symbolBefore 0x1fff = none
      ∧ (Debug.Index.build {} (some image)).nearest 0x1018
        = some { name := "first", offset := 0x18 } := by
  intro image
  have hsections : image.sections = parted.toArray := sections_build_parted
  have hsymbols : image.symbols = (passedOver ++ [Symbol.entryPoint 0x2000]).toArray :=
    symbols_build_parted
  have hfits : ∀ sec ∈ image.sections, sec.Fits := by
    rw [hsections]
    decide
  obtain ⟨hfound, hmissing, hnames, hnearest, -⟩ :=
    nearest_in_section_iff (some .x86_64) .little 0x2000 parted passedOver
  have hfirst : image.symbolBefore 0x1018 = passedOver.head? := by
    refine (hfound 0x1018 _).mpr ⟨parted[0], ?_, by decide, by decide, ?_, by decide, ?_⟩
    · rw [hsections]
      exact List.mem_toArray.mpr (List.getElem_mem _)
    · rw [hsymbols]
      decide +kernel
    · rw [hsymbols]
      decide +kernel
  have hentry : image.symbolBefore 0x2001 = some (Symbol.entryPoint 0x2000) := by
    refine (hfound 0x2001 _).mpr ⟨parted[1], ?_, by decide, by decide, ?_, by decide +kernel, ?_⟩
    · rw [hsections]
      exact List.mem_toArray.mpr (List.getElem_mem _)
    · rw [hsymbols]
      decide +kernel
    · rw [hsymbols]
      decide +kernel
  have hnone : image.symbolBefore 0x1fff = none := by
    refine (hmissing 0x1fff).mpr fun sec hsec _ hcovers => absurd hcovers ?_
    revert sec
    rw [hsections]
    decide
  refine ⟨hnames.mpr fun sec hsec _ _ _ _ => hfits sec hsec, hfirst, hentry, hnone, ?_⟩
  rw [hnearest {} 0x1018 Debug.Index.functionAt_symbols, hfirst]
  decide +kernel

/-- The last sixteen addresses. -/
def topSection : Section :=
  { name := "rom", start := 0xfffffffffffffff0, size := 16
    permissions := { read := true, execute := true }, bytes := Array.replicate 16 0x90 }

/-- A function at the first of them. -/
def topSymbol : Symbol := { address := 0xfffffffffffffff0, name := "reset", kind := .function }

/-- **The symbol of a section at the top is not found**, though it is the nearest one there. -/
theorem top_symbol_not_found :
    let image := build (some .x86_64) .little 0xfffffffffffffff0 [topSection] [topSymbol]
    (topSection ∈ image.sections ∧ topSection.Within ∧ topSection.Covers 0xfffffffffffffff4)
      ∧ topSymbol.IsNearest image.symbols topSection.start 0xfffffffffffffff4
      ∧ image.symbolBefore 0xfffffffffffffff4 = none ∧ ¬ image.NamesSections := by
  intro image
  have hsections : image.sections = #[topSection] := by decide +kernel
  have hsymbols : image.symbols = #[topSymbol] := by decide +kernel
  have hmem : topSection ∈ image.sections := by
    rw [hsections]
    exact Array.mem_singleton.mpr rfl
  have hcovers : topSection.Covers 0xfffffffffffffff4 := by decide
  have hnearest : topSymbol.IsNearest image.symbols topSection.start 0xfffffffffffffff4 := by
    rw [hsymbols]
    exact ⟨Array.mem_singleton.mpr rfl, by decide +kernel, by decide +kernel⟩
  have hnone : image.symbolBefore 0xfffffffffffffff4 = none := by decide +kernel
  refine ⟨⟨hmem, by decide, hcovers⟩, hnearest, hnone, fun h => ?_⟩
  have hfound := (h.found 0xfffffffffffffff4 topSymbol).mpr ⟨topSection, hmem, hcovers, hnearest⟩
  rw [hnone] at hfound
  exact absurd hfound (by simp)

end Image

end Disassembler
