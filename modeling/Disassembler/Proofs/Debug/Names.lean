import Disassembler.Proofs.Debug.Pieces

/-!
# The names of functions

A function is known by the one piece that it keeps, and a label or an offset counts from where that
piece starts. The piece starts where the function does if nobody has taken that address before. If
somebody has, then the name moves up to the first address that is still free, and is attached to a
place where no function of that name needs to start. So whether names are attached to the starts of
their functions is a question about the pieces alone, and every search in the index is one among
them.
-/

namespace Disassembler.Debug

namespace Records

/-- The function is registered, and the range is what it keeps. -/
def Keeps (rs : Records) (f : FunctionRange) (s : Span) : Prop :=
  ∃ k, rs.functions[k]? = some f ∧ Span.IsFirstPiece (rs.KeptFunction k) f.span s

/-- No function starts at an address of one that is registered before it. -/
def StartApart (rs : Records) : Prop :=
  rs.functions.toList.Pairwise fun f g => ¬ f.span.Holds g.start

variable {rs : Records} {image : Option Image} {f : FunctionRange} {s : Span} {k : Nat}

theorem Keeps.pos (h : rs.Keeps f s) : s.start.toNat < s.stop.toNat := by
  obtain ⟨k, -, hpiece⟩ := h
  exact hpiece.isPiece.pos

theorem Keeps.mem (h : rs.Keeps f s) : f ∈ rs.functions := by
  obtain ⟨k, hf, -⟩ := h
  exact Array.mem_of_getElem? hf

/-- The functions of an index are those that keep something, on what they keep. -/
theorem mem_functions_build_iff {p : FunctionRange} :
    p ∈ (Index.build rs image).functions ↔ ∃ f s, rs.Keeps f s ∧ p = f.on s := by
  have hkeep : ∀ k (g : FunctionRange) s, g.span.start.toNat < g.span.stop.toNat
      ∧ s ∈ Keeper.ofFunctions.keep g.span (Keeper.ofFunctions.takenAfter []
        ((rs.functions.toList.take k).map FunctionRange.span))
      ↔ Span.IsFirstPiece (rs.KeptFunction k) g.span s := by
    intro k g s
    rw [keptFunction_eq]
    exact Keeper.mem_keep_ofFunctions (Keeper.ordered_takenAfter Span.ordered_nil)
  simp only [mem_functions_build, mem_keepFunctions_iff, hkeep, Array.getElem?_toList]
  constructor
  · rintro ⟨k, f, hf, hp, hpiece⟩
    exact ⟨f, p.span, ⟨k, hf, hpiece⟩, hp⟩
  · rintro ⟨f, s, ⟨k, hf, hpiece⟩, rfl⟩
    exact ⟨k, f, hf, rfl, hpiece⟩

/-- What is kept when some have been registered belongs to one of them. -/
theorem exists_of_keptFunction (h : rs.KeptFunction k s) : ∃ (j : Nat) (g : FunctionRange),
    j < k ∧ rs.functions[j]? = some g
      ∧ g.start.toNat ≤ s.start.toNat ∧ s.stop.toNat ≤ g.stop.toNat := by
  obtain ⟨p, hp, rfl⟩ := h
  obtain ⟨g, s, ⟨j, hg, hpiece⟩, rfl⟩ := mem_functions_build_iff.mp hp
  rw [first, Array.getElem?_extract, Option.ite_none_right_eq_some, Nat.zero_add] at hg
  have hj := hg.1
  exact ⟨j, g, by omega, hg.2, hpiece.isPiece.start_le, hpiece.isPiece.stop_le⟩

/-- A function keeps its start if nobody has taken it before. -/
theorem start_eq_iff (hf : Span.IsFirstPiece (rs.KeptFunction k) f.span s) :
    s.start = f.start ↔ ∀ r, rs.KeptFunction k r → ¬ r.Holds f.start := by
  have hle : f.start.toNat ≤ s.start.toNat := hf.isPiece.start_le
  constructor
  · intro heq r hr hold
    exact hf.isPiece.free r hr ⟨f.start, heq ▸ ⟨Nat.le_refl _, hf.isPiece.pos⟩, hold⟩
  · intro hfree
    refine Classical.byContradiction fun hne => ?_
    have hlt : f.start.toNat < s.start.toNat :=
      Nat.lt_of_le_of_ne hle fun heq => hne (UInt64.toNat_inj.mp heq).symm
    rw [keptFunction_eq] at hf
    obtain ⟨r, hr, hold⟩ := hf.taken_of_lt (Keeper.ordered_takenAfter Span.ordered_nil)
      (Nat.le_refl _) hlt
    exact hfree r (by rw [keptFunction_eq]; exact hr) hold

/-- **Functions that start apart keep their starts.** -/
theorem StartApart.start_eq (h : rs.StartApart) (hf : rs.Keeps f s) : s.start = f.start := by
  obtain ⟨k, hk, hpiece⟩ := hf
  refine (start_eq_iff hpiece).mpr fun r hr hold => ?_
  -- the function that keeps the range would hold the start as well
  obtain ⟨j, g, hjk, hj, hstart, hstop⟩ := exists_of_keptFunction hr
  rw [← Array.getElem?_toList] at hj hk
  obtain ⟨hjlt, rfl⟩ := List.getElem?_eq_some_iff.mp hj
  obtain ⟨hklt, rfl⟩ := List.getElem?_eq_some_iff.mp hk
  exact List.pairwise_iff_getElem.mp h j k hjlt hklt hjk
    ⟨Nat.le_trans hstart hold.1, Nat.lt_of_lt_of_le hold.2 hstop⟩

end Records

namespace Index

variable {rs : Records} {image : Option Image} {a : UInt64}

theorem ordered_functions_build :
    Span.Ordered ((build rs image).functions.toList.map FunctionRange.span) := by
  obtain ⟨hpos, hapart⟩ :=
    Keeper.apart_kept Keeper.ofFunctions (rs.functions.toList.map FunctionRange.span)
  rw [← map_span_keepFunctions] at hpos hapart
  exact ordered_mergeSort (fun f hf => hpos _ (List.mem_map_of_mem hf))
    (List.pairwise_map.mp hapart)

/-- The function that is found for an address is the one that holds it. -/
theorem functionAt_build_eq_some_iff {p : FunctionRange} :
    (build rs image).functionAt a = some p ↔ p ∈ (build rs image).functions ∧ p.span.Holds a :=
  last?_filter_eq_some_iff ordered_functions_build

/-- So it is the one that keeps it. -/
theorem functionAt_build_eq_some_iff_keeps {p : FunctionRange} :
    (build rs image).functionAt a = some p ↔ ∃ f s, rs.Keeps f s ∧ s.Holds a ∧ p = f.on s := by
  rw [functionAt_build_eq_some_iff, Records.mem_functions_build_iff]
  constructor
  · rintro ⟨⟨f, s, hkeeps, rfl⟩, ha⟩
    exact ⟨f, s, hkeeps, ha, rfl⟩
  · rintro ⟨f, s, hkeeps, ha, rfl⟩
    exact ⟨⟨f, s, hkeeps, rfl⟩, ha⟩

/-- Without any function nothing is found. -/
theorem functionAt_symbols : (build {} image).functionAt a = none := by
  rw [Option.eq_none_iff_forall_ne_some]
  intro p hp
  obtain ⟨f, s, ⟨k, hf, -⟩, -⟩ := functionAt_build_eq_some_iff_keeps.mp hp
  exact absurd hf (by simp)

/-- A label comes from the function that starts at the address, else from the image. -/
theorem symbolAt_eq (v : Index) (a : UInt64) : v.symbolAt a
    = (((v.functionAt a).filter (·.start == a)).map (·.name.untilNul)).or
      (v.image.bind fun i => (i.symbolAt a).bind fun s =>
        if s.isIntrinsic then none else some s.display.untilNul) := by
  unfold symbolAt
  split
  · rename_i f hf
    rw [hf]
    rfl
  · rename_i hnone
    rw [hnone]
    rfl

/-- And the nearest name from the function that covers the address. -/
theorem nearest_eq (v : Index) (a : UInt64) : v.nearest a
    = ((v.functionAt a).map fun f => { name := f.name, offset := a - f.start }).or
      (v.image.bind fun i => (i.symbolBefore a).bind fun s =>
        some { name := s.display, offset := a - s.address }) := by
  unfold nearest
  split
  · rename_i f hf
    rw [hf]
    rfl
  · rename_i hnone
    rw [hnone]
    rfl

theorem symbolAt_functions : (build rs none).symbolAt a
    = (((build rs none).functionAt a).filter (·.start == a)).map (·.name.untilNul) := by
  rw [symbolAt_eq]
  exact Option.or_none

theorem nearest_functions : (build rs none).nearest a
    = ((build rs none).functionAt a).map fun f => { name := f.name, offset := a - f.start } := by
  rw [nearest_eq]
  exact Option.or_none

/-- **An index says what its functions say, and otherwise what its image says.** -/
theorem answers_build (rs : Records) (image : Option Image) (a : UInt64) :
    (build rs image).symbolAt a = ((build rs none).symbolAt a).or ((build {} image).symbolAt a)
      ∧ (build rs image).nearest a
        = ((build rs none).nearest a).or ((build {} image).nearest a) := by
  rw [symbolAt_functions, nearest_functions, symbolAt_eq (build {} image),
    nearest_eq (build {} image), functionAt_symbols]
  exact ⟨symbolAt_eq (build rs image) a, nearest_eq (build rs image) a⟩

/-- The functions give a label to the first address of what one of them keeps. -/
theorem symbolAt_functions_eq_some_iff {t : Text} : (build rs none).symbolAt a = some t
    ↔ ∃ f s, rs.Keeps f s ∧ s.start = a ∧ t = f.name.untilNul := by
  simp only [symbolAt_functions, Option.map_eq_some_iff, Option.filter_eq_some_iff,
    functionAt_build_eq_some_iff_keeps, beq_iff_eq]
  constructor
  · rintro ⟨-, ⟨⟨f, s, hkeeps, -, rfl⟩, ha⟩, ht⟩
    exact ⟨f, s, hkeeps, ha, ht.symm⟩
  · rintro ⟨f, s, hkeeps, rfl, rfl⟩
    exact ⟨f.on s, ⟨⟨f, s, hkeeps, ⟨Nat.le_refl _, hkeeps.pos⟩, rfl⟩, rfl⟩, rfl⟩

/-- And they measure the distance from there. -/
theorem nearest_functions_eq_some_iff {n : Nearest} : (build rs none).nearest a = some n
    ↔ ∃ f s, rs.Keeps f s ∧ s.Holds a ∧ n = { name := f.name, offset := a - s.start } := by
  simp only [nearest_functions, Option.map_eq_some_iff, functionAt_build_eq_some_iff_keeps]
  constructor
  · rintro ⟨-, ⟨f, s, hkeeps, ha, rfl⟩, hn⟩
    exact ⟨f, s, hkeeps, ha, hn.symm⟩
  · rintro ⟨f, s, hkeeps, ha, rfl⟩
    exact ⟨f.on s, ⟨f, s, hkeeps, ha, rfl⟩, rfl⟩

/-- Names are attached to the starts of their functions: a label that comes from the functions
is at the start of one of that name, and a distance that comes from them is the distance from the
start of one of that name. -/
structure NamesStarts (rs : Records) (image : Option Image) : Prop where
  label : ∀ a t, (build rs image).symbolAt a = some t → (build rs none).symbolAt a = some t →
    ∃ f ∈ rs.functions, f.name.untilNul = t ∧ f.start = a
  offset : ∀ a n, (build rs image).nearest a = some n → (build rs none).nearest a = some n →
    ∃ f ∈ rs.functions, f.name = n.name ∧ n.offset = a - f.start

/-- **Names are attached to starts if all functions begin, with what they keep, where one of their
name starts.** -/
theorem namesStarts_iff : NamesStarts rs image
    ↔ ∀ f s, rs.Keeps f s → ∃ g ∈ rs.functions, g.name = f.name ∧ g.start = s.start := by
  constructor
  · -- at the first address of what is kept the distance is zero
    intro h f s hkeeps
    have hzero : (build rs none).nearest s.start = some { name := f.name, offset := 0 } :=
      nearest_functions_eq_some_iff.mpr
        ⟨f, s, hkeeps, ⟨Nat.le_refl _, hkeeps.pos⟩, by rw [UInt64.sub_self]⟩
    have hall := (answers_build rs image s.start).2
    rw [hzero, Option.some_or] at hall
    obtain ⟨g, hg, hname, hoffset⟩ := h.offset s.start _ hall hzero
    have hstart := UInt64.sub_eq_iff_eq_add.mp hoffset.symm
    rw [UInt64.zero_add] at hstart
    exact ⟨g, hg, hname, hstart.symm⟩
  · intro h
    constructor
    · intro a t _ ht
      obtain ⟨f, s, hkeeps, rfl, rfl⟩ := symbolAt_functions_eq_some_iff.mp ht
      obtain ⟨g, hg, hname, hstart⟩ := h f s hkeeps
      exact ⟨g, hg, by rw [hname], hstart⟩
    · intro a n _ hn
      obtain ⟨f, s, hkeeps, -, rfl⟩ := nearest_functions_eq_some_iff.mp hn
      obtain ⟨g, hg, hname, hstart⟩ := h f s hkeeps
      exact ⟨g, hg, hname, by rw [hstart]⟩

/--
**Names are attached to what functions keep.**

For all records, every image and every address, an index says what its functions alone say, and
otherwise what its image alone says. The functions give a label exactly to the first address of what
one of them keeps, and the nearest name exactly to all addresses of it, with the distance from the
first. What a function keeps begins at its start if and only if no function before it keeps that
address. So names are attached to the starts of their functions if and only if everything that is
kept begins where a function of that name starts; and they are if no function starts at an address
of one that is registered before it.
-/
theorem names_where_pieces_start (rs : Records) (image : Option Image) :
    (∀ a, (build rs image).symbolAt a
          = ((build rs none).symbolAt a).or ((build {} image).symbolAt a)
        ∧ (build rs image).nearest a
          = ((build rs none).nearest a).or ((build {} image).nearest a))
      ∧ (∀ a t, (build rs none).symbolAt a = some t
        ↔ ∃ f s, rs.Keeps f s ∧ s.start = a ∧ t = f.name.untilNul)
      ∧ (∀ a n, (build rs none).nearest a = some n
        ↔ ∃ f s, rs.Keeps f s ∧ s.Holds a ∧ n = { name := f.name, offset := a - s.start })
      ∧ (∀ k f s, rs.functions[k]? = some f → Span.IsFirstPiece (rs.KeptFunction k) f.span s →
        (s.start = f.start ↔ ∀ r, rs.KeptFunction k r → ¬ r.Holds f.start))
      ∧ (NamesStarts rs image
        ↔ ∀ f s, rs.Keeps f s → ∃ g ∈ rs.functions, g.name = f.name ∧ g.start = s.start)
      ∧ (rs.StartApart → NamesStarts rs image) := by
  refine ⟨answers_build rs image, fun a t => symbolAt_functions_eq_some_iff,
    fun a n => nearest_functions_eq_some_iff, fun k f s _ hpiece => Records.start_eq_iff hpiece,
    namesStarts_iff, fun hapart => namesStarts_iff.mpr fun f s hkeeps => ?_⟩
  exact ⟨f, hkeeps.mem, rfl, (hapart.start_eq hkeeps).symm⟩

/-- Two functions, of which the second starts in the middle of the first. -/
def overlappingFunctions : Records where
  functions := #[{ start := 0x100, stop := 0x200, name := Text.ofString "outer" },
    { start := 0x180, stop := 0x280, name := Text.ofString "inner" }]

theorem functions_build_overlapping : (build overlappingFunctions none).functions
    = #[{ start := 0x100, stop := 0x200, name := Text.ofString "outer" },
      { start := 0x200, stop := 0x280, name := Text.ofString "inner" }] := by
  have hkept : (keepFunctions [] overlappingFunctions.functions.toList).1
      = [{ start := 0x100, stop := 0x200, name := Text.ofString "outer" },
        { start := 0x200, stop := 0x280, name := Text.ofString "inner" }] := by decide
  show (List.mergeSort (keepFunctions [] overlappingFunctions.functions.toList).1 _).toArray = _
  rw [hkept, List.mergeSort_of_pairwise (by decide)]

/-- The label of the second is at the first address behind the other one, where no function starts,
and the distance is too small by what the other one has taken of it. -/
theorem clipped_function_misnamed :
    (build overlappingFunctions none).symbolAt 0x200 = some (Text.ofString "inner")
      ∧ (∀ f ∈ overlappingFunctions.functions, f.start ≠ 0x200)
      ∧ (build overlappingFunctions none).nearest 0x210
        = some { name := Text.ofString "inner", offset := 0x10 }
      ∧ (∀ f ∈ overlappingFunctions.functions, f.name = Text.ofString "inner" →
        0x210 - f.start = 0x90)
      ∧ ¬ NamesStarts overlappingFunctions none := by
  have hat : ∀ a : UInt64, 0x200 ≤ a.toNat ∧ a.toNat < 0x280 →
      (build overlappingFunctions none).functionAt a
        = some { start := 0x200, stop := 0x280, name := Text.ofString "inner" } := by
    intro a ha
    rw [functionAt_build_eq_some_iff, functions_build_overlapping]
    exact ⟨by simp, ha⟩
  have hlabel : (build overlappingFunctions none).symbolAt 0x200
      = some (Text.ofString "inner") := by
    rw [symbolAt_functions, hat 0x200 (by decide)]
    decide
  have hnearest : (build overlappingFunctions none).nearest 0x210
      = some { name := Text.ofString "inner", offset := 0x10 } := by
    rw [nearest_functions, hat 0x210 (by decide)]
    decide
  have hstarts : ∀ f ∈ overlappingFunctions.functions, f.start ≠ 0x200 := by decide
  have hdistance : ∀ f ∈ overlappingFunctions.functions, f.name = Text.ofString "inner" →
      0x210 - f.start = 0x90 := by decide
  refine ⟨hlabel, hstarts, hnearest, hdistance, fun h => ?_⟩
  obtain ⟨f, hf, hname, hoffset⟩ := h.offset 0x210 _ hnearest hnearest
  have hoffset : (0x10 : UInt64) = 0x210 - f.start := hoffset
  rw [hdistance f hf hname] at hoffset
  exact absurd hoffset (by decide)

end Index

end Disassembler.Debug
