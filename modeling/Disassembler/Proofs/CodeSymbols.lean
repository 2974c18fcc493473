import Disassembler.Proofs.Interleaving
import Disassembler.Proofs.NormalForm

/-!
# What symbols have to do with the code that is found

Symbols say where an analysis begins, and nothing else: neither a sweep nor a merge asks for them.
A seed is the address of a symbol that names code, so what an image's symbols are called and what
is said about data matters in one way only. The table keeps one symbol of each address. Where it
prefers one that does not name code, the address is no seed.
-/

namespace Disassembler

/-! ## Rounds without symbols -/

/-- A sweep does not ask for symbols. -/
theorem Sweep.sweepFrom_symbols (s : Sweep) (symbols : Array Symbol) (cancelled : Nat → Bool)
    (entries : Array Instruction) (a : UInt64) (invalid : Nat) (last : Bool) :
    { s with image := { s.image with symbols } }.sweepFrom cancelled entries a invalid last
      = s.sweepFrom cancelled entries a invalid last := by
  have hadmits : Sweep.admits { s with image := { s.image with symbols } } = s.admits := rfl
  have hends : Sweep.endsAt { s with image := { s.image with symbols } } = s.endsAt := rfl
  have hwindow : Image.window { s.image with symbols } = s.image.window := rfl
  have hdecode : Image.decodeAt { s.image with symbols } = s.image.decodeAt := rfl
  fun_induction sweepFrom s cancelled entries a invalid last with
  | case1 entries a invalid last hstop =>
    rw [sweepFrom, hadmits, hwindow, if_pos hstop]
  | case2 entries a invalid last hgo i count hdata =>
    rw [sweepFrom, hadmits, hwindow, if_neg hgo]
    simp only [hends, hdecode]
    exact if_pos hdata
  | case3 entries a invalid last hgo i count hdata ending hnext ih =>
    rw [sweepFrom, hadmits, hwindow, if_neg hgo]
    simp only [hends, hdecode]
    exact (if_neg hdata).trans ((dif_pos hnext).trans ih)
  | case4 entries a invalid last hgo i count hdata ending hnext =>
    rw [sweepFrom, hadmits, hwindow, if_neg hgo]
    simp only [hends, hdecode]
    exact (if_neg hdata).trans (dif_neg hnext)

namespace Progress

variable {c : Conditions} {config : Config} {image : Image} {m : Machine}
variable {p : Progress} {pending : List Seed}

/-- Nor does a merge. -/
theorem merge_symbols (symbols : Array Symbol) :
    merge config { image with symbols } m = merge config image m := rfl

/-- A round does not depend on symbols. -/
theorem round_symbols (symbols : Array Symbol) :
    p.round c config { image with symbols } m pending = p.round c config image m pending := by
  have hruns : p.sweepAll c config { image with symbols } m pending
      = p.sweepAll c config image m pending := by
    rw [sweepAll_eq_mapIdx, sweepAll_eq_mapIdx]
    refine congrArg (List.mapIdx · pending) (funext fun k => funext fun seed => ?_)
    exact Sweep.sweepFrom_symbols { config, image, machine := m, coverage := p.coverage, seed }
      symbols _ _ _ _ _
  unfold round
  rw [hruns, merge_symbols]

theorem rounds_symbols (symbols : Array Symbol) (n : Nat) :
    rounds c config { image with symbols } m n p pending
      = rounds c config image m n p pending := by
  have hnext : nextSeeds { image with symbols } = nextSeeds image := rfl
  induction n generalizing p pending with
  | zero => cases pending <;> rfl
  | succ n ih => cases pending with
    | nil => rfl
    | cons s rest => simp only [rounds, round_symbols, hnext, ih]

end Progress

/-- What an analysis finds: its stream, its seeds and what was done. -/
def Analysis.findings (an : Analysis) : Array Instruction × Array Seed × Stats :=
  (an.stream, an.seeds, an.stats)

/-- **Images with the same first seeds and sections have the same code.** -/
theorem Analysis.findings_symbols {c : Conditions} {config : Config} {image : Image}
    {symbols : Array Symbol} (h : Image.initialSeeds { image with symbols } = image.initialSeeds) :
    (run c config { image with symbols }).map findings = (run c config image).map findings := by
  have hsize : Image.codeSize { image with symbols } = image.codeSize := rfl
  have hfinish : ∀ m p, findings (Progress.finish { image with symbols } m p)
      = findings (Progress.finish image m p) := fun _ _ => rfl
  unfold run
  simp only [h, hsize, Progress.rounds_symbols]
  split
  · rfl
  · split
    · split
      · exact congrArg Except.ok (hfinish _ _)
      · rfl
    · rfl

/-! ## Symbols that name code -/

/-- Does a symbol name code? -/
def Symbol.NamesCode (s : Symbol) : Prop := s.kind = .function ∨ s.kind = .entry

instance (s : Symbol) : Decidable s.NamesCode :=
  inferInstanceAs (Decidable (s.kind = .function ∨ s.kind = .entry))

/-- Among ordinary names, those of code are of the two best ranks. -/
theorem Symbol.namesCode_iff_rank_le {s : Symbol} (h : s.isIntrinsic = false) :
    s.NamesCode ↔ s.rank ≤ 1 := by
  unfold NamesCode rank
  rw [h]
  cases s.kind <;> simp

namespace Image

/-- A symbol that names code is given for an address. -/
def CodeAt (symbols : List Symbol) (a : UInt64) : Prop :=
  ∃ s ∈ symbols, s.address = a ∧ s.NamesCode

/-- The symbol that is preferred at an address names code. -/
def KeptCodeAt (symbols : List Symbol) (a : UInt64) : Prop :=
  ∃ s : Symbol, s.IsPreferred symbols ∧ s.address = a ∧ s.NamesCode

/-- If no name of code is intrinsic, such names are preferred wherever they are given. -/
theorem keptCodeAt_iff_codeAt {symbols : List Symbol}
    (h : ∀ s ∈ symbols, s.NamesCode → s.isIntrinsic = false) {a : UInt64} :
    KeptCodeAt symbols a ↔ CodeAt symbols a := by
  constructor
  · rintro ⟨s, hs, ha, hcode⟩
    exact ⟨s, hs.mem, ha, hcode⟩
  · rintro ⟨t, ht, rfl, hcode⟩
    obtain ⟨s, hst, hs⟩ := exists_isPreferred ht
    have hle := hs.rank_le ht hst.symm
    have hname := h t ht hcode
    refine ⟨s, hs, hst, ?_⟩
    rw [Symbol.namesCode_iff_rank_le hname] at hcode
    rw [Symbol.namesCode_iff_rank_le (Symbol.isIntrinsic_of_rank_le hle hname)]
    exact Nat.le_trans hle hcode

theorem seedOf?_eq_some_iff {s : Symbol} {t : Seed} :
    seedOf? s = some t ↔ s.NamesCode ∧ t = { address := s.address, origin := .symbol } := by
  unfold seedOf? Symbol.NamesCode
  split
  · rename_i hcode
    rw [Option.some_inj, eq_comm]
    exact (and_iff_right hcode).symm
  · rename_i hdata
    exact ⟨fun h => absurd h (by simp), fun h => absurd h.1 hdata⟩

/-! ## Seeds -/

variable {machine : Option Machine} {order : ByteOrder} {entry : UInt64}
variable {sections : List Section} {symbols symbols' : List Symbol}

/-- A symbol is a seed where the table keeps a name of code. -/
theorem mem_symbolSeeds_iff {t : Seed} :
    t ∈ ((build machine order entry sections symbols).symbols.toList.filter
        (build machine order entry sections symbols).selects).filterMap seedOf? ↔
      t.origin = .symbol ∧ t.address ≠ entry
        ∧ (build machine order entry sections symbols).inCode t.address = true
        ∧ KeptCodeAt symbols t.address := by
  have hmem : ∀ s : Symbol, s.address ≠ entry →
      (s ∈ (build machine order entry sections symbols).symbols.toList ↔ s.IsPreferred symbols) :=
    fun s hne => Array.mem_toList_iff.trans (mem_symbols_iff_isPreferred fun h => hne h.1)
  constructor
  · intro ht
    obtain ⟨horigin, hne, hcode⟩ := of_mem_symbolSeeds ht
    obtain ⟨s, hs, hseed⟩ := List.mem_filterMap.mp ht
    obtain ⟨hnames, rfl⟩ := seedOf?_eq_some_iff.mp hseed
    exact ⟨horigin, hne, hcode, s, (hmem s hne).mp (List.mem_filter.mp hs).1, rfl, hnames⟩
  · obtain ⟨a, origin⟩ := t
    rintro ⟨rfl, hne, hcode, s, hs, rfl, hnames⟩
    refine List.mem_filterMap.mpr ⟨s, List.mem_filter.mpr ⟨(hmem s hne).mpr hs, ?_⟩,
      seedOf?_eq_some_iff.mpr ⟨hnames, rfl⟩⟩
    rw [selects, Bool.and_eq_true, bne_iff_ne]
    exact ⟨hne, hcode⟩

/-- Lists of seeds that ascend strictly are the same if they have the same seeds. -/
theorem eq_of_pairwise_lt {l l' : List Seed} (h : l.Pairwise fun s t => s.address < t.address)
    (h' : l'.Pairwise fun s t => s.address < t.address) (hmem : ∀ s, s ∈ l ↔ s ∈ l') : l = l' := by
  have hnodup : ∀ {k : List Seed}, (k.Pairwise fun s t => s.address < t.address) → k.Nodup :=
    fun hk => List.Nodup.of_map Seed.address (nodup_map_of_pairwise_lt hk)
  have hperm : l.Perm l' := (List.perm_ext_iff_of_nodup (hnodup h) (hnodup h')).mpr hmem
  refine List.Perm.eq_of_pairwise (fun s t _ _ hst hts => ?_) h h' hperm
  exact absurd (UInt64.lt_trans hst hts) (UInt64.lt_irrefl _)

/-- Images of the same sections differ in their symbols only. -/
theorem build_symbols (symbols symbols' : List Symbol) :
    build machine order entry sections symbols'
      = { build machine order entry sections symbols with
          symbols := (build machine order entry sections symbols').symbols } := rfl

/-- **The first seeds are decided by where the table keeps a name of code.** -/
theorem initialSeeds_eq
    (h : ∀ a, a ≠ entry → (build machine order entry sections symbols).inCode a = true →
      (KeptCodeAt symbols a ↔ KeptCodeAt symbols' a)) :
    (build machine order entry sections symbols').initialSeeds
      = (build machine order entry sections symbols).initialSeeds := by
  have hnamed : (build machine order entry sections symbols').namedSeeds
      = (build machine order entry sections symbols).namedSeeds := by
    rw [namedSeeds_eq, namedSeeds_eq]
    refine congrArg (_ ++ ·) (eq_of_pairwise_lt (pairwise_lt_symbolSeeds _)
      (pairwise_lt_symbolSeeds _) fun t => ?_)
    rw [mem_symbolSeeds_iff, mem_symbolSeeds_iff]
    refine and_congr_right fun _ => and_congr_right fun hne => and_congr_right fun hcode => ?_
    exact (h t.address hne hcode).symm
  unfold initialSeeds
  rw [hnamed]
  rfl

end Image

/-! ## Two tables of symbols -/

namespace Analysis

open Image

/-- **Names and data have no say where the same code is kept.** Two lists of symbols lead to the
same stream and the same seeds if, at the addresses in code other than the entry point, the tables
keep a name of code in the one case where they keep one in the other. So they do if the names of
code are given for the same addresses and none of them is intrinsic. -/
theorem findings_build_eq (c : Conditions) (config : Config) (machine : Option Machine)
    (order : ByteOrder) (entry : UInt64) (sections : List Section)
    (symbols symbols' : List Symbol) :
    let image := build machine order entry sections symbols
    let image' := build machine order entry sections symbols'
    ((∀ a, a ≠ entry → image.inCode a = true →
        (KeptCodeAt symbols a ↔ KeptCodeAt symbols' a)) →
      (run c config image).map findings = (run c config image').map findings)
    ∧ ((∀ a, CodeAt symbols a ↔ CodeAt symbols' a) →
        (∀ s ∈ symbols ++ symbols', s.NamesCode → s.isIntrinsic = false) →
      (run c config image).map findings = (run c config image').map findings) := by
  intro image image'
  have hkept : (∀ a, a ≠ entry → image.inCode a = true →
      (KeptCodeAt symbols a ↔ KeptCodeAt symbols' a)) →
      (run c config image).map findings = (run c config image').map findings := by
    intro h
    have hseeds : image'.initialSeeds = image.initialSeeds := initialSeeds_eq h
    have hbuild : image' = { image with symbols := image'.symbols } :=
      build_symbols symbols symbols'
    rw [hbuild] at hseeds ⊢
    exact (findings_symbols hseeds).symm
  refine ⟨hkept, fun hsame hnames => hkept fun a _ _ => ?_⟩
  rw [keptCodeAt_iff_codeAt fun s hs => hnames s (List.mem_append_left symbols' hs),
    keptCodeAt_iff_codeAt fun s hs => hnames s (List.mem_append_right symbols hs)]
  exact hsame a

/-- Two returns, the second of which nothing leads to. -/
def returns : List Section :=
  [{ name := Text.ofString ".text", start := 0x1000, size := 2, bytes := #[0xC3, 0xC3]
     permissions := { read := true, execute := true } }]

/-- An ordinary name for the second one. -/
def plainCode : List Symbol := [{ address := 0x1001, name := Text.ofString "f", kind := .function }]

/-- Another one, behind a name of data. -/
def codeBehindData : List Symbol :=
  [{ address := 0x1001, name := Text.ofString "x", kind := .object },
    { address := 0x1001, name := Text.ofString "g", kind := .function }]

/-- An intrinsic one, behind a name of data. -/
def hiddenCode : List Symbol :=
  [{ address := 0x1001, name := Text.ofString "x", kind := .object },
    { address := 0x1001, name := Text.ofString ".Lf", kind := .function }]

theorem codeAt_plainCode {a : UInt64} : CodeAt plainCode a ↔ a = 0x1001 := by
  simp [CodeAt, plainCode, Symbol.NamesCode, eq_comm]

theorem codeAt_codeBehindData {a : UInt64} : CodeAt codeBehindData a ↔ a = 0x1001 := by
  simp [CodeAt, codeBehindData, Symbol.NamesCode, eq_comm]

theorem codeAt_hiddenCode {a : UInt64} : CodeAt hiddenCode a ↔ a = 0x1001 := by
  simp [CodeAt, hiddenCode, Symbol.NamesCode, eq_comm]

/-- Data is preferred to an intrinsic name of code. -/
theorem not_keptCodeAt_hiddenCode (a : UInt64) : ¬ KeptCodeAt hiddenCode a := by
  rintro ⟨s, hs, -, hcode⟩
  rcases List.mem_cons.mp hs.mem with rfl | hs'
  · rcases hcode with h | h <;> cases h
  · obtain rfl := List.mem_singleton.mp hs'
    have hle := hs.rank_le List.mem_cons_self rfl
    exact absurd hle (by decide +kernel)

theorem findings_build_eq_returns :
    let image := build (some .x86_64) .little 0x1000 returns
    (run {} {} (image plainCode)).map findings = (run {} {} (image codeBehindData)).map findings
      ∧ (run {} {} (image hiddenCode)).map findings = (run {} {} (image [])).map findings := by
  intro image
  have hnone : ∀ a, ¬ KeptCodeAt [] a := fun a ⟨s, hs, _⟩ => absurd hs.mem List.not_mem_nil
  constructor
  · exact (findings_build_eq {} {} (some .x86_64) .little 0x1000 returns plainCode codeBehindData).2
      (fun a => codeAt_plainCode.trans codeAt_codeBehindData.symm) (by decide +kernel)
  · exact (findings_build_eq {} {} (some .x86_64) .little 0x1000 returns hiddenCode []).1
      fun a _ _ => iff_of_false (not_keptCodeAt_hiddenCode a) (hnone a)

theorem build_congr {l l' : List Symbol} (h : symbolTable l = symbolTable l')
    (machine : Option Machine) (order : ByteOrder) (entry : UInt64) (sections : List Section) :
    build machine order entry sections l = build machine order entry sections l' := by
  unfold build
  rw [h]

/-- **An intrinsic name of code is lost beside a name of data**, and its address is no seed. -/
theorem findings_build_ne_returns :
    (∀ a, CodeAt plainCode a ↔ CodeAt hiddenCode a)
      ∧ (run {} {} (build (some .x86_64) .little 0x1000 returns plainCode)).map findings
        ≠ (run {} {} (build (some .x86_64) .little 0x1000 returns hiddenCode)).map findings := by
  refine ⟨fun a => codeAt_plainCode.trans codeAt_hiddenCode.symm, ?_⟩
  have htable : symbolTable hiddenCode = symbolTable (hiddenCode.take 1) := by
    rw [symbolTable, List.mergeSort_of_pairwise (by decide +kernel)]
    decide +kernel
  rw [build_congr htable]
  decide +kernel

end Analysis

end Disassembler
