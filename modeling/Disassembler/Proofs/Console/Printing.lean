import Disassembler.Program
import Disassembler.Proofs.Console.Position

/-!
# Printing the listing from the entry point

A program that is asked for some rows scrolls a new buffer on by that count, which comes from the
arguments as it is: a decimal number, cut to the greatest signed 64-bit one. The buffer adds it to the
row of the entry point. That row is never the first, for the mark of a section comes before all that a
section holds, so the sum wraps for the greatest counts. The window then ends before it begins, and no
row is printed. Every smaller count prints what it should.
-/

namespace Disassembler

/-! ## The count -/

/-- **A number that is read is cut to a signed 64-bit one.** -/
theorem Numeral.signed64_integer (base : Option Nat) (t : Text) : Signed64 (integer base t) := by
  rw [integer]
  cases read? base t with
  | none =>
    show Signed64 0
    rw [Signed64]
    omega
  | some n =>
    show Signed64 n.signed
    rw [signed, Signed64]
    split
    · omega
    · omega

namespace Program

variable {o o' : Options} {word value : Text}

theorem rows_of_single (h : single o word = .ok o') : o'.rows = o.rows := by
  unfold single flag? at h
  grind

theorem signed64_rows_of_valued (h : valued? o word value = some (.ok o'))
    (ho : Signed64 o.rows) : Signed64 o'.rows := by
  have hnumber := Numeral.signed64_integer (some 10) value
  unfold valued? at h
  grind

/-- The rows that arguments ask for are counted by a signed 64-bit number. -/
theorem signed64_rows {args : List Text} (h : parse o args = .ok o') (ho : Signed64 o.rows) :
    Signed64 o'.rows := by
  -- along the arguments, each of which sets the number or leaves it
  fun_induction parse o args with
  | case1 o => exact Except.ok.inj h ▸ ho
  | case2 o word => exact rows_of_single h ▸ ho
  | case3 o word value rest o₁ hword ih => exact ih h (signed64_rows_of_valued hword ho)
  | case4 => cases h
  | case5 o word value rest hword o₁ hsingle ih => exact ih h (rows_of_single hsingle ▸ ho)
  | case6 => cases h

end Program

/-! ## The sums -/

/-- A sum that does not fit wraps to a number below either part. -/
theorem wrap64_add_lt {n k : Int} (hk : k < 2 ^ 63) (hsum : 2 ^ 63 ≤ n + k) :
    wrap64 (n + k) < n := by
  have hmod := Int.bmod_def (n + k) (1 <<< 64)
  have hsize : (1 <<< 64 : Nat) = 2 ^ 64 := rfl
  rw [wrap64, hmod, hsize]
  split
  · omega
  · omega

namespace ScrollBuffer

variable {source : RowSource} {b : ScrollBuffer}

/-- **A sum that wraps shows nothing**, for the window ends before it begins. -/
theorem extend_forward_of_wraps {count : Int} (hcount : count < 2 ^ 63)
    (hsum : 2 ^ 63 ≤ b.cursor + count) : (b.extend source .forward count).1 = [] := by
  have hstop := wrap64_add_lt hcount hsum
  have hnone : places source b.cursor (wrap64 (b.cursor + count)) = [] := by
    generalize wrap64 (b.cursor + count) = stop at hstop
    have hlength : (min stop (source.size : Int) - max b.cursor 0).toNat = 0 := by omega
    rw [places, hlength, List.range'_zero]
  unfold extend
  dsimp only
  rw [hnone]
  rfl

/-- The sums of a scroll from an address on all fit if the greatest one does. -/
theorem allFit_scroll_iff {keep : Nat} (hkeep : keep < 2 ^ 63) (hsize : source.size ≠ 0)
    (a : UInt64) (count : Nat) :
    AllFit source keep [.setAnchor a, .extend .forward count] 0
      ↔ (source.rowFor a : Int) + count + keep < 2 ^ 63 := by
  simp only [AllFit, Step.Fits, Step.move, if_neg hsize, Signed64, and_true]
  omega

end ScrollBuffer

/-! ## The program -/

namespace Loaded

variable {l : Loaded}

theorem Built.rowAt_pos (h : l.Built) (a : UInt64) : 0 < l.rowAt a := by
  rw [h.rowAt_eq]
  exact Console.rowFor_pos_of_built h a

end Loaded

namespace Program

variable {files : Files} {o : Options} {c : Console} {l : Loaded} {diagnostics : Text}

/-- A console before any command has no buffer yet, and what is loaded was built. -/
theorem new_of_begin (h : begin files o = .ok (c, diagnostics)) :
    c.view = none ∧ ∀ l, c.session.current = some l → l.Built := by
  unfold begin at h
  split at h
  · cases h
    exact ⟨rfl, fun l hl => nomatch hl⟩
  · dsimp only at h
    split at h
    · cases h
      refine ⟨rfl, fun l hl => ?_⟩
      have hnew : ∀ l, ({ config := o.config } : Session).current = some l → l.Built :=
        fun l hl => nomatch hl
      exact Session.built_loadFile hnew none hl
    · cases h

/-- The rows from the entry point on are printed. -/
theorem run_eq_rows {name input : Text} {args : List Text} (hargs : parse {} args = .ok o)
    (hrequest : o.request = none) (hrows : 0 ≤ o.rows) (hbegin : begin files o = .ok (c, diagnostics))
    (hl : c.session.current = some l) :
    run name files args input
      = { exit := 0, output := (c.scroll l .forward o.rows).1.flatMap printedRow, diagnostics } := by
  have hstart : start name files o
      = .ended { exit := 0, output := (c.scroll l .forward o.rows).1.flatMap printedRow,
                 diagnostics } := by
    simp only [start, hrequest, hbegin, hrows, listRows, hl, Option.isSome_none, Option.map_some,
      if_true, Bool.false_eq_true, if_false]
  simp only [run, hargs, hstart]

/-- A new buffer is at the row of the entry point. -/
theorem cursor_bufferOn_of_new (hview : c.view = none) (l : Loaded) :
    (c.bufferOn l).cursor = l.rowAt l.image.entry := by
  rw [Console.bufferOn, hview]
  exact ScrollBuffer.cursor_setAnchor l l.image.entry _

/-- **A new buffer shows the rows from the entry point on**, as many as are asked for, if the sum
fits. -/
theorem scroll_of_fits (hview : c.view = none) {count : Nat}
    (hsum : (l.rowAt l.image.entry : Int) + count < 2 ^ 63) :
    (c.scroll l .forward count).1
      = l.rowsBetween (l.rowAt l.image.entry) (l.rowAt l.image.entry + count) := by
  have hnew : c.view.filter (·.generation = l.generation) = none := by
    rw [hview]
    rfl
  have hcursor := cursor_bufferOn_of_new hview l
  have hsigned : Signed64 ((c.bufferOn l).cursor + count) := by
    rw [hcursor, Signed64]
    omega
  show ((c.bufferOn l).extend l.listing.source .forward count).1 = _
  rw [ScrollBuffer.extend_forward hsigned,
    (ScrollBuffer.passing_spec (Console.shows_of_new hnew).coherent ..).1, hcursor]
  rfl

/-- A row is printed as something. -/
theorem printedRow_ne_nil (r : Row) : printedRow r ≠ [] := by
  have hline : ∀ t, line t ≠ [] := fun t => List.append_ne_nil_of_right_ne_nil t (by simp)
  rw [printedRow]
  split
  · exact List.append_ne_nil_of_right_ne_nil _ (hline _)
  · split
    · exact hline _
    · exact hline _

/-- The rows that are asked for are not printed as nothing. -/
theorem flatMap_printedRow_ne_nil {first count : Nat} (hfirst : first < l.listing.size)
    (hcount : 0 < count) : (l.rowsBetween first (first + count)).flatMap printedRow ≠ [] := by
  have hmem : l.listing.row first ∈ l.rowsBetween first (first + count) := by
    refine List.mem_map_of_mem (List.mem_filter.mpr ⟨List.mem_range.mpr hfirst, ?_⟩)
    rw [decide_eq_true_eq]
    omega
  intro hnil
  exact printedRow_ne_nil _ (List.flatMap_eq_nil_iff.mp hnil _ hmem)

/--
**A count of rows is printed unless it is one of the greatest.**

Take any files and arguments that ask for some rows, so that an image is loaded. The number of rows
is a signed 64-bit one, and the row of the entry point is one of the listing, but not the first. The
rows from there on are printed, as many as are asked for and as there are, exactly if the sum of the
two numbers is below `2 ^ 63` or none are asked for; otherwise nothing is printed. No sum of the scroll
buffer wraps exactly if that sum and the distance up to which rows are kept stay below `2 ^ 63`.
-/
theorem rows_printed_iff (name input : Text) {args : List Text} (hargs : parse {} args = .ok o)
    (hrequest : o.request = none) (hrows : 0 ≤ o.rows)
    (hbegin : begin files o = .ok (c, diagnostics)) (hl : c.session.current = some l) :
    let outcome := run name files args input
    let first := l.rowAt l.image.entry
    let scroll : List ScrollBuffer.Step :=
      [.setAnchor l.image.entry, .extend .forward o.rows.toNat]
    outcome.exit = 0 ∧ outcome.diagnostics = diagnostics ∧ o.rows < 2 ^ 63
      ∧ 0 < first ∧ first < l.listing.size
      ∧ (outcome.output = (l.rowsBetween first (first + o.rows)).flatMap printedRow
        ↔ first + o.rows < 2 ^ 63 ∨ o.rows = 0)
      ∧ (2 ^ 63 ≤ first + o.rows → outcome.output = [])
      ∧ (ScrollBuffer.AllFit l.listing.source ScrollBuffer.defaultKeep.toNat scroll 0
        ↔ first + o.rows + ScrollBuffer.defaultKeep < 2 ^ 63) := by
  intro outcome first scroll
  obtain ⟨hview, hbuilt⟩ := new_of_begin hbegin
  have hnew : Signed64 ({} : Options).rows := by
    show Signed64 (-1)
    rw [Signed64]
    omega
  have hlt : o.rows < 2 ^ 63 := (signed64_rows hargs hnew).2
  have hpos : 0 < first := (hbuilt l hl).rowAt_pos _
  have hsize : first < l.listing.size := (hbuilt l hl).rowAt_lt _
  have hrun : outcome = { exit := 0, output := (c.scroll l .forward o.rows).1.flatMap printedRow,
                          diagnostics } := run_eq_rows hargs hrequest hrows hbegin hl
  obtain ⟨count, hcount⟩ := Int.eq_ofNat_of_zero_le hrows
  rw [hcount] at hlt
  have hwraps : 2 ^ 63 ≤ (first : Int) + count → (c.scroll l .forward count).1 = [] := by
    intro hsum
    refine ScrollBuffer.extend_forward_of_wraps hlt ?_
    rw [cursor_bufferOn_of_new hview]
    exact hsum
  rw [hrun, hcount]
  refine ⟨rfl, rfl, hlt, hpos, hsize, ⟨fun hprinted => ?_, fun hfits => ?_⟩, fun hsum => ?_, ?_⟩
  · by_contra hnot
    obtain ⟨hsum, hzero⟩ := not_or.mp hnot
    rw [hwraps (by omega)] at hprinted
    exact flatMap_printedRow_ne_nil hsize (by omega) hprinted.symm
  · by_cases hsum : (first : Int) + count < 2 ^ 63
    · exact congrArg (List.flatMap printedRow) (scroll_of_fits hview hsum)
    · -- none are asked for, and none lie between a row and itself
      obtain rfl : count = 0 := by omega
      have hnone : l.rowsBetween first (first + (0 : Nat)) = [] := by
        refine List.map_eq_nil_iff.mpr (List.filter_eq_nil_iff.mpr fun i _ => ?_)
        rw [decide_eq_true_eq]
        omega
      rw [hnone]
      exact congrArg (List.flatMap printedRow) (hwraps (by omega))
  · rw [hwraps hsum]
    rfl
  · have hsource : l.listing.source.size ≠ 0 := Nat.ne_of_gt (Nat.zero_lt_of_lt hsize)
    have hfirst : first = l.listing.source.rowFor l.image.entry := (hbuilt l hl).rowAt_eq _
    have hkeep : ScrollBuffer.defaultKeep.toNat = 512 := rfl
    have hdistance : ScrollBuffer.defaultKeep = (512 : Nat) := rfl
    have htoNat : o.rows.toNat = count := congrArg Int.toNat hcount
    simp only [scroll, htoNat]
    rw [hfirst, hkeep, hdistance]
    exact ScrollBuffer.allFit_scroll_iff (by omega) hsource _ _

/-- The options that ask for so many rows of a file for a MIPS. -/
def listing (rows : Int) : Options :=
  { load := { machine := some .mips }, image := some "f", rows }

/-- How many rows are asked for does not matter to a load. -/
theorem begin_with_rows (files : Files) (o : Options) (rows : Int) :
    begin files { o with rows } = begin files o := rfl

/-- A file with two instructions has five rows with the marks, and its entry point has the second. -/
theorem exists_begin_listing (rows : Int) :
    ∃ c d l, begin Console.returnFile (listing rows) = .ok (c, d) ∧ c.session.current = some l
      ∧ l.listing.size = 5 ∧ l.rowAt l.image.entry = 1 := by
  let shape (p : Console × Text) : Option (Nat × Nat) :=
    p.1.session.current.map fun l => (l.listing.size, l.rowAt l.image.entry)
  have hshape : (begin Console.returnFile (listing 0)).toOption.any
      (fun p => shape p == some (5, 1)) = true := by
    decide +kernel
  obtain ⟨⟨c, d⟩, hbegin, hp⟩ := exists_ok_of_any hshape
  obtain ⟨l, hl, hfacts⟩ := Option.map_eq_some_iff.mp (beq_iff_eq.mp hp)
  obtain ⟨hsize, hrow⟩ := Prod.mk.inj hfacts
  exact ⟨c, d, l, (begin_with_rows _ (listing 0) rows).trans hbegin, hl, hsize, hrow⟩

/-- The greatest count with which the sum fits prints all four rows from the entry point on, though
with the distance up to which rows are kept the sum wraps. -/
theorem rows_printed_iff_greatest :
    let args : List Text := ["--arch", "mips", "--list", "9223372036854775806", "f"]
    let o := listing 9223372036854775806
    parse {} args = .ok o ∧ o.request = none ∧ 0 ≤ o.rows
      ∧ ∃ c d l, begin Console.returnFile o = .ok (c, d) ∧ c.session.current = some l
        ∧ (run "dissect" Console.returnFile args []).output
          = (l.rowsBetween 1 (1 + o.rows)).flatMap printedRow
        ∧ ¬ ScrollBuffer.AllFit l.listing.source ScrollBuffer.defaultKeep.toNat
          [.setAnchor l.image.entry, .extend .forward o.rows.toNat] 0 := by
  intro args o
  have hargs : parse {} args = .ok o := rfl
  have hrows : 0 ≤ o.rows := by decide
  obtain ⟨c, d, l, hbegin, hl, hsize, hrow⟩ := exists_begin_listing 9223372036854775806
  obtain ⟨-, -, -, -, -, hprinted, -, hfit⟩ :=
    rows_printed_iff "dissect" [] hargs rfl hrows hbegin hl
  rw [hrow] at hprinted hfit
  have hsum : (1 : Nat) + o.rows < 2 ^ 63 := by decide
  have hkept : ¬ (1 : Nat) + o.rows + ScrollBuffer.defaultKeep < 2 ^ 63 := by decide
  have hall := hprinted.mpr (Or.inl hsum)
  refine ⟨hargs, rfl, hrows, c, d, l, hbegin, hl, hall, fun hall => hkept ?_⟩
  exact hfit.mp hall

/-- **The greatest count prints nothing**, not even the row of the entry point. -/
theorem greatest_count_prints_nothing :
    let args : List Text := ["--arch", "mips", "--list", "9223372036854775807", "f"]
    let o := listing 9223372036854775807
    parse {} args = .ok o ∧ o.request = none ∧ 0 ≤ o.rows ∧ o.rows < 2 ^ 63
      ∧ (run "dissect" Console.returnFile args []).output = []
      ∧ ∃ c d l, begin Console.returnFile o = .ok (c, d) ∧ c.session.current = some l
        ∧ (l.rowsBetween (l.rowAt l.image.entry) (l.rowAt l.image.entry + o.rows)).flatMap printedRow
          ≠ []
        ∧ ¬ ScrollBuffer.AllFit l.listing.source ScrollBuffer.defaultKeep.toNat
          [.setAnchor l.image.entry, .extend .forward o.rows.toNat] 0 := by
  intro args o
  have hnothing : (run "dissect" Console.returnFile args []).output = [] := by decide +kernel
  obtain ⟨c, d, l, hbegin, hl, hsize, hrow⟩ := exists_begin_listing 9223372036854775807
  have hfirst : l.rowAt l.image.entry < l.listing.size := by omega
  have hpositive : 0 < o.rows.toNat := by decide
  have hprinted := flatMap_printedRow_ne_nil hfirst hpositive
  have hsource : l.listing.source.size ≠ 0 := Nat.ne_of_gt (Nat.zero_lt_of_lt hfirst)
  have hkeep : ScrollBuffer.defaultKeep.toNat = 512 := rfl
  rw [hkeep]
  refine ⟨rfl, rfl, by decide, by decide, hnothing, c, d, l, hbegin, hl, hprinted, fun hall => ?_⟩
  have hsum := (ScrollBuffer.allFit_scroll_iff (by omega) hsource l.image.entry o.rows.toNat).mp hall
  have hrows : o.rows.toNat = 9223372036854775807 := by decide
  rw [hrows] at hsum
  omega

end Program

end Disassembler
