import Disassembler.Proofs.Order
import Disassembler.Scroll
import Mathlib.Algebra.Group.Int.Defs
import Mathlib.Data.List.Perm.Subperm

/-!
# A scroll buffer shows its source

What a buffer gives does not depend on its cache. A cursor without a cache is all that is needed to
say which rows a step gives: those of the source whose places lie in the window that the step asks
for. The invariant is that every cached row is the one of the source, and that no place is cached
twice. Each step keeps it, whatever the history, since a row enters the cache only where none was,
and all else that happens to the cache is that rows are forgotten. What is left after a step other
than a peek is near the cursor, and as no place is there twice, the cache is bounded.
-/

namespace Disassembler

/-- The number is one of the signed 64-bit numbers. -/
def Signed64 (n : Int) : Prop := -2 ^ 63 ≤ n ∧ n < 2 ^ 63

theorem wrap64_eq {n : Int} (h : Signed64 n) : wrap64 n = n := by
  obtain ⟨hlow, hhigh⟩ := h
  rw [wrap64, Int.bmod_eq_of_le]
  · omega
  · omega

namespace ScrollBuffer

/-! ## Steps, and a cursor without a cache -/

/-- What can be asked of a buffer. -/
inductive Step where
  | setAnchor (a : UInt64)
  | setRow (index : Nat)
  | extend (d : Direction) (count : Nat)
  | peek (count : Nat)
  deriving DecidableEq

namespace Step

/-- The rows that a buffer gives in a step, and the buffer after it. -/
def run (source : RowSource) : Step → ScrollBuffer → List Row × ScrollBuffer
  | setAnchor a, b => ([], b.setAnchor source a)
  | setRow index, b => ([], b.setRow index)
  | extend d count, b => b.extend source d count
  | peek count, b => b.peek source count

/-- Where a step moves a cursor. -/
def move (source : RowSource) : Step → Int → Int
  | setAnchor a, _ => if source.size = 0 then 0 else source.rowFor a
  | setRow index, _ => index
  | extend .forward count, c => c + count
  | extend .backward count, c => c - count
  | peek _, c => c

/-- The places that a step asks for. -/
def asks : Step → Int → Nat → Prop
  | setAnchor _, _, _ | setRow _, _, _ => False
  | extend .forward count, c, i => c ≤ i ∧ i < c + count
  | extend .backward count, c, i => c - count ≤ i ∧ i < c
  | peek count, c, i => c ≤ i ∧ i < c + count

instance : (s : Step) → (c : Int) → (i : Nat) → Decidable (s.asks c i)
  | setAnchor _, _, _ | setRow _, _, _ => inferInstanceAs (Decidable False)
  | extend .forward _, _, _ | extend .backward _, _, _ | peek _, _, _ =>
    inferInstanceAs (Decidable (_ ∧ _))

/-- The rows of a source at the places that a step asks for, in order. -/
def rows (source : RowSource) (s : Step) (c : Int) : List Row :=
  ((List.range source.size).filter fun i => s.asks c i).map source.row

/-- No sum of the step leaves the signed 64-bit numbers. A peek looks ahead only; any other step
moves the cursor and looks how far rows are kept around it. -/
def Fits (source : RowSource) (keep : Nat) (s : Step) (c : Int) : Prop :=
  match s with
  | peek count => Signed64 (c + count)
  | s => Signed64 (s.move source c - keep) ∧ Signed64 (s.move source c + keep)

/-- Does the step leave the cache as large as it is? -/
def isPeek : Step → Bool
  | peek _ => true
  | setAnchor _ | setRow _ | extend _ _ => false

end Step

/-- The rows that a buffer gives in some steps, and the buffer after them. -/
def runAll (source : RowSource) : List Step → ScrollBuffer → List (List Row) × ScrollBuffer
  | [], b => ([], b)
  | s :: rest, b =>
    let (rows, b) := s.run source b
    let (more, b) := runAll source rest b
    (rows :: more, b)

/-- The rows that some steps give without a cache, and the cursor after them. -/
def plainAll (source : RowSource) : List Step → Int → List (List Row) × Int
  | [], c => ([], c)
  | s :: rest, c =>
    let (more, c') := plainAll source rest (s.move source c)
    (s.rows source c :: more, c')

/-- No sum of any step leaves the signed 64-bit numbers. -/
def AllFit (source : RowSource) (keep : Nat) : List Step → Int → Prop
  | [], _ => True
  | s :: rest, c => s.Fits source keep c ∧ AllFit source keep rest (s.move source c)

/-! ## The invariant of the cache -/

/-- **The invariant.** What is cached is what the source has there. -/
structure Coherent (source : RowSource) (b : ScrollBuffer) : Prop where
  row_eq : ∀ i r, (i, r) ∈ b.cache → r = source.row i
  nodup : (b.cache.map Prod.fst).Nodup

/-- Every cached row is as near to the cursor as rows are kept. -/
def Near (b : ScrollBuffer) : Prop :=
  ∀ p ∈ b.cache, b.cursor - b.keep ≤ (p.1 : Int) ∧ (p.1 : Int) ≤ b.cursor + b.keep

variable {source : RowSource} {b : ScrollBuffer}

theorem coherent_empty (keep c : Int) : Coherent source { keep, cursor := c } where
  row_eq := fun _ _ h => absurd h List.not_mem_nil
  nodup := List.nodup_nil

theorem Coherent.of_cursor (h : b.Coherent source) (c : Int) :
    Coherent source { b with cursor := c } := ⟨h.row_eq, h.nodup⟩

theorem Coherent.trim (h : b.Coherent source) : b.trim.Coherent source where
  row_eq := fun i r hr => h.row_eq i r (List.mem_of_mem_filter hr)
  nodup := h.nodup.sublist (List.filter_sublist.map Prod.fst)

/-- What is left after a trim is near the cursor, if the ends of what is kept do not wrap. -/
theorem near_trim (hlow : Signed64 (b.cursor - b.keep)) (hhigh : Signed64 (b.cursor + b.keep)) :
    b.trim.Near := by
  intro p hp
  obtain ⟨-, hp⟩ := List.mem_filter.mp hp
  rw [wrap64_eq hlow, wrap64_eq hhigh] at hp
  exact of_decide_eq_true hp

/-- **A row that is got is that of the source**, cached or not. -/
theorem get_spec (h : b.Coherent source) (i : Nat) :
    (b.get source i).1 = source.row i ∧ (b.get source i).2.Coherent source
      ∧ (b.get source i).2.cursor = b.cursor ∧ (b.get source i).2.keep = b.keep := by
  unfold get
  split
  · rename_i r hr
    obtain ⟨l₁, l₂, hsplit, -⟩ := List.lookup_eq_some_iff.mp hr
    have hmem : (i, r) ∈ b.cache := by
      rw [hsplit]
      exact List.mem_append_right _ List.mem_cons_self
    exact ⟨h.row_eq i r hmem, h, rfl, rfl⟩
  · rename_i hnone
    refine ⟨rfl, ⟨fun j r hr => ?_, ?_⟩, rfl, rfl⟩
    · rcases List.mem_cons.mp hr with heq | hr
      · obtain ⟨rfl, rfl⟩ := Prod.mk.inj heq
        rfl
      · exact h.row_eq j r hr
    · -- the place is new, or it would have been found
      refine List.nodup_cons.mpr ⟨fun hi => ?_, h.nodup⟩
      obtain ⟨p, hp, hpi⟩ := List.mem_map.mp hi
      have hne := List.lookup_eq_none_iff.mp hnone p hp
      rw [hpi, bne_self_eq_false] at hne
      exact Bool.false_ne_true hne

theorem getAll_spec (h : b.Coherent source) (is : List Nat) :
    (getAll source is b).1 = is.map source.row ∧ (getAll source is b).2.Coherent source
      ∧ (getAll source is b).2.cursor = b.cursor ∧ (getAll source is b).2.keep = b.keep := by
  -- a row that was got may be cached now, which the next one does not notice
  induction is generalizing b with
  | nil => exact ⟨rfl, h, rfl, rfl⟩
  | cons i is ih =>
    obtain ⟨hrow, hcoherent, hcursor, hkeep⟩ := get_spec h i
    obtain ⟨hrows, hcoherent', hcursor', hkeep'⟩ := ih hcoherent
    refine ⟨?_, hcoherent', hcursor'.trans hcursor, hkeep'.trans hkeep⟩
    rw [List.map_cons, ← hrow, ← hrows]
    rfl

/-- **The places that a loop goes through are those of the source in the window.** -/
theorem places_eq_filter (source : RowSource) (first stop : Int) :
    places source first stop
      = (List.range source.size).filter fun i : Nat => first ≤ (i : Int) ∧ (i : Int) < stop := by
  have hwindow : ∀ i : Nat, (first ≤ (i : Int) ∧ (i : Int) < stop)
      ↔ first.toNat ≤ i ∧ i < stop.toNat := by omega
  simp only [hwindow, filter_range]
  unfold places
  dsimp only
  -- a window that ends before the source begins has no places on either side
  by_cases hneg : stop < 0
  · have hleft : (min stop (source.size : Int) - max first 0).toNat = 0 := by omega
    have hright : min source.size stop.toNat - first.toNat = 0 := by omega
    rw [hleft, hright, List.range'_zero, List.range'_zero]
  · have hstart : (max first 0).toNat = first.toNat := by omega
    have hlength : (min stop (source.size : Int) - max first 0).toNat
        = min source.size stop.toNat - first.toNat := by omega
    rw [hstart, hlength]

/-! ## A step -/

/-- What a step does to a buffer, as far as it shows. -/
structure Does (source : RowSource) (s : Step) (b : ScrollBuffer) : Prop where
  rows : (s.run source b).1 = s.rows source b.cursor
  cursor : (s.run source b).2.cursor = s.move source b.cursor
  keep : (s.run source b).2.keep = b.keep
  coherent : (s.run source b).2.Coherent source
  near : s.isPeek = false → (s.run source b).2.Near

/-- Moving the cursor to a place shows nothing and forgets what is far from there. -/
theorem does_of_jump (h : b.Coherent source) {s : Step} {c : Int}
    (hrun : s.run source b = ([], trim { b with cursor := c })) (hc : s.move source b.cursor = c)
    (hasks : ∀ i, ¬ s.asks b.cursor i) (hlow : Signed64 (c - b.keep))
    (hhigh : Signed64 (c + b.keep)) : Does source s b where
  rows := by
    have hnone : (List.range source.size).filter (fun i => s.asks b.cursor i) = [] :=
      List.filter_eq_nil_iff.mpr fun i _ => mt of_decide_eq_true (hasks i)
    rw [hrun, Step.rows, hnone, List.map_nil]
  cursor := by
    rw [hrun, hc]
    rfl
  keep := by
    rw [hrun]
    rfl
  coherent := by
    rw [hrun]
    exact (h.of_cursor c).trim
  near := by
    intro _
    rw [hrun]
    exact near_trim hlow hhigh

/-- Moving the cursor to a place while the rows of a window are got. -/
def passing (source : RowSource) (first stop c : Int) (b : ScrollBuffer) :
    List Row × ScrollBuffer :=
  let got := getAll source (places source first stop) { b with cursor := c }
  (got.1, got.2.trim)

theorem extend_forward {count : Nat} (hstop : Signed64 (b.cursor + count)) :
    b.extend source .forward count
      = b.passing source b.cursor (b.cursor + count) (b.cursor + count) := by
  unfold extend passing
  dsimp only
  rw [wrap64_eq hstop]

theorem extend_backward {count : Nat} (hfirst : Signed64 (b.cursor - count))
    (hstop : Signed64 b.cursor) : b.extend source .backward count
      = b.passing source (b.cursor - count) b.cursor (b.cursor - count) := by
  unfold extend passing
  dsimp only
  rw [wrap64_eq hfirst, Int.sub_add_cancel, wrap64_eq hstop]

/-- A move over a window shows the window and forgets what is far from where it ends. -/
theorem does_of_passing (h : b.Coherent source) {s : Step} {first stop c : Int}
    (hrun : s.run source b = b.passing source first stop c) (hc : s.move source b.cursor = c)
    (hasks : ∀ i : Nat, s.asks b.cursor i ↔ first ≤ (i : Int) ∧ (i : Int) < stop)
    (hlow : Signed64 (c - b.keep)) (hhigh : Signed64 (c + b.keep)) : Does source s b := by
  obtain ⟨hrows, hcoherent, hcursor, hkeep⟩ :=
    getAll_spec (h.of_cursor c) (places source first stop)
  refine ⟨?_, ?_, ?_, ?_, fun _ => ?_⟩
  · rw [hrun, passing, hrows, places_eq_filter]
    simp only [Step.rows, hasks]
  · rw [hrun, hc]
    exact hcursor
  · rw [hrun]
    exact hkeep
  · rw [hrun]
    exact hcoherent.trim
  · rw [hrun]
    refine near_trim ?_ ?_
    · rw [hcursor, hkeep]
      exact hlow
    · rw [hcursor, hkeep]
      exact hhigh

/-- Around a cursor that stays signed, rows are kept; so the cursor itself is signed. -/
theorem Step.Fits.signed_move {keep : Nat} {s : Step} {c : Int} (hs : s.Fits source keep c)
    (hc : Signed64 c) : Signed64 (s.move source c) := by
  cases s with
  | peek count => exact hc
  | setAnchor a | setRow index | extend d count =>
    simp only [Fits, Signed64] at hs ⊢
    omega

/-- **A step gives the rows of the source and keeps the invariant.** -/
theorem does_of_fits {keep : Nat} (h : b.Coherent source) (hkeep : b.keep = keep)
    (hcursor : Signed64 b.cursor) {s : Step} (hs : s.Fits source keep b.cursor) :
    Does source s b := by
  have hmove := hs.signed_move hcursor
  cases s with
  | setAnchor a =>
    obtain ⟨hlow, hhigh⟩ := hs
    rw [← hkeep] at hlow hhigh
    exact does_of_jump h rfl rfl (fun _ => not_false) hlow hhigh
  | setRow index =>
    have hrun : (Step.setRow index).run source b = ([], trim { b with cursor := index }) := by
      rw [Step.run, setRow, wrap64_eq (n := index) hmove]
    obtain ⟨hlow, hhigh⟩ := hs
    rw [← hkeep] at hlow hhigh
    exact does_of_jump h hrun rfl (fun _ => not_false) hlow hhigh
  | extend d count =>
    obtain ⟨hlow, hhigh⟩ := hs
    rw [← hkeep] at hlow hhigh
    cases d with
    | forward => exact does_of_passing h (extend_forward hmove) rfl (fun _ => Iff.rfl) hlow hhigh
    | backward =>
      exact does_of_passing h (extend_backward hmove hcursor) rfl (fun _ => Iff.rfl) hlow hhigh
  | peek count =>
    have hrun : (Step.peek count).run source b
        = getAll source (places source b.cursor (b.cursor + count)) b := by
      rw [Step.run, ScrollBuffer.peek, wrap64_eq (n := b.cursor + count) hs]
    obtain ⟨hrows, hcoherent, hcursor', hkeep'⟩ :=
      getAll_spec h (places source b.cursor (b.cursor + count))
    refine ⟨?_, ?_, ?_, ?_, fun hnot => Bool.noConfusion hnot⟩
    · rw [hrun, hrows, places_eq_filter]
      rfl
    · rw [hrun, hcursor']
      rfl
    · rw [hrun, hkeep']
    · rw [hrun]
      exact hcoherent

/-! ## A history of steps -/

/-- A buffer that has been used: its cursor is where the steps have moved it. -/
structure Used (source : RowSource) (keep : Nat) (c : Int) (b : ScrollBuffer) : Prop where
  coherent : b.Coherent source
  keep_eq : b.keep = keep
  cursor_eq : b.cursor = c
  signed : Signed64 c

theorem used_empty (source : RowSource) (keep : Nat) : Used source keep 0 { keep } where
  coherent := coherent_empty keep 0
  keep_eq := rfl
  cursor_eq := rfl
  signed := by
    rw [Signed64]
    omega

/-- A used buffer is a used one after a step, and shows what it should. -/
theorem Used.run {keep : Nat} {c : Int} (h : Used source keep c b) {s : Step}
    (hs : s.Fits source keep c) :
    Used source keep (s.move source c) (s.run source b).2
      ∧ (s.run source b).1 = s.rows source c
      ∧ (s.isPeek = false → (s.run source b).2.Near) := by
  obtain ⟨hcoherent, hkeep, rfl, hsigned⟩ := h
  have hdoes := does_of_fits hcoherent hkeep hsigned hs
  exact ⟨⟨hdoes.coherent, hdoes.keep.trans hkeep, hdoes.cursor, hs.signed_move hsigned⟩,
    hdoes.rows, hdoes.near⟩

/-- **After any history a buffer has shown what a cursor without a cache shows.** -/
theorem Used.runAll {keep : Nat} {c : Int} (h : Used source keep c b) {steps : List Step}
    (hsteps : AllFit source keep steps c) :
    Used source keep (plainAll source steps c).2 (runAll source steps b).2
      ∧ (runAll source steps b).1 = (plainAll source steps c).1
      ∧ ∀ s, steps.getLast? = some s → s.isPeek = false → (runAll source steps b).2.Near := by
  -- along the steps; the last one of all is the first only if no other follows
  induction steps generalizing b c with
  | nil => exact ⟨h, rfl, fun s hs => absurd hs (by simp)⟩
  | cons s steps ih =>
    obtain ⟨hused, hrows, hnear⟩ := h.run hsteps.1
    obtain ⟨hused', hmore, hnear'⟩ := ih hused hsteps.2
    refine ⟨hused', ?_, fun t ht hpeek => ?_⟩
    · show (s.run source b).1 :: (ScrollBuffer.runAll source steps (s.run source b).2).1 = _
      rw [hrows, hmore]
      rfl
    · cases steps with
      | nil =>
        obtain rfl : s = t := Option.some.inj ht
        exact hnear hpeek
      | cons u steps =>
        rw [List.getLast?_cons_cons] at ht
        exact hnear' t ht hpeek

/-- No more rows are near a cursor than there are places. -/
theorem Coherent.cached_le (h : b.Coherent source) {keep : Nat} (hkeep : b.keep = keep)
    (hnear : b.Near) : b.cached ≤ 2 * keep + 1 := by
  -- the places are different ones, all among those near the cursor
  have hsubset : b.cache.map Prod.fst ⊆ List.range' (b.cursor - keep).toNat (2 * keep + 1) := by
    intro i hi
    obtain ⟨p, hp, rfl⟩ := List.mem_map.mp hi
    obtain ⟨hlow, hhigh⟩ := hnear p hp
    rw [List.mem_range'_1]
    omega
  have hlength := (List.subperm_of_subset h.nodup hsubset).length_le
  rwa [List.length_map, List.length_range'] at hlength

theorem Near.of_isCached (h : b.Near) {i : Nat} (hi : b.isCached i = true) :
    b.cursor - b.keep ≤ (i : Int) ∧ (i : Int) ≤ b.cursor + b.keep := by
  obtain ⟨r, hr⟩ := Option.isSome_iff_exists.mp hi
  obtain ⟨l₁, l₂, hsplit, -⟩ := List.lookup_eq_some_iff.mp hr
  refine h (i, r) ?_
  rw [hsplit]
  exact List.mem_append_right _ List.mem_cons_self

/--
**The cache of a scroll buffer is invisible and bounded.**

Take any source, and any steps of a new buffer in which no sum leaves the signed 64-bit numbers. The
buffer gives in each step the rows of the source in the window that the step asks for, in order, and
its cursor ends where the steps move it. From there, going on by a count and back by the same gives
the same rows twice and restores the cursor, wherever that is. If the last step was not a peek, only
rows that are near the cursor are cached.
-/
theorem cache_invisible (source : RowSource) (keep : Nat) (steps : List Step)
    (h : AllFit source keep steps 0) :
    let b := (runAll source steps { keep }).2
    (runAll source steps { keep }).1 = (plainAll source steps 0).1
      ∧ b.cursor = (plainAll source steps 0).2
      ∧ (∀ count : Nat,
        AllFit source keep [.extend .forward count, .extend .backward count] b.cursor →
        let forth := b.extend source .forward count
        let back := forth.2.extend source .backward count
        back.1 = forth.1 ∧ back.2.cursor = b.cursor)
      ∧ ∀ s, steps.getLast? = some s → s.isPeek = false →
        (∀ i, b.isCached i = true → b.cursor - keep ≤ (i : Int) ∧ (i : Int) ≤ b.cursor + keep)
        ∧ b.cached ≤ 2 * keep + 1 := by
  intro b
  obtain ⟨hused, hrows, hnear⟩ := (used_empty source keep).runAll h
  refine ⟨hrows, hused.cursor_eq, fun count hfit => ?_, fun s hs hpeek => ?_⟩
  · have hb : Used source keep b.cursor b := by
      refine ⟨hused.coherent, hused.keep_eq, rfl, ?_⟩
      rw [hused.cursor_eq]
      exact hused.signed
    obtain ⟨hforth, hforthRows, -⟩ := hb.run hfit.1
    obtain ⟨hback, hbackRows, -⟩ := hforth.run hfit.2.1
    have hsame : b.cursor + (count : Int) - count = b.cursor := Int.add_sub_cancel ..
    -- the way back asks for the same window
    have hasks : ∀ i, (Step.extend .backward count).asks (b.cursor + count) i
        ↔ (Step.extend .forward count).asks b.cursor i := by
      intro i
      simp only [Step.asks, hsame]
    refine ⟨hbackRows.trans (Eq.trans ?_ hforthRows.symm), hback.cursor_eq.trans hsame⟩
    simp only [Step.rows, Step.move, hasks]
  · refine ⟨fun i hi => ?_, hused.coherent.cached_le hused.keep_eq (hnear s hs hpeek)⟩
    have hnear := (hnear s hs hpeek).of_isCached hi
    rw [hused.keep_eq] at hnear
    exact hnear

/-- Five rows with the numbers from zero to four. -/
def fiveRows : RowSource :=
  { size := 5, row := fun i => { index := i }, rowFor := fun a => min a.toNat 4 }

/-- A buffer that is moved behind the last row and before the first. -/
theorem cache_invisible_overshoot :
    let steps : List Step := [.setRow 3, .peek 9, .extend .forward 4, .extend .backward 12,
      .extend .forward 6]
    AllFit fiveRows 2 steps 0
      ∧ (runAll fiveRows steps { keep := 2 }).1.map (·.map Row.index)
        = [[], [3, 4], [3, 4], [0, 1, 2, 3, 4], [0]]
      ∧ (runAll fiveRows steps { keep := 2 }).2.cursor = 1
      ∧ (runAll fiveRows steps { keep := 2 }).2.cached ≤ 5 := by
  intro steps
  have hfit : AllFit fiveRows 2 steps 0 := by
    simp only [steps, AllFit, Step.Fits, Step.move, Signed64, and_true]
    omega
  obtain ⟨hrows, hcursor, -, hbounded⟩ := cache_invisible fiveRows 2 steps hfit
  refine ⟨hfit, ?_, ?_, (hbounded _ rfl rfl).2⟩
  · have hplain : (plainAll fiveRows steps 0).1.map (·.map Row.index)
        = [[], [3, 4], [3, 4], [0, 1, 2, 3, 4], [0]] := by decide
    exact (congrArg (List.map (List.map Row.index)) hrows).trans hplain
  · exact hcursor.trans (by decide)

end ScrollBuffer

end Disassembler
