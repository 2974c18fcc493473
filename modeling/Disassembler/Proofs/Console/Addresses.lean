import Disassembler.Proofs.Anchors
import Disassembler.Proofs.Console.Arguments
import Disassembler.Proofs.Console.Position
import Disassembler.Proofs.Console.Words
import Disassembler.Proofs.Extent
import Disassembler.Proofs.Numeral

/-!
# Printed addresses lead back to their rows

A row is printed with its address, and the address can be typed to get back to it. It is read as a
number before any name is looked up, so no symbol can come in between, whatever it is called. The
row that is found is the first one of its address: a label and the entry below it have the same one,
so both lead to the label. Only marks of sections do not lead back, since the row for their address
is one of what is shown there.
-/

namespace Disassembler

/-! ## Addresses in words -/

theorem Text.typeable_hexPrefixed (a : UInt64) : CommandLine.Typeable (hexPrefixed a.toNat) := by
  have hbytes : ∀ b ∈ hexPrefixed a.toNat, isBlank b = false ∧ b ≠ 0 := by
    intro b hb
    rcases List.mem_append.mp hb with hb | hb
    · have hmark : CommandLine.IsWord 2 (ofString "0x") ∧ 0 ∉ ofString "0x" := by decide
      exact ⟨hmark.1.not_blank b hb, fun hzero => hmark.2 (hzero ▸ hb)⟩
    · obtain ⟨hblank, hnul, -⟩ := ne_of_isDigit (isDigit_of_mem_hex hb)
      exact ⟨hblank, hnul⟩
  have hdigits : (hex a.toNat).length ≤ 16 := by
    rw [hex, List.length_map]
    exact length_digits_le (by omega) a.toNat_lt
  have hlength : (hexPrefixed a.toNat).length = 2 + (hex a.toNat).length := List.length_append
  refine ⟨⟨List.cons_ne_nil _ _, ?_, fun b hb => (hbytes b hb).1⟩, fun hzero => ?_⟩
  · have hwidth : CommandLine.wordWidth = 255 := rfl
    omega
  · exact (hbytes 0 hzero).2 rfl

/-- **A printed address is read as itself**, whatever is named. -/
theorem Loaded.address?_hexPrefixed (l : Loaded) (a : UInt64) :
    l.address? (Text.hexPrefixed a.toNat) = some a := by
  have hhex : isHex (Text.hex a.toNat) = true :=
    isHex_iff.mpr ⟨Text.hex_ne_nil _, fun b hb => Text.isDigit_of_mem_hex hb⟩
  exact (address?_mark hhex).trans (congrArg some (Numeral.hexAddress_hex a))

/-! ## Rows under labels -/

namespace Listing

variable {l : Listing} {m : Machine} {code : List Section} {stream : Array Instruction}
variable {labelOf : UInt64 → Option Text} {k : Nat}

/-- The row above a place is that of a label. -/
def UnderLabel (l : Listing) (k : Nat) : Prop := 0 < k ∧ (l.row (k - 1)).kind = .label

instance (l : Listing) (k : Nat) : Decidable (l.UnderLabel k) := inferInstanceAs (Decidable (_ ∧ _))

/-- The place of the first row with the address of the row at a place. -/
def firstOfAddress (l : Listing) (k : Nat) : Nat := if l.UnderLabel k then k - 1 else k

theorem Laid.index_row (h : l.Laid m code stream labelOf) (hk : k < l.size) :
    (l.row k).index = k := by
  obtain ⟨r, -, hrow⟩ := h.row_eq hk
  rw [hrow]

theorem kind_entryRow (l : Listing) (m : Machine) (i : Instruction) (k : Nat) :
    (l.entryRow m i k).kind = .instruction ∨ (l.entryRow m i k).kind = .error := by
  rw [entryRow]
  split
  · exact Or.inr rfl
  · exact Or.inl rfl

/-- The two rows of an entry with a label. -/
theorem Laid.rows_of_labelled (h : l.Laid m code stream labelOf) {i : Instruction} {t : Text}
    (hstarts : l.StartsAt m (.entry i (some t)) k) :
    l.row k = { l.labelRow i.address t 0 with index := k }
      ∧ l.row (k + 1) = { l.entryRow m i 0 with index := k + 1 } := by
  have hrows : l.rowsOf m (.entry i (some t)) = [l.labelRow i.address t 0, l.entryRow m i 0] := rfl
  have hfirst : (l.rowsOf m (.entry i (some t)))[0]? = some (l.labelRow i.address t 0) := by
    rw [hrows, List.getElem?_cons_zero]
  have hsecond : (l.rowsOf m (.entry i (some t)))[1]? = some (l.entryRow m i 0) := by
    rw [hrows, List.getElem?_cons_succ, List.getElem?_cons_zero]
  exact ⟨(h.row_of_startsAt hstarts hfirst).2, (h.row_of_startsAt hstarts hsecond).2⟩

/-- **A row is a mark, or one of bytes, or the first one of an entry, or the second one**, below the
label of its entry. -/
theorem Laid.row_cases (h : l.Laid m code stream labelOf) (hk : k < l.size) :
    (l.row k).kind = .sectionMark ∨ (l.row k).kind = .bytes
      ∨ (∃ i label, l.StartsAt m (.entry i label) k
        ∧ ((l.row k).kind = .label → ∃ t, label = some t))
      ∨ ∃ i t j, k = j + 1 ∧ l.StartsAt m (.entry i (some t)) j := by
  obtain ⟨r, hplain, hrow⟩ := h.row_eq hk
  obtain ⟨item, first, sub, hstarts, rfl, hr⟩ := exists_startsAt hplain
  have hmem := List.mem_of_getElem? hr
  cases item with
  | opening s | closing s =>
    obtain rfl := List.mem_singleton.mp hmem
    rw [hrow]
    exact Or.inl rfl
  | gap s start stop =>
    obtain ⟨line, -, rfl⟩ := List.mem_map.mp hmem
    rw [hrow]
    exact Or.inr (Or.inl rfl)
  | entry i label =>
    refine Or.inr (Or.inr ?_)
    cases sub with
    | zero =>
      refine Or.inl ⟨i, label, hstarts, fun hkind => ?_⟩
      obtain ⟨r', hr', -, hlabel⟩ := l.exists_entry_row m i label
      obtain rfl : r' = r := Option.some.inj (hr'.symm.trans hr)
      rw [hrow] at hkind
      exact Option.isSome_iff_exists.mp (hlabel.mp hkind)
    | succ sub =>
      -- only an entry with a label has a second row
      cases label with
      | none => cases hr
      | some t =>
        have hlt := (List.getElem?_eq_some_iff.mp hr).1
        have hlength : (l.rowsOf m (.entry i (some t))).length = 2 := rfl
        obtain rfl : sub = 0 := by omega
        exact Or.inr ⟨i, t, first, rfl, hstarts⟩

/-- What stands under a label is the entry with that label. -/
theorem Laid.exists_of_underLabel (h : l.Laid m code stream labelOf) (hk : k < l.size)
    (hunder : l.UnderLabel k) :
    ∃ i t j, k = j + 1 ∧ l.StartsAt m (.entry i (some t)) j := by
  obtain ⟨hpos, hkind⟩ := hunder
  obtain ⟨j, rfl⟩ : ∃ j, k = j + 1 := ⟨k - 1, by omega⟩
  rw [Nat.add_sub_cancel] at hkind
  rcases h.row_cases (Nat.lt_of_succ_lt hk) with
    hmark | hbytes | ⟨i, label, hstarts, hlabel⟩ | ⟨i, t, j', rfl, hstarts⟩
  · exact RowKind.noConfusion (hmark.symm.trans hkind)
  · exact RowKind.noConfusion (hbytes.symm.trans hkind)
  · obtain ⟨t, rfl⟩ := hlabel hkind
    exact ⟨i, t, j, rfl, hstarts⟩
  · -- the second row of an entry is none of a label
    rw [(h.rows_of_labelled hstarts).2] at hkind
    rcases l.kind_entryRow m i 0 with hentry | hentry
    · exact RowKind.noConfusion (hentry.symm.trans hkind)
    · exact RowKind.noConfusion (hentry.symm.trans hkind)

/-- **The address of a row leads to the first row with that address.** -/
theorem Laid.rowFor_address (h : l.Laid m code stream labelOf) (hk : k < l.size)
    (hkind : (l.row k).kind ≠ .sectionMark) :
    l.rowFor (l.row k).address = l.firstOfAddress k
      ∧ (l.row (l.firstOfAddress k)).address = (l.row k).address := by
  by_cases hunder : l.UnderLabel k
  · obtain ⟨i, t, j, rfl, hstarts⟩ := h.exists_of_underLabel hk hunder
    obtain ⟨hlabel, hentry⟩ := h.rows_of_labelled hstarts
    have haddress : (l.row (j + 1)).address = (l.row j).address := by
      rw [hlabel, hentry]
      rfl
    have hback := h.rowFor_row (Nat.lt_of_succ_lt hk) (Or.inr ⟨i, some t, hstarts⟩)
    rw [firstOfAddress, if_pos hunder, Nat.add_sub_cancel, haddress]
    exact ⟨hback, rfl⟩
  · rw [firstOfAddress, if_neg hunder]
    refine ⟨h.rowFor_row hk ?_, rfl⟩
    rcases h.row_cases hk with hmark | hbytes | ⟨i, label, hstarts, -⟩ | ⟨i, t, j, rfl, hstarts⟩
    · exact absurd hmark hkind
    · exact Or.inl hbytes
    · exact Or.inr ⟨i, label, hstarts⟩
    · refine absurd ⟨Nat.succ_pos j, ?_⟩ hunder
      rw [Nat.add_sub_cancel, (h.rows_of_labelled hstarts).1]
      rfl

/-- Under a label there is an instruction, valid or not. -/
theorem Laid.kind_of_underLabel (h : l.Laid m code stream labelOf) (hk : k < l.size)
    (hunder : l.UnderLabel k) :
    (l.row k).kind = .instruction ∨ (l.row k).kind = .error := by
  obtain ⟨i, t, j, rfl, hstarts⟩ := h.exists_of_underLabel hk hunder
  rw [(h.rows_of_labelled hstarts).2]
  exact l.kind_entryRow m i 0

end Listing

/-! ## What is loaded -/

/-- What is loaded was built from an image in its normal form. The sections of the image end below
`2 ^ 64`, and they and the entries of its stream lie in memory, where there is room for fewer than
`2 ^ 58`. -/
structure Loaded.Regular (l : Loaded) : Prop where
  built : ∃ c config machine order entry sections symbols records name b,
    Loaded.build c config (Image.build machine order entry sections symbols) records name = .ok b
      ∧ l = { b with generation := l.generation }
  ends : ∀ s ∈ l.image.sections, s.start.toNat + s.size.toNat < 2 ^ 64
  memory : l.analysis.stream.size + l.image.sections.size < 2 ^ 58

namespace Loaded

variable {l : Loaded}

theorem Regular.laid (h : l.Regular) :
    (∃ m code stream labelOf, l.listing.Laid m code stream labelOf) ∧ l.listing.size < 2 ^ 62 := by
  obtain ⟨⟨c, config, machine, order, entry, sections, symbols, records, name, b, hb, heq⟩, hends,
    hmemory⟩ := h
  rw [build] at hb
  split at hb
  · cases hb
  · rename_i an hrun
    obtain rfl := Except.ok.inj hb
    have hlisting : l.listing = Listing.build an records := congrArg Loaded.listing heq
    have hanalysis : l.analysis = an := congrArg Loaded.analysis heq
    rw [image, hanalysis, Analysis.image_eq_of_run hrun] at hends hmemory
    rw [hlisting]
    exact ⟨⟨_, _, _, _, Analysis.laid_build hrun hends records⟩,
      Analysis.size_build_lt hrun hends hmemory records⟩

/-- Alone between two neighbouring numbers is the row at the first one. -/
theorem rowsBetween_one {k : Nat} (hk : k < l.listing.size) :
    l.rowsBetween k (k + 1) = [l.listing.row k] := by
  have hwindow : ∀ i : Nat, ((k : Int) ≤ (i : Int) ∧ (i : Int) < k + 1) ↔ k ≤ i ∧ i < k + 1 := by
    omega
  simp only [rowsBetween, hwindow, filter_range]
  rw [show min l.listing.size (k + 1) - k = 1 by omega]
  rfl

/-- Rows that are shown are rows of the listing. -/
theorem exists_of_mem_rowsBetween {first stop : Int} {r : Row}
    (hr : r ∈ l.rowsBetween first stop) : ∃ k < l.listing.size, r = l.listing.row k := by
  obtain ⟨k, hk, rfl⟩ := List.mem_map.mp hr
  exact ⟨k, List.mem_range.mp (List.mem_of_mem_filter hk), rfl⟩

end Loaded

namespace Console

variable {c : Console} {l : Loaded} {p : Position}

/-- The line that goes to a printed address. -/
def gotoAddress (a : UInt64) : Text := CommandLine.saying .goto (Text.hexPrefixed a.toNat)

theorem move?_gotoAddress (l : Loaded) (a : UInt64) :
    l.move? (gotoAddress a) = some (.goto a) := by
  obtain ⟨hcommand, hfirst⟩ := CommandLine.split_saying .goto (Text.hexPrefixed a.toNat)
  rw [CommandLine.firstWord_untilNul_eq_self_iff.mpr (Text.typeable_hexPrefixed a)] at hfirst
  simp only [Loaded.move?, gotoAddress, hcommand, hfirst, Command.ofName?_name, Option.bind_some,
    l.address?_hexPrefixed a, Option.map_some]

/-- Going to the address of a row replies the first row with that address. -/
theorem Stands.reply_gotoAddress (h : c.Stands p) (hl : c.session.current = some l)
    (hregular : l.Regular) {k : Nat} (hk : k < l.listing.size)
    (hkind : (l.listing.row k).kind ≠ .sectionMark) (files : Files)
    (meanwhile : Option (Session.Moment × List Session.Event)) :
    (c.outcome (.line (gotoAddress (l.listing.row k).address) files meanwhile)).reply
      = some (Reply.ok [("row", .number (l.listing.firstOfAddress k)),
        ("addr", .address (l.listing.row k).address)]) := by
  obtain ⟨⟨m, code, stream, labelOf, hlaid⟩, hsize⟩ := hregular.laid
  obtain ⟨hrow, haddress⟩ := hlaid.rowFor_address hk hkind
  generalize (l.listing.row k).address = a at hrow haddress ⊢
  have hfirst : l.listing.firstOfAddress k < l.listing.size := by
    rw [Listing.firstOfAddress]
    split
    · omega
    · exact hk
  have hat : l.rowAt a = l.listing.firstOfAddress k := by
    rw [Loaded.rowAt, if_neg (Nat.ne_of_gt (Nat.zero_lt_of_lt hk)), hrow]
  obtain ⟨o, ho, hmoves⟩ := exists_moves hl (h.shows l hl) (move?_gotoAddress l a) files meanwhile
  have hfits : (Move.goto a).Fits l p.cursor := by
    show Signed64 (l.rowAt a) ∧ Signed64 (l.rowAt a + 1)
    simp only [Signed64, hat]
    omega
  have hrows : (Move.goto a).reply l p.cursor
      = Move.replyTo [l.listing.row (l.listing.firstOfAddress k)] := by
    show Move.replyTo (l.rowsBetween (l.rowAt a) (l.rowAt a + 1)) = _
    rw [hat, Loaded.rowsBetween_one hfirst]
  rw [ho, hmoves.reply_eq hfits, hrows, Move.replyTo, hlaid.index_row hfirst, haddress]

/--
**Printed addresses lead back to their rows.**

Take a console after any history, with a state that was built from an image all of whose sections
end below `2 ^ 64`. An address that is printed is read as itself, whatever symbols and functions are
named. `list`, `back` and `goto` print rows of the listing. Take one of them that is not the mark of
a section, and go to the address that is printed with it, at once or at any later time while the
same is loaded. The reply has that address, and the row, or the one above it if that is the label of
the row; then the row is that of an instruction, valid or not.
-/
theorem printed_addresses_lead_back (config : Config) (defaults : LoadOptions) (past : List Event)
    {l : Loaded} (hregular : l.Regular) :
    let new : Console := { session := { config }, defaults }
    let c := new.afterAll past
    (∀ a, l.address? (Text.hexPrefixed a.toNat) = some a)
      ∧ (c.session.current = some l → ∀ text m, l.move? text = some m → ∀ files meanwhile,
        ∃ rs, (c.outcome (.line text files meanwhile)).reply = some (m.replyWith rs)
          ∧ ∀ r ∈ rs, r = l.listing.row r.index ∧ (r.kind ≠ .sectionMark →
            (l.listing.UnderLabel r.index → r.kind = .instruction ∨ r.kind = .error)
            ∧ ∀ more, (c.afterAll more).session.current = some l → ∀ files meanwhile,
              ((c.afterAll more).outcome (.line (gotoAddress r.address) files meanwhile)).reply
                = some (Reply.ok [
                  ("row", .number
                    (if l.listing.UnderLabel r.index then r.index - 1 else r.index)),
                  ("addr", .address r.address)]))) := by
  intro new c
  have hnew : new.Stands {} := stands_new config defaults
  refine ⟨l.address?_hexPrefixed, fun hl text m hm files meanwhile => ?_⟩
  have hstands := hnew.afterAll past
  obtain ⟨o, ho, hmoves⟩ := exists_moves hl (hstands.shows l hl) hm files meanwhile
  obtain ⟨first, stop, hreply, -⟩ := hmoves.reply
  refine ⟨l.rowsBetween first stop, by rw [ho, hreply], fun r hr => ?_⟩
  obtain ⟨k, hk, rfl⟩ := Loaded.exists_of_mem_rowsBetween hr
  obtain ⟨m, code, stream, labelOf, hlaid⟩ := hregular.laid.1
  rw [hlaid.index_row hk]
  refine ⟨rfl, fun hkind => ⟨hlaid.kind_of_underLabel hk, fun more hmore files meanwhile => ?_⟩⟩
  exact (hstands.afterAll more).reply_gotoAddress hmore hregular hk hkind files meanwhile

/-- A byte of code that is no instruction. -/
def invalidCode : List Section :=
  [{ name := Text.ofString ".text", start := 0x1000, size := 1
     permissions := { read := true, execute := true }, bytes := #[0x06] }]

/-- An image with an entry point, and so a label, at an invalid instruction. -/
def invalidImage : Image := Image.build (some .x86_64) .little 0x1000 invalidCode []

/-- The rows of that image are the mark of the section, the label, the entry and another mark. -/
theorem exists_invalid : ∃ b,
    Loaded.build {} {} invalidImage { image := some invalidImage } [] = .ok b
    ∧ let l := { b with generation := 1 }
      l.Regular ∧ l.listing.size = 4 ∧ l.rowAt l.image.entry = 1
        ∧ l.listing.UnderLabel 2 ∧ (l.listing.row 2).kind = .error
        ∧ (l.listing.row 2).address = 0x1000 := by
  obtain ⟨b, hb, hfacts⟩ : ∃ b,
      Loaded.build {} {} invalidImage { image := some invalidImage } [] = .ok b
        ∧ ((b.image, b.analysis.stream.size, b.listing.size, b.rowAt b.image.entry,
          (b.listing.row 1).kind, (b.listing.row 2).kind, (b.listing.row 2).address)
          == (invalidImage, 1, 4, 1, .label, .error, 0x1000)) = true :=
    exists_ok_of_any (by decide +kernel)
  obtain ⟨himage, hstream, hsize, hentry, hlabel, herror, haddress⟩ :
      b.image = invalidImage ∧ b.analysis.stream.size = 1 ∧ b.listing.size = 4
        ∧ b.rowAt b.image.entry = 1 ∧ (b.listing.row 1).kind = .label
        ∧ (b.listing.row 2).kind = .error ∧ (b.listing.row 2).address = 0x1000 := by
    simpa only [beq_iff_eq, Prod.mk.injEq] using hfacts
  refine ⟨b, hb, ⟨⟨{}, {}, some .x86_64, .little, 0x1000, invalidCode, [], _, _, b, hb, rfl⟩, ?_,
    ?_⟩, hsize, hentry, ⟨Nat.two_pos, hlabel⟩, herror, haddress⟩
  · show ∀ s ∈ b.image.sections, s.start.toNat + s.size.toNat < 2 ^ 64
    rw [himage]
    decide +kernel
  · show b.analysis.stream.size + b.image.sections.size < 2 ^ 58
    rw [himage, hstream]
    decide +kernel

/-- The address of the invalid entry leads to its label. -/
theorem printed_addresses_lead_back_invalid :
    ∃ b, Loaded.build {} {} invalidImage { image := some invalidImage } [] = .ok b
      ∧ let l := { b with generation := 1 }
        let c := ({} : Console).afterAll (loading b)
        let line : Text → Event := fun text => .line text (fun _ => .missing "") none
        l.Regular ∧ c.session.current = some l
          ∧ ∃ rs, (c.outcome (line "list")).reply = some (Reply.rows rs)
            ∧ ∀ r ∈ rs, r.index = 2 → r.kind = .error
              ∧ (c.outcome (line (gotoAddress r.address))).reply
                = some (Reply.ok [("row", .number 1), ("addr", .address 0x1000)]) := by
  obtain ⟨b, hb, hregular, hsize, hentry, hunder, hkind, haddress⟩ := exists_invalid
  refine ⟨b, hb, hregular, current_loading b, ?_⟩
  obtain ⟨-, hrows⟩ := printed_addresses_lead_back {} {} (loading b) hregular
  obtain ⟨rs, hreply, hback⟩ := hrows (current_loading b) "list" (.list 20) rfl
    (fun _ => .missing "") none
  refine ⟨rs, hreply, fun r hr hindex => ?_⟩
  obtain ⟨hrow, hlater⟩ := hback r hr
  rw [hindex] at hrow hlater
  have herror : r.kind = .error := hrow ▸ hkind
  have hshown : r.address = 0x1000 := hrow ▸ haddress
  obtain ⟨-, hgoto⟩ := hlater (by rw [herror]; exact RowKind.noConfusion)
  refine ⟨herror, (hgoto [] (current_loading b) _ none).trans ?_⟩
  rw [if_pos hunder, hshown]

/-- **The address of an invalid instruction under a label leads to the label** as well, and not back
to its own row. -/
theorem invalid_row_found_at_label :
    ∃ b, Loaded.build {} {} invalidImage { image := some invalidImage } [] = .ok b
      ∧ let l := { b with generation := 1 }
        let c := ({} : Console).afterAll (loading b)
        let line : Text → Event := fun text => .line text (fun _ => .missing "") none
        l.Regular ∧ c.session.current = some l
          ∧ (∃ rs, (c.outcome (line "list")).reply = some (Reply.rows rs)
            ∧ l.listing.row 2 ∈ rs)
          ∧ ¬ ∀ k < l.listing.size, (l.listing.row k).kind ≠ .sectionMark →
            (c.outcome (line (gotoAddress (l.listing.row k).address))).reply
              = some (Reply.ok [
                ("row", .number
                  (if (l.listing.row k).kind = .instruction ∧ l.listing.UnderLabel k then k - 1
                    else k)),
                ("addr", .address (l.listing.row k).address)]) := by
  obtain ⟨b, hb, hregular, hsize, hentry, hunder, hkind, haddress⟩ := exists_invalid
  let l : Loaded := { b with generation := 1 }
  have hl : (({} : Console).afterAll (loading b)).session.current = some l := current_loading b
  have hstands : (({} : Console).afterAll (loading b)).Stands (Position.ofLoaded l) :=
    (stands_new {} {}).afterAll (loading b)
  have hmark : (l.listing.row 2).kind ≠ .sectionMark := by
    rw [hkind]
    exact RowKind.noConfusion
  have hlt : 2 < l.listing.size := by
    rw [hsize]
    decide
  refine ⟨b, hb, hregular, hl, ?_, fun hall => ?_⟩
  · obtain ⟨o, ho, hmoves⟩ := exists_moves hl (hstands.shows l hl)
      (show l.move? "list" = some (.list 20) from rfl) (fun _ => .missing "") none
    have hcursor : (Position.ofLoaded l).cursor = 1 := congrArg Nat.cast hentry
    have hfits : (Move.list 20).Fits l (Position.ofLoaded l).cursor := by
      show Signed64 (Position.ofLoaded l).cursor ∧ Signed64 ((Position.ofLoaded l).cursor + 20)
      rw [hcursor]
      simp only [Signed64]
      omega
    refine ⟨l.rowsBetween 1 (1 + 20), ?_, List.mem_map.mpr ⟨2, ?_, rfl⟩⟩
    · rw [ho, hmoves.reply_eq hfits, hcursor]
      rfl
    · exact List.mem_filter.mpr ⟨List.mem_range.mpr hlt, rfl⟩
  · have hback := hall 2 hlt hmark
    rw [hstands.reply_gotoAddress hl hregular hlt hmark, Listing.firstOfAddress, if_pos hunder,
      if_neg (by rw [hkind]; simp)] at hback
    simp [Reply.ok] at hback

end Console

end Disassembler
