import Disassembler.Proofs.Console.Words
import Disassembler.Proofs.Debug.Layouts
import Mathlib.Algebra.Group.Nat.Defs

/-!
# Two spellings of an address

An address may be written as a number or as a string. Digits that stand by themselves are put
together in 64 bits, and what does not fit is lost without notice. A string is read as a numeral of
any size, and its object is rejected if the value does not fit. So the two spellings are read alike
exactly up to the greatest number of 64 bits.
-/

namespace Disassembler.Debug

/-! ## Decimal numerals -/

/-- A decimal numeral without leading zeros. -/
def IsWhole (t : Text) : Prop :=
  Json.Digits t ∧ (t.head? = some (Text.code '0') → t = Text.ofString "0")

instance (t : Text) : Decidable (IsWhole t) := inferInstanceAs (Decidable (_ ∧ (_ → _)))

variable {d : Text}

/-- A decimal digit is a hexadecimal one. -/
theorem isDigit_sixteen {b : UInt8} (h : Text.isDigit 10 b = true) : Text.isDigit 16 b = true := by
  unfold Text.isDigit at h ⊢
  split at h
  · have hlt := of_decide_eq_true h
    exact decide_eq_true (by omega)
  · exact absurd h Bool.false_ne_true

theorem nul_notMem_of_digits (h : ∀ b ∈ d, Text.isDigit 10 b = true) : 0 ∉ d := fun hzero =>
  absurd (h 0 hzero) (by decide)

/-- **A decimal numeral is read for its value**, with nothing left. -/
theorem read?_whole (h : IsWhole d) : Numeral.read? none d
    = some { negative := false, magnitude := Text.numeral 10 d, rest := [] } := by
  obtain ⟨⟨hne, hdigits⟩, hzero⟩ := h
  by_cases hhead : d.head? = some (Text.code '0')
  · -- zero, which is read as an octal numeral
    obtain rfl := hzero hhead
    rfl
  · obtain ⟨b, t, rfl⟩ := List.exists_cons_of_ne_nil hne
    obtain ⟨hblank, -, hminus, hplus, -⟩ :=
      Text.ne_of_isDigit (isDigit_sixteen (hdigits b List.mem_cons_self))
    have hdrop : (b :: t).dropWhile Text.isBlank = b :: t :=
      List.dropWhile_cons_of_neg (by simp [hblank])
    have hb : b ≠ Text.code '0' := fun heq => hhead (congrArg some heq)
    have hmark : Numeral.afterHexMark? (b :: t) = none := by
      cases t with
      | nil => rfl
      | cons x t => rw [Numeral.afterHexMark?, if_neg fun hboth => hb hboth.1]
    have hbase : Numeral.baseAndDigits none (b :: t) = (10, b :: t) := by
      simp only [Numeral.baseAndDigits, hmark]
      rw [if_neg hhead]
    have htake : (b :: t).takeWhile (Text.isDigit 10) = b :: t :=
      List.takeWhile_eq_self_iff.mpr hdigits
    have hrest : (b :: t).dropWhile (Text.isDigit 10) = [] := List.dropWhile_eq_nil_iff.mpr hdigits
    simp [Numeral.read?, hdrop, hminus, hplus, hbase, htake, hrest]

/-- **A string of digits is an address if its value fits.** -/
theorem address?_whole (h : IsWhole d) : Members.address? d
    = if Text.numeral 10 d < 2 ^ 64 then some (UInt64.ofNat (Text.numeral 10 d)) else none := by
  have hne : d.isEmpty = false := by simpa using h.1.1
  rw [Members.address?, Text.untilNul_of_notMem (nul_notMem_of_digits h.1.2), read?_whole h]
  simp only [hne, Bool.false_eq_true, if_false]
  rfl

theorem unescape_digits (h : ∀ b ∈ d, Text.isDigit 10 b = true) : unescape d = d := by
  induction d with
  | nil => rw [unescape]
  | cons b d ih =>
    obtain ⟨hb, hd⟩ := List.forall_mem_cons.mp h
    have hslash : b ≠ Text.code '\\' := fun heq => absurd hb (heq ▸ by decide)
    rw [unescape_plain hslash, ih hd]

theorem string?_digits (h : ∀ b ∈ d, Text.isDigit 10 b = true) :
    string? ("\"" ++ d ++ "\"") = some (d, []) := by
  have hpassed := passed_of_isDigit fun b hb => isDigit_sixteen (h b hb)
  have hstring := string?_of_passed hpassed []
  rw [unescape_digits h] at hstring
  rw [← hstring, List.append_assoc]
  rfl

/-! ## Entries -/

/-- The entry gives a start or an end. -/
def Entry.IsAddress (x : Entry) : Prop :=
  unescape x.key = Text.ofString "addr" ∨ unescape x.key = Text.ofString "end"

/-- The value of the entry, written as a number. -/
def Entry.asNumber (x : Entry) (d : Text) : Entry := { x with value := d }

/-- The value of the entry, written as a string. -/
def Entry.asString (x : Entry) (d : Text) : Entry := { x with value := "\"" ++ d ++ "\"" }

/-- A start or an end that is written as a string is set as a number, if it is an address. -/
theorem setString_address {key : Text} (h : key = Text.ofString "addr" ∨ key = Text.ofString "end")
    (m : Members) (value : Text) : m.setString key value
      = (Members.address? value).elim (.error (.badAddress key value))
          fun a => .ok (m.setNumber key a) := by
  rw [Members.setString, if_pos h]
  rcases Members.address? value with _ | a
  · rfl
  · rcases h with rfl | rfl
    · rfl
    · rfl

namespace Entry

variable {x : Entry}

theorem IsAddress.key_ne (h : x.IsAddress) : unescape x.key ≠ [] := by
  rcases h with h | h
  · rw [h]
    decide
  · rw [h]
    decide

/-- **A number is set for its remainder.** -/
theorem setEntry_asNumber (h : x.IsAddress) (hd : Json.Digits d) (hbefore : Inline x.before)
    (m : Members) : m.setEntry (x.asNumber d)
      = .ok (m.setNumber (unescape x.key) (UInt64.ofNat (Text.numeral 10 d))) := by
  have hstring : string? d = none := by
    obtain ⟨hne, hdigits⟩ := hd
    obtain ⟨b, t, rfl⟩ := List.exists_cons_of_ne_nil hne
    exact string?_eq_none_iff.mpr (ne_of_isDigit (hdigits b List.mem_cons_self)).2.2.2
  have hplain : Inline (x.asNumber d).before ∧ Plain (x.asNumber d).key (x.asNumber d).value :=
    ⟨hbefore, h.key_ne, .inr hd⟩
  rw [Members.setEntry, if_pos hplain, Members.setPlain, asNumber, hstring]

/-- **A string is set for its value, and rejected if that does not fit.** -/
theorem setEntry_asString (h : x.IsAddress) (hd : IsWhole d) (hbefore : Inline x.before)
    (m : Members) : m.setEntry (x.asString d)
      = if Text.numeral 10 d < 2 ^ 64 then
          .ok (m.setNumber (unescape x.key) (UInt64.ofNat (Text.numeral 10 d)))
        else .error (.badAddress (unescape x.key) d) := by
  have hplain : Inline (x.asString d).before ∧ Plain (x.asString d).key (x.asString d).value :=
    ⟨hbefore, h.key_ne, .inl rfl⟩
  rw [Members.setEntry, if_pos hplain, Members.setPlain, asString, string?_digits hd.1.2]
  dsimp only
  rw [setString_address h, address?_whole hd]
  split
  · rfl
  · rfl

/-- A line end before the colon makes any value fail. -/
theorem setEntry_of_not_inline (h : ¬ Inline x.before) (m : Members) :
    m.setEntry x = .error (.malformed 0) := by
  rw [Members.setEntry, if_neg fun hboth => h hboth.1]

/-- Up to the greatest number of 64 bits, both spellings say the same. -/
theorem setEntry_spelling (h : x.IsAddress) (hd : IsWhole d) (hfits : Text.numeral 10 d < 2 ^ 64)
    (m : Members) : m.setEntry (x.asString d) = m.setEntry (x.asNumber d) := by
  by_cases hbefore : Inline x.before
  · rw [setEntry_asString h hd hbefore, setEntry_asNumber h hd.1 hbefore, if_pos hfits]
  · rw [setEntry_of_not_inline (x := x.asString d) hbefore,
      setEntry_of_not_inline (x := x.asNumber d) hbefore]

/-- A number says what its remainder says. -/
theorem setEntry_remainder (h : x.IsAddress) (hd : Json.Digits d) (m : Members) :
    m.setEntry (x.asNumber (Text.decimal (Text.numeral 10 d % 2 ^ 64)))
      = m.setEntry (x.asNumber d) := by
  by_cases hbefore : Inline x.before
  · have hvalue : UInt64.ofNat (Text.numeral 10 d % 2 ^ 64) = UInt64.ofNat (Text.numeral 10 d) :=
      UInt64.ofNat_mod_size
    rw [setEntry_asNumber h (digits_decimal _) hbefore, setEntry_asNumber h hd hbefore,
      Text.numeral_decimal, hvalue]
  · rw [setEntry_of_not_inline (x := x.asNumber d) hbefore,
      setEntry_of_not_inline (x := x.asNumber (Text.decimal _)) hbefore]

/-- Beyond it, a string is always rejected. -/
theorem exists_setEntry_error (h : x.IsAddress) (hd : IsWhole d)
    (hlarge : 2 ^ 64 ≤ Text.numeral 10 d) (m : Members) :
    ∃ e, m.setEntry (x.asString d) = .error e := by
  by_cases hbefore : Inline x.before
  · exact ⟨_, (setEntry_asString h hd hbefore m).trans (if_neg (Nat.not_lt.mpr hlarge))⟩
  · exact ⟨_, setEntry_of_not_inline (x := x.asString d) hbefore m⟩

end Entry

/-! ## Files -/

/-- A place for an entry in a file: the objects before its own, the entries before it in its object,
and what follows. -/
structure Place where
  front : List (List Entry)
  before : List Entry
  after : List Entry
  back : List (List Entry)

namespace Place

variable {p : Place} {x y : Entry} {t u : Text}

/-- The file with an entry in that place. -/
def fill (p : Place) (x : Entry) : List (List Entry) :=
  p.front ++ (p.before ++ x :: p.after) :: p.back

theorem forall_mem_fill {P : Entry → Prop} (h : P x → P y)
    (hx : ∀ xs ∈ p.fill x, ∀ z ∈ xs, P z) : ∀ xs ∈ p.fill y, ∀ z ∈ xs, P z := by
  rw [fill, List.forall_mem_append, List.forall_mem_cons, List.forall_mem_append,
    List.forall_mem_cons] at hx ⊢
  obtain ⟨hfront, ⟨hbefore, hhere, hafter⟩, hback⟩ := hx
  exact ⟨hfront, ⟨hbefore, h hhere, hafter⟩, hback⟩

theorem foldlM_object (x : Entry) (m : Members) :
    (p.before ++ x :: p.after).foldlM Members.setEntry m
      = p.before.foldlM Members.setEntry m >>= fun m' =>
          m'.setEntry x >>= p.after.foldlM Members.setEntry := by
  rw [List.foldlM_append]
  rfl

theorem readEntries_append {c c' : Contents} {count n : Nat} {front : List (List Entry)}
    (h : readEntries c count front = (c', .ok n)) (objects : List (List Entry)) :
    readEntries c count (front ++ objects) = readEntries c' n objects := by
  induction front generalizing c count with
  | nil =>
    obtain ⟨rfl, hn⟩ := Prod.mk.inj h
    obtain rfl := Except.ok.inj hn
    rfl
  | cons xs front ih =>
    rw [readEntries] at h
    rw [List.cons_append, readEntries]
    cases hadd : c.addEntries xs with
    | error e =>
      rw [hadd] at h
      exact absurd (congrArg Prod.snd h) (by simp)
    | ok c₁ =>
      rw [hadd] at h
      exact ih h

/-- Entries that say the same are read alike in every place. -/
theorem readEntries_fill_congr (h : ∀ m : Members, m.setEntry x = m.setEntry y) (c : Contents)
    (count : Nat) : readEntries c count (p.fill x) = readEntries c count (p.fill y) := by
  have hobject : ∀ c : Contents,
      c.addEntries (p.before ++ x :: p.after) = c.addEntries (p.before ++ y :: p.after) := by
    intro c
    rw [Contents.addEntries, Contents.addEntries, foldlM_object, foldlM_object]
    simp only [h]
  unfold fill
  generalize p.front = front
  induction front generalizing c count with
  | nil => rw [List.nil_append, List.nil_append, readEntries, readEntries, hobject]
  | cons xs front ih =>
    rw [List.cons_append, List.cons_append, readEntries, readEntries]
    cases c.addEntries xs with
    | error e => rfl
    | ok c' => exact ih c' (count + 1)

/-- An entry that is always rejected makes reading fail in every place. -/
theorem readEntries_fill_ne (h : ∀ m : Members, ∃ e, m.setEntry x = .error e) (c : Contents)
    (count n : Nat) : (readEntries c count (p.fill x)).2 ≠ .ok n := by
  have hobject : ∀ c : Contents, ∃ e, c.addEntries (p.before ++ x :: p.after) = .error e := by
    intro c
    rw [Contents.addEntries, foldlM_object]
    cases hbefore : p.before.foldlM Members.setEntry {} with
    | error e => exact ⟨e, rfl⟩
    | ok m =>
      obtain ⟨e, he⟩ := h m
      refine ⟨e, ?_⟩
      show (m.setEntry x >>= _) >>= _ = _
      rw [he]
      rfl
  unfold fill
  generalize p.front = front
  induction front generalizing c count with
  | nil =>
    obtain ⟨e, he⟩ := hobject c
    rw [List.nil_append, readEntries, he]
    simp
  | cons xs front ih =>
    rw [List.cons_append, readEntries]
    cases c.addEntries xs with
    | error e => simp
    | ok c' => exact ih c' (count + 1)

/-- What comes before the place is read, and then the error is the one of the entry. -/
theorem readEntries_fill_error {c : Contents} {n : Nat} {m : Members} {e : ReadError}
    (hfront : readEntries {} 0 p.front = (c, .ok n))
    (hbefore : p.before.foldlM Members.setEntry {} = .ok m) (h : m.setEntry x = .error e) :
    readEntries {} 0 (p.fill x) = (c, .error e) := by
  have hfold : (p.before ++ x :: p.after).foldlM Members.setEntry {} = .error e := by
    rw [foldlM_object, hbefore]
    show (m.setEntry x >>= _) = _
    rw [h]
    rfl
  rw [fill, readEntries_append hfront, readEntries, addEntries_eq_error hfold]

end Place

/-! ## The two spellings -/

theorem characters_of_digits (h : ∀ b ∈ d, Text.isDigit 10 b = true) : Json.Characters d := by
  induction d with
  | nil => exact .nil
  | cons b d ih =>
    obtain ⟨hb, hd⟩ := List.forall_mem_cons.mp h
    have hslash : b ≠ Text.code '\\' := fun heq => absurd hb (heq ▸ by decide)
    have hspace : 32 ≤ b := by
      have hrange := Text.toNat_of_isDigit (isDigit_sixteen hb)
      refine UInt8.le_iff_toNat_le.mpr ?_
      show 32 ≤ b.toNat
      omega
    exact .plain hspace (ne_of_isDigit hb).2.2.2 hslash (ih hd)

/-- Both spellings are JSON. -/
theorem IsWhole.scalar (h : IsWhole d) : Scalar d ∧ Scalar ("\"" ++ d ++ "\"") := by
  refine ⟨.inr (.inl ?_), .inr (.inr ⟨d, characters_of_digits h.1.2, rfl⟩)⟩
  exact ⟨[], d, [], [], .inl rfl, h.1, h.2, .inl rfl, .inl rfl, by simp⟩

theorem flatFile_singleton {xs : List Entry} (h : ∀ x ∈ xs, x.Valid) : FlatFile [xs]
    ("[" ++ ("\x7b" ++ Json.separated (xs.map Entry.written) ++ "\x7d") ++ "]") := by
  have hone := Json.Spaced.one (t := "\x7b" ++ Json.separated (xs.map Entry.written) ++ "\x7d")
    Json.blank_nil Json.blank_nil
  rw [List.nil_append, List.append_nil] at hone
  exact ⟨_, _, [], [], .cons ⟨h, _, Json.spaced_separated _, rfl⟩ .nil, hone, Json.blank_nil,
    Json.blank_nil, by simp⟩

/-- Without its place, an error of an address is what it was. -/
theorem eq_badAddress_of_withoutOffset {r : Contents × Except ReadError Nat} {c : Contents}
    {key value : Text} (h : withoutOffset r = (c, .error (.badAddress key value))) :
    r = (c, .error (.badAddress key value)) := by
  obtain ⟨hcontents, herror⟩ := Prod.mk.inj h
  obtain ⟨e, he, hcause⟩ := exists_of_mapError_eq_error herror
  refine Prod.ext hcontents (he.trans (congrArg Except.error ?_))
  cases e with
  | badAddress => exact hcause
  | malformed | noKind | noAddress | noStop | unknownKind => cases hcause

/--
**A start or an end means the same as a number and as a string exactly if it fits 64 bits.**

Take a file of flat objects with the values on the lines of their colons, and in it an entry whose
key is a start or an end, in any place. Let its value be written once as a decimal numeral without
leading zeros and once as the string of the same digits.

* The number is set for its remainder modulo `2 ^ 64`, which is its value if that fits, and the file
  is read as if the remainder was written there.
* If the value fits, both files are read alike: the same is collected, and reading succeeds with the
  same count or fails with the same error, up to the place that is named in it.
* If it does not, the file with the string cannot be read. The error names the key and the string if
  all that comes before can be read, and the objects before stay.
-/
theorem read_spellings {p : Place} {x : Entry} {d t u : Text} (hx : x.IsAddress) (hd : IsWhole d)
    (ht : FlatFile (p.fill (x.asNumber d)) t) (hu : FlatFile (p.fill (x.asString d)) u)
    (hafter : ∀ xs ∈ p.fill x, ∀ y ∈ xs, Inline y.after) :
    let n := Text.numeral 10 d
    (∀ m : Members, Inline x.before →
        m.setEntry (x.asNumber d) = .ok (m.setNumber (unescape x.key) (UInt64.ofNat n)))
      ∧ withoutOffset (read t)
        = withoutOffset (readEntries {} 0 (p.fill (x.asNumber (Text.decimal (n % 2 ^ 64)))))
      ∧ (n < 2 ^ 64 → withoutOffset (read t) = withoutOffset (read u))
      ∧ (2 ^ 64 ≤ n → (∀ k, (read u).2 ≠ .ok k)
        ∧ ∀ c k m, readEntries {} 0 p.front = (c, .ok k) →
          p.before.foldlM Members.setEntry {} = .ok m → Inline x.before →
          read u = (c, .error (.badAddress (unescape x.key) d))) := by
  intro n
  have hinline : ∀ y : Entry, y.after = x.after → ∀ xs ∈ p.fill y, ∀ z ∈ xs, Inline z.after :=
    fun y hy => Place.forall_mem_fill (P := fun z => Inline z.after) (fun h => hy ▸ h) hafter
  have hnumber := read_flat ht (hinline _ rfl)
  have hstring := read_flat hu (hinline _ rfl)
  refine ⟨fun m hbefore => Entry.setEntry_asNumber hx hd.1 hbefore m, ?_, fun hfits => ?_,
    fun hlarge => ⟨fun k hk => ?_, fun c k m hfront hm hbefore => ?_⟩⟩
  · rw [hnumber, Place.readEntries_fill_congr (Entry.setEntry_remainder hx hd.1)]
  · rw [hnumber, hstring, Place.readEntries_fill_congr (Entry.setEntry_spelling hx hd hfits)]
  · have hread : withoutOffset (read u) = ((read u).1, .ok k) := by
      rw [withoutOffset, hk]
      rfl
    have hentries := eq_of_withoutOffset (hstring.symm.trans hread)
    exact Place.readEntries_fill_ne (Entry.exists_setEntry_error hx hd hlarge) {} 0 k
      (congrArg Prod.snd hentries)
  · have herror := (Entry.setEntry_asString hx hd hbefore m).trans (if_neg (Nat.not_lt.mpr hlarge))
    rw [Place.readEntries_fill_error hfront hm herror] at hstring
    exact eq_badAddress_of_withoutOffset hstring

/-- A symbol whose address is to be given. -/
def symbolPlace : Place where
  front := []
  before := [(Member.kind "symbol").entry]
  after := [(Member.name "a").entry]
  back := []

/-- The address of the symbol. -/
def symbolEntry : Entry := ⟨"addr", [], [], []⟩

/-- The file of the symbol, with a value for the address. -/
def symbolFile (value : Text) : Text :=
  "[\x7b\"kind\":\"symbol\",\"addr\":" ++ value ++ ",\"name\":\"a\"\x7d]"

theorem flatFile_symbol {value : Text} (h : Scalar value) :
    FlatFile (symbolPlace.fill { symbolEntry with value }) (symbolFile value) := by
  have hkey : Json.Characters "addr" := .plain (by decide) (by decide) (by decide)
    (.plain (by decide) (by decide) (by decide) (.plain (by decide) (by decide) (by decide)
      (.plain (by decide) (by decide) (by decide) .nil)))
  have hvalid : ({ symbolEntry with value } : Entry).Valid :=
    ⟨hkey, Json.blank_nil, Json.blank_nil, h⟩
  have hall : ∀ x ∈ [(Member.kind "symbol").entry, { symbolEntry with value },
      (Member.name "a").entry], x.Valid := by
    simp [hvalid, Member.valid_entry]
  have hflat := flatFile_singleton hall
  have hfront : Text.ofString "[\x7b\"kind\":\"symbol\",\"addr\":"
      = "[" ++ ("\x7b" ++ (Member.kind "symbol").entry.written ++ "," ++ "\"addr\":") := by
    decide +kernel
  have hback : Text.ofString ",\"name\":\"a\"\x7d]"
      = "," ++ (Member.name "a").entry.written ++ "\x7d" ++ "]" := by
    decide +kernel
  have hentry : ({ symbolEntry with value } : Entry).written = "\"addr\":" ++ value := rfl
  have htext : symbolFile value = "[" ++ ("\x7b"
      ++ Json.separated ([(Member.kind "symbol").entry, { symbolEntry with value },
        (Member.name "a").entry].map Entry.written) ++ "\x7d") ++ "]" := by
    rw [symbolFile, hfront, hback, List.map_cons, List.map_cons, List.map_singleton, hentry]
    simp [Json.separated, List.intercalate]
  rw [htext]
  exact hflat

/-- The greatest number of 64 bits is read alike, and the next one is rejected as a string. -/
theorem read_spellings_symbol :
    withoutOffset (read (symbolFile "18446744073709551615"))
        = withoutOffset (read (symbolFile "\"18446744073709551615\""))
      ∧ read (symbolFile "\"18446744073709551616\"")
        = ({}, .error (.badAddress "addr" "18446744073709551616")) := by
  have hname : unescape symbolEntry.key = Text.ofString "addr" := by decide +kernel
  have hkey : symbolEntry.IsAddress := .inl hname
  have hafter : ∀ xs ∈ symbolPlace.fill symbolEntry, ∀ y ∈ xs, Inline y.after := by decide +kernel
  have hlast : IsWhole "18446744073709551615" := by decide +kernel
  have hnext : IsWhole "18446744073709551616" := by decide +kernel
  obtain ⟨-, -, hfits, -⟩ := read_spellings hkey hlast (flatFile_symbol hlast.scalar.1)
    (flatFile_symbol hlast.scalar.2) hafter
  obtain ⟨-, -, -, hlarge⟩ := read_spellings hkey hnext (flatFile_symbol hnext.scalar.1)
    (flatFile_symbol hnext.scalar.2) hafter
  have hbefore : symbolPlace.before.foldlM Members.setEntry {} = .ok { kind := "symbol" } := by
    decide +kernel
  have herror := (hlarge (by decide +kernel)).2 {} 0 _ rfl hbefore inline_nil
  have hquoted : Text.ofString "\"18446744073709551615\""
      = "\"" ++ "18446744073709551615" ++ "\"" := by decide +kernel
  have hquoted' : Text.ofString "\"18446744073709551616\""
      = "\"" ++ "18446744073709551616" ++ "\"" := by decide +kernel
  rw [hname] at herror
  rw [hquoted, hquoted']
  exact ⟨hfits (by decide +kernel), herror⟩

/-- **Beyond 64 bits, the same digits are another address as a number and none as a string.** -/
theorem read_spellings_differ :
    read (symbolFile "18446744073709551616")
        = ({ symbols := #[{ address := 0, name := "a", kind := .function }] }, .ok 1)
      ∧ read (symbolFile "\"18446744073709551616\"")
        = ({}, .error (.badAddress "addr" "18446744073709551616")) := by
  decide +kernel

end Disassembler.Debug
