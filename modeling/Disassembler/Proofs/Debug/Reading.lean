import Disassembler.Proofs.Debug.Strings
import Disassembler.Proofs.Json
import Mathlib.Data.List.TakeWhile

/-!
# How debug files are read

The reader has no tokens: it goes forward from brace to key to value, and passes over what it takes
for separators. So the question at every place is what stands there next. Behind a string it is what
follows the closing quote; behind a number it must not be a digit; between members it is blanks and
commas, and outside of objects anything without a brace. Each lemma says that the reader leaves
exactly what follows, so that the next one applies to it, whatever the strings before it hold.
-/

namespace Disassembler.Debug

variable {m : Members} {v t : Text}

/-! ## Values -/

/-- No digit stands at the front of a text, so a number ends there. -/
def EndsNumber (t : Text) : Prop := ∀ b, t.head? = some b → Text.isDigit 10 b = false

theorem endsNumber_cons {b : UInt8} (h : Text.isDigit 10 b = false) (t : Text) :
    EndsNumber (b :: t) := by
  intro c hc
  obtain rfl := Option.some.inj hc
  exact h

theorem EndsNumber.of_blank (hv : Json.Blank v) (ht : EndsNumber t) : EndsNumber (v ++ t) := by
  cases v with
  | nil => exact ht
  | cons b v =>
    refine endsNumber_cons ?_ (v ++ t)
    rcases hv b List.mem_cons_self with rfl | rfl | rfl | rfl
    · decide
    · decide
    · decide
    · decide

theorem takeWhile_of_endsNumber (h : EndsNumber t) : t.takeWhile (Text.isDigit 10) = [] := by
  cases t with
  | nil => rfl
  | cons b t => exact List.takeWhile_cons_of_neg (by simp [h b rfl])

theorem dropWhile_of_endsNumber (h : EndsNumber t) : t.dropWhile (Text.isDigit 10) = t := by
  cases t with
  | nil => rfl
  | cons b t => exact List.dropWhile_cons_of_neg (by simp [h b rfl])

/-- Only a quote begins a string. -/
theorem string?_eq_none_iff {b : UInt8} {r : Text} :
    string? (b :: r) = none ↔ b ≠ Text.code '"' := by
  rw [string?]
  split
  · rename_i hquote
    exact ⟨fun h => absurd h (by simp), fun h => absurd hquote h⟩
  · rename_i hquote
    exact ⟨fun _ => hquote, fun _ => rfl⟩

theorem exists_quote_of_string? {p : Text × Text} (h : string? t = some p) :
    ∃ r, t = Text.code '"' :: r := by
  cases t with
  | nil => exact absurd h (by simp [string?])
  | cons b r =>
    by_cases hquote : b = Text.code '"'
    · exact ⟨r, congrArg (· :: r) hquote⟩
    · rw [string?_eq_none_iff.mpr hquote] at h
      exact absurd h (by simp)

theorem readValue_string {key u r : Text} (m : Members) (h : string? t = some (u, r)) :
    m.readValue key t = (m.setString key u).map fun m => (m, r) := by
  rw [Members.readValue, h]
  rfl

/-- Digits are read as the number that they write. -/
theorem readValue_digits (m : Members) (key : Text) {ds r : Text} (hds : Json.Digits ds)
    (hr : EndsNumber r) :
    m.readValue key (ds ++ r) = .ok (m.setNumber key (UInt64.ofNat (Text.numeral 10 ds)), r) := by
  obtain ⟨hne, hdigits⟩ := hds
  have htake : (ds ++ r).takeWhile (Text.isDigit 10) = ds := by
    rw [List.takeWhile_append_of_pos hdigits, takeWhile_of_endsNumber hr, List.append_nil]
  have hdrop : (ds ++ r).dropWhile (Text.isDigit 10) = r := by
    rw [List.dropWhile_append_of_pos hdigits, dropWhile_of_endsNumber hr]
  have hstring : string? (ds ++ r) = none := by
    cases ds with
    | nil => exact absurd rfl hne
    | cons b ds =>
      refine string?_eq_none_iff.mpr fun heq => ?_
      exact absurd (hdigits b List.mem_cons_self) (heq ▸ by decide)
  rw [Members.readValue, hstring]
  dsimp only
  rw [htake, hdrop, if_neg (by simpa using hne)]

/-- What begins neither a string nor a number is passed over, one byte of it. -/
theorem readValue_other (m : Members) (key : Text) {b : UInt8} (hquote : b ≠ Text.code '"')
    (hdigit : Text.isDigit 10 b = false) (r : Text) : m.readValue key (b :: r) = .ok (m, r) := by
  rw [Members.readValue, string?_eq_none_iff.mpr hquote]
  dsimp only
  rw [List.takeWhile_cons_of_neg (by simp [hdigit])]
  rfl

/-! ## Members -/

/-- The reader of members passes over commas and blanks. -/
theorem readMembers_skip (size : Nat) (m : Members) (t : Text)
    (hv : ∀ b ∈ v, Members.isSeparator b = true) :
    readMembers size m (v ++ t) = readMembers size m t := by
  have hdrop : (v ++ t).dropWhile Members.isSeparator = t.dropWhile Members.isSeparator :=
    List.dropWhile_append_of_pos hv
  rw [readMembers, readMembers, hdrop]

theorem isSeparator_of_blank (hv : Json.Blank v) : ∀ b ∈ v, Members.isSeparator b = true := by
  intro b hb
  rcases hv b hb with rfl | rfl | rfl | rfl
  · decide
  · decide
  · decide
  · decide

theorem isSeparator_comma : ∀ b ∈ Text.ofString ",", Members.isSeparator b = true :=
  List.all_eq_true.mp (by decide)

theorem readMembers_cut (size : Nat) (m : Members) (h : t.dropWhile Members.isSeparator = []) :
    readMembers size m t = .ok (m, []) := by
  rw [readMembers, h]

theorem readMembers_close (size : Nat) (m : Members) {r : Text}
    (h : t.dropWhile Members.isSeparator = Text.code '\x7d' :: r) :
    readMembers size m t = .ok (m, r) := by
  rw [readMembers, h]
  simp only [if_true]

/-- A key and what is read as its value come first, and then what is left. An empty key fails. -/
theorem readMembers_string {key after : Text} (size : Nat) (m : Members)
    (hstring : string? (t.dropWhile Members.isSeparator) = some (key, after)) :
    readMembers size m t
      = if key = [] then .error (.malformed (size - after.length))
        else m.readValue key (after.dropWhile Members.isAssignment) >>= fun p =>
          readMembers size p.1 p.2 := by
  obtain ⟨r, hdrop⟩ := exists_quote_of_string? hstring
  rw [hdrop] at hstring
  rw [readMembers, hdrop]
  simp only
  rw [if_neg (by decide)]
  split
  · rename_i hnone
    exact absurd (hstring.symm.trans hnone) (by simp)
  · rename_i key' after' hsome
    obtain ⟨rfl, rfl⟩ := Prod.mk.inj (Option.some.inj (hstring.symm.trans hsome))
    by_cases hkey : key = []
    · rw [if_pos (List.isEmpty_iff.mpr hkey), if_pos hkey]
    · rw [if_neg (by simpa using hkey), if_neg hkey]
      split
      · rename_i e herror
        rw [herror]
        rfl
      · rename_i m' left hok
        rw [hok]
        rfl

theorem readMembers_key {key after : Text} (size : Nat) (m : Members)
    (hstring : string? (t.dropWhile Members.isSeparator) = some (key, after)) (hkey : key ≠ []) :
    readMembers size m t
      = m.readValue key (after.dropWhile Members.isAssignment) >>= fun p =>
        readMembers size p.1 p.2 := by
  rw [readMembers_string size m hstring, if_neg hkey]

/-! ## Objects -/

/-- The reader of objects passes over everything before a brace. -/
theorem readObjects_skip (size : Nat) (c : Contents) (count : Nat) (t : Text)
    (hv : Text.code '\x7b' ∉ v) :
    readObjects size c count (v ++ t) = readObjects size c count t := by
  have hdrop : (v ++ t).dropWhile (· ≠ Text.code '\x7b') = t.dropWhile (· ≠ Text.code '\x7b') := by
    refine List.dropWhile_append_of_pos fun b hb => decide_eq_true fun heq => ?_
    exact hv (heq ▸ hb)
  rw [readObjects, readObjects, hdrop]

theorem brace_notMem_of_blank (hv : Json.Blank v) : Text.code '\x7b' ∉ v :=
  fun hmem => absurd (hv _ hmem) (by decide)

/-- Without a brace nothing more is read. -/
theorem readObjects_end (size : Nat) (c : Contents) (count : Nat) (hv : Text.code '\x7b' ∉ v) :
    readObjects size c count v = (c, .ok count) := by
  have hnil := readObjects_skip size c count [] hv
  rw [List.append_nil] at hnil
  rw [hnil, readObjects]
  rfl

theorem readObjects_error {c : Contents} {e : ReadError} {r : Text} (size count : Nat)
    (hobject : readMembers size {} r >>= (fun p => c.add p.1) = .error e) :
    readObjects size c count (Text.code '\x7b' :: r) = (c, .error e) := by
  have hdrop : (Text.code '\x7b' :: r).dropWhile (· ≠ Text.code '\x7b') = Text.code '\x7b' :: r :=
    List.dropWhile_cons_of_neg (by simp)
  rw [readObjects, hdrop]
  simp only
  split
  · rename_i e' herror
    rw [herror] at hobject
    rw [Except.error.inj hobject]
  · rename_i m after hok
    rw [hok] at hobject
    have hadd : c.add m = .error e := hobject
    rw [hadd]

/-- An object that can be read is added, and the reader goes on behind it. -/
theorem readObjects_ok {c c' : Contents} {r after : Text} (size count : Nat)
    (hmembers : readMembers size {} r = .ok (m, after)) (hadd : c.add m = .ok c') :
    readObjects size c count (Text.code '\x7b' :: r) = readObjects size c' (count + 1) after := by
  have hdrop : (Text.code '\x7b' :: r).dropWhile (· ≠ Text.code '\x7b') = Text.code '\x7b' :: r :=
    List.dropWhile_cons_of_neg (by simp)
  rw [readObjects, hdrop]
  simp only
  split
  · rename_i e herror
    exact absurd (hmembers.symm.trans herror) (by simp)
  · rename_i m' after' hok
    obtain ⟨rfl, rfl⟩ := Prod.mk.inj (Except.ok.inj (hmembers.symm.trans hok))
    rw [hadd]

end Disassembler.Debug
