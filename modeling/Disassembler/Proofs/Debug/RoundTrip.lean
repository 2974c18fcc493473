import Disassembler.Proofs.Debug.Entries
import Disassembler.Proofs.Debug.Objects

/-!
# Debug files that were written are read

What was written of objects is a file of flat objects, whose entries have nothing around their colons.
So each is read for what it says, and it says what was meant: the strings come back from what is
written of them, and the numbers from their digits.
-/

namespace Disassembler.Debug

variable {x : Member} {t : Text}

/-! ## Members -/

/-- A member as an entry of a file. -/
def Member.entry (x : Member) : Entry where
  key := (Text.ofString x.key).flatMap Json.escape
  before := []
  after := []
  value := x.value.render

theorem inline_nil : Inline [] := fun _ hb => absurd hb List.not_mem_nil

theorem Member.written_entry (x : Member) : x.entry.written = x.written := by
  simp [Member.entry, Entry.written, Member.written, Json.quote]

theorem Member.valid_entry (x : Member) : x.entry.Valid where
  key := Json.characters_flatMap_escape _
  before := Json.blank_nil
  after := Json.blank_nil
  value := by
    cases x with
    | address n | stop n | line n => exact .inr (.inl (Json.number_decimal n.toNat))
    | kind s | name s | file s | type s | data s | function s =>
      exact .inr (.inr ⟨_, Json.characters_flatMap_escape s, rfl⟩)

theorem digits_decimal (n : Nat) : Json.Digits (Text.decimal n) :=
  ⟨Text.decimal_ne_nil n, fun _ => Text.isDigit_of_mem_decimal⟩

theorem setPlain_number (m : Members) {key : Text} (hkey : 0 ∉ key) (n : UInt64) :
    m.setPlain (key.flatMap Json.escape) (Text.decimal n.toNat) = .ok (m.setNumber key n) := by
  have hstring : string? (Text.decimal n.toNat) = none := by
    obtain ⟨b, ds, hn, hdigit⟩ := Text.exists_decimal_cons n.toNat
    rw [hn]
    exact string?_eq_none_iff.mpr (ne_of_isDigit hdigit).2.2.2
  rw [Members.setPlain, hstring]
  dsimp only
  rw [unescape_flatMap_escape, map_readAs_eq_iff.mpr hkey, Text.numeral_decimal,
    UInt64.ofNat_toNat]

theorem setPlain_string (m : Members) {key s : Text} (hkey : 0 ∉ key) (hs : 0 ∉ s) :
    m.setPlain (key.flatMap Json.escape) (Json.quote s) = m.setString key s := by
  have hstring := string?_quote hs []
  rw [List.append_nil] at hstring
  rw [Members.setPlain, hstring]
  dsimp only
  rw [unescape_flatMap_escape, map_readAs_eq_iff.mpr hkey]

/-- **The entry of a member says what the member says.** -/
theorem Member.setEntry_entry (m : Members) (hx : x.Clean) :
    m.setEntry x.entry = .ok (x.addTo m) := by
  obtain ⟨hclean, hkey⟩ := x.key_clean
  have hname : unescape x.entry.key ≠ [] := by
    rw [Member.entry, unescape_flatMap_escape, map_readAs_eq_iff.mpr hclean]
    exact hkey
  cases x with
  | address n | stop n | line n =>
    rw [Members.setEntry, if_pos ⟨inline_nil, hname, .inr (digits_decimal n.toNat)⟩]
    exact setPlain_number m hclean n
  | kind s | name s | file s | type s | data s | function s =>
    have hquote : (Json.quote s).head? = some (Text.code '"') := rfl
    rw [Members.setEntry, if_pos ⟨inline_nil, hname, .inl hquote⟩]
    exact setPlain_string m hclean hx

theorem foldlM_setEntry_entry (m : Members) {xs : List Member} (hclean : ∀ x ∈ xs, x.Clean) :
    (xs.map Member.entry).foldlM Members.setEntry m = .ok (xs.foldl Member.addTo m) := by
  induction xs generalizing m with
  | nil => rfl
  | cons x xs ih =>
    obtain ⟨hx, hxs⟩ := List.forall_mem_cons.mp hclean
    rw [List.map_cons, List.foldlM_cons, x.setEntry_entry m hx]
    exact ih (x.addTo m) hxs

/-! ## Objects -/

/-- An object as it may be written: its members in any order, with commas between them and blanks
around each. -/
def Object.Written (o : Object) (t : Text) : Prop :=
  ∃ (xs : List Member) (body : Text), xs.Perm o.members
    ∧ Json.Spaced (xs.map Member.written) body ∧ t = "\x7b" ++ body ++ "\x7d"

/-- **An object that was written is flat, and says what was meant**, whatever the order of its
members. -/
theorem Object.Written.exists_flat {o : Object} (ho : o.Writable) (ht : o.Written t) :
    ∃ xs, FlatObject xs t ∧ (∀ x ∈ xs, Inline x.after)
      ∧ ∀ c : Contents, c.addEntries xs = .ok (c.withObjects [o]) := by
  obtain ⟨xs, body, hperm, hbody, rfl⟩ := ht
  have hclean : ∀ x ∈ xs, x.Clean := fun x hx => ho.clean x (hperm.mem_iff.mp hx)
  refine ⟨xs.map Member.entry, ⟨?_, body, ?_, rfl⟩, ?_, fun c => ?_⟩
  · exact List.forall_mem_map.mpr fun x _ => x.valid_entry
  · have hwritten : Entry.written ∘ Member.entry = Member.written := funext Member.written_entry
    rw [List.map_map, hwritten]
    exact hbody
  · exact List.forall_mem_map.mpr fun x _ => inline_nil
  · rw [addEntries_eq_add (foldlM_setEntry_entry {} hclean),
      Member.foldl_addTo_perm hperm o.nodup_keys]
    exact Contents.add_members ho c

/-- **Objects that were written say what was meant**, in order. -/
theorem exists_flat_of_written {objects : List Object} {ts : List Text}
    (hwritable : ∀ o ∈ objects, o.Writable) (hwritten : List.Forall₂ Object.Written objects ts) :
    ∃ xss, List.Forall₂ FlatObject xss ts ∧ (∀ xs ∈ xss, ∀ x ∈ xs, Inline x.after)
      ∧ ∀ c count, readEntries c count xss
        = (c.withObjects objects, .ok (count + objects.length)) := by
  induction hwritten with
  | nil =>
    refine ⟨[], .nil, fun xs hxs => absurd hxs List.not_mem_nil, fun c count => ?_⟩
    simp [readEntries, Contents.withObjects]
  | @cons o t objects ts ho _ ih =>
    obtain ⟨hfirst, hothers⟩ := List.forall_mem_cons.mp hwritable
    obtain ⟨xs, hflat, hinline, hadd⟩ := ho.exists_flat hfirst
    obtain ⟨xss, hflats, hinlines, hread⟩ := ih hothers
    refine ⟨xs :: xss, .cons hflat hflats, List.forall_mem_cons.mpr ⟨hinline, hinlines⟩,
      fun c count => ?_⟩
    rw [readEntries, hadd]
    dsimp only
    rw [hread, Contents.withObjects_append, List.length_cons, List.singleton_append, Nat.add_assoc,
      Nat.add_comm 1]

/-! ## Files -/

/-- A file as it may be written: objects between brackets, with commas between them and blanks
around each. -/
def Written (objects : List Object) (t : Text) : Prop :=
  ∃ (ts : List Text) (body v w : Text), List.Forall₂ Object.Written objects ts
    ∧ Json.Spaced ts body ∧ Json.Blank v ∧ Json.Blank w ∧ t = v ++ "[" ++ body ++ "]" ++ w

theorem read_eq {objects : List Object} {t : Text} (hwritable : ∀ o ∈ objects, o.Writable)
    (h : Written objects t) :
    read t = (({} : Contents).withObjects objects, .ok objects.length) := by
  obtain ⟨ts, body, v, w, hobjects, hbody, hv, hw, rfl⟩ := h
  obtain ⟨xss, hflats, hinlines, hread⟩ := exists_flat_of_written hwritable hobjects
  have hflat := read_flat ⟨ts, body, v, w, hflats, hbody, hv, hw, rfl⟩ hinlines
  rw [hread, Nat.zero_add] at hflat
  exact eq_of_withoutOffset hflat

end Disassembler.Debug
