import Disassembler.Proofs.Debug.RoundTrip

/-!
# Where the layout of a debug file counts

Two files that differ in their blanks, and in entries that mean nothing to the reader, say the same.
They are read alike if no line end stands around a colon and if the values that mean nothing are
strings or digits. Everything else is told apart: a literal, a sign, a fraction or an exponent is not
passed over, wherever it stands, and with a line end behind its colon an entry is lost or taken apart.
-/

namespace Disassembler.Debug

variable {x : Entry} {xs ys : List Entry} {objects others : List (List Entry)} {m m' : Members}
  {c c' : Contents} {count n : Nat}

/-! ## Entries that mean nothing -/

/-- The keys that mean something. -/
def usedKeys : List Text :=
  ["addr", "end", "kind", "name", "file", "type", "data", "function", "line"]

/-- An entry that can be read and means nothing. -/
def Entry.Unused (x : Entry) : Prop := Plain x.key x.value ∧ unescape x.key ∉ usedKeys

instance (x : Entry) : Decidable x.Unused := inferInstanceAs (Decidable (_ ∧ _))

/-- The key and the value of an entry, without the blanks around its colon. -/
def Entry.tokens (x : Entry) : Text × Text := (x.key, x.value)

/-- The keys and values of the entries that mean something, or cannot be read. -/
def tokens (xs : List Entry) : List (Text × Text) :=
  (xs.filter fun x => ¬ x.Unused).map Entry.tokens

/-- The members with one more, of any key and value. -/
def Members.setTokens (m : Members) (p : Text × Text) : Except ReadError Members :=
  if Plain p.1 p.2 then m.setPlain p.1 p.2 else .error (.malformed 0)

theorem setString_of_unused {key : Text} (h : key ∉ usedKeys) (m : Members) (value : Text) :
    m.setString key value = .ok m := by
  simp only [usedKeys, List.mem_cons, List.not_mem_nil, or_false, not_or] at h
  obtain ⟨haddr, hend, hkind, hname, hfile, htype, hdata, hfunction, -⟩ := h
  simp [Members.setString, haddr, hend, hkind, hname, hfile, htype, hdata, hfunction]

theorem setNumber_of_unused {key : Text} (h : key ∉ usedKeys) (m : Members) (value : UInt64) :
    m.setNumber key value = m := by
  simp only [usedKeys, List.mem_cons, List.not_mem_nil, or_false, not_or] at h
  obtain ⟨haddr, hend, -, -, -, -, -, -, hline⟩ := h
  simp [Members.setNumber, haddr, hend, hline]

theorem setPlain_of_unused {key : Text} (h : unescape key ∉ usedKeys) (m : Members)
    (value : Text) : m.setPlain key value = .ok m := by
  rw [Members.setPlain]
  split
  · exact setString_of_unused h m _
  · rw [setNumber_of_unused h]

theorem setEntry_eq_setTokens (hbefore : Inline x.before) (m : Members) :
    m.setEntry x = m.setTokens x.tokens := by
  by_cases hplain : Plain x.key x.value
  · rw [Members.setEntry, if_pos ⟨hbefore, hplain⟩, Members.setTokens, Entry.tokens, if_pos hplain]
  · rw [Members.setEntry, if_neg fun h => hplain h.2, Members.setTokens, Entry.tokens,
      if_neg hplain]

/-- **What entries say is in the keys and values of those that mean something.** -/
theorem foldlM_setEntry_eq (hbefore : ∀ x ∈ xs, Inline x.before) (m : Members) :
    xs.foldlM Members.setEntry m = (tokens xs).foldlM Members.setTokens m := by
  induction xs generalizing m with
  | nil => rfl
  | cons x xs ih =>
    obtain ⟨hx, hxs⟩ := List.forall_mem_cons.mp hbefore
    rw [List.foldlM_cons]
    by_cases hunused : x.Unused
    · have htokens : tokens (x :: xs) = tokens xs := by
        rw [tokens, List.filter_cons_of_neg (by simpa using hunused)]
        rfl
      have hset : m.setEntry x = .ok m := by
        rw [Members.setEntry, if_pos ⟨hx, hunused.1⟩, setPlain_of_unused hunused.2]
      rw [htokens, hset]
      exact ih hxs m
    · have htokens : tokens (x :: xs) = x.tokens :: tokens xs := by
        rw [tokens, List.filter_cons_of_pos (by simpa using hunused)]
        rfl
      rw [htokens, List.foldlM_cons, setEntry_eq_setTokens hx]
      exact bind_congr fun m' => ih hxs m'

theorem readEntries_eq_of_tokens (hobjects : ∀ xs ∈ objects, ∀ x ∈ xs, Inline x.before)
    (hothers : ∀ xs ∈ others, ∀ x ∈ xs, Inline x.before)
    (h : objects.map tokens = others.map tokens) (c : Contents) (count : Nat) :
    readEntries c count objects = readEntries c count others := by
  induction objects generalizing others c count with
  | nil =>
    obtain rfl := List.map_eq_nil_iff.mp h.symm
    rfl
  | cons xs objects ih =>
    cases others with
    | nil => exact absurd h (by simp)
    | cons ys others =>
      obtain ⟨hxs, hobjects⟩ := List.forall_mem_cons.mp hobjects
      obtain ⟨hys, hothers⟩ := List.forall_mem_cons.mp hothers
      obtain ⟨hfirst, hrest⟩ := List.cons.inj h
      have hadd : c.addEntries xs = c.addEntries ys := by
        rw [Contents.addEntries, Contents.addEntries, foldlM_setEntry_eq hxs,
          foldlM_setEntry_eq hys, hfirst]
      rw [readEntries, readEntries, hadd]
      cases c.addEntries ys with
      | error e => rfl
      | ok c' => exact ih hobjects hothers hrest c' (count + 1)

/-! ## Entries that cannot be read -/

theorem plain_of_foldlM (h : xs.foldlM Members.setEntry m = .ok m') :
    ∀ x ∈ xs, Inline x.before ∧ Plain x.key x.value := by
  induction xs generalizing m with
  | nil => exact fun x hx => absurd hx List.not_mem_nil
  | cons x xs ih =>
    rw [List.foldlM_cons] at h
    by_cases hx : Inline x.before ∧ Plain x.key x.value
    · cases hset : m.setEntry x with
      | error e =>
        rw [hset] at h
        exact absurd h (by simp [bind, Except.bind])
      | ok m₁ =>
        rw [hset] at h
        exact List.forall_mem_cons.mpr ⟨hx, ih h⟩
    · rw [Members.setEntry, if_neg hx] at h
      exact absurd h (by simp [bind, Except.bind])

/-- **What is read has no line end before a colon, and only plain keys and values.** -/
theorem plain_of_readEntries (h : (readEntries c count objects).2 = .ok n) :
    ∀ xs ∈ objects, ∀ x ∈ xs, Inline x.before ∧ Plain x.key x.value := by
  induction objects generalizing c count with
  | nil => exact fun xs hxs => absurd hxs List.not_mem_nil
  | cons xs objects ih =>
    rw [readEntries] at h
    cases hadd : c.addEntries xs with
    | error e =>
      rw [hadd] at h
      exact absurd h (by simp)
    | ok c' =>
      rw [hadd] at h
      refine List.forall_mem_cons.mpr ⟨?_, ih h⟩
      cases hfold : xs.foldlM Members.setEntry {} with
      | error e => exact absurd (hadd.symm.trans (addEntries_eq_error hfold)) (by simp)
      | ok m => exact plain_of_foldlM hfold

theorem plain_of_read {t : Text} (h : FlatFile objects t) (hread : (read t).2 = .ok n) :
    ∀ xs ∈ objects, ∀ x ∈ onLine xs, Inline x.before ∧ Plain x.key x.value := by
  rw [read_onLine h hread] at hread
  intro xs hxs
  exact plain_of_readEntries hread (onLine xs) (List.mem_map_of_mem hxs)

/-! ## Layouts -/

/--
**Layout counts only around colons, and for values that are neither strings nor digits.**

Take two files of flat objects, of any keys and scalars, in any layouts.

* If no line end stands around a colon, and the files agree in the keys and values of their entries,
  but for entries with a key that is not used and a string or digits as the value, they are read
  alike: the same is collected, and reading succeeds with the same count or fails with the same
  error, up to the place that is named in it.
* If both can be read, they are read alike already if they agree so in the entries that have their
  values on the lines of their colons. All other entries are lost.
* A literal, a number with a sign, a fraction or an exponent, an empty key, and a line end before a
  colon make reading fail, whether the key is used or not.
-/
theorem read_layout {objects others : List (List Entry)} {t u : Text} (ht : FlatFile objects t)
    (hu : FlatFile others u) :
    ((∀ xs ∈ objects ++ others, ∀ x ∈ xs, Inline x.before ∧ Inline x.after) →
        objects.map tokens = others.map tokens → withoutOffset (read t) = withoutOffset (read u))
      ∧ (∀ n k, (read t).2 = .ok n → (read u).2 = .ok k →
        (objects.map onLine).map tokens = (others.map onLine).map tokens → read t = read u)
      ∧ ∀ xs ∈ objects, ∀ x ∈ xs, Inline x.after → ¬ (Inline x.before ∧ Plain x.key x.value) →
        ∀ n, (read t).2 ≠ .ok n := by
  refine ⟨fun hinline htokens => ?_, fun n k hn hk htokens => ?_, ?_⟩
  · have hobjects : ∀ xs ∈ objects, ∀ x ∈ xs, Inline x.before ∧ Inline x.after :=
      fun xs hxs => hinline xs (List.mem_append_left others hxs)
    have hothers : ∀ xs ∈ others, ∀ x ∈ xs, Inline x.before ∧ Inline x.after :=
      fun xs hxs => hinline xs (List.mem_append_right objects hxs)
    rw [read_flat ht fun xs hxs x hx => (hobjects xs hxs x hx).2,
      read_flat hu fun xs hxs x hx => (hothers xs hxs x hx).2,
      readEntries_eq_of_tokens (fun xs hxs x hx => (hobjects xs hxs x hx).1)
        (fun xs hxs x hx => (hothers xs hxs x hx).1) htokens]
  · have hbefore : ∀ {objects t n}, FlatFile objects t → (read t).2 = .ok n →
        ∀ xs ∈ objects.map onLine, ∀ x ∈ xs, Inline x.before := by
      intro objects t n h hread xs hxs x hx
      obtain ⟨ys, hys, rfl⟩ := List.mem_map.mp hxs
      exact (plain_of_read h hread ys hys x hx).1
    -- what was read has no line end before its colons, so its keys and values say everything
    rw [read_onLine ht hn, read_onLine hu hk]
    exact readEntries_eq_of_tokens (hbefore ht hn) (hbefore hu hk) htokens {} 0
  · intro xs hxs x hx hafter hplain n hread
    have honLine : x ∈ onLine xs := List.mem_filter.mpr ⟨hx, by simpa using hafter⟩
    exact hplain (plain_of_read ht hread xs hxs x honLine)

/-- Other blanks, and a number with a key that is not used, make no difference. -/
theorem read_layout_spread :
    let kind : Entry := (Member.kind "type").entry
    let name : Entry := (Member.name "a").entry
    let spread : Entry := { kind with before := " ", after := "\t " }
    let unused : Entry := ⟨"x", [], " ", Text.decimal 7⟩
    let t : Text := "[\x7b\"kind\":\"type\",\"name\":\"a\"\x7d]"
    let u : Text := "\n[\x7b \"kind\" :\t \"type\"\r\n, \"x\": 7,\"name\":\"a\"\n\x7d\t]\n"
    FlatFile [[kind, name]] t ∧ FlatFile [[spread, unused, name]] u
      ∧ withoutOffset (read t) = withoutOffset (read u) ∧ (read u).2 = .ok 1 := by
  intro kind name spread unused t u
  have hkind : kind.Valid := Member.valid_entry _
  have hname : name.Valid := Member.valid_entry _
  have hspread : spread.Valid := ⟨hkind.key, by decide, by decide, hkind.value⟩
  have hunused : unused.Valid :=
    ⟨.plain (by decide) (by decide) (by decide) .nil, by decide, by decide,
      .inr (.inl (Json.number_decimal 7))⟩
  have ht : FlatFile [[kind, name]] t :=
    ⟨_, _, [], [], .cons ⟨by simp [hkind, hname], _, Json.spaced_separated _, rfl⟩ .nil,
      Json.spaced_separated _, Json.blank_nil, Json.blank_nil, by decide +kernel⟩
  have hu : FlatFile [[spread, unused, name]] u := by
    have hspace : Json.Blank " " := by decide
    have htab : Json.Blank "\t" := by decide
    have hnewline : Json.Blank "\n" := by decide
    have hreturn : Json.Blank "\r\n" := by decide
    have hspaced : Json.Spaced ([spread, unused, name].map Entry.written) _ :=
      .more hspace hreturn (.more hspace Json.blank_nil (.one Json.blank_nil hnewline))
    exact ⟨_, _, "\n", "\n", .cons ⟨by simp [hspread, hunused, hname], _, hspaced, rfl⟩ .nil,
      .one Json.blank_nil htab, hnewline, hnewline, by decide +kernel⟩
  obtain ⟨halike, -, -⟩ := read_layout ht hu
  exact ⟨ht, hu, halike (by decide) (by decide +kernel), by decide +kernel⟩

/-- A line end behind a colon loses the entry, and a literal with a key that is not used makes reading
fail. -/
theorem layout_counts :
    let kind : Entry := (Member.kind "type").entry
    let name : Entry := (Member.name "a").entry
    let broken : Entry := { name with after := "\n" }
    let literal : Entry := ⟨"x", [], [], "true"⟩
    let t : Text := "[\x7b\"name\":\"a\",\"kind\":\"type\"\x7d]"
    let u : Text := "[\x7b\"name\":\n\"a\",\"kind\":\"type\"\x7d]"
    let v : Text := "[\x7b\"name\":\"a\",\"kind\":\"type\",\"x\":true\x7d]"
    (FlatFile [[name, kind]] t ∧ read t = ({ records := { types := #[⟨"a", []⟩] } }, .ok 1))
      ∧ (FlatFile [[broken, kind]] u ∧ read u = ({ records := { types := #[⟨[], []⟩] } }, .ok 1))
      ∧ FlatFile [[name, kind, literal]] v ∧ read v = ({}, .error (.malformed 32)) := by
  intro kind name broken literal t u v
  have hkind : kind.Valid := Member.valid_entry _
  have hname : name.Valid := Member.valid_entry _
  have hbroken : broken.Valid := ⟨hname.key, by decide, by decide, hname.value⟩
  have hliteral : literal.Valid :=
    ⟨.plain (by decide) (by decide) (by decide) .nil, by decide, by decide, .inl (by simp [literal])⟩
  have hflat : ∀ (xs : List Entry) (t : Text), (∀ x ∈ xs, x.Valid) →
      t = "[" ++ ("\x7b" ++ Json.separated (xs.map Entry.written) ++ "\x7d") ++ "]" →
      FlatFile [xs] t := by
    intro xs t hxs ht
    have hone := Json.Spaced.one (t := "\x7b" ++ Json.separated (xs.map Entry.written) ++ "\x7d")
      Json.blank_nil Json.blank_nil
    rw [List.nil_append, List.append_nil] at hone
    exact ⟨_, _, [], [], .cons ⟨hxs, _, Json.spaced_separated _, rfl⟩ .nil, hone, Json.blank_nil,
      Json.blank_nil, by simp [ht]⟩
  have ht := hflat [name, kind] t (by simp [hname, hkind]) (by decide +kernel)
  have hu := hflat [broken, kind] u (by simp [hbroken, hkind]) (by decide +kernel)
  have hv := hflat [name, kind, literal] v (by simp [hname, hkind, hliteral]) (by decide +kernel)
  exact ⟨⟨ht, by decide +kernel⟩, ⟨hu, by decide +kernel⟩, hv, by decide +kernel⟩

end Disassembler.Debug
