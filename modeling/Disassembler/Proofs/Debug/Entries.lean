import Disassembler.Proofs.Debug.Reading
import Mathlib.Data.List.Forall2

/-!
# Debug files are JSON

Debug files as the grammar of JSON has them: an array of objects in which all values are strings,
numbers or literals, with blanks around every token. The reader has another grammar: it takes commas
for blanks, and a value must begin on the line of its colon. If all values do, a file is read entry by
entry, each for what its key and its value say. If one does not, and the file can be read at all, it is
read as if the entry was not there.
-/

namespace Disassembler.Debug

variable {m : Members} {v w r t : Text} {size : Nat}

/-! ## The grammar -/

/-- A value without parts. -/
def Scalar (t : Text) : Prop :=
  t ∈ [Text.ofString "true", "false", "null"] ∨ Json.Number t
    ∨ ∃ u, Json.Characters u ∧ t = "\"" ++ u ++ "\""

/-- A member of an object as it stands in a file, with the blanks around its colon. -/
structure Entry where
  /-- What stands between the quotes of the key. -/
  key : Text
  before : Text
  after : Text
  value : Text

namespace Entry

def written (x : Entry) : Text :=
  "\"" ++ x.key ++ "\"" ++ x.before ++ ":" ++ x.after ++ x.value

structure Valid (x : Entry) : Prop where
  key : Json.Characters x.key
  before : Json.Blank x.before
  after : Json.Blank x.after
  value : Scalar x.value

end Entry

/-- An object with only scalars in it, as it stands in a file. -/
def FlatObject (xs : List Entry) (t : Text) : Prop :=
  (∀ x ∈ xs, x.Valid)
    ∧ ∃ body, Json.Spaced (xs.map Entry.written) body ∧ t = "\x7b" ++ body ++ "\x7d"

/-- A file that is an array of such objects. -/
def FlatFile (objects : List (List Entry)) (t : Text) : Prop :=
  ∃ (ts : List Text) (body v w : Text), List.Forall₂ FlatObject objects ts ∧ Json.Spaced ts body
    ∧ Json.Blank v ∧ Json.Blank w ∧ t = v ++ "[" ++ body ++ "]" ++ w

theorem Scalar.value (h : Scalar t) : Json.Value t := by
  rcases h with h | h | ⟨u, hu, rfl⟩
  · exact .literal h
  · exact .number h
  · exact .string hu

theorem Entry.Valid.member {x : Entry} (h : x.Valid) : Json.Member x.written :=
  .mk h.key h.before h.after h.value.value

theorem FlatObject.value {xs : List Entry} (h : FlatObject xs t) : Json.Value t := by
  obtain ⟨hvalid, body, hspaced, rfl⟩ := h
  refine .object (fun u hu => ?_) hspaced
  obtain ⟨x, hx, rfl⟩ := List.mem_map.mp hu
  exact (hvalid x hx).member

/-- **Such files are JSON.** -/
theorem FlatFile.value {objects : List (List Entry)} (h : FlatFile objects t) :
    ∃ v u w, Json.Blank v ∧ Json.Value u ∧ Json.Blank w ∧ t = v ++ u ++ w := by
  obtain ⟨ts, body, v, w, hobjects, hbody, hv, hw, rfl⟩ := h
  have hvalues : ∀ t ∈ ts, Json.Value t := by
    clear hbody
    induction hobjects with
    | nil => exact fun t ht => absurd ht List.not_mem_nil
    | cons hobject _ ih => exact List.forall_mem_cons.mpr ⟨hobject.value, ih⟩
  exact ⟨v, "[" ++ body ++ "]", w, hv, .array hvalues hbody, hw, by simp⟩

/-! ## What entries say -/

/-- Spaces and tabs, and no line ends. -/
def Inline (t : Text) : Prop := ∀ b ∈ t, b = 32 ∨ b = 9

instance (t : Text) : Decidable (Inline t) := List.decidableBAll (fun b => b = 32 ∨ b = 9) t

instance (t : Text) : Decidable (Json.Digits t) :=
  inferInstanceAs (Decidable (t ≠ [] ∧ ∀ d ∈ t, Text.isDigit 10 d = true))

/-- The key is not empty, and the value is a string, or a number of nothing but digits. -/
def Plain (key value : Text) : Prop :=
  unescape key ≠ [] ∧ (value.head? = some (Text.code '"') ∨ Json.Digits value)

instance (key value : Text) : Decidable (Plain key value) :=
  inferInstanceAs (Decidable (_ ∧ (_ ∨ _)))

/-- The members with one more, whose key and value are plain. -/
def Members.setPlain (m : Members) (key value : Text) : Except ReadError Members :=
  match string? value with
  | some (u, _) => m.setString (unescape key) u
  | none => .ok (m.setNumber (unescape key) (UInt64.ofNat (Text.numeral 10 value)))

/-- The members with one more entry, whose value is on the line of its colon. -/
def Members.setEntry (m : Members) (x : Entry) : Except ReadError Members :=
  if Inline x.before ∧ Plain x.key x.value then m.setPlain x.key x.value
  else .error (.malformed 0)

/-- One more object, by its entries. -/
def Contents.addEntries (c : Contents) (xs : List Entry) : Except ReadError Contents :=
  xs.foldlM Members.setEntry {} >>= c.add

/-- What files say by their entries, after what is known already. -/
def readEntries (c : Contents) (count : Nat) : List (List Entry) → Contents × Except ReadError Nat
  | [] => (c, .ok count)
  | xs :: objects =>
    match c.addEntries xs with
    | .error e => (c, .error e)
    | .ok c' => readEntries c' (count + 1) objects

/-- The error without the place where it was found. -/
def ReadError.cause : ReadError → ReadError
  | malformed _ => malformed 0
  | badAddress key value => badAddress key value
  | noKind => noKind
  | noAddress kind => noAddress kind
  | noStop name => noStop name
  | unknownKind kind => unknownKind kind

/-- What was read, without the place where an error was found. -/
def withoutOffset (p : Contents × Except ReadError Nat) : Contents × Except ReadError Nat :=
  (p.1, p.2.mapError ReadError.cause)

/-- The entries that have their value on the line of their colon. -/
def onLine (xs : List Entry) : List Entry := xs.filter fun x => Inline x.after

/-! ## Blanks around colons -/

/-- A digit separates nothing, and neither closes an object nor begins a string. -/
theorem ne_of_isDigit {b : UInt8} (h : Text.isDigit 10 b = true) :
    Members.isAssignment b = false ∧ Members.isSeparator b = false ∧ b ≠ Text.code '\x7d'
      ∧ b ≠ Text.code '"' := by
  have hne : ∀ c, Text.isDigit 10 c = false → b ≠ c := by
    intro c hc heq
    rw [heq, hc] at h
    exact absurd h (by decide)
  have hspace := hne 32 (by decide)
  have htab := hne 9 (by decide)
  have hfeed := hne 10 (by decide)
  have hreturn := hne 13 (by decide)
  have hcomma := hne (Text.code ',') (by decide)
  have hcolon := hne (Text.code ':') (by decide)
  refine ⟨?_, ?_, hne _ (by decide), hne _ (by decide)⟩
  · simp [Members.isAssignment, hspace, htab, hcolon]
  · simp [Members.isSeparator, hspace, htab, hfeed, hreturn, hcomma]

theorem dropWhile_inline (hv : Inline v) (t : Text) :
    (v ++ t).dropWhile Members.isAssignment = t.dropWhile Members.isAssignment := by
  refine List.dropWhile_append_of_pos fun b hb => ?_
  rcases hv b hb with rfl | rfl
  · decide
  · decide

/-- Blanks that are not all on one line are spaces and tabs up to a line end. -/
theorem exists_lineEnd (hv : Json.Blank v) (h : ¬ Inline v) :
    ∃ front b rest, v = front ++ b :: rest ∧ Inline front ∧ (b = 10 ∨ b = 13) ∧ Json.Blank rest := by
  induction v with
  | nil => exact absurd (fun b hb => absurd hb List.not_mem_nil) h
  | cons c v ih =>
    have hrest : Json.Blank v := fun b hb => hv b (List.mem_cons_of_mem c hb)
    by_cases hc : c = 32 ∨ c = 9
    · have hnot : ¬ Inline v := fun hinline => h (List.forall_mem_cons.mpr ⟨hc, hinline⟩)
      obtain ⟨front, b, rest, rfl, hfront, hb, hblank⟩ := ih hrest hnot
      exact ⟨c :: front, b, rest, rfl, List.forall_mem_cons.mpr ⟨hc, hfront⟩, hb, hblank⟩
    · have hend : c = 10 ∨ c = 13 := by
        rcases hv c List.mem_cons_self with h | h | h | h
        · exact absurd (Or.inl h) hc
        · exact absurd (Or.inr h) hc
        · exact Or.inl h
        · exact Or.inr h
      exact ⟨[], c, v, rfl, fun b hb => absurd hb List.not_mem_nil, hend, hrest⟩

/-- Where a value is looked for, a line end is all that is found. -/
theorem readValue_lineEnd (hv : Json.Blank v) (h : ¬ Inline v) (t : Text) :
    ∃ rest, Json.Blank rest ∧ ∀ (m : Members) (key : Text),
      m.readValue key ((v ++ t).dropWhile Members.isAssignment) = .ok (m, rest ++ t) := by
  obtain ⟨front, b, rest, rfl, hfront, hb, hrest⟩ := exists_lineEnd hv h
  have hbyte : Members.isAssignment b = false ∧ b ≠ Text.code '"' ∧ Text.isDigit 10 b = false := by
    rcases hb with rfl | rfl
    · decide
    · decide
  refine ⟨rest, hrest, fun m key => ?_⟩
  rw [List.append_assoc, dropWhile_inline hfront, List.cons_append,
    List.dropWhile_cons_of_neg (by simp [hbyte.1])]
  exact readValue_other m key hbyte.2.1 hbyte.2.2 _

/-! ## Where reading fails -/

/-- Behind blanks and commas there is neither a quote nor a closing brace. -/
def Stuck (t : Text) : Prop :=
  ∃ b r, t.dropWhile Members.isSeparator = b :: r ∧ b ≠ Text.code '\x7d' ∧ b ≠ Text.code '"'

theorem stuck_cons {b : UInt8} (hseparator : Members.isSeparator b = false)
    (hbrace : b ≠ Text.code '\x7d') (hquote : b ≠ Text.code '"') (r : Text) : Stuck (b :: r) :=
  ⟨b, r, List.dropWhile_cons_of_neg (by simp [hseparator]), hbrace, hquote⟩

theorem Stuck.append (h : Stuck t) (hv : ∀ b ∈ v, Members.isSeparator b = true) :
    Stuck (v ++ t) := by
  obtain ⟨b, r, hdrop, hbrace, hquote⟩ := h
  exact ⟨b, r, by rw [List.dropWhile_append_of_pos hv, hdrop], hbrace, hquote⟩

theorem readMembers_stuck (size : Nat) (m : Members) (h : Stuck t) :
    ∃ n, readMembers size m t = .error (.malformed n) := by
  obtain ⟨b, r, hdrop, hbrace, hquote⟩ := h
  rw [readMembers, hdrop]
  simp only
  rw [if_neg hbrace]
  split
  · exact ⟨_, rfl⟩
  · rename_i hsome
    rw [string?_eq_none_iff.mpr hquote] at hsome
    exact absurd hsome (by simp)

theorem readMembers_empty (size : Nat) (m : Members)
    (h : string? (t.dropWhile Members.isSeparator) = some ([], r)) :
    ∃ n, readMembers size m t = .error (.malformed n) :=
  ⟨_, (readMembers_string size m h).trans (if_pos rfl)⟩

/-! ## Values -/

theorem passed_of_isDigit (h : ∀ d ∈ t, Text.isDigit 16 d = true) : Passed t := by
  induction t with
  | nil => exact passed_nil
  | cons d t ih =>
    obtain ⟨hd, ht⟩ := List.forall_mem_cons.mp h
    have hslash : d ≠ Text.code '\\' := fun heq => absurd hd (heq ▸ by decide)
    have hquote : d ≠ Text.code '"' := fun heq => absurd hd (heq ▸ by decide)
    exact (passed_plain hslash hquote).append (ih ht)

theorem passed_of_characters (h : Json.Characters t) : Passed t := by
  induction h with
  | nil => exact passed_nil
  | plain _ hquote hslash _ ih => exact (passed_plain hslash hquote).append ih
  | @short b t _ _ ih => exact (passed_escaped b).append ih
  | @numbered ds t _ hds _ ih =>
    exact (passed_escaped (Text.code 'u')).append ((passed_of_isDigit hds).append ih)

/-- How a scalar begins. -/
theorem Scalar.exists_cons (h : Scalar v) :
    ∃ b s, v = b :: s ∧ Members.isAssignment b = false ∧ Members.isSeparator b = false
      ∧ b ≠ Text.code '\x7d' := by
  rcases h with h | ⟨sign, whole, fraction, exponent, hsign, ⟨hne, hdigits⟩, -, -, -, rfl⟩ |
    ⟨u, -, rfl⟩
  · simp only [List.mem_cons, List.not_mem_nil, or_false] at h
    rcases h with rfl | rfl | rfl
    · exact ⟨Text.code 't', _, rfl, by decide, by decide, by decide⟩
    · exact ⟨Text.code 'f', _, rfl, by decide, by decide, by decide⟩
    · exact ⟨Text.code 'n', _, rfl, by decide, by decide, by decide⟩
  · rcases hsign with rfl | rfl
    · obtain ⟨d, ds, rfl⟩ := List.exists_cons_of_ne_nil hne
      obtain ⟨hassignment, hseparator, hbrace, -⟩ := ne_of_isDigit (hdigits d List.mem_cons_self)
      exact ⟨d, _, rfl, hassignment, hseparator, hbrace⟩
    · exact ⟨Text.code '-', _, rfl, by decide, by decide, by decide⟩
  · exact ⟨Text.code '"', _, rfl, by decide, by decide, by decide⟩

theorem Scalar.dropWhile_eq (h : Scalar v) (r : Text) :
    (v ++ r).dropWhile Members.isAssignment = v ++ r := by
  obtain ⟨b, s, rfl, hassignment, -, -⟩ := h.exists_cons
  exact List.dropWhile_cons_of_neg (by simp [hassignment])

/-- A scalar that begins with a quote is a string. -/
theorem Scalar.string?_eq (h : Scalar v) (hquote : v.head? = some (Text.code '"')) :
    ∃ u, ∀ r, string? (v ++ r) = some (u, r) := by
  rcases h with h | ⟨sign, whole, fraction, exponent, hsign, ⟨hne, hdigits⟩, -, -, -, rfl⟩ |
    ⟨u, hu, rfl⟩
  · have hall : ∀ t ∈ [Text.ofString "true", "false", "null"],
        t.head? ≠ some (Text.code '"') := by
      decide
    exact absurd hquote (hall v h)
  · rcases hsign with rfl | rfl
    · obtain ⟨d, ds, rfl⟩ := List.exists_cons_of_ne_nil hne
      exact absurd (Option.some.inj hquote) (ne_of_isDigit (hdigits d List.mem_cons_self)).2.2.2
    · exact absurd (Option.some.inj hquote) (by decide)
  · refine ⟨unescape u, fun r => ?_⟩
    have hstring := string?_of_passed (passed_of_characters hu) r
    rw [← hstring, List.append_assoc, List.append_assoc]
    rfl

/-- A scalar that is no string is no key. -/
theorem Scalar.stuck (h : Scalar v) (hquote : v.head? ≠ some (Text.code '"')) (r : Text) :
    Stuck (v ++ r) := by
  obtain ⟨b, s, rfl, -, hseparator, hbrace⟩ := h.exists_cons
  exact stuck_cons hseparator hbrace (fun heq => hquote (congrArg some heq)) (s ++ r)

/-- What stands behind the digits of a number is neither a digit nor anything else to go on with. -/
theorem exists_cons_of_fraction {fraction exponent : Text} (hfraction : Json.Fraction fraction)
    (hexponent : Json.Exponent exponent) (h : fraction ++ exponent ≠ []) :
    ∃ b s, fraction ++ exponent = b :: s ∧ Text.isDigit 10 b = false
      ∧ Members.isSeparator b = false ∧ b ≠ Text.code '\x7d' ∧ b ≠ Text.code '"' := by
  rcases hfraction with rfl | ⟨ds, -, rfl⟩
  · rcases hexponent with rfl | ⟨e, sign, ds, he, -, -, rfl⟩
    · exact absurd rfl h
    · rcases he with rfl | rfl
      · exact ⟨Text.code 'e', _, rfl, by decide⟩
      · exact ⟨Text.code 'E', _, rfl, by decide⟩
  · exact ⟨Text.code '.', _, rfl, by decide⟩

/-- Only a part of any other scalar is read, and what is left is no key. -/
theorem Scalar.readValue_stuck (h : Scalar v) (hquote : v.head? ≠ some (Text.code '"'))
    (hdigits : ¬ Json.Digits v) (m : Members) (key r : Text) :
    ∃ m' s, m.readValue key (v ++ r) = .ok (m', s) ∧ Stuck s := by
  have hpart : ∀ b s, Text.isDigit 10 b = false → b ≠ Text.code '"' → v ++ r = b :: s →
      Stuck s → ∃ m' s, m.readValue key (v ++ r) = .ok (m', s) ∧ Stuck s := by
    intro b s hb hne heq hs
    exact ⟨m, s, by rw [heq, readValue_other m key hne hb], hs⟩
  rcases h with h | ⟨sign, whole, fraction, exponent, hsign, hwhole, -, hfraction, hexponent, rfl⟩ |
    ⟨u, -, rfl⟩
  · simp only [List.mem_cons, List.not_mem_nil, or_false] at h
    rcases h with rfl | rfl | rfl
    · exact hpart (Text.code 't') _ (by decide) (by decide) rfl
        (stuck_cons (b := Text.code 'r') (by decide) (by decide) (by decide) _)
    · exact hpart (Text.code 'f') _ (by decide) (by decide) rfl
        (stuck_cons (b := Text.code 'a') (by decide) (by decide) (by decide) _)
    · exact hpart (Text.code 'n') _ (by decide) (by decide) rfl
        (stuck_cons (b := Text.code 'u') (by decide) (by decide) (by decide) _)
  · rcases hsign with rfl | rfl
    · -- the digits before the fraction or the exponent are read
      have hne : fraction ++ exponent ≠ [] := by
        intro hnil
        obtain ⟨rfl, rfl⟩ := List.append_eq_nil_iff.mp hnil
        exact hdigits (by simpa using hwhole)
      obtain ⟨b, s, hrest, hdigit, hseparator, hbrace, hquote⟩ :=
        exists_cons_of_fraction hfraction hexponent hne
      have hsplit : [] ++ whole ++ fraction ++ exponent ++ r = whole ++ (b :: (s ++ r)) := by
        rw [List.nil_append, List.append_assoc whole, hrest, List.append_assoc, List.cons_append]
      rw [hsplit]
      exact ⟨_, _, readValue_digits m key hwhole (endsNumber_cons hdigit (s ++ r)),
        stuck_cons hseparator hbrace hquote (s ++ r)⟩
    · obtain ⟨d, ds, rfl⟩ := List.exists_cons_of_ne_nil hwhole.1
      obtain ⟨-, hseparator, hbrace, hne⟩ := ne_of_isDigit (hwhole.2 d List.mem_cons_self)
      exact hpart (Text.code '-') _ (by decide) (by decide) rfl (stuck_cons hseparator hbrace hne _)
  · exact absurd rfl hquote

/-! ## Entries -/

section Entry

variable {x : Entry}

theorem Entry.Valid.string?_written (hx : x.Valid) (r : Text) :
    string? ((x.written ++ r).dropWhile Members.isSeparator)
      = some (unescape x.key, x.before ++ ([Text.code ':'] ++ (x.after ++ (x.value ++ r)))) := by
  have hquote : x.written ++ r = Text.code '"' :: (x.key ++ Text.code '"' ::
      (x.before ++ ([Text.code ':'] ++ (x.after ++ (x.value ++ r))))) := by
    simp only [Entry.written, List.append_assoc]
    rfl
  rw [hquote, List.dropWhile_cons_of_neg (by decide),
    string?_of_passed (passed_of_characters hx.key)]

/-- The blanks before a colon are passed over with it, if there is no line end among them. -/
theorem dropWhile_before (hv : Inline v) (t : Text) :
    (v ++ ([Text.code ':'] ++ t)).dropWhile Members.isAssignment
      = t.dropWhile Members.isAssignment := by
  rw [dropWhile_inline hv]
  exact List.dropWhile_cons_of_pos (by decide)

theorem Entry.Valid.dropWhile_colon (hx : x.Valid) (hbefore : Inline x.before)
    (hafter : Inline x.after) (r : Text) :
    (x.before ++ ([Text.code ':'] ++ (x.after ++ (x.value ++ r)))).dropWhile Members.isAssignment
      = x.value ++ r := by
  rw [dropWhile_before hbefore, dropWhile_inline hafter, hx.value.dropWhile_eq]

/-- A line end before the colon stands for the value, and then the colon for a key. -/
theorem Entry.Valid.readMembers_malformed (hx : x.Valid) (hbefore : ¬ Inline x.before) (size : Nat)
    (m : Members) (r : Text) :
    ∃ n, readMembers size m (x.written ++ r) = .error (.malformed n) := by
  have hstring := hx.string?_written r
  by_cases hkey : unescape x.key = []
  · exact readMembers_empty size m (hkey ▸ hstring)
  · obtain ⟨rest, hrest, hline⟩ := readValue_lineEnd hx.before hbefore
      ([Text.code ':'] ++ (x.after ++ (x.value ++ r)))
    have hcolon : Stuck ([Text.code ':'] ++ (x.after ++ (x.value ++ r))) :=
      stuck_cons (by decide) (by decide) (by decide) _
    rw [readMembers_key size m hstring hkey, hline]
    exact readMembers_stuck size m (hcolon.append (isSeparator_of_blank hrest))

/-- An entry is set as its key and its value say. -/
theorem Entry.Valid.readValue_setPlain (hx : x.Valid) (hplain : Plain x.key x.value)
    (m : Members) (hr : EndsNumber r) :
    m.readValue (unescape x.key) (x.value ++ r)
      = (m.setPlain x.key x.value).map fun m => (m, r) := by
  rcases hplain.2 with hquote | hdigits
  · obtain ⟨u, hu⟩ := hx.value.string?_eq hquote
    have hvalue := hu []
    rw [List.append_nil] at hvalue
    rw [readValue_string m (hu r), Members.setPlain, hvalue]
  · have hnone : string? x.value = none := by
      obtain ⟨d, ds, hds⟩ := List.exists_cons_of_ne_nil hdigits.1
      rw [hds]
      exact string?_eq_none_iff.mpr (ne_of_isDigit (hdigits.2 d (by simp [hds]))).2.2.2
    rw [readValue_digits m _ hdigits hr, Members.setPlain, hnone]
    rfl

/-- **An entry with its value on the line of its colon is read for what it says**, up to the place of
an error. -/
theorem Entry.Valid.readMembers_written (hx : x.Valid) (hafter : Inline x.after) (size : Nat)
    (m : Members) (hr : EndsNumber r) :
    (readMembers size m (x.written ++ r)).mapError ReadError.cause
      = (m.setEntry x >>= fun m' => readMembers size m' r).mapError ReadError.cause := by
  have hmalformed : (∃ n, readMembers size m (x.written ++ r) = .error (.malformed n)) →
      (readMembers size m (x.written ++ r)).mapError ReadError.cause = .error (.malformed 0) := by
    intro ⟨n, hn⟩
    rw [hn]
    rfl
  have hstring := hx.string?_written r
  by_cases hkey : unescape x.key = []
  · have hset : m.setEntry x = .error (.malformed 0) := if_neg fun h => h.2.1 hkey
    rw [hset, hmalformed (readMembers_empty size m (hkey ▸ hstring))]
    rfl
  have hread := readMembers_key size m hstring hkey
  by_cases hbefore : Inline x.before
  · rw [hx.dropWhile_colon hbefore hafter] at hread
    by_cases hvalue : x.value.head? = some (Text.code '"') ∨ Json.Digits x.value
    · have hset : m.setEntry x = m.setPlain x.key x.value := if_pos ⟨hbefore, hkey, hvalue⟩
      rw [hread, hset, hx.readValue_setPlain ⟨hkey, hvalue⟩ m hr]
      cases m.setPlain x.key x.value with
      | error e => rfl
      | ok m' => rfl
    · obtain ⟨hquote, hdigits⟩ := not_or.mp hvalue
      have hset : m.setEntry x = .error (.malformed 0) := if_neg fun h => hvalue h.2.2
      obtain ⟨m', s, hs, hstuck⟩ := hx.value.readValue_stuck hquote hdigits m (unescape x.key) r
      rw [hs] at hread
      rw [hset, hmalformed (hread ▸ readMembers_stuck size m' hstuck)]
      rfl
  · have hset : m.setEntry x = .error (.malformed 0) := if_neg fun h => hbefore h.1
    rw [hset, hmalformed (hx.readMembers_malformed hbefore size m r)]
    rfl

/-- An entry whose value is not on the line of its colon: the value is taken for a key. -/
theorem Entry.Valid.readMembers_written_of_not_inline (hx : x.Valid) (hafter : ¬ Inline x.after)
    {p : Members × Text} (hread : readMembers size m (x.written ++ r) = .ok p) :
    readMembers size m (x.value ++ r) = .ok p := by
  have hfail : ¬ ∃ n, readMembers size m (x.written ++ r) = .error (.malformed n) := by
    intro ⟨n, hn⟩
    exact absurd (hread.symm.trans hn) (by simp)
  have hstring := hx.string?_written r
  have hkey : unescape x.key ≠ [] := fun hkey => hfail (readMembers_empty size m (hkey ▸ hstring))
  by_cases hbefore : Inline x.before
  · obtain ⟨rest, hrest, hline⟩ := readValue_lineEnd hx.after hafter (x.value ++ r)
    rw [readMembers_key size m hstring hkey, dropWhile_before hbefore, hline] at hread
    rw [← readMembers_skip size m _ (isSeparator_of_blank hrest)]
    exact hread
  · exact absurd (hx.readMembers_malformed hbefore size m r) hfail

/-- The byte behind blanks is taken for a value, or a line end before it. -/
theorem readValue_blank {b : UInt8} (hw : Json.Blank w)
    (hassignment : Members.isAssignment b = false) (hquote : b ≠ Text.code '"')
    (hdigit : Text.isDigit 10 b = false) (m : Members) (key s : Text) :
    m.readValue key ((w ++ b :: s).dropWhile Members.isAssignment) = .ok (m, s)
      ∨ ∃ rest, Json.Blank rest
        ∧ m.readValue key ((w ++ b :: s).dropWhile Members.isAssignment)
          = .ok (m, rest ++ b :: s) := by
  by_cases hinline : Inline w
  · rw [dropWhile_inline hinline, List.dropWhile_cons_of_neg (by simp [hassignment])]
    exact .inl (readValue_other m key hquote hdigit s)
  · obtain ⟨rest, hrest, hline⟩ := readValue_lineEnd hw hinline (b :: s)
    exact .inr ⟨rest, hrest, hline m key⟩

/-- What is taken for a key takes one more byte for its value, a comma or a line end if the object
can be read at all. So the key is lost, and nothing else. -/
theorem readMembers_lost {key : Text} {ts : List Text} {p : Members × Text} (hr : Stuck r)
    (hbehind : Json.Behind (Text.code '\x7d' :: r) ts t)
    (hread : m.readValue key (t.dropWhile Members.isAssignment) >>= (fun p =>
      readMembers size p.1 p.2) = .ok p) : readMembers size m t = .ok p := by
  cases hbehind with
  | @none w hw =>
    rw [readMembers_skip size m _ (isSeparator_of_blank hw)]
    rcases readValue_blank hw (b := Text.code '\x7d') (by decide) (by decide) (by decide) m key r
      with hvalue | ⟨rest, hrest, hvalue⟩
    · -- the closing brace itself is lost, and behind it there is no member
      rw [hvalue] at hread
      obtain ⟨n, hn⟩ := readMembers_stuck size m hr
      exact absurd (hread.symm.trans hn) (by simp)
    · rw [hvalue] at hread
      rw [← readMembers_skip size m _ (isSeparator_of_blank hrest)]
      exact hread
  | @more w v u t ts hw _ _ =>
    have ht : w ++ Text.ofString "," ++ v ++ u ++ t = w ++ (Text.ofString "," ++ (v ++ u ++ t)) := by
      simp only [List.append_assoc]
    have hcons : Text.ofString "," ++ (v ++ u ++ t) = Text.code ',' :: (v ++ u ++ t) := rfl
    rw [ht] at hread ⊢
    rw [readMembers_skip size m _ (isSeparator_of_blank hw)]
    rcases readValue_blank hw (b := Text.code ',') (by decide) (by decide) (by decide) m key
      (v ++ u ++ t) with hvalue | ⟨rest, hrest, hvalue⟩
    · rw [hcons, hvalue] at hread
      rw [readMembers_skip size m _ isSeparator_comma]
      exact hread
    · rw [hcons, hvalue] at hread
      rw [hcons, ← readMembers_skip size m _ (isSeparator_of_blank hrest)]
      exact hread

/-- **An entry with its value on another line is lost**, if the object can be read at all. -/
theorem Entry.Valid.readMembers_of_lost (hx : x.Valid) (hafter : ¬ Inline x.after)
    {ts : List Text} {p : Members × Text} (hr : Stuck r)
    (hbehind : Json.Behind (Text.code '\x7d' :: r) ts t)
    (hread : readMembers size m (x.written ++ t) = .ok p) : readMembers size m t = .ok p := by
  have hvalue := hx.readMembers_written_of_not_inline hafter hread
  by_cases hquote : x.value.head? = some (Text.code '"')
  · obtain ⟨u, hu⟩ := hx.value.string?_eq hquote
    have hstring : string? ((x.value ++ t).dropWhile Members.isSeparator) = some (u, t) := by
      obtain ⟨b, s, hb, -, hseparator, -⟩ := hx.value.exists_cons
      rw [← hu t, hb, List.cons_append, List.dropWhile_cons_of_neg (by simp [hseparator])]
    by_cases hkey : u = []
    · obtain ⟨n, hn⟩ := readMembers_empty size m (hkey ▸ hstring)
      exact absurd (hvalue.symm.trans hn) (by simp)
    · rw [readMembers_key size m hstring hkey] at hvalue
      exact readMembers_lost hr hbehind hvalue
  · obtain ⟨n, hn⟩ := readMembers_stuck size m (hx.value.stuck hquote t)
    exact absurd (hvalue.symm.trans hn) (by simp)

end Entry

/-! ## Entries in order -/

theorem endsNumber_of_behind {ts : List Text} (h : Json.Behind r ts t) (hr : EndsNumber r) :
    EndsNumber t := by
  cases h with
  | none hw => exact hr.of_blank hw
  | more hw _ _ =>
    simp only [List.append_assoc]
    exact (endsNumber_cons (b := Text.code ',') (by decide) _).of_blank hw

/-- Entries that stand behind one another, from behind a comma on. -/
theorem readMembers_more (size : Nat) (m : Members) (hw : Json.Blank w) (hv : Json.Blank v)
    (u t : Text) :
    readMembers size m (w ++ "," ++ v ++ u ++ t) = readMembers size m (u ++ t) := by
  simp only [List.append_assoc]
  rw [readMembers_skip size m _ (isSeparator_of_blank hw),
    readMembers_skip size m _ isSeparator_comma,
    readMembers_skip size m _ (isSeparator_of_blank hv)]

theorem mapError_bind_congr {α β : Type} {f : ReadError → ReadError} (a : Except ReadError α)
    {g g' : α → Except ReadError β} (h : ∀ x, (g x).mapError f = (g' x).mapError f) :
    (a >>= g).mapError f = (a >>= g').mapError f := by
  cases a with
  | error e => rfl
  | ok x => exact h x

theorem eq_ok_of_mapError {α : Type} {f : ReadError → ReadError} {a : Except ReadError α} {x : α}
    (h : a.mapError f = .ok x) : a = .ok x := by
  cases a with
  | error e => exact absurd h (by simp [Except.mapError])
  | ok y => exact h

/-- What was read without an error was read so. -/
theorem eq_of_withoutOffset {p : Contents × Except ReadError Nat} {c : Contents} {n : Nat}
    (h : withoutOffset p = (c, .ok n)) : p = (c, .ok n) := by
  obtain ⟨hcontents, hcount⟩ := Prod.mk.inj h
  exact Prod.ext hcontents (eq_ok_of_mapError hcount)

theorem exists_of_mapError_eq_error {α : Type} {f : ReadError → ReadError}
    {a : Except ReadError α} {e : ReadError} (h : a.mapError f = .error e) :
    ∃ e', a = .error e' ∧ f e' = e := by
  cases a with
  | error e' => exact ⟨e', rfl, Except.error.inj h⟩
  | ok y => exact absurd h (by simp [Except.mapError])

/-- **Entries with their values on the lines of their colons are read one after another.** -/
theorem readMembers_behind {xs : List Entry} (size : Nat) (m : Members)
    (hvalid : ∀ x ∈ xs, x.Valid) (hafter : ∀ x ∈ xs, Inline x.after)
    (h : Json.Behind (Text.code '\x7d' :: r) (xs.map Entry.written) t) :
    (readMembers size m t).mapError ReadError.cause
      = (xs.foldlM Members.setEntry m >>= fun m' => pure (m', r)).mapError ReadError.cause := by
  induction xs generalizing m t with
  | nil =>
    cases h with
    | none hw =>
      rw [readMembers_skip size m _ (isSeparator_of_blank hw),
        readMembers_close size m (List.dropWhile_cons_of_neg (by decide))]
      rfl
  | cons x xs ih =>
    obtain ⟨hx, hxs⟩ := List.forall_mem_cons.mp hvalid
    obtain ⟨hinline, hinlines⟩ := List.forall_mem_cons.mp hafter
    cases h with
    | more hw hv hrest =>
      have hends := endsNumber_of_behind hrest (endsNumber_cons (by decide) r)
      rw [readMembers_more size m hw hv, hx.readMembers_written hinline size m hends,
        List.foldlM_cons, bind_assoc]
      exact mapError_bind_congr (m.setEntry x) fun m' => ih m' hxs hinlines hrest

/-- **Of entries that can be read, those with their values on the lines of their colons are read.** -/
theorem readMembers_onLine {xs : List Entry} (hvalid : ∀ x ∈ xs, x.Valid) (hr : Stuck r)
    (h : Json.Behind (Text.code '\x7d' :: r) (xs.map Entry.written) t) {p : Members × Text}
    (hread : readMembers size m t = .ok p) :
    (onLine xs).foldlM Members.setEntry m = .ok p.1 ∧ p.2 = r := by
  induction xs generalizing m t with
  | nil =>
    cases h with
    | none hw =>
      rw [readMembers_skip size m _ (isSeparator_of_blank hw),
        readMembers_close size m (List.dropWhile_cons_of_neg (by decide))] at hread
      obtain rfl := Except.ok.inj hread
      exact ⟨rfl, rfl⟩
  | cons x xs ih =>
    obtain ⟨hx, hxs⟩ := List.forall_mem_cons.mp hvalid
    cases h with
    | more hw hv hrest =>
      rw [readMembers_more size m hw hv] at hread
      -- an entry that is lost is passed over here, and left out there
      by_cases hafter : Inline x.after
      · have hends := endsNumber_of_behind hrest (endsNumber_cons (by decide) r)
        have hwritten := hx.readMembers_written hafter size m hends
        rw [hread] at hwritten
        have honLine : onLine (x :: xs) = x :: onLine xs :=
          List.filter_cons_of_pos (by simpa using hafter)
        cases hset : m.setEntry x with
        | error e =>
          rw [hset] at hwritten
          exact absurd hwritten (by simp [Except.mapError, bind, Except.bind])
        | ok m' =>
          rw [hset] at hwritten
          have hnext : readMembers size m' _ = .ok p := eq_ok_of_mapError hwritten.symm
          obtain ⟨hfold, hleft⟩ := ih hxs hrest hnext
          exact ⟨by rw [honLine, List.foldlM_cons, hset]; exact hfold, hleft⟩
      · have honLine : onLine (x :: xs) = onLine xs :=
          List.filter_cons_of_neg (by simpa using hafter)
        rw [honLine]
        exact ih hxs hrest (hx.readMembers_of_lost hafter hr hrest hread)

/-! ## Objects -/

variable {c : Contents} {count n : Nat} {u : Text} {xs : List Entry}
  {objects : List (List Entry)} {ts : List Text}

/-- The entries of an object stand behind one another, up to its closing brace. -/
theorem FlatObject.exists_behind (h : FlatObject xs u) (t : Text) :
    ∃ body s, u ++ t = Text.code '\x7b' :: body
      ∧ Json.Behind (Text.code '\x7d' :: t) (xs.map Entry.written) s
      ∧ ∀ size m, readMembers size m body = readMembers size m s := by
  obtain ⟨-, body, hspaced, rfl⟩ := h
  have hbrace : Text.ofString "\x7b" ++ body ++ "\x7d" ++ t
      = Text.code '\x7b' :: (body ++ Text.code '\x7d' :: t) := by
    simp only [List.append_assoc]
    rfl
  cases xs with
  | nil =>
    cases hspaced with
    | none hw => exact ⟨_, _, hbrace, .none hw, fun size m => rfl⟩
  | cons x xs =>
    refine ⟨_, _, hbrace, hspaced.behind _, fun size m => ?_⟩
    rw [List.append_assoc, readMembers_skip size m _ isSeparator_comma]

/-- Behind an object there is no key. -/
theorem stuck_of_behind (hobjects : List.Forall₂ FlatObject objects ts)
    (h : Json.Behind (Text.code ']' :: w) ts t) : Stuck t := by
  cases hobjects with
  | nil =>
    cases h with
    | none hv =>
      have hbracket := stuck_cons (b := Text.code ']') (by decide) (by decide) (by decide) w
      exact hbracket.append (isSeparator_of_blank hv)
  | @cons xs u objects ts hobject _ =>
    cases h with
    | @more _ _ _ t _ hw hv _ =>
      obtain ⟨body, s, hbrace, -⟩ := hobject.exists_behind t
      have hstuck : Stuck (u ++ t) := by
        rw [hbrace]
        exact stuck_cons (by decide) (by decide) (by decide) body
      simp only [List.append_assoc]
      exact ((hstuck.append (isSeparator_of_blank hv)).append isSeparator_comma).append
        (isSeparator_of_blank hw)

theorem readObjects_more (size : Nat) (c : Contents) (count : Nat) (hw : Json.Blank w)
    (hv : Json.Blank v) (u t : Text) :
    readObjects size c count (w ++ "," ++ v ++ u ++ t) = readObjects size c count (u ++ t) := by
  have hcomma : Text.code '\x7b' ∉ Text.ofString "," := by decide
  simp only [List.append_assoc]
  rw [readObjects_skip size c count _ (brace_notMem_of_blank hw),
    readObjects_skip size c count _ hcomma,
    readObjects_skip size c count _ (brace_notMem_of_blank hv)]

theorem brace_notMem_end (hv : Json.Blank v) (hw : Json.Blank w) :
    Text.code '\x7b' ∉ v ++ Text.code ']' :: w := by
  rw [List.mem_append, List.mem_cons]
  have hbracket : Text.code '\x7b' ≠ Text.code ']' := by decide
  exact not_or.mpr ⟨brace_notMem_of_blank hv, not_or.mpr ⟨hbracket, brace_notMem_of_blank hw⟩⟩

theorem addEntries_eq_add (hfold : xs.foldlM Members.setEntry {} = .ok m) :
    c.addEntries xs = c.add m := by
  rw [Contents.addEntries, hfold]
  rfl

theorem addEntries_eq_error {e : ReadError} (hfold : xs.foldlM Members.setEntry {} = .error e) :
    c.addEntries xs = .error e := by
  rw [Contents.addEntries, hfold]
  rfl

theorem readObjects_behind (size : Nat) (c : Contents) (count : Nat)
    (hobjects : List.Forall₂ FlatObject objects ts)
    (hafter : ∀ xs ∈ objects, ∀ x ∈ xs, Inline x.after) (hw : Json.Blank w)
    (h : Json.Behind (Text.code ']' :: w) ts t) :
    withoutOffset (readObjects size c count t) = withoutOffset (readEntries c count objects) := by
  induction hobjects generalizing c count t with
  | nil =>
    cases h with
    | none hv =>
      rw [readObjects_end size c count (brace_notMem_end hv hw)]
      rfl
  | @cons xs u objects ts hobject _ ih =>
    obtain ⟨hinline, hinlines⟩ := List.forall_mem_cons.mp hafter
    cases h with
    | @more _ _ _ t _ hbefore hbehind hrest =>
      obtain ⟨body, s, hbrace, hmembers, hbody⟩ := hobject.exists_behind t
      have hread := readMembers_behind size {} hobject.1 hinline hmembers
      rw [← hbody] at hread
      rw [readObjects_more size c count hbefore hbehind, hbrace, readEntries]
      cases hfold : xs.foldlM Members.setEntry {} with
      | error e =>
        -- the reader fails too, and may name another place
        rw [hfold] at hread
        obtain ⟨e', he', hcause⟩ := exists_of_mapError_eq_error hread
        rw [readObjects_error size count (e := e') (by rw [he']; rfl), addEntries_eq_error hfold]
        exact congrArg (fun e => (c, Except.error e)) hcause
      | ok m =>
        rw [hfold] at hread
        have hok : readMembers size {} body = .ok (m, t) := eq_ok_of_mapError hread
        cases hadd : c.add m with
        | error e =>
          rw [readObjects_error size count (e := e) (by rw [hok]; exact hadd),
            addEntries_eq_add hfold, hadd]
        | ok c' =>
          rw [readObjects_ok size count hok hadd, ih c' (count + 1) hinlines hrest,
            addEntries_eq_add hfold, hadd]

theorem readObjects_onLine (hobjects : List.Forall₂ FlatObject objects ts) (hw : Json.Blank w)
    (h : Json.Behind (Text.code ']' :: w) ts t)
    (hread : (readObjects size c count t).2 = .ok n) :
    readObjects size c count t = readEntries c count (objects.map onLine) := by
  induction hobjects generalizing c count t with
  | nil =>
    cases h with
    | none hv => exact readObjects_end size c count (brace_notMem_end hv hw)
  | @cons xs u objects ts hobject hothers ih =>
    cases h with
    | @more _ _ _ t _ hbefore hbehind hrest =>
      obtain ⟨body, s, hbrace, hmembers, hbody⟩ := hobject.exists_behind t
      rw [readObjects_more size c count hbefore hbehind, hbrace] at hread ⊢
      -- since reading succeeds, it does so for this object
      have hfails : ∀ e, readMembers size {} body >>= (fun p => c.add p.1) ≠ .error e := by
        intro e he
        rw [readObjects_error size count he] at hread
        exact absurd hread (by simp)
      cases hok : readMembers size {} body with
      | error e => exact absurd (by rw [hok]; rfl) (hfails e)
      | ok p =>
        obtain ⟨hfold, hleft⟩ := readMembers_onLine hobject.1 (stuck_of_behind hothers hrest)
          hmembers ((hbody size {}).symm.trans hok)
        cases hadd : c.add p.1 with
        | error e => exact absurd (by rw [hok]; exact hadd) (hfails e)
        | ok c' =>
          have hentries : c.addEntries (onLine xs) = .ok c' := (addEntries_eq_add hfold).trans hadd
          have hnext := readObjects_ok size count hok hadd
          rw [hleft] at hnext
          rw [hnext] at hread ⊢
          rw [List.map_cons, readEntries, hentries]
          exact ih hrest hread

/-! ## Files -/

/-- The objects of a file stand behind one another, up to its closing bracket. -/
theorem FlatFile.exists_behind (h : FlatFile objects t) :
    ∃ ts s w, List.Forall₂ FlatObject objects ts ∧ Json.Blank w
      ∧ Json.Behind (Text.code ']' :: w) ts s
      ∧ ∀ size c count, readObjects size c count t = readObjects size c count s := by
  obtain ⟨ts, body, v, w, hobjects, hbody, hv, hw, rfl⟩ := h
  have hfront : Text.code '\x7b' ∉ v ++ Text.ofString "[" := by
    rw [List.mem_append]
    exact not_or.mpr ⟨brace_notMem_of_blank hv, by decide⟩
  have hskip : ∀ size c count, readObjects size c count (v ++ "[" ++ body ++ "]" ++ w)
      = readObjects size c count (body ++ Text.code ']' :: w) := by
    intro size c count
    rw [List.append_assoc, List.append_assoc, readObjects_skip size c count _ hfront]
    rfl
  cases ts with
  | nil =>
    cases hbody with
    | none hblank => exact ⟨[], _, w, hobjects, hw, .none hblank, hskip⟩
  | cons u ts =>
    have hcomma : Text.code '\x7b' ∉ Text.ofString "," := by decide
    refine ⟨u :: ts, _, w, hobjects, hw, hbody.behind _, fun size c count => ?_⟩
    rw [hskip, List.append_assoc, readObjects_skip size c count _ hcomma]

/-- **A file is read for what its entries say**, if each value is on the line of its colon. -/
theorem read_flat (h : FlatFile objects t) (hafter : ∀ xs ∈ objects, ∀ x ∈ xs, Inline x.after) :
    withoutOffset (read t) = withoutOffset (readEntries {} 0 objects) := by
  obtain ⟨ts, s, w, hobjects, hw, hbehind, hread⟩ := h.exists_behind
  rw [read, hread]
  exact readObjects_behind _ _ _ hobjects hafter hw hbehind

/-- **If a file can be read at all, it is read for the entries with their values on the lines of their
colons.** -/
theorem read_onLine (h : FlatFile objects t) (hread : (read t).2 = .ok n) :
    read t = readEntries {} 0 (objects.map onLine) := by
  obtain ⟨ts, s, w, hobjects, hw, hbehind, hskip⟩ := h.exists_behind
  rw [read, hskip] at hread ⊢
  exact readObjects_onLine hobjects hw hbehind hread

end Disassembler.Debug
