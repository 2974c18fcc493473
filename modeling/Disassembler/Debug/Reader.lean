import Disassembler.Debug.Record
import Disassembler.Numeral
import Disassembler.Symbol

/-!
# Debug files

A debug file is an array of flat JSON objects, one to a symbol, function, line or type. Reading is
forgiving where it can be: anything before an object's brace is skipped, commas and blanks are
interchangeable between members, and a value that is neither a string nor a number is passed over
byte by byte. An object that lacks what its kind needs ends the reading, and adds nothing itself;
the objects before it stay.
-/

namespace Disassembler.Debug

/-! ## Strings -/

/-- The byte that an escape of one letter stands for. -/
def plainEscape? (b : UInt8) : Option UInt8 :=
  if b = Text.code '"' ∨ b = Text.code '\\' ∨ b = Text.code '/' then some b
  else if b = Text.code 'n' then some Text.newline
  else if b = Text.code 'r' then some (Text.code '\r')
  else if b = Text.code 't' then some (Text.code '\t')
  else none

/-- The byte of an escape by number. Basic Latin is understood; anything else, and an escape that
is cut short, becomes a question mark. -/
def numberedEscape (digits : Text) : UInt8 :=
  match Numeral.read? (some 16) digits.untilNul with
  | some n =>
    if digits.length = 4 ∧ ¬ n.negative ∧ 0 < n.magnitude ∧ n.magnitude < 128 then
      UInt8.ofNat n.magnitude
    else Text.code '?'
  | none => Text.code '?'

/-- The text that stands between quotes, with its escapes resolved. An unknown escape stays as it
is written. -/
def unescape : Text → Text
  | [] => []
  | [b] => [b]
  | b :: c :: rest =>
    if b = Text.code '\\' then
      match plainEscape? c with
      | some e => e :: unescape rest
      | none =>
        if c = Text.code 'u' then numberedEscape (rest.take 4) :: unescape (rest.drop 4)
        else b :: unescape (c :: rest)
    else b :: unescape (c :: rest)
termination_by t => t.length
decreasing_by all_goals simp only [List.length_cons, List.length_drop]; omega

/-- What stands before the closing quote, and what follows it. A backslash protects the byte
behind it. Without a closing quote it is everything. -/
def untilQuote : Text → Text × Text
  | [] => ([], [])
  | [b] => if b = Text.code '"' then ([], []) else ([b], [])
  | b :: c :: rest =>
    if b = Text.code '\\' then
      let (inner, after) := untilQuote rest
      (b :: c :: inner, after)
    else if b = Text.code '"' then ([], c :: rest)
    else
      let (inner, after) := untilQuote (c :: rest)
      (b :: inner, after)

/-- The string at the front of a text, and what follows it; nothing without an opening quote. -/
def string? : Text → Option (Text × Text)
  | [] => none
  | b :: rest =>
    if b = Text.code '"' then
      let (inner, after) := untilQuote rest
      some (unescape inner, after)
    else none

/-! ## Objects -/

/-- Why reading ended early. -/
inductive ReadError where
  /-- No key where one was expected, after so many bytes. -/
  | malformed (offset : Nat)
  /-- An address that is no number. -/
  | badAddress (key value : Text)
  | noKind
  | noAddress (kind : Text)
  /-- A function without its end. -/
  | noStop (name : Text)
  | unknownKind (kind : Text)
  deriving DecidableEq

/-- The text between single quotes. -/
def quoted (t : Text) : Text := "'" ++ t ++ "'"

/-- The message of an error. -/
def ReadError.message : ReadError → Text
  | malformed offset => "malformed object at offset " ++ Text.decimal offset
  | badAddress key value => "bad " ++ key ++ " " ++ quoted value
  | noKind => "debug object without kind"
  | noAddress kind => "debug object of kind " ++ quoted kind ++ " without addr"
  | noStop name => "function " ++ quoted name ++ " without end"
  | unknownKind kind => "unknown debug object kind " ++ quoted kind

/-- The members of an object that mean something. -/
structure Members where
  kind : Text := []
  name : Text := []
  file : Text := []
  type : Text := []
  data : Text := []
  function : Text := []
  address : Option UInt64 := none
  stop : Option UInt64 := none
  line : UInt64 := 0
  deriving DecidableEq, Inhabited

namespace Members

/-- An address that is written as a string: a numeral and nothing else up to the first NUL. -/
def address? (t : Text) : Option UInt64 :=
  if t.isEmpty then none
  else if t.untilNul.isEmpty then some 0
  else do
    let n ← Numeral.read? none t.untilNul
    if n.rest.isEmpty then n.unsigned? else none

/-- The members with one more, whose value is a string. -/
def setString (m : Members) (key value : Text) : Except ReadError Members :=
  if key = Text.ofString "addr" ∨ key = Text.ofString "end" then
    match address? value with
    | some a =>
      .ok (if key = Text.ofString "addr" then { m with address := some a }
        else { m with stop := some a })
    | none => .error (.badAddress key value)
  else if key = Text.ofString "kind" then .ok { m with kind := value }
  else if key = Text.ofString "name" then .ok { m with name := value }
  else if key = Text.ofString "file" then .ok { m with file := value }
  else if key = Text.ofString "type" then .ok { m with type := value }
  else if key = Text.ofString "data" then .ok { m with data := value }
  else if key = Text.ofString "function" then .ok { m with function := value }
  else .ok m

/-- The members with one more, whose value is a number. -/
def setNumber (m : Members) (key : Text) (value : UInt64) : Members :=
  if key = Text.ofString "addr" then { m with address := some value }
  else if key = Text.ofString "end" then { m with stop := some value }
  else if key = Text.ofString "line" then { m with line := value }
  else m

/-- Blanks and commas, which may stand before a key. -/
def isSeparator (b : UInt8) : Bool :=
  b == 32 || b == 9 || b == 10 || b == 13 || b == Text.code ','

/-- Colons and blanks, which may stand before a value. -/
def isAssignment (b : UInt8) : Bool := b == Text.code ':' || b == 32 || b == 9

/-- The value at the front of a text, set as a member, and what follows it. -/
def readValue (m : Members) (key : Text) (t : Text) : Except ReadError (Members × Text) :=
  match string? t with
  | some (value, after) => do return (← m.setString key value, after)
  | none =>
    let digits := t.takeWhile (Text.isDigit 10)
    if digits.isEmpty then .ok (m, t.tail)
    else
      .ok (m.setNumber key (UInt64.ofNat (Text.numeral 10 digits)),
        t.dropWhile (Text.isDigit 10))

end Members

/-- Reading to a closing quote never lengthens a text. -/
theorem untilQuote_length_le (t : Text) : (untilQuote t).2.length ≤ t.length := by
  fun_induction untilQuote t with
  | case1 => exact Nat.le_refl _
  | case2 => simp
  | case3 => simp
  | case4 c rest inner after h ih =>
    rw [h] at ih
    exact Nat.le_add_right_of_le (Nat.le_add_right_of_le ih)
  | case5 => simp
  | case6 b c rest hb hq inner after h ih =>
    rw [h] at ih
    exact Nat.le_add_right_of_le ih

/-- A string takes at least its opening quote. -/
theorem string?_length_lt {t s after : Text} (h : string? t = some (s, after)) :
    after.length < t.length := by
  unfold string? at h
  split at h
  · simp at h
  · next b rest =>
    split at h
    · simp only [Option.some.injEq, Prod.mk.injEq] at h
      have := untilQuote_length_le rest
      simp only [List.length_cons, ← h.2]
      omega
    · simp at h

/-- Dropping from the front never lengthens a text. -/
theorem length_dropWhile_le (p : UInt8 → Bool) (t : Text) : (t.dropWhile p).length ≤ t.length :=
  (List.dropWhile_sublist p).length_le

/-- A value never lengthens what is left. -/
theorem readValue_length_le {m m' : Members} {key t after : Text}
    (h : m.readValue key t = .ok (m', after)) : after.length ≤ t.length := by
  unfold Members.readValue at h
  split at h
  · next value rest hs =>
    have := string?_length_lt hs
    cases hset : m.setString key value with
    | error e => rw [hset] at h; simp [bind, Except.bind] at h
    | ok m'' =>
      rw [hset] at h
      simp only [bind, Except.bind, pure, Except.pure, Except.ok.injEq, Prod.mk.injEq] at h
      rw [← h.2]
      omega
  · simp only at h
    split at h
    · simp only [Except.ok.injEq, Prod.mk.injEq] at h
      rw [← h.2]
      simp
    · simp only [Except.ok.injEq, Prod.mk.injEq] at h
      rw [← h.2]
      exact length_dropWhile_le _ _

set_option linter.unusedVariables false in
/-- The members up to the closing brace, and what follows it; `size` is the length of the whole
file, against which offsets count. -/
def readMembers (size : Nat) (m : Members) (t : Text) : Except ReadError (Members × Text) :=
  match hs : t.dropWhile Members.isSeparator with
  | [] => .ok (m, [])
  | b :: rest =>
    if b = Text.code '\x7d' then .ok (m, rest)
    else
      match hk : string? (b :: rest) with
      | none => .error (.malformed (size - (rest.length + 1)))
      | some (key, after) =>
        if key.isEmpty then .error (.malformed (size - after.length))
        else
          match hv : m.readValue key (after.dropWhile Members.isAssignment) with
          | .error e => .error e
          | .ok (m', left) => readMembers size m' left
termination_by t.length
decreasing_by
  have h₁ := length_dropWhile_le Members.isSeparator t
  have h₂ := string?_length_lt hk
  have h₃ := readValue_length_le hv
  have h₄ := length_dropWhile_le Members.isAssignment after
  rw [hs] at h₁
  omega

/-- The members of an object never lengthen what is left. -/
theorem readMembers_length_le {size : Nat} {m m' : Members} {t after : Text}
    (h : readMembers size m t = .ok (m', after)) : after.length ≤ t.length := by
  fun_induction readMembers size m t with
  | case1 =>
    simp only [Except.ok.injEq, Prod.mk.injEq] at h
    simp [← h.2]
  | case2 m t rest hs =>
    simp only [Except.ok.injEq, Prod.mk.injEq] at h
    have := length_dropWhile_le Members.isSeparator t
    rw [hs, List.length_cons] at this
    rw [← h.2]
    omega
  | case3 => simp at h
  | case4 => simp at h
  | case5 => simp at h
  | case6 m t b rest hs _ key after hk _ m₁ left hv ih =>
    have h₁ := length_dropWhile_le Members.isSeparator t
    have h₂ := string?_length_lt hk
    have h₃ := readValue_length_le hv
    have h₄ := length_dropWhile_le Members.isAssignment after
    rw [hs] at h₁
    have := ih h
    omega

/-! ## Files -/

/-- What a debug file says. -/
structure Contents where
  symbols : Array Symbol := #[]
  records : Records := {}
  deriving DecidableEq, Inhabited

namespace Contents

/-- The kind of a symbol by its word; an unknown word is a function. -/
def symbolKind (word : Text) : SymbolKind :=
  if word = Text.ofString "object" then .object
  else if word = Text.ofString "label" then .label
  else .function

/-- One more symbol. -/
def addSymbol (c : Contents) (s : Symbol) : Contents := { c with symbols := c.symbols.push s }

/-- One more object, of a kind that has an address. -/
def addAt (c : Contents) (m : Members) (a : UInt64) : Except ReadError Contents :=
  if m.kind = Text.ofString "symbol" then
    .ok (c.addSymbol { address := a, name := m.name, kind := symbolKind m.type })
  else if m.kind = Text.ofString "function" then
    match m.stop with
    | none => .error (.noStop m.name)
    | some stop =>
      let c := c.addSymbol { address := a, name := m.name, kind := .function }
      .ok { c with
        records := c.records.addFunction { start := a, stop, name := Mangling.demangle m.name } }
  else if m.kind = Text.ofString "line" then
    .ok { c with
      records := c.records.addRecord
        { start := a, stop := m.stop.getD (a + 1), symbol := m.name, file := m.file
          line := m.line.toUInt32, function := m.function } }
  else .error (.unknownKind m.kind)

/-- One more object. -/
def add (c : Contents) (m : Members) : Except ReadError Contents :=
  if m.kind.isEmpty then .error .noKind
  else if m.kind = Text.ofString "type" then
    .ok { c with records := c.records.addType { name := m.name, data := m.data } }
  else
    match m.address with
    | none => .error (.noAddress m.kind)
    | some a => c.addAt m a

end Contents

set_option linter.unusedVariables false in
/-- Reads the objects of a text after those that are read already. The number of objects is
counted. -/
def readObjects (size : Nat) (c : Contents) (count : Nat) (t : Text) :
    Contents × Except ReadError Nat :=
  match ht : t.dropWhile (· ≠ Text.code '\x7b') with
  | [] => (c, .ok count)
  | _ :: rest =>
    match hm : readMembers size {} rest with
    | .error e => (c, .error e)
    | .ok (m, after) =>
      match c.add m with
      | .error e => (c, .error e)
      | .ok c' => readObjects size c' (count + 1) after
termination_by t.length
decreasing_by
  have h₁ := length_dropWhile_le (· ≠ Text.code '\x7b') t
  have h₂ := readMembers_length_le hm
  rw [ht, List.length_cons] at h₁
  omega

/-- Reads a debug file: what it says, and the number of its objects or why reading ended. -/
def read (t : Text) : Contents × Except ReadError Nat := readObjects t.length {} 0 t

end Disassembler.Debug
