import Disassembler.Json
import Disassembler.Proofs.Numeral

/-!
# What is written is JSON

The grammar of JSON as it is read by others, on bytes: blanks may stand around every token, and any
byte from `0x80` on may stand in a string. Values are written in it without blanks, whatever the
bytes of the texts in them, and on one line.
-/

namespace Disassembler.Json

/-! ## The grammar -/

/-- Spaces, tabs and line ends. -/
def Blank (t : Text) : Prop := ∀ b ∈ t, b = 32 ∨ b = 9 ∨ b = 10 ∨ b = 13

instance (t : Text) : Decidable (Blank t) :=
  List.decidableBAll (fun b => b = 32 ∨ b = 9 ∨ b = 10 ∨ b = 13) t

/-- Texts in order, with one comma between two of them and blanks around each. -/
inductive Spaced : List Text → Text → Prop where
  | none {w : Text} : Blank w → Spaced [] w
  | one {v t w : Text} : Blank v → Blank w → Spaced [t] (v ++ t ++ w)
  | more {v t w u : Text} {ts : List Text} {rest : Text} : Blank v → Blank w →
      Spaced (u :: ts) rest → Spaced (t :: u :: ts) (v ++ t ++ w ++ "," ++ rest)

/-- What may stand between the quotes of a string. -/
inductive Characters : Text → Prop where
  | nil : Characters []
  | plain {b : UInt8} {t : Text} : 32 ≤ b → b ≠ Text.code '"' → b ≠ Text.code '\\' →
      Characters t → Characters (b :: t)
  | short {b : UInt8} {t : Text} : b ∈ Text.ofString "\"\\/bfnrt" →
      Characters t → Characters (Text.code '\\' :: b :: t)
  | numbered {ds t : Text} : ds.length = 4 → (∀ d ∈ ds, Text.isDigit 16 d = true) →
      Characters t → Characters (Text.code '\\' :: Text.code 'u' :: (ds ++ t))

/-- Decimal digits, at least one. -/
def Digits (t : Text) : Prop := t ≠ [] ∧ ∀ d ∈ t, Text.isDigit 10 d = true

/-- The fraction of a number, if it has one. -/
def Fraction (t : Text) : Prop := t = [] ∨ ∃ ds, Digits ds ∧ t = "." ++ ds

/-- The exponent of a number, if it has one. -/
def Exponent (t : Text) : Prop :=
  t = [] ∨ ∃ e sign ds : Text, (e = "e" ∨ e = "E") ∧ (sign = [] ∨ sign = "+" ∨ sign = "-")
    ∧ Digits ds ∧ t = e ++ sign ++ ds

/-- A number. It begins with a zero only if there is no other digit before its fraction. -/
def Number (t : Text) : Prop :=
  ∃ sign whole fraction exponent : Text, (sign = [] ∨ sign = "-") ∧ Digits whole
    ∧ (whole.head? = some (Text.code '0') → whole = "0") ∧ Fraction fraction ∧ Exponent exponent
    ∧ t = sign ++ whole ++ fraction ++ exponent

mutual

/-- A value. -/
inductive Value : Text → Prop where
  | literal {t : Text} : t ∈ [Text.ofString "true", "false", "null"] → Value t
  | number {t : Text} : Number t → Value t
  | string {t : Text} : Characters t → Value ("\"" ++ t ++ "\"")
  | array {ts : List Text} {body : Text} : (∀ t ∈ ts, Value t) → Spaced ts body →
      Value ("[" ++ body ++ "]")
  | object {ts : List Text} {body : Text} : (∀ t ∈ ts, Member t) → Spaced ts body →
      Value ("\x7b" ++ body ++ "\x7d")

/-- A member of an object. -/
inductive Member : Text → Prop where
  | mk {key v w t : Text} : Characters key → Blank v → Blank w → Value t →
      Member ("\"" ++ key ++ "\"" ++ v ++ ":" ++ w ++ t)

end

/-- An object with a given first member. -/
def ObjectFrom (first t : Text) : Prop :=
  ∃ ts body, (∀ u ∈ first :: ts, Member u) ∧ Spaced (first :: ts) body
    ∧ t = "\x7b" ++ body ++ "\x7d"

/-! ## What is written follows it -/

theorem blank_nil : Blank [] := fun _ hb => absurd hb List.not_mem_nil

theorem separated_cons_cons (t u : Text) (ts : List Text) :
    separated (t :: u :: ts) = t ++ "," ++ separated (u :: ts) := by
  simp [separated, List.intercalate]

theorem spaced_separated (ts : List Text) : Spaced ts (separated ts) := by
  induction ts with
  | nil => exact .none blank_nil
  | cons t ts ih =>
    cases ts with
    | nil =>
      have hone := Spaced.one (t := t) blank_nil blank_nil
      simpa [separated, List.intercalate] using hone
    | cons u ts =>
      have hmore := Spaced.more (t := t) blank_nil blank_nil ih
      rw [separated_cons_cons]
      simpa using hmore

theorem Blank.append {v w : Text} (hv : Blank v) (hw : Blank w) : Blank (v ++ w) := by
  intro b hb
  rcases List.mem_append.mp hb with hb | hb
  · exact hv b hb
  · exact hw b hb

/-- Texts as they stand behind one another, from a place behind a text on: each with a comma before
it, and blanks around both. What follows the last one is given. -/
inductive Behind (r : Text) : List Text → Text → Prop where
  | none {w : Text} : Blank w → Behind r [] (w ++ r)
  | more {w v u t : Text} {ts : List Text} : Blank w → Blank v → Behind r ts t →
      Behind r (u :: ts) (w ++ "," ++ v ++ u ++ t)

theorem Behind.of_blank {r t w : Text} {ts : List Text} (hw : Blank w) (h : Behind r ts t) :
    Behind r ts (w ++ t) := by
  cases h with
  | none hv =>
    rw [← List.append_assoc]
    exact .none (hw.append hv)
  | more hx hv hrest =>
    simp only [← List.append_assoc]
    exact .more (hw.append hx) hv hrest

/-- With one more comma before them, all texts stand behind one another. -/
theorem Spaced.behind {t body : Text} {ts : List Text} (h : Spaced (t :: ts) body) (r : Text) :
    Behind r (t :: ts) ("," ++ body ++ r) := by
  induction ts generalizing t body with
  | nil =>
    cases h with
    | one hv hw =>
      have hone := Behind.more (u := t) blank_nil hv (.none (r := r) hw)
      simpa using hone
  | cons u ts ih =>
    cases h with
    | more hv hw hrest =>
      have hmore := Behind.more (u := t) blank_nil hv ((ih hrest).of_blank hw)
      simpa using hmore

theorem number_decimal (n : Nat) : Number (Text.decimal n) :=
  ⟨[], Text.decimal n, [], [], Or.inl rfl,
    ⟨Text.decimal_ne_nil n, fun _ => Text.isDigit_of_mem_decimal⟩, Text.decimal_of_head?, Or.inl rfl,
    Or.inl rfl, by simp⟩

/-- A byte that is escaped is a byte of a string. -/
theorem characters_escape (b : UInt8) {t : Text} (h : Characters t) :
    Characters (escape b ++ t) := by
  rw [escape]
  split
  · exact .short (b := Text.code '"') (by decide) h
  split
  · exact .short (b := Text.code '\\') (by decide) h
  split
  · exact .short (b := Text.code 'n') (by decide) h
  split
  · exact .short (b := Text.code 'r') (by decide) h
  split
  · exact .short (b := Text.code 't') (by decide) h
  split
  · -- two zeros, and the two digits of the byte
    have hzeros : ∀ d ∈ Text.ofString "00", Text.isDigit 16 d = true :=
      List.all_eq_true.mp (by decide)
    have hdigits : ∀ d ∈ Text.ofString "00" ++ Text.hexByte b, Text.isDigit 16 d = true := by
      intro d hd
      rcases List.mem_append.mp hd with hd | hd
      · exact hzeros d hd
      · have hb := b.toNat_lt
        rcases List.mem_cons.mp hd with rfl | hd
        · exact Text.isDigit_digitByte (by omega) (by omega)
        · obtain rfl := List.mem_singleton.mp hd
          exact Text.isDigit_digitByte (by omega) (by omega)
    exact .numbered rfl hdigits h
  · rename_i hquote hslash _ _ _ hcontrol
    exact .plain (UInt8.not_lt.mp hcontrol) hquote hslash h

theorem characters_flatMap_escape (t : Text) : Characters (t.flatMap escape) := by
  induction t with
  | nil => exact .nil
  | cons b t ih => exact characters_escape b ih

mutual

/-- **Every value is written in JSON.** -/
theorem value_render : (x : Json) → Value x.render
  | .bool true => .literal (by simp [render])
  | .bool false => .literal (by simp [render])
  | .number n => .number (number_decimal n)
  | .string t => .string (characters_flatMap_escape t)
  | .array xs => .array (value_of_mem_renderAll xs) (spaced_separated _)
  | .object ms => .object (member_of_mem_renderMembers ms) (spaced_separated _)

theorem value_of_mem_renderAll : (xs : List Json) → ∀ t ∈ renderAll xs, Value t
  | [], _, h => absurd h List.not_mem_nil
  | x :: xs, t, h => by
    rcases List.mem_cons.mp h with rfl | h
    · exact value_render x
    · exact value_of_mem_renderAll xs t h

theorem member_of_mem_renderMembers :
    (ms : List (String × Json)) → ∀ t ∈ renderMembers ms, Member t
  | [], _, h => absurd h List.not_mem_nil
  | (key, x) :: ms, t, h => by
    rcases List.mem_cons.mp h with rfl | h
    · have hmember := Member.mk (characters_flatMap_escape key) blank_nil blank_nil (value_render x)
      simpa [quote] using hmember
    · exact member_of_mem_renderMembers ms t h

end

theorem objectFrom_render (key : String) (x : Json) (ms : List (String × Json)) :
    ObjectFrom (quote key ++ ":" ++ x.render) (object ((key, x) :: ms)).render :=
  ⟨renderMembers ms, _, member_of_mem_renderMembers ((key, x) :: ms), spaced_separated _, rfl⟩

/-! ## One line -/

/-- No control characters, so no line ends. -/
def Printable (t : Text) : Prop := ∀ b ∈ t, 32 ≤ b

instance (t : Text) : Decidable (Printable t) := List.decidableBAll (32 ≤ ·) t

theorem Printable.append {t u : Text} (ht : Printable t) (hu : Printable u) :
    Printable (t ++ u) := by
  intro b hb
  rcases List.mem_append.mp hb with hb | hb
  · exact ht b hb
  · exact hu b hb

theorem printable_escape (b : UInt8) : Printable (escape b) := by
  have hshort : ∀ t ∈ [Text.ofString "\\\"", "\\\\", "\\n", "\\r", "\\t", "\\u00"],
      Printable t := by
    decide
  rw [escape]
  split
  · exact hshort "\\\"" (by simp)
  split
  · exact hshort "\\\\" (by simp)
  split
  · exact hshort "\\n" (by simp)
  split
  · exact hshort "\\r" (by simp)
  split
  · exact hshort "\\t" (by simp)
  split
  · refine Printable.append (hshort "\\u00" (by simp)) fun x hx => ?_
    have hb := b.toNat_lt
    rcases List.mem_cons.mp hx with rfl | hx
    · exact Text.le_digitByte (by omega)
    · obtain rfl := List.mem_singleton.mp hx
      exact Text.le_digitByte (by omega)
  · rename_i hcontrol
    intro x hx
    obtain rfl := List.mem_singleton.mp hx
    exact UInt8.not_lt.mp hcontrol

theorem printable_quote (t : Text) : Printable (quote t) := by
  have hmark : Printable "\"" := by decide
  refine (hmark.append fun x hx => ?_).append hmark
  obtain ⟨b, -, hx⟩ := List.mem_flatMap.mp hx
  exact printable_escape b x hx

theorem printable_decimal (n : Nat) : Printable (Text.decimal n) := by
  intro b hb
  obtain ⟨d, hd, rfl⟩ := List.mem_map.mp hb
  have hlt := Text.lt_of_mem_digits (by omega) hd
  exact Text.le_digitByte (by omega)

theorem printable_separated {ts : List Text} (h : ∀ t ∈ ts, Printable t) :
    Printable (separated ts) := by
  have hcomma : Printable "," := by decide
  induction ts with
  | nil => exact fun b hb => absurd hb (by simp [separated])
  | cons t ts ih =>
    cases ts with
    | nil => simpa [separated, List.intercalate] using h t (by simp)
    | cons u ts =>
      rw [separated_cons_cons]
      refine ((h t (by simp)).append hcomma).append (ih fun x hx => ?_)
      exact h x (List.mem_cons_of_mem t hx)

mutual

/-- **Every value is written on one line.** -/
theorem printable_render : (x : Json) → Printable x.render
  | .bool true => by
    have htrue : Printable "true" := by decide
    exact htrue
  | .bool false => by
    have hfalse : Printable "false" := by decide
    exact hfalse
  | .number n => printable_decimal n
  | .string t => printable_quote t
  | .array xs => by
    have hopen : Printable "[" := by decide
    have hclose : Printable "]" := by decide
    exact (hopen.append (printable_separated (printable_renderAll xs))).append hclose
  | .object ms => by
    have hopen : Printable "\x7b" := by decide
    have hclose : Printable "\x7d" := by decide
    exact (hopen.append (printable_separated (printable_renderMembers ms))).append hclose

theorem printable_renderAll : (xs : List Json) → ∀ t ∈ renderAll xs, Printable t
  | [], _, h => absurd h List.not_mem_nil
  | x :: xs, t, h => by
    rcases List.mem_cons.mp h with rfl | h
    · exact printable_render x
    · exact printable_renderAll xs t h

theorem printable_renderMembers :
    (ms : List (String × Json)) → ∀ t ∈ renderMembers ms, Printable t
  | [], _, h => absurd h List.not_mem_nil
  | (key, x) :: ms, t, h => by
    rcases List.mem_cons.mp h with rfl | h
    · have hcolon : Printable ":" := by decide
      exact ((printable_quote key).append hcolon).append (printable_render x)
    · exact printable_renderMembers ms t h

end

end Disassembler.Json
