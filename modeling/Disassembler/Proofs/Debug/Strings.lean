import Disassembler.Debug.Reader
import Disassembler.Proofs.Json

/-!
# Strings that were written are read

Strings are written byte by byte, and read in two passes: one finds the closing quote, and the other
resolves what is escaped before it. Both take the escapes one after another, as they were written,
so neither can begin in the middle of one. That carries through strings of any bytes; only a NUL has
no escape that is read back. The quotes in what is written tell the same story without a reader: an
odd number of backslashes stands before each of them, but for the first and the last one.
-/

namespace Disassembler.Debug

variable {b c : UInt8} {t u : Text}

/-! ## To the closing quote -/

theorem untilQuote_quote (r : Text) : untilQuote (Text.code '"' :: r) = ([], r) := by
  cases r with
  | nil => rfl
  | cons c r => rw [untilQuote, if_neg (by decide), if_pos rfl]

/-- The search for the closing quote goes over a text as it is. -/
def Passed (t : Text) : Prop :=
  ∀ r, untilQuote (t ++ r) = (t ++ (untilQuote r).1, (untilQuote r).2)

theorem passed_nil : Passed [] := fun _ => rfl

theorem Passed.append (ht : Passed t) (hu : Passed u) : Passed (t ++ u) := by
  intro r
  rw [List.append_assoc, ht, hu]
  simp

theorem passed_escaped (c : UInt8) : Passed [Text.code '\\', c] := by
  intro r
  rw [List.cons_append, List.cons_append, untilQuote, if_pos rfl]
  rfl

theorem passed_plain (hslash : b ≠ Text.code '\\') (hquote : b ≠ Text.code '"') :
    Passed [b] := by
  intro r
  cases r with
  | nil =>
    show untilQuote [b] = ([b], [])
    rw [untilQuote, if_neg hquote]
  | cons c r =>
    rw [List.singleton_append, untilQuote, if_neg hslash, if_neg hquote]
    rfl

/-- A digit is neither a quote nor a backslash. -/
theorem digitByte_ne {d : Nat} (h : d < 16) :
    Text.digitByte d ≠ Text.code '\\' ∧ Text.digitByte d ≠ Text.code '"' := by
  have hdigit := Text.isDigit_digitByte (by omega) h
  refine ⟨fun heq => ?_, fun heq => ?_⟩
  · rw [heq] at hdigit
    exact absurd hdigit (by decide)
  · rw [heq] at hdigit
    exact absurd hdigit (by decide)

/-- What holds of the pieces of which escapes are made holds of a text that is escaped: a backslash
with the byte that it escapes, and any other byte that is neither a quote nor a backslash. -/
theorem forall_flatMap_escape {P : Text → Prop} (hnil : P [])
    (happend : ∀ t u, P t → P u → P (t ++ u)) (hescaped : ∀ c, P [Text.code '\\', c])
    (hplain : ∀ b, b ≠ Text.code '\\' → b ≠ Text.code '"' → P [b]) (s : Text) :
    P (s.flatMap Json.escape) := by
  have hdigit : ∀ d < 16, P [Text.digitByte d] := fun d hd =>
    hplain _ (digitByte_ne hd).1 (digitByte_ne hd).2
  have hescape : ∀ b, P (Json.escape b) := by
    intro b
    rw [Json.escape]
    split
    · exact hescaped (Text.code '"')
    split
    · exact hescaped (Text.code '\\')
    split
    · exact hescaped (Text.code 'n')
    split
    · exact hescaped (Text.code 'r')
    split
    · exact hescaped (Text.code 't')
    split
    · -- an escaped letter and four digits
      have hb := b.toNat_lt
      have hzeros := happend _ _ (hdigit 0 (by omega)) (hdigit 0 (by omega))
      have hbyte := happend _ _ (hdigit (b.toNat / 16) (by omega))
        (hdigit (b.toNat % 16) (by omega))
      exact happend _ _ (happend _ _ (hescaped (Text.code 'u')) hzeros) hbyte
    · rename_i hquote hslash _ _ _ _
      exact hplain b hslash hquote
  induction s with
  | nil => exact hnil
  | cons b s ih => exact happend _ _ (hescape b) ih

theorem passed_flatMap_escape (s : Text) : Passed (s.flatMap Json.escape) :=
  forall_flatMap_escape passed_nil (fun _ _ => Passed.append) passed_escaped
    (fun _ => passed_plain) s

/-! ## Escapes -/

theorem unescape_plain (h : b ≠ Text.code '\\') (r : Text) : unescape (b :: r) = b :: unescape r := by
  cases r with
  | nil => simp [unescape]
  | cons c r => rw [unescape, if_neg h]

theorem unescape_short {e : UInt8} (h : plainEscape? c = some e) (r : Text) :
    unescape (Text.code '\\' :: c :: r) = e :: unescape r := by
  rw [unescape, if_pos rfl, h]

theorem unescape_numbered {ds : Text} (hds : ds.length = 4) (r : Text) :
    unescape (Text.code '\\' :: Text.code 'u' :: (ds ++ r)) = numberedEscape ds :: unescape r := by
  have hplain : plainEscape? (Text.code 'u') = none := by decide
  rw [unescape, if_pos rfl, hplain]
  simp only [if_true]
  rw [List.take_left' hds, List.drop_left' hds]

/-- The number of a control character is read as the character. -/
theorem numberedEscape_hexByte (h : b < 32) (hb : b ≠ 0) :
    numberedEscape ("00" ++ Text.hexByte b) = b := by
  have hall : ∀ n < 32, n ≠ 0 →
      numberedEscape ("00" ++ Text.hexByte (UInt8.ofNat n)) = UInt8.ofNat n := by
    decide
  have hlt : b.toNat < 32 := UInt8.lt_iff_toNat_lt.mp h
  have hne : b.toNat ≠ 0 := fun hzero => hb (UInt8.toNat_inj.mp hzero)
  have hbyte := hall b.toNat hlt hne
  rwa [UInt8.ofNat_toNat] at hbyte

/-- The byte that is read where a byte was written. -/
def readAs (b : UInt8) : UInt8 := if b = 0 then Text.code '?' else b

theorem readAs_of_ne (h : b ≠ 0) : readAs b = b := if_neg h

/-- **A byte that was escaped is read as itself**, unless it is a NUL. -/
theorem unescape_escape (b : UInt8) (r : Text) :
    unescape (Json.escape b ++ r) = readAs b :: unescape r := by
  rw [Json.escape]
  split
  · rename_i heq
    exact heq ▸ unescape_short (c := Text.code '"') (by decide) r
  split
  · rename_i heq
    exact heq ▸ unescape_short (c := Text.code '\\') (by decide) r
  split
  · rename_i heq
    exact heq ▸ unescape_short (c := Text.code 'n') (by decide) r
  split
  · rename_i heq
    exact heq ▸ unescape_short (c := Text.code 'r') (by decide) r
  split
  · rename_i heq
    exact heq ▸ unescape_short (c := Text.code 't') (by decide) r
  split
  · rename_i hcontrol
    have hdigits : (Text.ofString "00" ++ Text.hexByte b).length = 4 := rfl
    have hnumbered := unescape_numbered hdigits r
    by_cases hb : b = 0
    · subst hb
      exact hnumbered
    · rw [numberedEscape_hexByte hcontrol hb] at hnumbered
      rw [readAs_of_ne hb]
      exact hnumbered
  · rename_i hslash _ _ _ hcontrol
    have hb : b ≠ 0 := fun hzero => hcontrol (hzero ▸ by decide)
    rw [readAs_of_ne hb]
    exact unescape_plain hslash r

theorem unescape_flatMap_escape (s : Text) : unescape (s.flatMap Json.escape) = s.map readAs := by
  induction s with
  | nil => rw [List.flatMap_nil, unescape, List.map_nil]
  | cons b s ih => rw [List.flatMap_cons, unescape_escape, ih, List.map_cons]

/-- What stands between quotes is read up to the second one. -/
theorem string?_of_passed (h : Passed t) (r : Text) :
    string? (Text.code '"' :: (t ++ Text.code '"' :: r)) = some (unescape t, r) := by
  rw [string?, if_pos rfl, h, untilQuote_quote, List.append_nil]

/-- What is read where a string was written, whatever follows it. -/
theorem string?_quote_eq (s r : Text) : string? (Json.quote s ++ r) = some (s.map readAs, r) := by
  have hquote : Json.quote s ++ r
      = Text.code '"' :: (s.flatMap Json.escape ++ Text.code '"' :: r) := by
    rw [Json.quote, List.append_assoc, List.append_assoc]
    rfl
  rw [hquote, string?_of_passed (passed_flatMap_escape s), unescape_flatMap_escape]

/-- A text has no NUL if it is read as itself. -/
theorem map_readAs_eq_iff {s : Text} : s.map readAs = s ↔ 0 ∉ s := by
  constructor
  · intro heq hzero
    have hall : ∀ b ∈ s, readAs b = id b := List.map_inj_left.mp (heq.trans (List.map_id s).symm)
    exact absurd (hall 0 hzero) (by decide)
  · intro hzero
    have hall : ∀ b ∈ s, readAs b = id b := fun b hb =>
      readAs_of_ne fun heq => hzero (heq ▸ hb)
    rw [List.map_congr_left hall, List.map_id]

/-- **A string that was written is read**, whatever follows it. -/
theorem string?_quote {s : Text} (h : 0 ∉ s) (r : Text) :
    string? (Json.quote s ++ r) = some (s, r) := by
  rw [string?_quote_eq, map_readAs_eq_iff.mpr h]

/-! ## Quotes in what is written -/

/-- What stands behind the text is escaped: an odd number of backslashes stands right before it. -/
def EndsEscaping (t : Text) : Prop := (t.reverse.takeWhile (· = Text.code '\\')).length % 2 = 1

theorem endsEscaping_concat (t : Text) (b : UInt8) :
    EndsEscaping (t ++ [b]) ↔ b = Text.code '\\' ∧ ¬ EndsEscaping t := by
  rw [EndsEscaping, EndsEscaping, List.reverse_concat]
  by_cases hb : b = Text.code '\\'
  · rw [List.takeWhile_cons_of_pos (by simpa using hb), List.length_cons]
    have hparity : ∀ n, (n + 1) % 2 = 1 ↔ ¬ n % 2 = 1 := by omega
    rw [hparity, and_iff_right hb]
  · rw [List.takeWhile_cons_of_neg (by simpa using hb)]
    exact ⟨fun h => absurd h (by decide), fun h => absurd h.1 hb⟩

/-- Behind a text that escapes nothing, another one has escaped all of its quotes, and escapes
nothing behind it. -/
def QuotesEscaped (t : Text) : Prop :=
  ∀ front, ¬ EndsEscaping front → ¬ EndsEscaping (front ++ t)
    ∧ ∀ mid back, t = mid ++ Text.code '"' :: back → EndsEscaping (front ++ mid)

theorem quotesEscaped_nil : QuotesEscaped [] := by
  intro front hfront
  rw [List.append_nil]
  exact ⟨hfront, fun mid back heq => absurd heq (by simp)⟩

theorem QuotesEscaped.append (ht : QuotesEscaped t) (hu : QuotesEscaped u) :
    QuotesEscaped (t ++ u) := by
  intro front hfront
  obtain ⟨hmiddle, hfirst⟩ := ht front hfront
  obtain ⟨hend, hsecond⟩ := hu (front ++ t) hmiddle
  rw [← List.append_assoc]
  refine ⟨hend, fun mid back heq => ?_⟩
  -- the quote is in the first text or in the second one
  rcases List.append_eq_append_iff.mp heq with ⟨v, hmid, hback⟩ | ⟨v, ht, hback⟩
  · rw [hmid, ← List.append_assoc]
    exact hsecond v back hback
  · cases v with
    | nil =>
      rw [List.append_nil] at ht
      rw [← ht, ← List.append_nil (front ++ t)]
      exact hsecond [] back hback.symm
    | cons b v =>
      obtain ⟨rfl, -⟩ := List.cons.inj hback
      exact hfirst mid v ht

theorem quotesEscaped_escaped (c : UInt8) : QuotesEscaped [Text.code '\\', c] := by
  intro front hfront
  have hslash : EndsEscaping (front ++ [Text.code '\\']) :=
    (endsEscaping_concat _ _).mpr ⟨rfl, hfront⟩
  have hsplit : front ++ [Text.code '\\', c] = (front ++ [Text.code '\\']) ++ [c] := by simp
  refine ⟨?_, fun mid back heq => ?_⟩
  · rw [hsplit, endsEscaping_concat]
    exact fun hboth => hboth.2 hslash
  · cases mid with
    | nil => exact absurd (List.cons.inj heq).1 (by decide)
    | cons b mid =>
      obtain ⟨rfl, hrest⟩ := List.cons.inj heq
      cases mid with
      | nil => exact hslash
      | cons d mid => exact absurd (List.cons.inj hrest).2 (by simp)

theorem quotesEscaped_plain (hslash : b ≠ Text.code '\\') (hquote : b ≠ Text.code '"') :
    QuotesEscaped [b] := by
  intro front hfront
  refine ⟨fun hends => hslash ((endsEscaping_concat _ _).mp hends).1, fun mid back heq => ?_⟩
  cases mid with
  | nil => exact absurd (List.cons.inj heq).1 hquote
  | cons d mid => exact absurd (List.cons.inj heq).2 (by simp)

/-- **Every quote in a text that is escaped is escaped itself.** -/
theorem quotesEscaped_flatMap_escape (s : Text) : QuotesEscaped (s.flatMap Json.escape) :=
  forall_flatMap_escape quotesEscaped_nil (fun _ _ => QuotesEscaped.append) quotesEscaped_escaped
    (fun _ => quotesEscaped_plain) s

/--
**Strings come back from what is written of them.**

Write any bytes as a string, and put anything behind it. It is read as exactly those bytes, up to
its closing quote, if and only if none of them is a NUL. No control character is in what is written,
and an odd number of backslashes stands before each quote in it but the first and the last one.
-/
theorem read_back_iff (s r : Text) :
    (string? (Json.quote s ++ r) = some (s, r) ↔ 0 ∉ s)
      ∧ Json.Printable (Json.quote s)
      ∧ ∃ inner, Json.quote s = Text.code '"' :: (inner ++ [Text.code '"'])
        ∧ ∀ front back, inner = front ++ Text.code '"' :: back → EndsEscaping front := by
  refine ⟨?_, Json.printable_quote s, s.flatMap Json.escape, rfl, fun front back heq => ?_⟩
  · rw [string?_quote_eq, Option.some.injEq, Prod.mk.injEq, map_readAs_eq_iff]
    exact and_iff_left rfl
  · have hnothing : ¬ EndsEscaping [] := by simp [EndsEscaping]
    exact (quotesEscaped_flatMap_escape s [] hnothing).2 front back heq

end Disassembler.Debug
