import Disassembler.Word

/-!
# Reading an encoding byte by byte

An encoding of variable length is read by a `ByteReader`: a tree that has finished with a value,
has met an undefined encoding, or asks for one more byte. Which byte comes next can only depend
on the bytes before it, so every encoding that is read this way delimits itself: what follows the
bytes asked for has no influence.
-/

namespace Disassembler

/-- A program that reads bytes one at a time. -/
inductive ByteReader (α : Type) where
  | done (a : α)
  /-- The bytes read so far begin no encoding. -/
  | undefined
  /-- Ask for one more byte. -/
  | ask (k : UInt8 → ByteReader α)

namespace ByteReader

variable {α β : Type}

/-- One reader after another. -/
def bind : ByteReader α → (α → ByteReader β) → ByteReader β
  | done a, f => f a
  | undefined, _ => undefined
  | ask k, f => ask fun b => (k b).bind f

instance : Monad ByteReader where
  pure := done
  bind := bind

/-- The next byte. -/
def byte : ByteReader UInt8 := ask done

/-- The value of an option; nothing is undefined. -/
def ofOption : Option α → ByteReader α
  | some a => done a
  | none => undefined

/-- Undefined unless the condition holds. -/
def guard (c : Prop) [Decidable c] : ByteReader Unit := if c then done () else undefined

/-- An unsigned number of the given bytes, least significant first. -/
def unsigned : Nat → ByteReader Nat
  | 0 => done 0
  | n + 1 => do
    let low ← byte
    let high ← unsigned n
    return low.toNat + 256 * high

/-- A signed number of the given bytes, least significant first. -/
def signed (n : Nat) : ByteReader Int := do return signExtend (8 * n) (← unsigned n)

/-- How reading ends, with the bytes that are left. -/
inductive Outcome (α : Type) where
  | done (a : α) (rest : List UInt8)
  | undefined (rest : List UInt8)
  /-- A byte was asked for and there was none. -/
  | exhausted

/-- Reads from a list of bytes. -/
def run : ByteReader α → List UInt8 → Outcome α
  | done a, bs => .done a bs
  | undefined, bs => .undefined bs
  | ask _, [] => .exhausted
  | ask k, b :: bs => (k b).run bs

end ByteReader

end Disassembler
