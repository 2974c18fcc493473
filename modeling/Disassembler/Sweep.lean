import Disassembler.Coverage
import Disassembler.Decode
import Disassembler.Image

/-!
# Sweeps

A sweep decodes one instruction after another from a seed, an address at which code is believed to
start. It ends where control cannot go on, where the code ends, and where code that is confirmed
already begins. Too many invalid entries in a row mean that the sweep has fallen into data; those
entries are dropped.
-/

namespace Disassembler

/-- What becomes of a run that meets confirmed code. -/
inductive Overlap where
  /-- The bytes before the confirmed code become an invalid entry. -/
  | keepConfirmed
  /-- Those bytes are left out. -/
  | discardRun
  deriving DecidableEq, Inhabited

/-- Are code pointers followed? -/
inductive Indirection where
  | ignore
  /-- A jump through a pointer at a known address makes its target a seed. -/
  | followPointers
  deriving DecidableEq, Inhabited

/-- How code is discovered. -/
structure Config where
  /-- The number of workers that sweep; zero leaves it to the pool. -/
  workers : Nat := 0
  /-- The invalid entries in a row that are tolerated. -/
  invalidLimit : Nat := 8
  overlap : Overlap := .keepConfirmed
  indirection : Indirection := .ignore
  /-- Does a sweep go on behind a jump to code that is not known? -/
  pastJumps : Bool := false
  deriving DecidableEq, Inhabited

/-- Why an address is believed to hold code, strongest reason first. -/
inductive Origin where
  | entry
  | symbol
  | discovered
  | pointer
  deriving DecidableEq, Inhabited

namespace Origin

/-- All origins, in order of priority. -/
def all : List Origin := [entry, symbol, discovered, pointer]

/-- The printed name of an origin. -/
def name : Origin → String
  | entry => "entry"
  | symbol => "symbol"
  | discovered => "discovered"
  | pointer => "pointer"

/-- The priority, lowest first. -/
def rank : Origin → Nat
  | entry => 0
  | symbol => 1
  | discovered => 2
  | pointer => 3

end Origin

/-- An address from which to sweep. -/
structure Seed where
  address : UInt64
  origin : Origin
  deriving DecidableEq, Inhabited

namespace Image

/-- Does an address lie in an executable section? -/
def inCode (image : Image) (a : UInt64) : Bool := (image.sectionFor a).any (·.executable)

/-- The instruction at an address, from the bytes that back it. -/
def decodeAt (image : Image) (m : Machine) (a : UInt64) : Instruction :=
  decode m image.order (image.window a Instruction.maxBytes) a

end Image

/-! ## Where an instruction leads -/

/-- The address at which a memory operand reads, if it is known: relative to the instruction, or
absolute without registers. -/
def MemoryOperand.slot? (m : MemoryOperand) : Option UInt64 :=
  match m.pcTarget with
  | some t => some t
  | none =>
    if m.base.isNone ∧ m.index.isNone then some (UInt64.ofInt m.displacement) else none

/-- The code pointer that an operand reads, if it leads into code. -/
def Operand.codePointer? (image : Image) (m : Machine) : Operand → Option UInt64
  | .memory o => do
    let a ← image.readPointer (← o.slot?) m.pointerSize
    if image.inCode a then some a else none
  | _ => none

namespace Instruction

/-- The code pointer through which an instruction goes, if it goes through one. -/
def codePointer? (image : Image) (m : Machine) (i : Instruction) : Option UInt64 :=
  if i.flow = .indirect then i.operands.findSome? (·.codePointer? image m) else none

/-- The seeds to which an instruction leads. -/
def seeds (config : Config) (image : Image) (m : Machine) (i : Instruction) : List Seed :=
  (i.flow.target?.map fun a => { address := a, origin := .discovered }).toList
    ++ (if config.indirection = .followPointers then
        ((i.codePointer? image m).map fun a => { address := a, origin := .pointer }).toList
      else [])

end Instruction

/-! ## Sweeping -/

/-- What a sweep has decoded. -/
structure Run where
  seed : Seed
  entries : Array Instruction := #[]
  /-- Was it given up as data? -/
  isData : Bool := false
  deriving DecidableEq, Inhabited

/-- What a sweep works on. -/
structure Sweep where
  config : Config
  image : Image
  machine : Machine
  /-- What had been confirmed when the sweep began. -/
  coverage : Coverage
  seed : Seed

namespace Sweep

/-- Does control not go on behind a valid instruction? A jump is no end if sweeps go on behind
jumps, unless it leads into this run or to confirmed code. -/
def endsAt (s : Sweep) (i : Instruction) : Bool :=
  match i.flow with
  | .ret => true
  | .jump t =>
    !s.config.pastJumps || (s.seed.address ≤ t && t < i.stop) || s.coverage.isStart t
  | _ => false

/-- May an entry start at an address? It has to lie in code, and outside of confirmed entries;
only the seed itself may be the start of one. -/
def admits (s : Sweep) (isSeed : Bool) (a : UInt64) : Bool :=
  s.image.inCode a && (isSeed || !s.coverage.isStart a) && !s.coverage.inside a

/-- Sweeps on from an address. `invalid` counts the invalid entries in a row, and `last` holds of
a delay slot at which the sweep ends. The sweep asks before each entry whether it is cancelled. -/
def sweepFrom (s : Sweep) (cancelled : Nat → Bool) (entries : Array Instruction) (a : UInt64)
    (invalid : Nat) (last : Bool) : Run :=
  if cancelled entries.size ∨ ¬ s.admits entries.isEmpty a ∨ s.image.window a 1 = [] then
    { seed := s.seed, entries }
  else
    let i := s.image.decodeAt s.machine a
    let invalid := if i.isInvalid then invalid + 1 else 0
    if s.config.invalidLimit < invalid then
      { seed := s.seed, entries := entries.extract 0 (entries.size + 1 - invalid), isData := true }
    else
      let ending := !i.isInvalid && s.endsAt i
      if _h : a < i.stop ∧ ¬ last ∧ ¬ (ending ∧ s.machine.delaySlots = 0) then
        s.sweepFrom cancelled (entries.push i) i.stop invalid ending
      else { seed := s.seed, entries := entries.push i }
termination_by UInt64.size - a.toNat
decreasing_by
  have h₁ := UInt64.lt_iff_toNat_lt.mp _h.1
  have h₂ := UInt64.toNat_lt_size a
  exact Nat.sub_lt_sub_left h₂ h₁

/-- The run from the seed. -/
def run (s : Sweep) (cancelled : Nat → Bool) : Run :=
  s.sweepFrom cancelled #[] s.seed.address 0 false

end Sweep

end Disassembler
