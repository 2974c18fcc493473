import Disassembler.Mangling

/-!
# Symbols

A symbol gives an address a name. Compilers emit symbols of their own for string literals and
tables; these *intrinsic* symbols never serve as labels, and any other symbol at the same address
is preferred to them.
-/

namespace Disassembler

/-- What a symbol names. -/
inductive SymbolKind where
  | function
  | object
  | label
  | entry
  deriving DecidableEq, Inhabited

namespace SymbolKind

/-- All kinds, in the order in which they are listed. -/
def all : List SymbolKind := [function, object, label, entry]

/-- The printed name of a kind. -/
def name : SymbolKind → String
  | function => "function"
  | object => "object"
  | label => "label"
  | entry => "entry"

end SymbolKind

/-- A name for an address. -/
structure Symbol where
  address : UInt64
  /-- The name as the linker knows it. -/
  name : Text
  kind : SymbolKind
  deriving DecidableEq, Inhabited

namespace Symbol

/-- The name in its source form. -/
def display (s : Symbol) : Text := Mangling.demangle s.name

/-- How the names of intrinsic symbols begin. -/
def intrinsicStarts : List String := [".L", "str.", "anon.", "GCC_except_table"]

/-- Does a compiler give such a name to things of its own? A symbol without a name counts. -/
def isIntrinsicName (name : Text) : Bool :=
  name.isEmpty || intrinsicStarts.any fun s => (Text.ofString s).isPrefixOf name

/-- Is the symbol of the compiler's own making? -/
def isIntrinsic (s : Symbol) : Bool := isIntrinsicName s.name

/-- The preference among symbols of one address, lowest first. -/
def rank (s : Symbol) : Nat :=
  if s.isIntrinsic then 3
  else
    match s.kind with
    | .function => 0
    | .entry => 1
    | .object | .label => 2

/-- The order of the symbol table: by address, and at one address by preference. -/
def precedes (s t : Symbol) : Bool :=
  if s.address = t.address then s.rank ≤ t.rank else s.address < t.address

/-- The symbol of an entry point that nothing else names. -/
def entryPoint (a : UInt64) : Symbol :=
  { address := a, name := Text.ofString "entry", kind := .entry }

end Symbol

end Disassembler
