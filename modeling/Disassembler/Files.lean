import Disassembler.Debug.Reader
import Disassembler.Image

/-!
# Files

An image file holds the bytes of one executable section and nothing else; where it lies in memory
and for which machine it is has to be said. Beside it there may be a debug file, which supplies
symbols and debug records.
-/

namespace Disassembler

/-- A file as a reader finds it. -/
inductive FileState where
  | contents (bytes : Text)
  /-- It can be opened, but its size cannot be told. -/
  | unsized
  /-- It cannot be opened, for a reason. -/
  | missing (reason : Text)
  deriving DecidableEq, Inhabited

/-- The files that can be read, by path. -/
abbrev Files := Text → FileState

namespace Files

/-- Can a file be opened? Paths end at their first NUL. -/
def contains (files : Files) (path : Text) : Bool :=
  match files path.untilNul with
  | .missing _ => false
  | .contents _ | .unsized => true

/-- The bytes of a file, or why it cannot be read. -/
def read (files : Files) (path : Text) : Except Text Text :=
  match files path.untilNul with
  | .contents bytes => .ok bytes
  | .unsized => .error (path.untilNul ++ ": cannot determine size")
  | .missing reason => .error (path.untilNul ++ ": " ++ reason)

end Files

/-- What is to be loaded, and what its bytes mean. -/
structure LoadOptions where
  /-- The path of the image. -/
  path : Text := []
  /-- The path of the debug file; when it is empty, the one beside the image. -/
  debugPath : Text := []
  machine : Option Machine := none
  /-- The address of the first byte. -/
  base : UInt64 := 0
  /-- The entry point, which is the first byte if nothing is said. -/
  entry : Option UInt64 := none
  order : ByteOrder := .little
  deriving DecidableEq, Inhabited

/-- Why an image file cannot be loaded. -/
inductive RawError where
  | noMachine
  | unreadable (reason : Text)
  deriving DecidableEq

/-- The message of an error. -/
def RawError.message : RawError → Text
  | noMachine => "no architecture given"
  | unreadable reason => reason

namespace LoadOptions

/-- The debug file beside an image. -/
def debugPathBeside (path : Text) : Text := path ++ ".dbg.json"

/-- The image of some bytes. -/
def imageOf (o : LoadOptions) (bytes : Text) (symbols : List Symbol) : Image :=
  let text : Section :=
    { name := Text.ofString ".text", start := o.base, size := UInt64.ofNat bytes.length
      permissions := { read := true, execute := true }, bytes := bytes.toArray }
  Image.build o.machine o.order (o.entry.getD o.base) [text] symbols

/-- Loads the image file. -/
def loadImage (o : LoadOptions) (files : Files) (symbols : List Symbol) : Except RawError Image :=
  if o.machine.isNone then .error .noMachine
  else
    match files.read o.path with
    | .error reason => .error (.unreadable reason)
    | .ok [] => .error (.unreadable (o.path.untilNul ++ ": empty file"))
    | .ok bytes => .ok (o.imageOf bytes symbols)

end LoadOptions

/-- Reads a debug file: what it says, and the number of its objects or the message that tells why
reading ended. -/
def Debug.load (files : Files) (path : Text) : Contents × Except Text Nat :=
  match files.read path with
  | .error reason => ({}, .error reason)
  | .ok bytes =>
    match Debug.read bytes with
    | (c, .ok count) => (c, .ok count)
    | (c, .error e) => (c, .error (path.untilNul ++ ": " ++ e.message))

end Disassembler
