import Disassembler.Console

/-!
# The program

The program loads an image that its arguments name. Then it prints some rows of the listing, or it
carries out the commands on its standard input, one line at a time. Arguments are read from left to
right, and the first one that cannot be understood ends the program.
-/

namespace Disassembler.Program

/-! ## Arguments -/

/-- What the arguments ask for. -/
structure Options where
  load : LoadOptions := {}
  config : Config := {}
  /-- The path of the image. -/
  image : Option Text := none
  /-- The rows to print; a negative number prints none and reads commands. -/
  rows : Int := -1
  /-- The port on which to serve commands, if it is positive. -/
  port : Int := -1
  /-- A command for a program that serves. -/
  request : Option Text := none
  deriving Inhabited

/-- Why the arguments alone end the program. -/
inductive Ending where
  | help
  | unknownMachine (word : Text)
  | unknownArgument (word : Text)
  deriving DecidableEq

/-- The first line of the usage, in which the program is named twice. -/
def usageHead (name : Text) : Text :=
  "Usage: " ++ name ++ " [options] <image>\n       " ++ name ++ " --cmd \"command\" [--port N]\n\n"

/-- The lines that explain the options. -/
def optionLines : List String := [
  "Options:",
  "  --arch NAME         x86_64, arm, aarch64, riscv64, mips",
  "  --base ADDR         Load address in hex (default: 0)",
  "  --entry ADDR        Entry point in hex (default: base)",
  "  --big-endian        Big-endian instruction words (arm, mips)",
  "  --debug FILE        Debug JSON (default: <image>.dbg.json)",
  "  --workers N         Sweep worker threads (default: all cores)",
  "  --follow-pointers   Seed targets of jumps through code pointers",
  "  --discard-overlap   Drop colliding runs instead of marking them",
  "  --sweep-past-jumps  Keep decoding after a jump to undiscovered code",
  "  --list N            Print N listing rows from the entry and exit",
  "  --port N            Serve commands on TCP port N",
  "  --cmd \"command\"     Send command to running instance and exit",
  ""]

/-- How the program is used. -/
def usage (name : Text) : Text :=
  usageHead name ++ optionLines.flatMap fun l => Text.ofString l ++ [Text.newline]

/-- The 32-bit integer that a decimal number wraps to. -/
def int32 (t : Text) : Int := (Numeral.integer (some 10) t).bmod (1 <<< 32)

/-- An option that stands alone. -/
def flag? (o : Options) (word : Text) : Option Options :=
  if word = Text.ofString "--big-endian" then
    some { o with load := { o.load with order := .big } }
  else if word = Text.ofString "--follow-pointers" then
    some { o with config := { o.config with indirection := .followPointers } }
  else if word = Text.ofString "--discard-overlap" then
    some { o with config := { o.config with overlap := .discardRun } }
  else if word = Text.ofString "--sweep-past-jumps" then
    some { o with config := { o.config with pastJumps := true } }
  else none

/-- An option with a value; nothing if the word is none. -/
def valued? (o : Options) (word value : Text) : Option (Except Ending Options) :=
  if word = Text.ofString "--arch" then
    some <| match Machine.ofName? value with
      | some m => .ok { o with load := { o.load with machine := some m } }
      | none => .error (.unknownMachine value)
  else if word = Text.ofString "--base" then
    some (.ok { o with load := { o.load with base := Numeral.hexAddress value } })
  else if word = Text.ofString "--entry" then
    some (.ok { o with load := { o.load with entry := some (Numeral.hexAddress value) } })
  else if word = Text.ofString "--debug" then
    some (.ok { o with load := { o.load with debugPath := value } })
  else if word = Text.ofString "--workers" then
    let workers := (int32 value % (1 <<< 32 : Nat)).toNat
    some (.ok { o with config := { o.config with workers } })
  else if word = Text.ofString "--list" then
    some (.ok { o with rows := Numeral.integer (some 10) value })
  else if word = Text.ofString "--port" then some (.ok { o with port := int32 value })
  else if word = Text.ofString "--cmd" then some (.ok { o with request := some value })
  else none

/-- A word that is no option with a value: one that stands alone, a request for help, or the path
of the image, if none was given and the word does not look like an option. -/
def single (o : Options) (word : Text) : Except Ending Options :=
  match flag? o word with
  | some o => .ok o
  | none =>
    if word = Text.ofString "--help" ∨ word = Text.ofString "-h" then .error .help
    else if o.image.isNone ∧ word.head? ≠ some (Text.code '-') then
      .ok { o with image := some word }
    else .error (.unknownArgument word)

/-- What arguments ask for. -/
def parse (o : Options) : List Text → Except Ending Options
  | [] => .ok o
  | [word] => single o word
  | word :: value :: rest =>
    match valued? o word value with
    | some (.ok o) => parse o rest
    | some (.error e) => .error e
    | none =>
      match single o word with
      | .ok o => parse o (value :: rest)
      | .error e => .error e

/-! ## Output -/

/-- What a program leaves behind. -/
structure Outcome where
  exit : Nat
  output : Text := []
  diagnostics : Text := []
  deriving DecidableEq

/-- A line. -/
def line (t : Text) : Text := t ++ [Text.newline]

/-- Notes as they are written to the diagnostics. -/
def notes (ts : List Text) : Text := ts.flatMap fun t => line ("[dissect] " ++ t)

/-- The width to which a row is filled before its location. -/
def locationColumn : Nat := 60

/-- A row as it is printed. Labels and section marks stand apart. -/
def printedRow (r : Row) : Text :=
  let text := r.text.untilNul
  if r.kind = .label ∨ r.kind = .sectionMark then [Text.newline] ++ line text
  else
    match r.location.filter (·.line ≠ 0) with
    | some l =>
      line (text.padRight locationColumn ++ " ; " ++ l.file.untilNul ++ ":"
        ++ Text.decimal l.line.toNat)
    | none => line text

/-! ## Running -/

/-- The outcome of arguments that end the program. -/
def Ending.outcome (name : Text) : Ending → Outcome
  | help => { exit := 0, diagnostics := usage name }
  | unknownMachine word => { exit := 1, diagnostics := line ("Unknown architecture: " ++ word) }
  | unknownArgument word =>
    { exit := 1, diagnostics := line ("Unknown argument: " ++ word) ++ usage name }

/-- The options of the load that the arguments ask for. -/
def Options.imageOptions (o : Options) : Option LoadOptions :=
  o.image.map fun path => { o.load with path }

/-- The console before any command, with the image loaded if one is named; and the diagnostics. -/
def begin (files : Files) (o : Options) : Except Text (Console × Text) :=
  let console : Console := { session := { config := o.config }, defaults := o.load }
  match o.imageOptions with
  | none => .ok (console, [])
  | some load =>
    let outcome : Session.Outcome Unit := console.session.loadFile none files load
    match outcome.error with
    | none => .ok ({ console with session := outcome.session }, notes outcome.log)
    | some e =>
      .error (notes (outcome.log ++ ["Cannot load " ++ load.path ++ ": " ++ e.message.untilNul]))

/-- The rows of the listing from the entry point on; nothing if nothing is loaded. -/
def listRows (c : Console) (count : Int) : Option (List Row) :=
  c.session.current.map fun l => (c.scroll l .forward count).1

/-- The most bytes of a line that are read at once. -/
def lineLimit : Nat := 4095

/-- The first line of a text, or as much of it as fits, and the rest. -/
def firstPiece : Nat → Text → Text × Text
  | 0, t => ([], t)
  | _ + 1, [] => ([], [])
  | n + 1, b :: rest =>
    if b = Text.newline then ([b], rest)
    else
      let (piece, left) := firstPiece n rest
      (b :: piece, left)

/-- What follows the first piece is no longer than the text. -/
theorem firstPiece_length_le (n : Nat) (t : Text) : (firstPiece n t).2.length ≤ t.length := by
  fun_induction firstPiece n t with
  | case1 => exact Nat.le_refl _
  | case2 => exact Nat.le_refl _
  | case3 => simp
  | case4 n b rest hb piece left h ih =>
    rw [h] at ih
    exact Nat.le_succ_of_le ih

/-- The lines of a text with their line ends, where a line that does not fit is cut in pieces. -/
def pieces (t : Text) : List Text :=
  match t with
  | [] => []
  | b :: rest =>
    let piece := firstPiece (lineLimit - 1) rest
    if b = Text.newline then [b] :: pieces rest else (b :: piece.1) :: pieces piece.2
termination_by t.length
decreasing_by
  · simp
  · have := firstPiece_length_le (lineLimit - 1) rest
    simp only [List.length_cons]
    omega

/-- Carries out lines until there are none or the console has stopped: the replies and the
diagnostics. -/
def converse (files : Files) (c : Console) : List Text → Text × Text
  | [] => ([], [])
  | l :: rest =>
    if c.running then
      let o : Console.Outcome Unit := c.process none files l
      let (output, diagnostics) := converse files o.console rest
      (Console.written o.reply ++ output, notes o.log ++ diagnostics)
    else ([], [])

/-- How a program goes on when its arguments are carried out. -/
inductive Start where
  /-- It has ended. -/
  | ended (o : Outcome)
  /-- It reads commands, after it has written diagnostics. -/
  | conversing (c : Console) (diagnostics : Text)

/-- Carries out the arguments. Serving commands and sending one to a program that serves need a
network, which there is none of here. -/
def start (name : Text) (files : Files) (o : Options) : Start :=
  if o.request.isSome then
    .ended { exit := 1, diagnostics := line "connect: Network is unreachable" }
  else
    match begin files o with
    | .error diagnostics => .ended { exit := 1, diagnostics }
    | .ok (c, diagnostics) =>
      if 0 ≤ o.rows then
        match listRows c o.rows with
        | some rows => .ended { exit := 0, output := rows.flatMap printedRow, diagnostics }
        | none => .ended { exit := 1, diagnostics := diagnostics ++ usage name }
      else if 0 < o.port then
        .ended { exit := 1, diagnostics := diagnostics ++ notes ["socket: Network is unreachable"] }
      else .conversing c diagnostics

/-- Runs the program under a name, with files, arguments and a standard input. -/
def run (name : Text) (files : Files) (args : List Text) (input : Text) : Outcome :=
  match parse {} args with
  | .error e => e.outcome name
  | .ok o =>
    match start name files o with
    | .ended outcome => outcome
    | .conversing c diagnostics =>
      let (output, more) := converse files c (pieces input)
      { exit := 0, output, diagnostics := diagnostics ++ more }

end Disassembler.Program
