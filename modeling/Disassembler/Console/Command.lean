import Disassembler.EditDistance
import Disassembler.Numeral

/-!
# Commands

A command line is a command, at most two words, and the rest of the line. Words are cut at a width,
and what is cut off begins the next word. An unknown command is answered with the known one that is
closest to it, if one is close.
-/

namespace Disassembler

/-- What the console can be told to do. -/
inductive Command where
  | load
  | info
  | goto
  | list
  | back
  | lookup
  | symbol
  | resolve
  | hex
  | seeds
  | help
  | quit
  deriving DecidableEq, Inhabited

namespace Command

/-- All commands, in the order in which they are listed. -/
def all : List Command :=
  [load, info, goto, list, back, lookup, symbol, resolve, hex, seeds, help, quit]

/-- The word of a command. -/
def name : Command → String
  | load => "load"
  | info => "info"
  | goto => "goto"
  | list => "list"
  | back => "back"
  | lookup => "lookup"
  | symbol => "symbol"
  | resolve => "resolve"
  | hex => "hex"
  | seeds => "seeds"
  | help => "help"
  | quit => "quit"

/-- How a command is written. -/
def usage : Command → String
  | load => "load <path> [arch] [base] [entry]"
  | info => "info"
  | goto => "goto <addr|symbol>"
  | list => "list [count]"
  | back => "back [count]"
  | lookup => "lookup <addr>"
  | symbol => "symbol <name>"
  | resolve => "resolve <addr>"
  | hex => "hex <addr> [rows]"
  | seeds => "seeds"
  | help => "help"
  | quit => "quit"

/-- The command of a word. -/
def ofName? (t : Text) : Option Command := all.find? fun c => Text.ofString c.name == t

/-- The edits within which a command is close to a word. -/
def closeness : Nat := 2

/-- The first command at the least distance from a word, with that distance. -/
def closest (t : Text) : List Command → Option (Command × Nat)
  | [] => none
  | c :: rest =>
    let d := editDistance t c.name
    match closest t rest with
    | some (e, n) => if n < d then some (e, n) else some (c, d)
    | none => some (c, d)

/-- The command that was probably meant by a word. -/
def suggest (t : Text) : Option Command := do
  let (c, d) ← closest t all
  if d ≤ closeness then some c else none

end Command

/-! ## Lines -/

/-- A command line, cut into words. -/
structure CommandLine where
  /-- The first word, empty if there is none. -/
  command : Text
  /-- The second word. -/
  first : Option Text := none
  /-- The third word. -/
  second : Option Text := none
  /-- What follows, up to the end of the line. -/
  rest : Option Text := none
  deriving DecidableEq, Inhabited

namespace CommandLine

/-- The widths at which words are cut: the command, and any other. -/
def commandWidth : Nat := 63

@[inherit_doc commandWidth]
def wordWidth : Nat := 255

/-- The first word of a text, at most so wide, and what follows it. -/
def word? (width : Nat) (t : Text) : Option (Text × Text) :=
  let t := t.dropWhile Text.isBlank
  let w := (t.take width).takeWhile (!Text.isBlank ·)
  if w.isEmpty then none else some (w, t.drop w.length)

/-- The rest of a line behind its words. -/
def rest? (t : Text) : Option Text :=
  let t := (t.dropWhile Text.isBlank).takeWhile (· ≠ Text.newline)
  if t.isEmpty then none else some t

/-- Spaces and line ends, which do not count at the end of a line. -/
def isTrailing (b : UInt8) : Bool := b == Text.newline || b == Text.code '\r' || b == 32

/-- The line up to its first NUL, without what does not count at its end. -/
def trim (line : Text) : Text := (line.untilNul.reverse.dropWhile isTrailing).reverse

/-- The words of a line. -/
def split (line : Text) : CommandLine :=
  match word? commandWidth line with
  | none => { command := [] }
  | some (command, line) =>
    match word? wordWidth line with
    | none => { command }
    | some (first, line) =>
      match word? wordWidth line with
      | none => { command, first }
      | some (second, line) => { command, first, second, rest := rest? line }

/-- The most rows that one command shows. -/
def maxCount : Int := 1000

/-- The count that an optional word says; a missing one, and one that is not positive, is the
default. -/
def count (default : Int) (word : Option Text) : Int :=
  match word with
  | none => default
  | some t =>
    let n := Numeral.integer none t
    if n ≤ 0 then default else min n maxCount

end CommandLine

end Disassembler
