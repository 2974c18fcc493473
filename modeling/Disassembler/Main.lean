import Disassembler.Program

/-!
# The command line

The program on the files and streams of the system it runs on. What it does is said elsewhere; here
it only reads and writes.
-/

open Disassembler

/-- The file at a path, as it is now. -/
def fileAt (path : Text) : IO FileState := do
  match String.fromUTF8? ⟨path.toArray⟩ with
  | none => return .missing "No such file or directory"
  | some name =>
    try
      return .contents (← IO.FS.readBinFile name).data.toList
    catch
    | .noFileOrDirectory .. => return .missing "No such file or directory"
    | e => return .missing (toString e)

/-- The files at some paths, as they are now. -/
def filesAt (paths : List Text) : IO Files := do
  let table ← paths.mapM fun path => do
    let path := Text.untilNul path
    return (path, ← fileAt path)
  return fun path => (table.lookup path).getD (.missing "No such file or directory")

/-- Writes bytes to a stream at once. -/
def put (stream : IO.FS.Stream) (t : Text) : IO Unit := do
  stream.write ⟨t.toArray⟩
  stream.flush

/-- Reads a line with its line end, or as much of it as fits; nothing at the end of the input. -/
def getPiece (input : IO.FS.Stream) : Nat → Text → IO Text
  | 0, piece => return piece.reverse
  | n + 1, piece => do
    match (← input.read 1).data.toList with
    | b :: _ =>
      if b = Text.newline then return (b :: piece).reverse else getPiece input n (b :: piece)
    | [] => return piece.reverse

/-- Carries out lines until the console stops or the input ends. -/
partial def serve (c : Console) : IO Unit := do
  if c.running then
    let line ← getPiece (← IO.getStdin) Program.lineLimit []
    if !line.isEmpty then
      let o : Console.Outcome Unit := c.process none (← filesAt (c.paths line)) line
      put (← IO.getStderr) (Program.notes o.log)
      put (← IO.getStdout) (Console.written o.reply)
      serve o.console

/-- Writes what a program leaves behind. -/
def leave (o : Program.Outcome) : IO UInt32 := do
  put (← IO.getStderr) o.diagnostics
  put (← IO.getStdout) o.output
  return UInt32.ofNat o.exit

/-- The program. -/
def main (args : List String) : IO UInt32 := do
  let name : Text := "dissect"
  match Program.parse {} (args.map Text.ofString) with
  | .error e => leave (e.outcome name)
  | .ok o =>
    let paths := (o.imageOptions.map Session.paths).getD []
    match Program.start name (← filesAt paths) o with
    | .ended outcome => leave outcome
    | .conversing c diagnostics =>
      put (← IO.getStderr) diagnostics
      serve c
      return 0
