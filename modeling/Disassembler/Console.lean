import Disassembler.Console.Command
import Disassembler.Console.Reply
import Disassembler.Scroll
import Disassembler.Session

/-!
# The console

The console carries out commands on a session, one line at a time. It keeps a scroll buffer on the
current listing, which `goto` anchors and `list` and `back` scroll; when another image has been
loaded, the buffer is made anew and anchored at the entry point. Every line with a command gets one
reply, and a command that fails changes nothing.
-/

namespace Disassembler

namespace Loaded

/-- Is a text a hexadecimal numeral and nothing else? -/
def isHex (t : Text) : Bool := !t.isEmpty && t.all (Text.isDigit 16)

/-- The symbol of a name, in its linker's or its source form. -/
def symbol? (l : Loaded) (name : Text) : Option Symbol :=
  l.image.symbols.toList.find? fun s => s.name == name || s.display == name

/-- The address of a name: the symbol of that name, else the function. -/
def named? (l : Loaded) (name : Text) : Option UInt64 :=
  ((l.symbol? name).map (·.address)).or
    ((l.records.functions.toList.find? (·.name == name)).map (·.start))

/-- The address that a word means: a hexadecimal number after `0x`, else the address of a name,
else a hexadecimal number. -/
def address? (l : Loaded) (word : Text) : Option UInt64 :=
  let word := word.untilNul
  if Text.lower (word.take 2) = Text.ofString "0x" ∧ isHex (word.drop 2) then
    some (Numeral.hexAddress (word.drop 2))
  else
    (l.named? word).or (if isHex word then some (Numeral.hexAddress word) else none)

end Loaded

/-- A scroll buffer on the listing of one generation. -/
structure View where
  generation : Nat
  buffer : ScrollBuffer
  deriving DecidableEq, Inhabited

/-- A console. -/
structure Console where
  session : Session := {}
  /-- What a load takes for granted. -/
  defaults : LoadOptions := {}
  view : Option View := none
  running : Bool := true
  deriving Inhabited

namespace Console

/-- The buffer on what is loaded: the one in use if it is of the same generation, else a new one,
anchored at the entry point. -/
def bufferOn (c : Console) (l : Loaded) : ScrollBuffer :=
  match c.view.filter (·.generation = l.generation) with
  | some v => v.buffer
  | none =>
    ScrollBuffer.setAnchor l.listing.source l.image.entry { keep := ScrollBuffer.defaultKeep }

/-- The console with a buffer on what is loaded. -/
def withBuffer (c : Console) (l : Loaded) (buffer : ScrollBuffer) : Console :=
  { c with view := some { generation := l.generation, buffer } }

/-- The buffer on the current listing, and the console that keeps it. -/
def currentBuffer (c : Console) : Option (ScrollBuffer × Loaded × Console) :=
  c.session.current.map fun l => (c.bufferOn l, l, c.withBuffer l (c.bufferOn l))

/-- The current listing scrolled by a count. -/
def scroll (c : Console) (l : Loaded) (d : ScrollBuffer.Direction) (count : Int) :
    List Row × Console :=
  let (rows, buffer) := (c.bufferOn l).extend l.listing.source d count
  (rows, c.withBuffer l buffer)

/-! ## Questions -/

/-- The reply to `info`. -/
def infoReply (l : Loaded) : Json :=
  Reply.ok [
    ("path", .string l.name), ("arch", .word l.analysis.machine.name),
    ("entry", .address l.image.entry), ("sections", .number l.image.sections.size),
    ("symbols", .number l.image.symbols.size),
    ("instructions", .number l.analysis.stats.instructions),
    ("invalid", .number l.analysis.stats.invalid), ("seeds", .number l.analysis.seeds.size),
    ("rounds", .number l.analysis.stats.rounds), ("rows", .number l.listing.size),
    ("records", .number l.records.records.size), ("functions", .number l.records.functions.size),
    ("conflicts", .number l.records.conflicts.length)]

/-- The reply to `lookup`. -/
def lookupReply (l : Loaded) (a : UInt64) : Json :=
  Reply.ok <|
    [("addr", .address a)]
    ++ (match l.records.lookup a with
      | some location =>
        [("symbol", .string location.symbol), ("function", .string location.function)]
          ++ Reply.lineMembers location
      | none => [])
    ++ match l.records.nearest a with
      | some n => [("nearest", .string n.name), ("offset", .number n.offset.toNat)]
      | none => []

/-- The reply to `resolve`. -/
def resolveReply (l : Loaded) (a : UInt64) : Json :=
  match l.listing.rowOfEntry a with
  | some row => Reply.ok [("row", .number row)]
  | none => Reply.error ("unresolved: " ++ Text.hexPrefixed a.toNat) []

/-- The reply to `hex`. -/
def hexReply (l : Loaded) (a : UInt64) (count : Int) : Json :=
  let buffer := ScrollBuffer.setAnchor l.hex.source a { keep := count }
  Reply.rows (buffer.extend l.hex.source .forward count).1

/-- The reply to `seeds`. -/
def seedsReply (l : Loaded) : Json :=
  Reply.ok [("seeds", .array (l.analysis.seeds.toList.map fun s =>
    .object [("addr", .address s.address), ("origin", .word s.origin.name)]))]

/-- The reply to `help`. -/
def helpReply : Json :=
  Reply.ok [("commands", .array (Command.all.map fun c => .word c.usage))]

/-- The reply to a command that lacks an argument. -/
def usageReply (c : Command) : Json := Reply.error ("usage: " ++ Text.ofString c.usage) []

/-- The reply to `symbol`. -/
def symbolReply (l : Loaded) (args : CommandLine) : Json :=
  match args.first with
  | none => usageReply .symbol
  | some name =>
    match l.symbol? name with
    | some s =>
      Reply.ok [
        ("name", .string s.name), ("display", .string s.display), ("addr", .address s.address),
        ("kind", .word s.kind.name), ("intrinsic", .bool s.isIntrinsic)]
    | none => Reply.error ("unknown symbol: " ++ name) []

/-- The reply to an unknown command. -/
def unknownReply (word : Text) : Json :=
  Reply.error ("unknown command: " ++ word ++
    match Command.suggest word with
    | some c => " (did you mean " ++ Text.ofString c.name ++ "?)"
    | none => []) []

/-- The answer to a question about the address that the first argument means. -/
def aboutAddress (c : Command) (l : Loaded) (args : CommandLine) (reply : UInt64 → Json) : Json :=
  match args.first with
  | none => usageReply c
  | some word =>
    match l.address? word with
    | some a => reply a
    | none => Reply.error ("bad address: " ++ word) []

/-! ## Commands -/

/-- The widths at which the numbers behind a machine are cut. -/
def numberWidth : Nat := 63

/-- The options with the base and the entry point that a text says. An entry point counts only
behind a base, and a base alone takes back the default entry point. -/
def withNumbers (o : LoadOptions) (t : Text) : LoadOptions :=
  match CommandLine.word? numberWidth t with
  | none => { o with entry := none }
  | some (base, t) =>
    { o with
      base := Numeral.hexAddress base
      entry := (CommandLine.word? numberWidth t).map fun w => Numeral.hexAddress w.1 }

/-- The options of a load, or the word that names no machine. -/
def loadOptions (c : Console) (path : Text) (args : CommandLine) : Except Text LoadOptions :=
  let o := { c.defaults with path, debugPath := [] }
  match args.second with
  | none => .ok o
  | some word =>
    match Machine.ofName? word with
    | none => .error word
    | some m =>
      let o := { o with machine := some m }
      match args.rest with
      | none => .ok o
      | some t => .ok (withNumbers o t)

/-- What a command line has come to. -/
structure Outcome (ρ : Type) where
  console : Console
  /-- The reply; a line without a command gets none. -/
  reply : Option Json
  /-- What an interruption of a load has come to, if its moment came. -/
  interrupted : Option ρ := none
  /-- What was worth noting. -/
  log : List Text := []

variable {ρ : Type}

/-- Carries out `load`. -/
def performLoad (c : Console) (i : Option (Session.Interruption ρ)) (files : Files)
    (args : CommandLine) : Outcome ρ :=
  match args.first with
  | none => { console := c, reply := usageReply .load }
  | some path =>
    match c.loadOptions path args with
    | .error word => { console := c, reply := Reply.error ("unknown arch: " ++ word) [] }
    | .ok o =>
      let outcome := c.session.loadFile i files o
      let reply :=
        match outcome.error, outcome.session.current with
        | some e, _ => Reply.error e.message [("code", .word e.code)]
        | none, some l =>
          Reply.ok [("path", .string l.name), ("instructions", .number l.analysis.stream.size),
            ("rows", .number l.listing.size)]
        | none, none => Reply.ok []
      { console := { c with session := outcome.session }, reply
        interrupted := outcome.interrupted, log := outcome.log }

/-- Moves to an address. -/
def moveTo (c : Console) (l : Loaded) (a : UInt64) : Console × Json :=
  let buffer := ScrollBuffer.setAnchor l.listing.source a (c.bufferOn l)
  let (rows, buffer) := buffer.peek l.listing.source 1
  (c.withBuffer l buffer,
    match rows with
    | r :: _ => Reply.ok [("row", .number r.index), ("addr", .address r.address)]
    | [] => Reply.error "empty listing" [])

/-- Carries out `goto`. -/
def performGoto (c : Console) (l : Loaded) (args : CommandLine) : Console × Json :=
  match args.first with
  | none => (c, usageReply .goto)
  | some word =>
    match l.address? word with
    | some a => c.moveTo l a
    | none => (c, Reply.error ("bad address: " ++ word) [])

/-- The rows that `list` and `back` show if nothing else is asked for. -/
def defaultRows : Int := 20

/-- The rows that `hex` shows if nothing else is asked for. -/
def defaultHexRows : Int := 8

/-- Carries out a command that needs something to be loaded. -/
def onLoaded (c : Console) (f : Loaded → Console × Json) : Outcome ρ :=
  match c.session.current with
  | some l =>
    let (c, reply) := f l
    { console := c, reply }
  | none => { console := c, reply := Reply.error "nothing loaded" [] }

/-- Carries out `list` or `back`. -/
def performScroll (c : Console) (d : ScrollBuffer.Direction) (args : CommandLine) (l : Loaded) :
    Console × Json :=
  let (rows, c) := c.scroll l d (CommandLine.count defaultRows args.first)
  (c, Reply.rows rows)

/-- Carries out a command. -/
def perform (c : Console) (i : Option (Session.Interruption ρ)) (files : Files)
    (command : Command) (args : CommandLine) : Outcome ρ :=
  match command with
  | .load => c.performLoad i files args
  | .info => c.onLoaded fun l => (c, infoReply l)
  | .goto => c.onLoaded fun l => c.performGoto l args
  | .list => c.onLoaded (c.performScroll .forward args)
  | .back => c.onLoaded (c.performScroll .backward args)
  | .lookup => c.onLoaded fun l => (c, aboutAddress .lookup l args (lookupReply l))
  | .symbol => c.onLoaded fun l => (c, symbolReply l args)
  | .resolve => c.onLoaded fun l => (c, aboutAddress .resolve l args (resolveReply l))
  | .hex =>
    c.onLoaded fun l =>
      (c, aboutAddress .hex l args fun a =>
        hexReply l a (CommandLine.count defaultHexRows args.second))
  | .seeds => c.onLoaded fun l => (c, seedsReply l)
  | .help => { console := c, reply := helpReply }
  | .quit => { console := { c with running := false }, reply := Reply.ok [] }

/-- Carries out a line. -/
def process (c : Console) (i : Option (Session.Interruption ρ)) (files : Files) (line : Text) :
    Outcome ρ :=
  let line := CommandLine.trim line
  if line.isEmpty then { console := c, reply := none }
  else
    let args := CommandLine.split line
    match Command.ofName? args.command with
    | some command => c.perform i files command args
    | none => { console := c, reply := unknownReply args.command }

/-- The paths that a line may read. -/
def paths (c : Console) (line : Text) : List Text :=
  let args := CommandLine.split (CommandLine.trim line)
  match Command.ofName? args.command, args.first with
  | some .load, some path =>
    match c.loadOptions path args with
    | .ok o => Session.paths o
    | .error _ => []
  | _, _ => []

/-- A reply as it is written: one line, or nothing. -/
def written : Option Json → Text
  | some reply => reply.render ++ [Text.newline]
  | none => []

end Console

end Disassembler
