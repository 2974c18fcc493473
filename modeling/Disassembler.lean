import Disassembler.Main
import Disassembler.Proofs.Decode
import Disassembler.Proofs.Search
import Disassembler.Proofs.Sections
import Disassembler.Proofs.Coverage
import Disassembler.Proofs.Pool
import Disassembler.Proofs.Sweep
import Disassembler.Proofs.Merge
import Disassembler.Proofs.Rounds
import Disassembler.Proofs.Stream
import Disassembler.Proofs.Discovery
import Disassembler.Proofs.Disassembly
import Disassembler.Proofs.Rows
import Disassembler.Proofs.Tiling
import Disassembler.Proofs.Rebase.Address
import Disassembler.Proofs.Rebase.Decode
import Disassembler.Proofs.Rebase.Image
import Disassembler.Proofs.Rebase.Symbols
import Disassembler.Proofs.Rebase.Coverage
import Disassembler.Proofs.Rebase.Sweep
import Disassembler.Proofs.Rebase.Analysis
import Disassembler.Proofs.Debug.Span
import Disassembler.Proofs.Debug.Records
import Disassembler.Proofs.Scroll
import Disassembler.Proofs.Layout
import Disassembler.Proofs.Places
import Disassembler.Proofs.Anchors
import Disassembler.Proofs.Cancellation
import Disassembler.Proofs.Priority
import Disassembler.Proofs.Termination
import Disassembler.Proofs.References
import Disassembler.Proofs.Session
import Disassembler.Proofs.Alike
import Disassembler.Proofs.Numeral
import Disassembler.Proofs.Json
import Disassembler.Proofs.Console.Replies
import Disassembler.Proofs.Console.Traces
import Disassembler.Proofs.Debug.Strings
import Disassembler.Proofs.Debug.Reading
import Disassembler.Proofs.Debug.Entries
import Disassembler.Proofs.Debug.Objects
import Disassembler.Proofs.Debug.RoundTrip
import Disassembler.Proofs.Debug.Failures
import Disassembler.Proofs.Debug.Layouts
import Disassembler.Proofs.Partition
import Disassembler.Proofs.HexView
import Disassembler.Proofs.Console.Lines
import Disassembler.Proofs.Interleaving
import Disassembler.Proofs.Delimiting
import Disassembler.Proofs.Targets
import Disassembler.Proofs.Conditional
import Disassembler.Proofs.Position
import Disassembler.Proofs.Relative
import Disassembler.Proofs.RiscV.Lossless
import Disassembler.Proofs.Encodings.Offsets
import Disassembler.Proofs.Debug.Conflicts
import Disassembler.Proofs.Linear
import Disassembler.Proofs.Debug.Names
import Disassembler.Proofs.HexRows
import Disassembler.Proofs.LastRow
import Disassembler.Proofs.Gaps
import Disassembler.Proofs.EditDistance
import Disassembler.Proofs.Extent
import Disassembler.Proofs.Console.Words
import Disassembler.Proofs.Console.Position
import Disassembler.Proofs.Console.Addresses
import Disassembler.Proofs.Console.Names
import Disassembler.Proofs.Console.Printing
import Disassembler.Proofs.Immediates
import Disassembler.Proofs.Pointers
import Disassembler.Proofs.AddressSize
import Disassembler.Proofs.NormalForm
import Disassembler.Proofs.CodeSymbols
import Disassembler.Proofs.Debug.Spellings
import Disassembler.Proofs.Tokens
import Disassembler.Proofs.Queries
import Disassembler.Proofs.Nearest
import Disassembler.Proofs.Console.Arguments
