import Machine32.Numeral
import Machine32.Ascii
import Machine32.Word
import Machine32.NameTable
import Machine32.Layout
import Machine32.Program
import Machine32.Isa.Register
import Machine32.Isa.Opcode
import Machine32.Isa.Lookup
import Machine32.Isa.Instruction
import Machine32.Isa.Encoding
import Machine32.Isa.Text
import Machine32.Assembly.Token
import Machine32.Assembly.Fault
import Machine32.Assembly.Line
import Machine32.Assembly.SymbolTable
import Machine32.Assembly.Statement
import Machine32.Assembly.Assembler
import Machine32.Assembly.Draft
import Machine32.Assembly.Cursor
import Machine32.Listing
import Machine32.Lister
import Machine32.Memory.Basic
import Machine32.Memory.Image
import Machine32.Memory.Loader
import Machine32.Machine.Registers
import Machine32.Machine.Trap
import Machine32.Machine.State
import Machine32.Machine.Execute
import Machine32.Machine.Basic
import Machine32.Machine.InPlace
import Machine32.Machine.Run
import Machine32.Machine.Dump
import Machine32.Machine.Dumper
import Machine32.CommandLine.Files
import Machine32.CommandLine.Json
import Machine32.CommandLine.Arguments
import Machine32.CommandLine.Report
import Machine32.CommandLine.Session
import Machine32.Main
import Machine32.Proofs.Result
import Machine32.Proofs.Numerals
import Machine32.Proofs.NameTables
import Machine32.Proofs.Isa.Stream
import Machine32.Proofs.Isa.Codewords
import Machine32.Proofs.Isa.Grammar
import Machine32.Proofs.Assembly.Lexing
import Machine32.Proofs.Assembly.LineGrammar
import Machine32.Proofs.Assembly.Spacing
import Machine32.Proofs.Assembly.Feeding
import Machine32.Proofs.Assembly.Capacity
import Machine32.Proofs.Assembly.Description
import Machine32.Proofs.Assembly.Placement
import Machine32.Proofs.Assembly.Rendering
import Machine32.Proofs.Assembly.SourceText
import Machine32.Proofs.Assembly.Names
import Machine32.Proofs.Assembly.Reassembly
import Machine32.Proofs.Assembly.Emission
import Machine32.Proofs.Assembly.OperandForms
import Machine32.Proofs.Assembly.Relocation
import Machine32.Proofs.Assembly.Drafts
import Machine32.Proofs.Assembly.Shadowing
import Machine32.Proofs.Assembly.LineEnds
import Machine32.Proofs.Assembly.FirstFault
import Machine32.Proofs.Assembly.BlankLines
import Machine32.Proofs.Assembly.LetterCase
import Machine32.Proofs.Assembly.Recasing
import Machine32.Proofs.Assembly.Patterns
import Machine32.Proofs.Assembly.LongestMatch
import Machine32.Proofs.Assembly.Literals
import Machine32.Proofs.Assembly.Comments
import Machine32.Proofs.Assembly.Spans
import Machine32.Proofs.Listing.Lines
import Machine32.Proofs.Listing.Chunks
import Machine32.Proofs.Listing.Labels
import Machine32.Proofs.Memory.Words
import Machine32.Proofs.Memory.Accesses
import Machine32.Proofs.Memory.Loading
import Machine32.Proofs.Memory.DataSegment
import Machine32.Proofs.Memory.Segments
import Machine32.Proofs.Memory.Tiling
import Machine32.Proofs.Memory.Fitting
import Machine32.Proofs.Machine.Effects
import Machine32.Proofs.Machine.Results
import Machine32.Proofs.Machine.Successors
import Machine32.Proofs.Machine.StrayWords
import Machine32.Proofs.Machine.Runs
import Machine32.Proofs.Machine.Stack
import Machine32.Proofs.Machine.ControlFlow
import Machine32.Proofs.Machine.Entry
import Machine32.Proofs.Machine.Running
import Machine32.Proofs.Machine.Termination
import Machine32.Proofs.Machine.Failure
import Machine32.Proofs.Machine.Confinement
import Machine32.Proofs.Machine.Fetching
import Machine32.Proofs.Machine.Faults
import Machine32.Proofs.Machine.Calls
import Machine32.Proofs.Machine.Histories
import Machine32.Proofs.Dump.Writing
import Machine32.Proofs.Dump.Lines
import Machine32.Proofs.Dump.Inspection
import Machine32.Proofs.Dump.Lossless
import Machine32.Proofs.Dump.Views
