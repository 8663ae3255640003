import Bytecode.Analysis.Dataflow
import Bytecode.Analysis.Frame
import Bytecode.Analysis.FrameCache
import Bytecode.Analysis.Inspection
import Bytecode.Analysis.Literal
import Bytecode.Analysis.Literal.Arithmetic
import Bytecode.Analysis.Transfer
import Bytecode.Analysis.Value
import Bytecode.Archive.Checksum
import Bytecode.Archive.Entries
import Bytecode.Archive.Zip.Contents
import Bytecode.Archive.Unpack
import Bytecode.Archive.Unpack.StateTable
import Bytecode.Archive.Unpack.Bzip2
import Bytecode.Archive.Unpack.Deflate
import Bytecode.Archive.Unpack.Lzma
import Bytecode.Archive.Unpack.Prediction
import Bytecode.Archive.Unpack.Prediction.Context
import Bytecode.Archive.Unpack.Prediction.Model
import Bytecode.Archive.Unpack.PrefixCode
import Bytecode.Archive.Unpack.WordTable
import Bytecode.Archive.Unpack.Xz
import Bytecode.Archive.Unpack.Xz.Filter
import Bytecode.Archive.Unpack.Zstandard
import Bytecode.Archive.Unpack.Zstandard.Literals
import Bytecode.Archive.Unpack.Zstandard.Sequences
import Bytecode.Archive.Zip
import Bytecode.Archive.Zip.Directory
import Bytecode.Bytes
import Bytecode.Bytes.Cursor
import Bytecode.Class
import Bytecode.ClassFile.Annotations
import Bytecode.ClassFile.Code
import Bytecode.ClassFile.Code.Decoding
import Bytecode.ClassFile.Code.Encoding
import Bytecode.ClassFile.Code.Layout
import Bytecode.ClassFile.Code.StackMap
import Bytecode.ClassFile.Pool
import Bytecode.ClassFile.Pool.Builder
import Bytecode.ClassFile.Pool.Entry
import Bytecode.ClassFile.Reading
import Bytecode.ClassFile.Writing
import Bytecode.CommandLine.Arguments
import Bytecode.CommandLine.Report
import Bytecode.CommandLine.Run
import Bytecode.ControlFlow
import Bytecode.Decimal.Layout
import Bytecode.Descriptor
import Bytecode.Edit
import Bytecode.Engine.Process
import Bytecode.Failure
import Bytecode.FileTree
import Bytecode.Floating.Arithmetic
import Bytecode.Identity
import Bytecode.Inlining.Rounds
import Bytecode.Inlining.Session
import Bytecode.Inlining.Splice
import Bytecode.Instruction
import Bytecode.Kind
import Bytecode.Main
import Bytecode.Method
import Bytecode.Method.Listing
import Bytecode.Opcode
import Bytecode.Operation
import Bytecode.Proofs.Analysis.Buffers
import Bytecode.Proofs.Analysis.CachedFrames
import Bytecode.Proofs.Analysis.Chains
import Bytecode.Proofs.Analysis.Constants
import Bytecode.Proofs.Analysis.Consumers
import Bytecode.Proofs.Analysis.Execution
import Bytecode.Proofs.Analysis.Fixpoint
import Bytecode.Proofs.Analysis.Folding
import Bytecode.Proofs.Analysis.IntegerFolding
import Bytecode.Proofs.Analysis.Linking
import Bytecode.Proofs.Analysis.Meaning
import Bytecode.Proofs.Analysis.Modification
import Bytecode.Proofs.Analysis.Movements
import Bytecode.Proofs.Analysis.Order
import Bytecode.Proofs.Analysis.Paths
import Bytecode.Proofs.Analysis.Producers
import Bytecode.Proofs.Analysis.Rebuilding
import Bytecode.Proofs.Analysis.Recording
import Bytecode.Proofs.Analysis.Relocation
import Bytecode.Proofs.Analysis.Remeasuring
import Bytecode.Proofs.Analysis.Rendering
import Bytecode.Proofs.Analysis.Requeuing
import Bytecode.Proofs.Analysis.Simulation
import Bytecode.Proofs.Analysis.Termination
import Bytecode.Proofs.Analysis.UsageClasses
import Bytecode.Proofs.Analysis.UsageForest
import Bytecode.Proofs.Analysis.Visits
import Bytecode.Proofs.Analysis.WideLocals
import Bytecode.Proofs.Coding.Addressing
import Bytecode.Proofs.Coding.Alignment
import Bytecode.Proofs.Coding.Assembly
import Bytecode.Proofs.Coding.Classes
import Bytecode.Proofs.Coding.Counts
import Bytecode.Proofs.Coding.Decoded
import Bytecode.Proofs.Coding.Encoded
import Bytecode.Proofs.Coding.Offsets
import Bytecode.Proofs.Coding.RoundTrip
import Bytecode.Proofs.Coding.Serving
import Bytecode.Proofs.Editing
import Bytecode.Proofs.Engine.Archives
import Bytecode.Proofs.Inlining.Chained
import Bytecode.Proofs.Inlining.Edits
import Bytecode.Proofs.Inlining.Ending
import Bytecode.Proofs.Inlining.Labelling
import Bytecode.Proofs.Inlining.Leftovers
import Bytecode.Proofs.Inlining.Marks
import Bytecode.Proofs.Inlining.Nesting
import Bytecode.Proofs.Inlining.Rounds
import Bytecode.Proofs.Inlining.Slots
import Bytecode.Proofs.Labels
import Bytecode.Proofs.Machine.Library
import Bytecode.Proofs.Machine.Run
import Bytecode.Proofs.Machine.Tokens
import Bytecode.Proofs.Renaming.Copies
import Bytecode.Proofs.Renaming.Identities
import Bytecode.Proofs.Renaming.Splices
import Bytecode.Proofs.Resolution
import Bytecode.Proofs.SlotNumbers
import Bytecode.Proofs.Verification.Arrivals
import Bytecode.Proofs.Verification.Heights
import Bytecode.Proofs.Verification.Soundness
import Bytecode.Proofs.Verification.Termination
import Bytecode.Resolution.ClassPath
import Bytecode.Text.Replacement
import Bytecode.Text.Characters
import Bytecode.Text.Columns
import Bytecode.Text.Quoted
import Bytecode.Text.Json
import Bytecode.Text.ModifiedUtf8
import Bytecode.Text.Width
import Bytecode.Total
import Bytecode.Verification.Frame
import Bytecode.Verification.Hierarchy
import Bytecode.Verification.Inference
