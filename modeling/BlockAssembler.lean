import BlockAssembler.Block
import BlockAssembler.Proofs.Draft
import BlockAssembler.Proofs.Draft.Records
import BlockAssembler.Proofs.Builder.Steps
import BlockAssembler.Proofs.Draft.Simulation
import BlockAssembler.Proofs.Draft.Steps
import BlockAssembler.Proofs.Draft.Effects
import BlockAssembler.Proofs.Draft.Sound
import BlockAssembler.Proofs.Body
import BlockAssembler.Proofs.Body.Emission
import BlockAssembler.Proofs.Body.Links
import BlockAssembler.Proofs.Placement
import BlockAssembler.Proofs.Body.Assembled
import BlockAssembler.Proofs.Body.Interpreter
import BlockAssembler.Proofs.Body.Fetch
import BlockAssembler.Proofs.Body.ControlFlow
import BlockAssembler.Proofs.Body.Dispatch
import BlockAssembler.Proofs.Depths
import BlockAssembler.Proofs.Draft.Entries
import BlockAssembler.Proofs.Body.Forward
import BlockAssembler.Proofs.Body.MaxStack
import BlockAssembler.Proofs.Draft.Torn
import BlockAssembler.Proofs.Faults
import BlockAssembler.Proofs.Replacement
import BlockAssembler.Proofs.Block.Stream
import BlockAssembler.Proofs.Block.Reports
import BlockAssembler.Proofs.Block.Rejection
import BlockAssembler.Proofs.Body.ExceptionTable
import BlockAssembler.Proofs.Renumbering
import BlockAssembler.Proofs.Verification
import BlockAssembler.Proofs.Block.Jumpless
import BlockAssembler.Proofs.Block.Normalization
import BlockAssembler.Proofs.Body.Parse
import BlockAssembler.Proofs.ClosedFlow
import BlockAssembler.Proofs.Linked
import BlockAssembler.Proofs.Block.ControlFlow
import BlockAssembler.Proofs.Body.Language
import BlockAssembler.Proofs.Block.Refusal
import BlockAssembler.Proofs.Block.Plain
import BlockAssembler.Proofs.Block.Structured
import BlockAssembler.Proofs.Block.Handlers
import BlockAssembler.Proofs.Builder.Coherence
import BlockAssembler.Proofs.Builder.Requests
import BlockAssembler.Proofs.Pool.Meaning
import BlockAssembler.Proofs.Pool.Interning
import BlockAssembler.Proofs.Pool.Invariant
import BlockAssembler.Proofs.Pool.Order
import BlockAssembler.Proofs.Member
import BlockAssembler.Proofs.Code.Writing
import BlockAssembler.Proofs.Code.Decoding
import BlockAssembler.Proofs.Code.Position
import BlockAssembler.Proofs.Builder.Faultless
import BlockAssembler.Proofs.Code.Bytes
import BlockAssembler.Proofs.Code.Operands
import BlockAssembler.Proofs.Builder.Redirection
import BlockAssembler.Proofs.Limits
import BlockAssembler.Proofs.Body.Limits
import BlockAssembler.Proofs.Builder.Scan
import BlockAssembler.Proofs.Builder.Shortening
import BlockAssembler.Proofs.Block.Kinds
import BlockAssembler.Proofs.Locals
import BlockAssembler.Proofs.Lowering.Mentions
import BlockAssembler.Proofs.Lowering.Standard
import BlockAssembler.Proofs.Block.Names
import BlockAssembler.Proofs.Draft.Accesses
import BlockAssembler.Proofs.Block.Accesses
import BlockAssembler.Proofs.Lowering.Acts
import BlockAssembler.Proofs.Body.Standing
import BlockAssembler.Proofs.Machine
import BlockAssembler.Proofs.Lowering.Lookup
import BlockAssembler.Proofs.Block.Standing
import BlockAssembler.Proofs.Block.Lookup
import BlockAssembler.Proofs.Builder.Levels
import BlockAssembler.Proofs.Body.Lines
import BlockAssembler.Proofs.Body.Levels
import BlockAssembler.Proofs.Body.Paths
import BlockAssembler.Proofs.Body.Tame
import BlockAssembler.Proofs.Lowering.Statements
import BlockAssembler.Proofs.Draft.Level
import BlockAssembler.Proofs.Lowering.Boundaries
import BlockAssembler.Proofs.Block.Depths
import BlockAssembler.Proofs.Descriptor
import BlockAssembler.Proofs.Code.History
import BlockAssembler.Proofs.Agreement
import BlockAssembler.Proofs.Builder.Journal
import BlockAssembler.Proofs.Lowering.Rewriting
import BlockAssembler.Proofs.Block.Rewriting
import BlockAssembler.Proofs.Builder.Spared
import BlockAssembler.Proofs.Body.Atomic
