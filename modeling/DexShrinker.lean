import DexShrinker.Fault
import DexShrinker.Access
import DexShrinker.NamePool
import DexShrinker.Reference.Descriptor
import DexShrinker.Reference.Member
import DexShrinker.Reference.CallSite
import DexShrinker.Body.Basic
import DexShrinker.Body.Flow
import DexShrinker.Body.Assembly
import DexShrinker.Packed.Basic
import DexShrinker.Packed.Opcode
import DexShrinker.Packed.Varint
import DexShrinker.Packed.Instr
import DexShrinker.Packed.Pack
import DexShrinker.Packed.Unpack
import DexShrinker.Program
import DexShrinker.Document.Basic
import DexShrinker.Document.Body
import DexShrinker.Document.Packed
import DexShrinker.Document.Program
import DexShrinker.Lens.Basic
import DexShrinker.Lens.Describe
import DexShrinker.Lens.Lookup
import DexShrinker.Lens.Recorder
import DexShrinker.App.FieldAccess
import DexShrinker.App.Hierarchy
import DexShrinker.App.View
import DexShrinker.Updating.Body
import DexShrinker.Updating.Packed
import DexShrinker.Updating.Program
import DexShrinker.Document.App
import DexShrinker.FreshName
import DexShrinker.Sorting
import DexShrinker.Merging.Fields
import DexShrinker.Merging.Policy
import DexShrinker.Merging.Initializers
import DexShrinker.Merging.Merger
import DexShrinker.Unboxing.Decoded
import DexShrinker.Unboxing.Initializers
import DexShrinker.Unboxing.Reason
import DexShrinker.Unboxing.Candidates
import DexShrinker.Unboxing.Constants
import DexShrinker.Unboxing.UseSites
import DexShrinker.Unboxing.Dissolve
import DexShrinker.Unboxing.Lowering
import DexShrinker.Flow.AbstractValue
import DexShrinker.Flow.DynamicType
import DexShrinker.Flow.InFlow
import DexShrinker.Flow.ValueState
import DexShrinker.Flow.MethodState
import DexShrinker.Flow.Graph
import DexShrinker.Flow.Propagation
import DexShrinker.Document.Flow
import DexShrinker.Document.Shrink
import DexShrinker.Proofs.Outcome
import DexShrinker.Proofs.Body.Verify
import DexShrinker.Proofs.Packed.Instr
import DexShrinker.Proofs.Packed.Layout
import DexShrinker.Proofs.Packed.Packer
import DexShrinker.Proofs.Packed.Pack
import DexShrinker.Proofs.Packed.Naming
import DexShrinker.Proofs.Packed.Unpack
import DexShrinker.Proofs.Packed.RoundTrip
import DexShrinker.Proofs.Packed.Stream
import DexShrinker.Proofs.Packed.Lockstep
import DexShrinker.Proofs.Packed.AnyStream
import DexShrinker.Proofs.Updating.Patch
import DexShrinker.Proofs.Updating.Operation
import DexShrinker.Proofs.Updating.Agreement
import DexShrinker.Proofs.FreshName
import DexShrinker.Proofs.Sorting
import DexShrinker.Proofs.Program
import DexShrinker.Proofs.Merging.Places
import DexShrinker.Proofs.Merging.Walk
import DexShrinker.Proofs.Merging.Splitting
import DexShrinker.Proofs.Merging.Groups
import DexShrinker.Proofs.Merging.Fitting
import DexShrinker.Proofs.Merging.Plan
import DexShrinker.Proofs.Merging.Merged
import DexShrinker.Proofs.Merging.Overriding
import DexShrinker.Proofs.App.Resolution
import DexShrinker.Proofs.App.Subtyping
import DexShrinker.Proofs.Merging.Resolution
import DexShrinker.Proofs.Flow.Graph
import DexShrinker.Proofs.Flow.Reaching
import DexShrinker.Proofs.Flow.Ascent
import DexShrinker.Proofs.Flow.Termination
import DexShrinker.Proofs.App.Correspondence
import DexShrinker.Proofs.Flow.Absorption
import DexShrinker.Proofs.Unboxing.Enums
import DexShrinker.Proofs.Unboxing.Resolution
import DexShrinker.Proofs.Merging.Pins
import DexShrinker.Proofs.Merging.Hierarchy
import DexShrinker.Proofs.Merging.Members
import DexShrinker.Proofs.Merging.Conflicts
import DexShrinker.Proofs.Merging.FieldsApart
import DexShrinker.Proofs.Merging.Sufficing
import DexShrinker.Proofs.Merging.Holding
import DexShrinker.Proofs.Shrink.Bodies
import DexShrinker.Proofs.Shrink.Accesses
import DexShrinker.Proofs.Unboxing.Bodies
import DexShrinker.Proofs.Body.Execution
import DexShrinker.Proofs.Unboxing.Signatures
import DexShrinker.Proofs.Unboxing.LocalClasses
import DexShrinker.Proofs.Unboxing.Apart
import DexShrinker.Proofs.Body.Assembly
import DexShrinker.Proofs.Updating.Passing
import DexShrinker.Proofs.Merging.Selecting
import DexShrinker.Proofs.Merging.Buckets
import DexShrinker.Proofs.Merging.Construction
import DexShrinker.Proofs.Merging.MethodsApart
import DexShrinker.Proofs.Lens.Changes
import DexShrinker.Proofs.Lens.Rows
import DexShrinker.Proofs.Lens.Tracing
import DexShrinker.Proofs.Lens.Building
import DexShrinker.Proofs.Lens.Undoing
import DexShrinker.Proofs.Body.Dominance
import DexShrinker.Proofs.Body.DeadCode
import DexShrinker.Proofs.Body.Trimming
import DexShrinker.Proofs.App.Searching
import DexShrinker.Proofs.App.Ending
import DexShrinker.Proofs.Body.Extending
import DexShrinker.Proofs.Updating.Reads
import DexShrinker.Proofs.Updating.Verified
import DexShrinker.Proofs.Flow.Worklist
import DexShrinker.Proofs.Flow.Semilattice
import DexShrinker.Proofs.Flow.Retention
import DexShrinker.Proofs.Flow.Found
import DexShrinker.Proofs.Flow.AtRest
import DexShrinker.Proofs.Flow.Order
import DexShrinker.Proofs.Flow.Components
import DexShrinker.Proofs.Flow.Separation
import DexShrinker.Proofs.Flow.Foreign
import DexShrinker.Proofs.Flow.Closed
import DexShrinker.Proofs.Flow.Dispatch
import DexShrinker.Proofs.Packed.Calls
import DexShrinker.Proofs.Packed.Reporting
import DexShrinker.Proofs.Packed.Building
import DexShrinker.Proofs.Updating.Calls
import DexShrinker.Proofs.Unboxing.Tracking
import DexShrinker.Proofs.Unboxing.Constants
import DexShrinker.Proofs.Body.Machine
import DexShrinker.Proofs.Unboxing.EarlyExit
import DexShrinker.Proofs.Unboxing.Summaries
import DexShrinker.Proofs.Unboxing.Operations
import DexShrinker.Proofs.Flow.Bitwise
import DexShrinker.Proofs.Packed.Defining
import DexShrinker.Proofs.Unboxing.Casts
import DexShrinker.Proofs.NamePool
import DexShrinker.Proofs.Packed.Lines
import DexShrinker.Proofs.Unboxing.Traces
