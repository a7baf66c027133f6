import Wiring.Autowire.Capability
import Wiring.Autowire.Inspection
import Wiring.Autowire.Resolver
import Wiring.Autowire.Wish
import Wiring.Builder.Basic
import Wiring.Builder.Workshop
import Wiring.Container.Basic
import Wiring.Container.Construction
import Wiring.Container.Order
import Wiring.Definition.Basic
import Wiring.Definition.Draft
import Wiring.Definition.Equality
import Wiring.Definition.InPlace
import Wiring.Definition.Marks
import Wiring.Definition.Referents
import Wiring.Definition.Revision
import Wiring.Definition.Shown
import Wiring.Factory.Basic
import Wiring.Factory.Catalog
import Wiring.Factory.Signature
import Wiring.Factory.WrittenHint
import Wiring.Failure.Basic
import Wiring.Failure.Binding
import Wiring.Failure.Fault
import Wiring.Failure.Form
import Wiring.Failure.Kind
import Wiring.Failure.Misuse
import Wiring.Failure.Refusal
import Wiring.Failure.Stated
import Wiring.Failure.Statement
import Wiring.Graph.Basic
import Wiring.Graph.Build
import Wiring.Graph.Components
import Wiring.Graph.Cycle
import Wiring.Graph.Reach
import Wiring.Graph.Snapshot
import Wiring.Graph.Walk
import Wiring.Hint
import Wiring.LockMode
import Wiring.Note
import Wiring.Number.Binary64
import Wiring.Number.Decimal
import Wiring.Parameter.Bag
import Wiring.Parameter.Substitution
import Wiring.Pass.Aliases
import Wiring.Pass.Autowiring
import Wiring.Pass.Builtin
import Wiring.Pass.Checks
import Wiring.Pass.Collections
import Wiring.Pass.Inlining
import Wiring.Pass.Parameters
import Wiring.Pass.Removal
import Wiring.Pass.Templates
import Wiring.Phase
import Wiring.Pipeline
import Wiring.Plan
import Wiring.Proofs.Autowire.Calling
import Wiring.Proofs.Autowire.Choosing
import Wiring.Proofs.Autowire.Completion
import Wiring.Proofs.Autowire.EmptySlots
import Wiring.Proofs.Autowire.Filling
import Wiring.Proofs.Autowire.Narrowing
import Wiring.Proofs.Autowire.Nullable
import Wiring.Proofs.Autowire.Positions
import Wiring.Proofs.Autowire.Selection
import Wiring.Proofs.Builder.Compilation
import Wiring.Proofs.Builder.Cycles
import Wiring.Proofs.Builder.Failing
import Wiring.Proofs.Builder.Journal
import Wiring.Proofs.Builder.Providers
import Wiring.Proofs.Builder.Recompilation
import Wiring.Proofs.Builder.Renaming
import Wiring.Proofs.Builder.Reordering
import Wiring.Proofs.Builder.Schedule
import Wiring.Proofs.Builder.Sequence
import Wiring.Proofs.Builder.Sharing
import Wiring.Proofs.Builder.Validation
import Wiring.Proofs.Builder.Visibility
import Wiring.Proofs.Builder.Workshop
import Wiring.Proofs.Container.Answers
import Wiring.Proofs.Container.Chronicle
import Wiring.Proofs.Container.Circles
import Wiring.Proofs.Container.Closed
import Wiring.Proofs.Container.Diary
import Wiring.Proofs.Container.Following
import Wiring.Proofs.Container.Freezing
import Wiring.Proofs.Container.Instances
import Wiring.Proofs.Container.LockModes
import Wiring.Proofs.Container.Log
import Wiring.Proofs.Container.Names
import Wiring.Proofs.Container.Order
import Wiring.Proofs.Container.Places
import Wiring.Proofs.Container.Plans
import Wiring.Proofs.Container.Products
import Wiring.Proofs.Container.Replay
import Wiring.Proofs.Container.Requests
import Wiring.Proofs.Container.Requirements
import Wiring.Proofs.Container.Retracing
import Wiring.Proofs.Container.Roll
import Wiring.Proofs.Container.Runs
import Wiring.Proofs.Container.Stack
import Wiring.Proofs.Container.Tally
import Wiring.Proofs.Container.Twins
import Wiring.Proofs.Container.Visibility
import Wiring.Proofs.Definition.Grafting
import Wiring.Proofs.Definition.Marks
import Wiring.Proofs.Definition.Parts
import Wiring.Proofs.Definition.Revision
import Wiring.Proofs.Definition.Same
import Wiring.Proofs.Factory.Calls
import Wiring.Proofs.Factory.Inspection
import Wiring.Proofs.Factory.Signature
import Wiring.Proofs.Graph.Components
import Wiring.Proofs.Graph.Copying
import Wiring.Proofs.Graph.Cycles
import Wiring.Proofs.Graph.Embedding
import Wiring.Proofs.Graph.Faces
import Wiring.Proofs.Graph.Leads
import Wiring.Proofs.Graph.Lookup
import Wiring.Proofs.Graph.Mapping
import Wiring.Proofs.Graph.Marks
import Wiring.Proofs.Graph.Matched
import Wiring.Proofs.Graph.Operations
import Wiring.Proofs.Graph.Reach
import Wiring.Proofs.Graph.Registered
import Wiring.Proofs.Graph.Registry
import Wiring.Proofs.Graph.Sealed
import Wiring.Proofs.Graph.Search
import Wiring.Proofs.Graph.ShortestCycle
import Wiring.Proofs.Graph.Shuffled
import Wiring.Proofs.Graph.Snapshot
import Wiring.Proofs.Graph.Validation
import Wiring.Proofs.Outcome
import Wiring.Proofs.Lists
import Wiring.Proofs.Parameter.Bags
import Wiring.Proofs.Parameter.Resolution
import Wiring.Proofs.Parameter.Meaning
import Wiring.Proofs.Parameter.Pieces
import Wiring.Proofs.Pass.Aliases
import Wiring.Proofs.Pass.Autowiring
import Wiring.Proofs.Pass.Candidates
import Wiring.Proofs.Pass.Checks
import Wiring.Proofs.Pass.Collections
import Wiring.Proofs.Pass.Expansion
import Wiring.Proofs.Pass.Exposure
import Wiring.Proofs.Pass.Inlining
import Wiring.Proofs.Pass.Parameters
import Wiring.Proofs.Pass.Places
import Wiring.Proofs.Pass.Preparation
import Wiring.Proofs.Pass.Removal
import Wiring.Proofs.Pass.Shuffling
import Wiring.Proofs.Pass.Templates
import Wiring.Proofs.Pass.Visibility
import Wiring.Proofs.Pass.Visits
import Wiring.Proofs.Ranks
import Wiring.Proofs.Settings.Escaping
import Wiring.Proofs.Settings.Flattening
import Wiring.Proofs.Sort.Entries
import Wiring.Proofs.Sort.Texts
import Wiring.Proofs.Table
import Wiring.Proofs.Tag.Index
import Wiring.Proofs.Value.Same
import Wiring.Proofs.Walk.BreadthFirst
import Wiring.Proofs.Walk.DepthFirst
import Wiring.Script.Answer
import Wiring.Script.BagStep
import Wiring.Script.BuilderStep
import Wiring.Script.GraphStep
import Wiring.Script.Reading
import Wiring.Script.Run
import Wiring.Script.Step
import Wiring.Script.World
import Wiring.Settings
import Wiring.Sort.Merge
import Wiring.Sort.Runs
import Wiring.Table
import Wiring.Tag.Index
import Wiring.Tag.Order
import Wiring.Text.Identifier
import Wiring.Text.Lowercase
import Wiring.Text.Printable
import Wiring.Text.Quoted
import Wiring.Text.Ranges
import Wiring.TypeRef
import Wiring.Value.Basic
import Wiring.Value.Dict
import Wiring.Value.Make
import Wiring.Value.Sequence
import Wiring.Value.Whole
