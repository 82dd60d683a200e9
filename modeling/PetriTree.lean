import PetriTree.Arena
import PetriTree.Chance
import PetriTree.Chance.Stream
import PetriTree.Count
import PetriTree.Expr
import PetriTree.Expr.Evaluate
import PetriTree.Expr.Reader
import PetriTree.Firing.Candidates
import PetriTree.Firing.Enabled
import PetriTree.Firing.Error
import PetriTree.Firing.Fire
import PetriTree.Flat.Assembly
import PetriTree.Flat.Bindings
import PetriTree.Flat.Compile
import PetriTree.Flat.Cycle
import PetriTree.Flat.Error
import PetriTree.Flat.Net
import PetriTree.Json
import PetriTree.Json.Reader
import PetriTree.Live.Cache
import PetriTree.Live.Handler
import PetriTree.Live.Net
import PetriTree.Live.Session
import PetriTree.Live.Sync
import PetriTree.Marking
import PetriTree.Marking.Change
import PetriTree.Net
import PetriTree.Net.Component
import PetriTree.Net.Document
import PetriTree.Net.Edit
import PetriTree.Net.Error
import PetriTree.Net.Reference
import PetriTree.Number.Binary
import PetriTree.Number.Positional
import PetriTree.Proofs.Acceptance
import PetriTree.Proofs.Acyclic
import PetriTree.Proofs.Agreement
import PetriTree.Proofs.AllOrNothing
import PetriTree.Proofs.Arrivals
import PetriTree.Proofs.Assembly
import PetriTree.Proofs.Attachment
import PetriTree.Proofs.Bindings
import PetriTree.Proofs.Breadth
import PetriTree.Proofs.Buckets
import PetriTree.Proofs.Candidates
import PetriTree.Proofs.Capacity
import PetriTree.Proofs.Change
import PetriTree.Proofs.Compile
import PetriTree.Proofs.Consent
import PetriTree.Proofs.Custody
import PetriTree.Proofs.Cycle
import PetriTree.Proofs.EditEffect
import PetriTree.Proofs.Evaluation
import PetriTree.Proofs.Expr
import PetriTree.Proofs.Firing
import PetriTree.Proofs.Frame
import PetriTree.Proofs.FreeName
import PetriTree.Proofs.Grammar
import PetriTree.Proofs.Guards
import PetriTree.Proofs.Hanging
import PetriTree.Proofs.Hierarchy
import PetriTree.Proofs.InStep
import PetriTree.Proofs.Independence
import PetriTree.Proofs.Indexing
import PetriTree.Proofs.Integrity
import PetriTree.Proofs.InterfaceCommands
import PetriTree.Proofs.Knit
import PetriTree.Proofs.Ledger
import PetriTree.Proofs.Lifecycle
import PetriTree.Proofs.Lifetime
import PetriTree.Proofs.MapEdit
import PetriTree.Proofs.Marking
import PetriTree.Proofs.Merge
import PetriTree.Proofs.Mirroring
import PetriTree.Proofs.Naming
import PetriTree.Proofs.NetEdit
import PetriTree.Proofs.Number
import PetriTree.Proofs.Operation
import PetriTree.Proofs.Outcome
import PetriTree.Proofs.Outline
import PetriTree.Proofs.Posting
import PetriTree.Proofs.Printer
import PetriTree.Proofs.Publication
import PetriTree.Proofs.RateReference
import PetriTree.Proofs.Reachability
import PetriTree.Proofs.Reader
import PetriTree.Proofs.Recognition
import PetriTree.Proofs.Rebuild
import PetriTree.Proofs.Refit
import PetriTree.Proofs.Refusal
import PetriTree.Proofs.Registry
import PetriTree.Proofs.Renaming
import PetriTree.Proofs.Revision
import PetriTree.Proofs.Reversal
import PetriTree.Proofs.Rewind
import PetriTree.Proofs.Successors
import PetriTree.Proofs.Rooted
import PetriTree.Proofs.Sample
import PetriTree.Proofs.Schedule
import PetriTree.Proofs.Session
import PetriTree.Proofs.Shape
import PetriTree.Proofs.Sharing
import PetriTree.Proofs.Simulation
import PetriTree.Proofs.StateSpace
import PetriTree.Proofs.Timing
import PetriTree.Proofs.Transfer
import PetriTree.Proofs.Traversal
import PetriTree.Proofs.Truncation
import PetriTree.Proofs.TreeCommand
import PetriTree.Proofs.Undo
import PetriTree.Proofs.View
import PetriTree.Schedule
import PetriTree.Schedule.Command
import PetriTree.Settings
import PetriTree.Simulation
import PetriTree.Simulation.Operation
import PetriTree.Simulation.Playback
import PetriTree.SortedMap
import PetriTree.StateSpace
import PetriTree.StateSpace.Report
import PetriTree.Table
import PetriTree.Text.Alphanumeric
import PetriTree.Text.CodePoints
import PetriTree.Text.Quoted
import PetriTree.Toml
import PetriTree.Toml.Reader
import PetriTree.Toml.Scalar
import PetriTree.Tree
import PetriTree.Tree.Command
import PetriTree.Tree.Conflict
import PetriTree.Tree.Include
import PetriTree.Tree.Interface
import PetriTree.Tree.Naming
import PetriTree.Proofs.Inventory
import PetriTree.Proofs.Capture
import PetriTree.Proofs.Domain
import PetriTree.Proofs.Endpoints
import PetriTree.Proofs.Locality
import PetriTree.Proofs.MarkingEquation
import PetriTree.Proofs.Enabling
import PetriTree.Proofs.Concurrency
import PetriTree.Proofs.Rollback
import PetriTree.Net.Stepwise
import PetriTree.Proofs.Signal
import PetriTree.Proofs.PushFailure
import PetriTree.Proofs.PlaceRenaming
import PetriTree.Proofs.Route
import PetriTree.Proofs.Newcomer
import PetriTree.Proofs.NextTime
import PetriTree.Proofs.Visibility
import PetriTree.Proofs.CallOrder
import PetriTree.Proofs.Delta
import PetriTree.Proofs.Playback
import PetriTree.Proofs.PlaceReferences
import PetriTree.Proofs.ShortestName
import PetriTree.Proofs.TwoWay
import PetriTree.Proofs.Waiting
import PetriTree.Proofs.Keys
import PetriTree.Live.Writer
import PetriTree.Proofs.Difference
import PetriTree.Proofs.Canonical
import PetriTree.Count.Word
import PetriTree.Proofs.Clamping
