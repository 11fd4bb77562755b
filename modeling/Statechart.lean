import Statechart.Text.Blank
import Statechart.Text.Quoted
import Statechart.StateSet
import Statechart.SortedMap
import Statechart.Json.Tree
import Statechart.Json.Printer
import Statechart.Json.Record
import Statechart.Chart.Path
import Statechart.Chart.Legality
import Statechart.Chart.Validation
import Statechart.Datamodel.Expression
import Statechart.Event
import Statechart.Config
import Statechart.Report
import Statechart.Host.Loopback
import Statechart.Session.Basic
import Statechart.Interpreter.Invokes
import Statechart.Interpreter.Selection
import Statechart.Interpreter.Expansion
import Statechart.Interpreter.Lifecycle
import Statechart.Snapshot.Json
import Statechart.Snapshot.Bytes
import Statechart.Snapshot.Restore
import Statechart.Proofs.Chart.Parting
import Statechart.Proofs.Chart.Meeting
import Statechart.Proofs.Chart.Closure
import Statechart.Proofs.Chart.Legality
import Statechart.Proofs.Chart.Build
import Statechart.Proofs.Chart.Sites
import Statechart.Proofs.Chart.Forest
import Statechart.Proofs.Chart.Problems
import Statechart.Proofs.Chart.ExitSet
import Statechart.Proofs.Chart.Faults
import Statechart.Proofs.Chart.Joint
import Statechart.Proofs.Expansion
import Statechart.Proofs.Recording
import Statechart.Proofs.TargetLists
import Statechart.Proofs.Effects
import Statechart.Proofs.Planning
import Statechart.Proofs.Steering
import Statechart.Proofs.Following
import Statechart.Proofs.Regions
import Statechart.Proofs.Marks
import Statechart.Proofs.Operations
import Statechart.Proofs.Courses
import Statechart.Proofs.Settling
import Statechart.Proofs.Safety
import Statechart.Proofs.Moves
import Statechart.Proofs.Restoring
import Statechart.Proofs.Scopes
import Statechart.Proofs.Worlds
import Statechart.Proofs.Sessions
import Statechart.Proofs.Footing
import Statechart.Proofs.Completing
import Statechart.Proofs.Finals
import Statechart.Proofs.SessionIds
import Statechart.Proofs.Snapshots
import Statechart.Proofs.Resume
import Statechart.Proofs.Publishing
import Statechart.Proofs.Replacing
import Statechart.Proofs.Accepting
import Statechart.Proofs.Timestamps
import Statechart.Proofs.ByteSnapshots
import Statechart.Proofs.Json.Scanning
import Statechart.Proofs.Json.Reading
import Statechart.Proofs.Json.Values
import Statechart.Proofs.JsonSnapshots
import Statechart.Proofs.Checking
import Statechart.Proofs.Restarting
import Statechart.Proofs.Services
import Statechart.Proofs.Conditions
import Statechart.Proofs.Membership
import Statechart.Proofs.Ceiling
import Statechart.Proofs.Numbering
import Statechart.Proofs.Returning
import Statechart.Proofs.Selecting
import Statechart.Proofs.Defaulting
import Statechart.Proofs.Standing
import Statechart.Proofs.Rejecting
import Statechart.Proofs.Aborting
import Statechart.Proofs.Blocks
import Statechart.Proofs.Ordering
import Statechart.Proofs.HistoryDefaults
import Statechart.Proofs.Clearing
import Statechart.Proofs.EmptyHistories
import Statechart.Proofs.Timers
import Statechart.Proofs.Arrivals
import Statechart.Proofs.Draining
import Statechart.Proofs.Lookups
import Statechart.Proofs.Assigning
