import Stowage.Fault
import Stowage.Table
import Stowage.Trail
import Stowage.Trailed
import Stowage.Cells
import Stowage.BitSet
import Stowage.Predicate
import Stowage.Domain
import Stowage.Event
import Stowage.Domains
import Stowage.Queue
import Stowage.Call
import Stowage.Packing.Basic
import Stowage.Packing.Ledger
import Stowage.Packing.Bookkeeping
import Stowage.Packing.Balance
import Stowage.Packing.Fitting
import Stowage.Packing.Revision
import Stowage.Packing.Recomputation
import Stowage.Precedence
import Stowage.Probe
import Stowage.Propagator
import Stowage.Sorting
import Stowage.State
import Stowage.Constraint
import Stowage.Search
import Stowage.Statistics.Casing
import Stowage.Statistics.Log
import Stowage.Session
import Stowage.Proofs.Undo
import Stowage.Proofs.Narrowing
import Stowage.Proofs.Posting
import Stowage.Proofs.Contract
import Stowage.Proofs.Packing.Weights
import Stowage.Proofs.Packing.Accounts
import Stowage.Proofs.Packing.Changes
import Stowage.Proofs.Packing.Tracking
import Stowage.Proofs.Packing.Desk
import Stowage.Proofs.Packing.Balance
import Stowage.Proofs.Packing.Items
import Stowage.Proofs.Packing.Fitting
import Stowage.Proofs.Packing.Revision
import Stowage.Proofs.Invariant
import Stowage.Proofs.Waiting
import Stowage.Proofs.Steps
import Stowage.Proofs.Installing
import Stowage.Proofs.Announcing
import Stowage.Proofs.Calling
import Stowage.Proofs.Reachability
import Stowage.Proofs.Soundness
import Stowage.Proofs.FixedPoints
import Stowage.Proofs.Wakefulness
import Stowage.Proofs.Termination
import Stowage.Proofs.Agreement
import Stowage.Proofs.Packing.Likeness
import Stowage.Proofs.Likeness
import Stowage.Proofs.Transparency
import Stowage.Proofs.Packing.Variables
import Stowage.Proofs.Packing.Closed
import Stowage.Proofs.Packing.Steps
import Stowage.Proofs.Packing.Journal
import Stowage.Proofs.Packing.Extending
import Stowage.Proofs.Packing.Crowding
import Stowage.Proofs.Packing.Surrounding
import Stowage.Proofs.Packing.Freshness
import Stowage.Proofs.Packing.Resting
import Stowage.Proofs.Packing.Sorting
import Stowage.Proofs.Packing.Relisting
import Stowage.Proofs.Packing.Families
import Stowage.Proofs.Returning
import Stowage.Proofs.Branching
import Stowage.Proofs.Searching
import Stowage.Proofs.Building
import Stowage.Proofs.BruteForce
import Stowage.Proofs.Packing.Recomputation
import Stowage.Proofs.Precedences
import Stowage.Proofs.Attention
import Stowage.Proofs.Rooted
import Stowage.Proofs.Stability
import Stowage.Proofs.Hosting
import Stowage.Proofs.Scripts
import Stowage.Proofs.PlainPropagation
import Stowage.Proofs.Confluence
import Stowage.Proofs.Sharpening
import Stowage.Proofs.Relisting
import Stowage.Proofs.Safety
import Stowage.Proofs.BigItems
import Stowage.Proofs.FreshWalk
import Stowage.Proofs.Scanning
import Stowage.Proofs.GreatestDomains
import Stowage.Proofs.LoadSums
import Stowage.Proofs.Packing.Dwindling
import Stowage.Proofs.Courses
import Stowage.Proofs.Histories
import Stowage.Proofs.Intersection
import Stowage.Proofs.Evaluation
import Stowage.Proofs.Repetition
import Stowage.Proofs.Dispatching
import Stowage.Proofs.Occurrences
import Stowage.Proofs.Registering
import Stowage.Proofs.Rounds
import Stowage.Proofs.Chronicle
import Stowage.Proofs.Elements
import Stowage.Proofs.Undoing
import Stowage.Proofs.Sharing
import Stowage.Proofs.Acceptance
import Stowage.Proofs.Confinement
import Stowage.Proofs.Mirroring
import Stowage.Proofs.Seating
import Stowage.Proofs.Separation
import Stowage.Proofs.Independence
import Stowage.Proofs.Ownership
import Stowage.Proofs.Packing.Layouts
import Stowage.Proofs.Packing.Allocation
import Stowage.Proofs.Packing.Writing
import Stowage.Proofs.Packing.Pages
import Stowage.Packing.Layout
import Stowage.Proofs.Packing.Forms
import Stowage.Proofs.Allotment
