import Fibers.Script.Answer
import Fibers.Proofs.Direct.Evaluation
import Fibers.Proofs.Direct.Course
import Fibers.Proofs.Direct.Simulation
import Fibers.Proofs.Direct.Refinement
import Fibers.Proofs.World.Frame
import Fibers.Proofs.Run.Licence
import Fibers.Proofs.Run.Change
import Fibers.Proofs.Run.Effects
import Fibers.Proofs.Run.Order
import Fibers.Proofs.Run.Law
import Fibers.Proofs.Run.Steps
import Fibers.Proofs.Run.Descent
import Fibers.Proofs.Run.Moment
import Fibers.Proofs.Run.Schedule
import Fibers.Proofs.Run.Moves
import Fibers.Proofs.Run.Track
import Fibers.Proofs.Run.Tokens
import Fibers.Proofs.Run.Turns
import Fibers.Proofs.Run.Attention
import Fibers.Proofs.Finalizers.Overtaking
import Fibers.Proofs.Scopes.Life
import Fibers.Proofs.Scopes.Record
import Fibers.Proofs.Scopes.Standing
import Fibers.Proofs.Run.Above
import Fibers.Proofs.Scopes.Custody
import Fibers.Proofs.Scopes.Discipline
import Fibers.Proofs.Run.Glides
import Fibers.Proofs.Scopes.Sequence
import Fibers.Proofs.Scopes.Closing
import Fibers.Proofs.Scopes.Published
import Fibers.Proofs.Scopes.Finished
import Fibers.Proofs.Finalizers.Invocation
import Fibers.Proofs.Scopes.Children
import Fibers.Proofs.Finalizers.Once
import Fibers.Proofs.Finalizers.Canceling
import Fibers.Proofs.Interruption.Masks
import Fibers.Proofs.Interruption.Wearing
import Fibers.Proofs.Interruption.Hearing
import Fibers.Proofs.Interruption.Abandonment
import Fibers.Proofs.Exits.Retiring
import Fibers.Proofs.Exits.Agreement
import Fibers.Proofs.Exits.Failures
import Fibers.Proofs.Run.Budget
import Fibers.Proofs.Semaphores.Conserved
import Fibers.Proofs.Semaphores.Exclusion
import Fibers.Proofs.Semaphores.Ledger
import Fibers.Proofs.Semaphores.Tickets
import Fibers.Proofs.Semaphores.Acquisition
import Fibers.Proofs.Contests.Race
import Fibers.Proofs.References.Isolation
import Fibers.Proofs.References.Neutral
import Fibers.Proofs.References.Restoring
import Fibers.Proofs.Cells.Watchers
import Fibers.Proofs.World.Shutdown
import Fibers.Proofs.Timers.Advance
import Fibers.Proofs.Timers.Conduct
import Fibers.Proofs.Run.Stopping
import Fibers.Proofs.Sleeping.Cleared
import Fibers.Proofs.Suspensions.Wakefulness
import Fibers.Proofs.Detour.Course
import Fibers.Proofs.Detour.Deeds
import Fibers.Proofs.Run.Piles
import Fibers.Proofs.Roots.Registry
import Fibers.Proofs.Traces.Regions
import Fibers.Proofs.Traces.Logical
import Fibers.Proofs.Detour.Birth
import Fibers.Proofs.Detour.Bonds
import Fibers.Proofs.Detour.Passage
import Fibers.Proofs.Detour.Transparency
import Fibers.Proofs.Configuration.Precedence
import Fibers.Proofs.Causes.Algebra
import Fibers.Proofs.Causes.Decoding
import Fibers.Proofs.Rounds.Agenda
import Fibers.Proofs.Rounds.Assembly
import Fibers.Proofs.Rounds.Between
import Fibers.Proofs.Rounds.Bounded
import Fibers.Proofs.Stacks.Discipline
