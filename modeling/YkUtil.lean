import YkUtil.Lib.TransitionSystem
import YkUtil.Lib.Lap
import YkUtil.Lib.Outcome
import YkUtil.Lib.Run
import YkUtil.Exec.AtomicQueue.Code
import YkUtil.Exec.AtomicQueue.Concurrent
import YkUtil.Exec.AtomicQueue.Invariant
import YkUtil.Exec.AtomicQueue.Steps
import YkUtil.Exec.AtomicQueue.History
import YkUtil.Exec.AtomicQueue.Safety
import YkUtil.Exec.AtomicQueue.Lifetime
import YkUtil.Exec.AtomicQueue.Sequential
import YkUtil.Exec.AtomicQueue.Spurious
import YkUtil.Exec.AtomicQueue.Wrap
import YkUtil.Exec.AtomicQueue.Throw
import YkUtil.Exec.CvQueue.Code
import YkUtil.Exec.CvQueue.Concurrent
import YkUtil.Exec.CvQueue.Refinement
import YkUtil.Exec.CvQueue.Wakeup
import YkUtil.Exec.CvQueue.Resize
import YkUtil.Exec.Scheduler.Stats
import YkUtil.Exec.Scheduler.Workers
import YkUtil.Exec.Scheduler.Chunks
import YkUtil.Exec.Scheduler.Completion
import YkUtil.Exec.Scheduler.Progress
import YkUtil.Exec.Scheduler.Shutdown
import YkUtil.Exec.Scheduler.Claims
import YkUtil.Exec.Scheduler.SinglePush
import YkUtil.Exec.Scheduler.Sessions
import YkUtil.Exec.Scheduler.Lifecycle
import YkUtil.Exec.WorkerPool.Launch
import YkUtil.Colorize.Color
import YkUtil.Colorize.Code
import YkUtil.Colorize.Specifier
import YkUtil.Colorize.Field
import YkUtil.Colorize.Scan
import YkUtil.Colorize.Agreement
import YkUtil.Colorize.Bounds
import YkUtil.Colorize.Template
import YkUtil.Colorize.Format
import YkUtil.Compare.Comparator
import YkUtil.Compare.Then
import YkUtil.Compare.Promote
import YkUtil.Lib.Segments
import YkUtil.Ranges.Concat
import YkUtil.Ranges.Position
import YkUtil.Ranges.Traversal
import YkUtil.Exec.AtomicQueue.Bounded
import YkUtil.VariantView.Conversion
import YkUtil.Exec.AtomicQueue.Size
import YkUtil.Exec.AtomicQueue.Cancel
import YkUtil.Exec.CvQueue.Capacity
import YkUtil.Exec.CvQueue.Unfailing
import YkUtil.Exec.CvQueue.Exceptions
import YkUtil.Exec.WorkerPool.Rethrow
import YkUtil.Exec.AtomicQueue.Cancelable
import YkUtil.Exec.Scheduler.InputTotal
import YkUtil.Exec.Scheduler.QueueGate
import YkUtil.Exec.Scheduler.Tracker
import YkUtil.Ranges.RandomAccess
import YkUtil.Ranges.Difference
import YkUtil.Colorize.Parts
import YkUtil.Colorize.RgbForm
import YkUtil.Colorize.Joined
import YkUtil.Colorize.Order
import YkUtil.Colorize.Terminal
import YkUtil.Ranges.ConstIterator
import YkUtil.Compare.Expression
import YkUtil.ParForEach.Tasks
import YkUtil.Variant.Visit
import YkUtil.VariantView.Access
import YkUtil.VariantView.Order
import YkUtil.Exec.AtomicQueue.Linearization
import YkUtil.Exec.AtomicQueue.Progress
import YkUtil.Exec.Scheduler.Delivery
import YkUtil.Colorize.Display
import YkUtil.EnumBitops.Flags
import YkUtil.Exec.CvQueue.Progress
import YkUtil.Exec.Scheduler.Abort
import YkUtil.Exec.Scheduler.TrackerOrder
import YkUtil.Lib.Simulation
import YkUtil.Lib.IndexedOrder
import YkUtil.Variant.BoostCompare
import YkUtil.Exec.Scheduler.OnQueue
import YkUtil.Exec.Scheduler.OnQueueProgress
import YkUtil.Exec.Scheduler.OnCvQueue
import YkUtil.Exec.AtomicQueue.Solo
import YkUtil.Exec.AtomicQueue.SoloReturns
import YkUtil.Exec.Scheduler.OnAtomicQueue
