import Libuc.Lib.CircularBuffer
import Libuc.Lib.Copy
import Libuc.Lib.Lists
import Libuc.Lib.LittleEndian
import Libuc.Lib.Runs
import Libuc.Lib.Words
import Libuc.Lib.Region
import Libuc.Lib.ByteOrder
import Libuc.Machine
import Libuc.String.Basic
import Libuc.Ring.Basic
import Libuc.Ring.Submission
import Libuc.Ring.Completion
import Libuc.Lib.LinkedQueue
import Libuc.Fiber.Basic
import Libuc.Scheduler.Basic
import Libuc.Scheduler.Board
import Libuc.Scheduler.Places
import Libuc.Scheduler.Memory
import Libuc.Scheduler.InFlight
import Libuc.Scheduler.Refinement
import Libuc.Scheduler.Dispatch
import Libuc.Scheduler.Simulation
import Libuc.Scheduler.Location
import Libuc.Scheduler.Admission
import Libuc.Scheduler.History
import Libuc.Scheduler.Join
import Libuc.Scheduler.Await
import Libuc.Scheduler.Lifetime
import Libuc.Scheduler.Outcome
import Libuc.Scheduler.Fairness
import Libuc.Lib.ForkJoin
import Libuc.Scheduler.Story
import Libuc.Scheduler.Turns
import Libuc.Scheduler.Determinism
import Libuc.Scheduler.Rehearsal
import Libuc.String.Memcmp
import Libuc.Uc.SchedulerRing
import Libuc.Scheduler.SpawnOrder
import Libuc.Scheduler.Records
import Libuc.ThreadLocal.Layout
import Libuc.Process
import Libuc.ThreadLocal.Block
import Libuc.Fiber.Spawn
import Libuc.Fiber.Holdings
import Libuc.Arch.Aarch64
import Libuc.Arch.X8664
import Libuc.Fiber.Psabi
import Libuc.Fiber.Control
import Libuc.Fiber.Discipline
import Libuc.Ring.Create
import Libuc.Sys.Auxv
import Libuc.Start
import Libuc.Uc.Reactor
import Libuc.Uc.Routing
import Libuc.Libc.Calls
import Libuc.Libc.Errno
import Libuc.Libc.Isolation
import Libuc.Image.Basic
import Libuc.Lib.Follow
import Libuc.Lib.Touch
import Libuc.Image.Create
import Libuc.Image.Rehearsal
import Libuc.Image.Guarantees
import Libuc.Scheduler.Effort
import Libuc.Image.Startup
import Libuc.Threads
