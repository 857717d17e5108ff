import Filth.Base.Machine
import Filth.Cache.Sections
import Filth.Cache.Threads
import Filth.Cache.Accounting
import Filth.Cache.Pinning
import Filth.Cache.Counting
import Filth.Cache.Admission
import Filth.Cache.Exactness
import Filth.Base.Text
import Filth.Http.Constants
import Filth.Http.CacheEntry
import Filth.Http.Age
import Filth.Http.Sharing
import Filth.Base.Resumable
import Filth.Http.Parsing
import Filth.Http.Segmentation
import Filth.Base.Effects
import Filth.Server.Client
import Filth.Server.World
import Filth.Server.Prepare
import Filth.Server.References
import Filth.Server.Abreast
import Filth.Server.Browsing
import Filth.Server.CarryOver
import Filth.Cache.Calls
import Filth.Server.ReadWrites
import Filth.Server.Escapes
import Filth.Server.Closing
import Filth.Server.Walk
import Filth.Server.Origin
import Filth.Server.Pipelining
import Filth.Server.Framing
import Filth.Server.Relay
import Filth.Sched.Retirement
import Filth.Sched.System
import Filth.Base.Words
import Filth.Server.Directives
import Filth.Server.Reading
import Filth.Server.Transparency
import Filth.Http.Losses
import Filth.Server.Fidelity
import Filth.Server.Transfer
import Filth.Server.Deletion
import Filth.Server.Decision
import Filth.Sched.WorkMap
import Filth.Sched.Dormancy
import Filth.Sched.Ownership
import Filth.Base.Progress
import Filth.Base.Simulation
import Filth.Base.Histories
import Filth.Sched.Pool
import Filth.Sched.Serving
import Filth.Sched.Lifetimes
import Filth.Sched.Shutdown
import Filth.Sched.Drained
import Filth.Sched.Descriptors
import Filth.Queue.Fifo
import Filth.Server.Teardown
import Filth.Http.Slots
import Filth.Http.Names
import Filth.Http.Trimming
import Filth.Server.Query
import Filth.Server.Fields
import Filth.Server.Sending
import Filth.Server.Bodiless
import Filth.Server.Delivery
import Filth.Server.Handshake
import Filth.Queue.Semaphore
import Filth.Queue.Reclaim
import Filth.Queue.Recycling
import Filth.Queue.Headway
import Filth.Queue.Preallocated
import Filth.Queue.DoubleLocked
import Filth.Queue.Atomic
import Filth.Queue.Linearizable
import Filth.Sched.Staff
import Filth.Sched.Delivered
import Filth.Server.Links
import Filth.Server.HexEscape
import Filth.Server.DomainSocket
import Filth.Server.Gunzip
import Filth.Config.Cmdline
