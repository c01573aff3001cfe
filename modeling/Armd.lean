import Armd.LinkedRings
import Armd.Datastructure
import Armd.Runs
import Armd.BoundedQueue
import Armd.Message
import Armd.Queue
import Armd.Channel
import Armd.QueueLock
import Armd.Monitor
import Armd.Programs
import Armd.Memory
import Armd.Module
import Armd.Registry
import Armd.RegistryModel
import Armd.Traversal
import Armd.RegistryCalls
import Armd.StartStop
import Armd.StartCallbacks
import Armd.Lifecycle
import Armd.Operations
import Armd.HandleCycle
import Armd.OpenHandles
import Armd.Pairing
import Armd.Main
import Armd.Posting
import Armd.Shutdown
import Armd.ShutdownProtocol
import Armd.Payloads
import Armd.Lookup
import Armd.StartPrefix
import Armd.StopCallbacks
import Armd.Draining
import Armd.HandlerStop
import Armd.BinaryHeap
import Armd.HeapOperations
import Armd.UvQueue
import Armd.QueueCalls
import Armd.UvRun
import Armd.Heartbeat
import Armd.AsyncProgress
import Armd.AsyncClose
import Armd.AsyncRings
