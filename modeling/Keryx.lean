import Keryx.Lib.Run
import Keryx.Lib.Machine
import Keryx.Lib.PubSub
import Keryx.Broker.Batching
import Keryx.Broker.Snapshots
import Keryx.Broker.Exceptions
import Keryx.Broker.Missed
import Keryx.Broker.Process
import Keryx.Broker.EventMemory
import Keryx.Broker.Termination
import Keryx.Broker.Nested
import Keryx.Broker.Reentrancy
import Keryx.Broker.Throwing
import Keryx.Broker.Typed
import Keryx.RingBuffer.Atomic
import Keryx.RingBuffer.Delivery
import Keryx.RingBuffer.Reading
import Keryx.RingBuffer.Progress
import Keryx.RingBuffer.Linearization
import Keryx.RingBuffer.Messages
import Keryx.RingBuffer.Wraparound
import Keryx.RingBuffer.WaitFree
