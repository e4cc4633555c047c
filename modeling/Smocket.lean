import Smocket.EventLoop
import Smocket.Grounds
import Smocket.Sections
import Smocket.Orders
import Smocket.Duplex
import Smocket.Ordered
import Smocket.State
import Smocket.Machine
import Smocket.Log
import Smocket.References
import Smocket.WellFormed
import Smocket.Spawns
import Smocket.Admission
import Smocket.Membership
import Smocket.Setup
import Smocket.Routing
import Smocket.Rosters
import Smocket.Bookkeeping
import Smocket.Stale
import Smocket.Generations
import Smocket.Drains
import Smocket.Requests
import Smocket.Handles
import Smocket.Timeouts
import Smocket.Flushes
import Smocket.Teardowns
import Smocket.Hooks
import Smocket.Packets
import Smocket.Rendezvous
import Smocket.Namespaces
import Smocket.Operators
import Smocket.Observers
import Smocket.Withdrawals
import Smocket.Acks
import Smocket.Registers
import Smocket.Settlements
import Smocket.Payloads
import Smocket.Wrappers
import Smocket.Tallies
import Smocket.Delays
import Smocket.Streams
import Smocket.Emitters
import Smocket.Conduits
import Smocket.Accounts
import Smocket.Inbound
import Smocket.Outbound
import Smocket.Answers
import Smocket.Ownership
import Smocket.Closing
import Smocket.Farewells
import Smocket.SharedWorker.Protocol
import Smocket.SharedWorker.Host
import Smocket.SharedWorker.Grammar
import Smocket.SharedWorker.Page
import Smocket.SharedWorker.Writers
import Smocket.SharedWorker.Isolation
import Smocket.SharedWorker.Agreement
import Smocket.SharedWorker.Emissions
