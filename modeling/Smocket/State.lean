import Smocket.EventLoop
import Smocket.Ordered
import Mathlib.Logic.Function.Basic

/-
  File:      Smocket/State.lean
  Subject:   THE HEAP OF ONE SERVER and the instructions its runtime is cut into
             (`src/src/runtime`).

  Objects are numbered in the order of their creation; a heap of objects is a total function with
  a counter, whose value past the counter is the object a constructor call would make. The fields
  of one class are spread over five parts of the heap, by the functions that write them:

  * `Conn` -- client sockets, connection attempts, Managers, and what a server socket is built
    with;
  * `Life` -- the lifecycle flags of server sockets and the runs of both kinds of middleware;
  * `Memb` -- rooms: the sockets' own sets, the adapters' two indexes, the rosters;
  * `Mail` -- what is on its way: send buffers, acknowledgements, delayed deliveries, timers;
  * `Srv` -- the server, its namespaces and dynamic parents, `nextConnection` observers, `close`.

  Payloads are left out: nothing modelled here reads one. Listener registries are left out too:
  the listeners that run at one dispatch are one application frame, whatever they do.
-/

namespace Smocket

open Ordered EventLoop

/-! ## 1. Names -/

abbrev ClientId := Nat
abbrev AttemptId := Nat
abbrev SocketId := Nat
abbrev NspId := Nat
abbrev ManagerId := Nat
abbrev ParentId := Nat
abbrev ObserverId := Nat
abbrev RequestId := Nat
abbrev AckId := Nat
/-- an application function, where the code only keeps its identity -/
abbrev FnId := Nat
abbrev RegExpId := Nat

/-- The two functions of the host platform the modelled code calls. -/
structure Platform where
  /-- the ids `newId` draws from `crypto.getRandomValues`, in the order they are drawn -/
  newId : Nat → String
  /-- `RegExp.prototype.test` of a stateless regular expression -/
  test : RegExpId → String → Bool
  /-- 120 random bits do not repeat -/
  newId_injective : Function.Injective newId

/-- `RESERVED_EVENTS`. -/
def RESERVED_EVENTS : List String :=
  ["connect", "connect_error", "disconnect", "disconnecting", "newListener", "removeListener"]

/-- `normalizeNamespace`. -/
def normalizeNamespace (name : String) : String :=
  if name = "" ∨ name = "/" then "/" else if name.startsWith "/" then name else "/" ++ name

/-- A middleware error: its message, and whether `data` survives `JSON.stringify`. -/
structure MiddlewareError where
  message : String
  encodable : Bool := true
  deriving DecidableEq

/-! ## 2. Connections -/

inductive AttemptState where
  | pending | cancelled | rejected | connected
  deriving DecidableEq

/-- `ConnectionAttempt`, with the client its closures capture along with it. -/
structure ConnectionAttempt where
  client : ClientId := 0
  state : AttemptState := .pending
  serverSocket : Option SocketId := none

/-- The connection fields of `ClientSocket`. -/
structure ClientSocket where
  io : ManagerId := 0
  /-- the normalized name `resolveNamespace` and `dynamicAdmission` close over -/
  path : String := "/"
  nsp : Option NspId := none
  /-- whether `auth` is a function -/
  authCallback : Bool := false
  connected : Bool := false
  id : Option String := none
  serverSocket : Option SocketId := none
  connectionAttempt : Option AttemptId := none

/-- The fields of `ServerSocket` fixed at its creation, and the attempt it was created for (the
    closures of `continuePair` capture the two together). -/
structure ServerSocket where
  id : String := ""
  nsp : NspId := 0
  peer : ClientId := 0
  attempt : AttemptId := 0

structure Manager where
  namespaces : OSet String := .empty
  pendingClients : OSet ClientId := .empty
  connectedClients : OSet ClientId := .empty

structure Conn where
  clients : ClientId → ClientSocket := fun _ => {}
  clientCount : Nat := 0
  attempts : AttemptId → ConnectionAttempt := fun _ => {}
  attemptCount : Nat := 0
  sockets : SocketId → ServerSocket := fun _ => {}
  socketCount : Nat := 0
  managers : ManagerId → Manager := fun _ => {}
  managerCount : Nat := 0
  /-- `Server.cachedManager` -/
  cachedManager : Option ManagerId := none

/-! ## 3. Server lifecycles -/

/-- `teardownPromise`: unset, pending or resolved. -/
inductive Teardown where
  | none | pending | resolved
  deriving DecidableEq

structure Lifecycle where
  connected : Bool := false
  teardownPromise : Teardown := .none
  active : Bool := true
  /-- `deliveryState` -/
  deliveryActive : Bool := true
  clientDrain : Bool := false
  /-- `serverAcknowledgementState.active` and `clientAcknowledgementState.active` -/
  serverAck : Bool := true
  clientAck : Bool := true
  dispatchDepth : Nat := 0

/-- One call of `Namespace.runMiddleware`: its snapshot of the chain and the shared `index`. -/
structure MiddlewareRun where
  chain : List FnId := []
  index : Nat := 0

/-- One packet inside `ServerSocket.dispatch` with packet middleware: the array `packet`, whose
    arguments are a number here, the snapshot of the chain, the flag. -/
structure PacketRun where
  socket : SocketId
  event : String
  args : Nat
  chain : List FnId
  enteredWhileActive : Bool
  /-- how many members of the chain have been invoked -/
  invoked : Nat := 0

/-- What waits for a socket's `teardownPromise` during `Server.close`. -/
inductive Wake where
  | resume | closed
  deriving DecidableEq

structure Life where
  sockets : SocketId → Lifecycle := fun _ => {}
  middleware : SocketId → MiddlewareRun := fun _ => {}
  packetMiddleware : SocketId → List FnId := fun _ => []
  packetRuns : List PacketRun := []
  waiting : SocketId → List Wake := fun _ => []

/-! ## 4. Membership -/

/-- The membership fields of `ServerSocket`. -/
structure Membership where
  rooms : OSet String := .empty
  acceptsRoomJoins : Bool := true
  membershipCleaned : Bool := false
  drainingAdapterDelivery : Bool := false

/-- The two indexes of `Adapter`: room to members, sid to rooms. -/
structure Adapter where
  rooms : OMap String (OSet String) := .empty
  sids : OMap String (OSet String) := .empty

structure Memb where
  sockets : SocketId → Membership := fun _ => {}
  adapters : NspId → Adapter := fun _ => {}
  /-- `Namespace.sockets` -/
  rosters : NspId → OMap String SocketId := fun _ => .empty

/-! ## 5. Traffic -/

structure SocketFlags where
  isVolatile : Bool := false
  timeout : Option Nat := none
  deriving DecidableEq

/-- What the trailing function of an emit is, once answered. -/
inductive Reply where
  /-- an application callback -/
  | callback
  /-- the wrapper of `withAckTimeout`, the answer function of `emitWithAck`, or both -/
  | request (r : RequestId)
  deriving DecidableEq

/-- Whether an emit carries no trailing function, a callback, or is an `emitWithAck`. -/
inductive EmitForm where
  | plain | callback | promise
  deriving DecidableEq

/-- One `timeout(ms).emit` with a callback or one `emitWithAck`. -/
structure Request where
  /-- the client that emitted it; none for a server emit -/
  client : Option ClientId := none
  promise : Bool := false
  timed : Bool := false
  /-- the `trackTimedCallback` argument of `sendEvent` -/
  tracked : Bool := false
  /-- `settled` of `withAckTimeout` -/
  settled : Bool := false
  /-- the `cancellation` record of `emitWithAck` -/
  sending : Bool := false
  reason : Bool := false

/-- The two kinds of function in `pendingAcks`. -/
inductive AckHandle where
  | timed (r : RequestId)
  | promise (r : RequestId)
  deriving DecidableEq

/-- `BufferedPacket`, numbered in emit order. -/
structure BufferedPacket where
  serial : Nat
  event : String
  reply : Option Reply
  timedCallback : Option RequestId
  deriving DecidableEq

/-- The sending fields of `ClientSocket`. -/
structure Outbox where
  sendBuffer : List BufferedPacket := []
  pendingAcks : OSet AckHandle := .empty
  flags : SocketFlags := {}

/-- The acknowledgement function `sendEncoded` hands to a receiver. The guard reads the flags of
    the server socket named here. -/
structure Ack where
  acked : Bool := false
  socket : SocketId := 0
  /-- the receiver is the client -/
  forClient : Bool := false
  reply : Reply := .callback

/-- What `sendEncoded` checks when a packet for a client is delivered. -/
inductive DeliveryGuard where
  /-- `ClientSocket.deliveryGuard`, with the server socket current at the send -/
  | generation (captured : Option SocketId)
  /-- `ownsDeliveryGeneration`, for a packet whose own observer ended the connection -/
  | survived (sender : SocketId)
  deriving DecidableEq

/-- The `deliver` closure of a packet for a client. -/
structure Delivery where
  client : ClientId
  sender : SocketId
  serial : Nat
  event : String
  ack : Option AckId
  guard : DeliveryGuard
  deriving DecidableEq

/-- The `deliver` closure of a packet for a server socket. -/
structure ServerDelivery where
  socket : SocketId
  client : ClientId
  serial : Nat
  event : String
  ack : Option AckId
  deriving DecidableEq

/-- An entry of a `DelayingAdapter` queue. -/
structure QueueEntry where
  delivery : Delivery
  fireAt : Int
  deriving DecidableEq

/-- A queue object of `DelayingAdapter`; the code compares queues by identity. -/
structure DeliveryQueue where
  ident : Nat
  entries : List QueueEntry

/-- The closure `run` of `DelayingAdapter.pump`. -/
structure PumpRun where
  nsp : NspId
  sid : String
  ident : Nat
  head : QueueEntry
  deriving DecidableEq

/-- The private maps of `DelayingAdapter`. -/
structure Scheduler where
  delays : OMap String Int := .empty
  queues : OMap String DeliveryQueue := .empty
  scheduled : OMap String PumpRun := .empty

structure Mail where
  outboxes : ClientId → Outbox := fun _ => {}
  serverFlags : SocketId → SocketFlags := fun _ => {}
  requests : RequestId → Request := fun _ => {}
  requestCount : Nat := 0
  acks : AckId → Ack := fun _ => {}
  ackCount : Nat := 0
  schedulers : NspId → Scheduler := fun _ => {}
  queueCount : Nat := 0
  /-- `run` closures given to `timer.schedule`, neither run nor cancelled -/
  timers : List PumpRun := []
  /-- `setTimeout` of `withAckTimeout`, neither fired nor cleared -/
  ackTimers : List RequestId := []
  /-- deliveries handed to the hook of an application's own adapter -/
  held : List Delivery := []
  /-- `timer.now()` -/
  now : Int := 0
  /-- the next packet number -/
  serial : Nat := 0

/-! ## 6. The server -/

/-- The adapter under the wrappers. `custom` is an adapter of the application that implements the
    delivery and removal hooks. -/
inductive AdapterBase where
  | builtin | delaying | custom
  deriving DecidableEq

structure BroadcastTrace where
  event : String
  rooms : List String
  exceptRooms : List String
  excluded : List String
  recipients : List String
  isVolatile : Bool
  deriving DecidableEq

/-- One wrapper: `DroppingAdapter` with `dropped`, or `TracingAdapter` with `traces`. -/
inductive Layer where
  | dropping (dropped : List String)
  | tracing (traces : List BroadcastTrace)
  deriving DecidableEq

/-- What an adapter factory returned: a fresh adapter, one the namespace has had before, by its
    number, or an instance in use elsewhere. One that another namespace has given up counts as
    fresh: the two namespaces have no socket in common. -/
inductive FactoryResult where
  | fresh (base : AdapterBase) (layers : List Layer)
  | earlier (k : Nat)
  | reused
  deriving DecidableEq

/-- An adapter of a namespace that is not in place: its indexes, its base and its wrappers. -/
structure RetiredAdapter where
  index : Adapter := {}
  base : AdapterBase := .builtin
  layers : List Layer := []

/-- A `nextConnection` observer waiting in a namespace. One transferred from `dynamicWaiters`
    settles through a promise reaction. -/
structure Waiter where
  observer : ObserverId
  transferred : Bool
  deriving DecidableEq

structure Namespace where
  name : String := "/"
  closed : Bool := false
  middleware : List FnId := []
  ready : List SocketId := []
  waiters : List Waiter := []
  base : AdapterBase := .builtin
  /-- wrappers around the base, outermost first -/
  layers : List Layer := []
  /-- which of its adapters is in place; the constructor's has the number 0 -/
  adapter : Nat := 0
  adapterCount : Nat := 1
  /-- the others, as `useAdapter` has left them -/
  retired : Nat → RetiredAdapter := fun _ => {}

inductive Matcher where
  | regExp (r : RegExpId)
  | function
  deriving DecidableEq

structure ParentNamespace where
  matcher : Matcher
  children : OSet NspId := .empty
  middleware : List FnId := []

inductive Observer where
  | waiting
  | resolved (s : SocketId)
  | rejected
  deriving DecidableEq

inductive ClosePromise where
  | unset | pending | resolved
  deriving DecidableEq

structure Srv where
  namespaces : NspId → Namespace := fun _ => {}
  nspCount : Nat := 0
  /-- `Server.namespaces` -/
  table : OMap String NspId := .empty
  parents : List ParentNamespace := []
  regexParents : OMap RegExpId ParentId := .empty
  dynamicWaiters : OMap String (List ObserverId) := .empty
  observers : ObserverId → Observer := fun _ => .waiting
  observerCount : Nat := 0
  adapterFactory : Bool := false
  factoryResult : FactoryResult := .fresh .builtin []
  admissionStarted : Bool := false
  closed : Bool := false
  closePromise : ClosePromise := .unset
  /-- how many promises the two levels of `Promise.all` in `close` still wait for -/
  socketsLeft : NspId → Nat := fun _ => 0
  namespacesLeft : Nat := 0
  /-- `done` callbacks handed to auth functions: the attempt, and the namespace of a `pair` -/
  authCalls : List (AttemptId × Option NspId) := []
  /-- `next` callbacks handed to function matchers: the attempt and the parent's index -/
  matcherCalls : List (AttemptId × ParentId) := []

/-! ## 7. What a run leaves behind -/

/-- The observable events, recorded newest first. -/
inductive Event where
  /-- connection middleware `i` of the socket's chain was invoked -/
  | invoked (s : SocketId) (i : Nat)
  /-- that middleware called `next` without an error -/
  | answered (s : SocketId) (i : Nat)
  /-- that middleware called `next` with an error -/
  | refused (s : SocketId) (i : Nat)
  /-- `runMiddleware` reported an error-free completion -/
  | completed (s : SocketId)
  /-- the socket entered the roster -/
  | admitted (s : SocketId)
  | connection (s : SocketId)
  | disconnecting (s : SocketId)
  | disconnect (s : SocketId)
  /-- a packet was dispatched on a client: through which socket the client was connected, and
      whether the sender was draining its adapter deliveries -/
  | delivered (d : Delivery) (through : Option SocketId) (draining : Bool)
  /-- a packet entered `dispatch` on a server socket -/
  | entered (d : ServerDelivery)
  | clientEvent (c : ClientId) (event : String)
  /-- `Server.close` was called -/
  | closeCalled
  deriving DecidableEq

/-- The heap. -/
structure Core where
  conn : Conn := {}
  life : Life := {}
  memb : Memb := {}
  mail : Mail := {}
  srv : Srv := {}
  log : List Event := []

end Smocket
