import Smocket.State

/-
  File:      Smocket/Instr.lean
  Subject:   THE INSTRUCTIONS of the runtime, and what one of them may write.

  A function of the source is one instruction per stretch between two places where application
  code can run, under the function's name; the stretches after the first carry a suffix. The
  instructions are grouped by the part of the heap they write (`Out`), so that a fact about one
  part is untouched by every instruction of the other groups.
-/

namespace Smocket

open Ordered EventLoop

/-! ## 1. Application frames -/

/-- On whose behalf application code is running. -/
inductive AppCtx where
  | clientListener (c : ClientId) (event : String)
  | serverListener (s : SocketId) (event : String)
  /-- `dispatchCatchAll` and `dispatchNamed`, for a packet -/
  | serverCatchAll (s : SocketId) (event : String) (args : Nat)
  | serverNamed (s : SocketId) (event : String) (args : Nat)
  | namespaceListener (n : NspId) (event : String)
  /-- `emitOutgoing`; a packet whose payload does not encode throws when its observers return -/
  | clientOutgoing (c : ClientId)
  | serverOutgoing (s : SocketId)
  | connectionMiddleware (s : SocketId) (i : Nat)
  | packetMiddleware (r : Nat) (i : Nat)
  | auth (a : AttemptId)
  | matcher (a : AttemptId) (p : ParentId)
  | adapterFactory
  /-- a hook of an application's own adapter -/
  | adapterHook (n : NspId)
  | ackCallback
  deriving DecidableEq

/-! ## 2. Broadcast operators -/

/-- The fields of `BroadcastOperator`; the namespace stands for its roster. -/
structure BroadcastOperator where
  nsp : NspId
  /-- which of the adapters of its namespace -/
  adapter : Nat := 0
  targetRooms : OSet String
  exceptRooms : OSet String
  isVolatile : Bool := false
  timeoutMs : Option Nat := none

/-! ## 3. Instructions by group -/

/-- Instructions that write `Conn`. -/
inductive ConnInstr where
  | openClient (name : String) (authCallback forceNew : Bool)
  | connect (c : ClientId)
  | setAuth (c : ClientId) (authCallback : Bool)
  | admitDynamic (c : ClientId)
  | attachNamespace (c : ClientId) (n : NspId)
  | newServerSocket (a : AttemptId) (n : NspId)
  | rejectConnectionAttempt (a : AttemptId) (err : MiddlewareError)
  | rejectConnectionAttemptRest (a : AttemptId) (err : MiddlewareError)
  | cancelConnectionAttempt (c : ClientId)
  | cancelConnectionAttemptRest (c : ClientId)
  | completeConnectionAttempt (a : AttemptId) (s : SocketId)
  | markDisconnected (c : ClientId) (reason : String)
  deriving DecidableEq

/-- Instructions that write `Life`. -/
inductive LifeInstr where
  | runMiddleware (s : SocketId)
  | next (s : SocketId) (i : Nat) (err : Option MiddlewareError)
  | markConnected (s : SocketId)
  | teardown (s : SocketId) (reason : String) (drainQueuedDelivery : Bool)
  | teardownTask (s : SocketId) (reason : String) (drainDispatchedDelivery : Bool)
  | disconnectNamespaceFromServer (s : SocketId)
  /-- from `this.connected = false` on; `sync` tells `teardownSynchronously` from `teardown` -/
  | teardownCleanup (s : SocketId) (reason : String) (sync : Bool)
  | teardownDisconnect (s : SocketId) (reason : String) (sync : Bool)
  | teardownDone (s : SocketId) (sync : Bool)
  | cleanupConnectionAttempt (s : SocketId)
  | invalidateAcknowledgements (s : SocketId)
  | awaitTeardown (s : SocketId) (wake : Wake)
  | use (s : SocketId) (f : FnId)
  | dispatch (d : ServerDelivery)
  /-- the named half of a dispatch without middleware -/
  | dispatchEvent (s : SocketId) (event : String) (args : Nat)
  | endDispatch (s : SocketId)
  | startPacket (d : ServerDelivery) (enteredWhileActive : Bool)
  /-- a write to the array `packet` -/
  | setPacket (r : Nat) (event : String) (args : Nat)
  | runPacket (r : Nat) (index : Nat)
  | packetNext (r : Nat) (i : Nat) (err : Bool)
  | dispatchNamed (r : Nat)
  deriving DecidableEq

/-- Instructions that write `Memb`. -/
inductive MembInstr where
  | enter (s : SocketId)
  | join (s : SocketId) (rooms : List String)
  | leave (s : SocketId) (room : String)
  | socketsJoin (op : BroadcastOperator) (rooms : List String)
  | socketsLeave (op : BroadcastOperator) (rooms : List String)
  | cleanupMembership (s : SocketId)
  | drainEnd (s : SocketId)
  | cleanupMembershipRest (s : SocketId)

/-- Instructions that write `Mail`. -/
inductive MailInstr where
  | clientFlags (c : ClientId) (flags : SocketFlags)
  | clientEmit (c : ClientId) (event : String) (form : EmitForm)
  | clientEmitRest (c : ClientId) (p : BufferedPacket)
  | flush (a : AttemptId) (s : SocketId)
  | flushPackets (a : AttemptId) (s : SocketId) (ps : List BufferedPacket)
  | flushRest (a : AttemptId) (s : SocketId) (p : BufferedPacket) (ps : List BufferedPacket)
  | rejectPendingAcks (c : ClientId)
  | rejectAck (c : ClientId) (h : AckHandle)
  | serverFlags (s : SocketId) (flags : SocketFlags)
  | serverEmit (s : SocketId) (event : String) (form : EmitForm)
  | serverEmitRest (s : SocketId) (serial : Nat) (event : String) (reply : Option Reply)
      (peerWasConnected : Bool)
  | sendBroadcast (s : SocketId) (event : String)
  | sendBroadcastRest (s : SocketId) (serial : Nat) (event : String) (peerWasConnected : Bool)
  | pumpRun (r : PumpRun)
  | pumpRest (r : PumpRun)
  | removeDeliveries (s : SocketId)
  | cancelTimer (r : Option PumpRun)
  | invokeAck (k : AckId) (encodable : Bool)
  | ackReply (reply : Reply)
  | ackTimeout (r : RequestId)
  | setDelay (n : NspId) (sid : String) (ms : Option Int)
  | setNow (t : Int)
  deriving DecidableEq

/-- What continues after `getNamespace`. -/
inductive Cont where
  | attempt (a : AttemptId)
  | observe (o : ObserverId)
  | done
  deriving DecidableEq

/-- Instructions that write `Srv`. -/
inductive SrvInstr where
  | serverConnect (name : String) (authCallback forceNew : Bool)
  | adapter (results : List FactoryResult)
  | of (name : String)
  | ofMatcher (m : Matcher)
  | use (n : NspId) (f : FnId)
  | useParent (p : ParentId) (f : FnId)
  | nextConnection (name : String)
  | factoryReturns (r : FactoryResult)
  | continuePair (a : AttemptId) (n : NspId) (authCallback : Bool)
  | authorized (a : AttemptId) (n : NspId)
  | dynamicTask (a : AttemptId) (authCallback : Bool)
  | dynamicAuthorized (a : AttemptId)
  | tryParent (a : AttemptId) (index : ParentId)
  | matched (a : AttemptId) (index : ParentId) (allowed : Bool)
  | getNamespace (name : String) (parent : Option ParentId) (k : Cont)
  | createNamespace (name : String) (attachTo : Option ParentId) (closed : Bool) (k : Cont)
  | createNamespaceRest (n : NspId) (k : Cont)
  | observe (o : ObserverId) (n : NspId)
  | settleObserver (o : ObserverId) (result : Observer)
  | offer (s : SocketId)
  | discardReady (s : SocketId)
  | broadcast (op : BroadcastOperator) (event : String)
  | setDropped (n : NspId) (layer : Nat) (sid : String) (dropped : Bool)
  | removeSocket (s : SocketId)
  | close
  | closeNamespace (n : NspId)
  | closeFromServer (s : SocketId)
  | awaitClosed (s : SocketId)
  | closeRest (s : SocketId)
  | closeResolved (s : SocketId)
  | socketClosed (n : NspId)
  | namespaceEmpty (n : NspId)
  | namespaceRest (n : NspId)
  | namespaceClosed
  | closeThen

/-- Instructions that write nothing but the log. -/
inductive CtlInstr where
  | completion (s : SocketId) (err : Option MiddlewareError)
  | emitConnection (s : SocketId)
  | emitConnect (s : SocketId)
  | dispatchClient (c : ClientId) (event : String)
  | reportRepeatedConnectionError (c : ClientId) (err : MiddlewareError)
  | clientDisconnect (c : ClientId)
  | handleDisconnect (c : ClientId)
  | disconnect (s : SocketId) (close : Bool)
  | managerDisconnect (m : ManagerId) (initiator : SocketId)
  | disconnectFromServer (c : ClientId)
  | managerPending (m : ManagerId) (initiator : SocketId)
  | cancelUnlessOwner (c : ClientId) (initiator : SocketId)
  | markFromServer (s : SocketId)
  | deliverClient (d : Delivery)
  | deliverServer (d : ServerDelivery)
  | admitChild (a : AttemptId) (n : NspId)
  | disconnectSockets (op : BroadcastOperator) (close : Bool)

inductive Instr where
  | app (x : AppCtx)
  | conn (i : ConnInstr)
  | life (i : LifeInstr)
  | memb (i : MembInstr)
  | mail (i : MailInstr)
  | srv (i : SrvInstr)
  | ctl (i : CtlInstr)

/-! ## 4. What an instruction returns -/

/-- The effect of an instruction of one group: the new value of the part it writes, what runs
    next, the tasks it posts, the events it records (newest first), whether it throws. -/
structure Out (Part : Type) where
  part : Part
  push : List Instr := []
  post : List Instr := []
  log : List Event := []
  fails : Bool := false

/-- Replace one object of a heap of objects. -/
def modify {α : Type} (f : Nat → α) (i : Nat) (g : α → α) : Nat → α := Function.update f i (g (f i))

@[simp] theorem modify_apply {α : Type} (f : Nat → α) (i j : Nat) (g : α → α) :
    modify f i g j = if j = i then g (f i) else f j :=
  Function.update_apply ..

end Smocket
