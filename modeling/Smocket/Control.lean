import Smocket.Lifecycles
import Smocket.Rooms

/-
  File:      Smocket/Control.lean
  Subject:   THE FUNCTIONS THAT ONLY BRANCH AND CALL: the completion of connection middleware,
             the disconnect entry points, the delivery closures. They write nothing but the log.
-/

namespace Smocket

open Ordered EventLoop

/-! ## 1. Admission -/

/-- `this.sockets.set`, `join`, `markConnected`. -/
def admission (s : SocketId) : List Instr := [.memb (.enter s), .life (.markConnected s)]

/-- The deferred body of the `runMiddleware` callback in `continuePair`. -/
def completion (σ : Core) (s : SocketId) (err : Option MiddlewareError) : Out Unit :=
  let S := σ.conn.sockets s
  let pending := σ.conn.isConnectionAttemptPending S.attempt
  let connected := σ.conn.isConnectionAttemptConnected S.attempt s
  let closed := (σ.srv.namespaces S.nsp).closed
  match err with
  | some err =>
      { part := ()
        push :=
          if pending then [.conn (.rejectConnectionAttempt S.attempt err)]
          else if connected then
            [.srv (.discardReady s), .life (.cleanupConnectionAttempt s),
              .ctl (.reportRepeatedConnectionError S.peer err),
              .life (.teardown s "transport close" false)]
          else [] }
  | none =>
      { part := ()
        push :=
          if connected then
            if closed then [.life (.cleanupConnectionAttempt s)]
            else admission s ++
              [.ctl (.emitConnection s), .ctl (.dispatchClient S.peer "connect")]
          else if !pending then
            if (σ.conn.attempts S.attempt).state ≠ .connected then
              [.life (.cleanupConnectionAttempt s)]
            else []
          else if closed then [.conn (.rejectConnectionAttempt S.attempt
            { message := "server is closed" })]
          else admission s ++
            [.srv (.offer s), .ctl (.emitConnection s),
              .conn (.completeConnectionAttempt S.attempt s)] }

/-- `Namespace.emitConnection`: the `connection` listeners, then those of `connect`. -/
def emitConnection (σ : Core) (s : SocketId) : Out Unit :=
  { part := ()
    push := [.app (.namespaceListener (σ.conn.sockets s).nsp "connection"), .ctl (.emitConnect s)]
    log := [.connection s] }

/-- A local dispatch on a client: its listeners. -/
def dispatchClient (c : ClientId) (event : String) : Out Unit :=
  { part := (), push := [.app (.clientListener c event)], log := [.clientEvent c event] }

/-- `ClientSocket.reportRepeatedConnectionError`: the error is snapshot at once. -/
def reportRepeatedConnectionError (c : ClientId) (err : MiddlewareError) : Out Unit :=
  if err.encodable then { part := (), post := [.ctl (.dispatchClient c "connect_error")] }
  else { part := (), fails := true }

/-! ## 2. Disconnecting -/

/-- `ClientSocket.disconnect`. -/
def clientDisconnect (σ : Core) (c : ClientId) : Out Unit :=
  { part := ()
    push :=
      if (σ.conn.clients c).connected then
        [.conn (.markDisconnected c "io client disconnect"), .ctl (.handleDisconnect c)]
      else [.conn (.cancelConnectionAttempt c)] }

/-- `this.serverSocket.handleDisconnect()`. -/
def handleDisconnect (σ : Core) (c : ClientId) : Out Unit :=
  { part := ()
    push := (σ.conn.clients c).serverSocket.toList.map fun s =>
      .life (.teardown s "client namespace disconnect" true) }

/-- `ServerSocket.disconnect`. -/
def disconnect (σ : Core) (s : SocketId) (close : Bool) : Out Unit :=
  let c := (σ.conn.sockets s).peer
  { part := ()
    push :=
      if close then
        if σ.ownsConnection c s then [.ctl (.managerDisconnect (σ.conn.clients c).io s)] else []
      else [.life (.disconnectNamespaceFromServer s)] }

/-- `Manager.disconnect`, the loop over a copy of `connectedClients`. -/
def managerDisconnect (σ : Core) (m : ManagerId) (initiator : SocketId) : Out Unit :=
  { part := ()
    push := (σ.conn.managers m).connectedClients.elems.map (fun c => .ctl (.disconnectFromServer c)) ++
      [.ctl (.managerPending m initiator)] }

/-- `ClientSocket.disconnectFromServer`. -/
def disconnectFromServer (σ : Core) (c : ClientId) : Out Unit :=
  { part := ()
    push :=
      if (σ.conn.clients c).connected then
        (σ.conn.clients c).serverSocket.toList.map fun s =>
          .life (.disconnectNamespaceFromServer s)
      else [] }

/-- `Manager.disconnect`, the loop over a copy of `pendingClients`, then the initiator. -/
def managerPending (σ : Core) (m : ManagerId) (initiator : SocketId) : Out Unit :=
  { part := ()
    push := (σ.conn.managers m).pendingClients.elems.map
        (fun c => .ctl (.cancelUnlessOwner c initiator)) ++
      [.life (.disconnectNamespaceFromServer initiator)] }

/-- One turn of that loop. -/
def cancelUnlessOwner (σ : Core) (c : ClientId) (initiator : SocketId) : Out Unit :=
  { part := ()
    push := if σ.ownsConnection c initiator then [] else [.conn (.cancelConnectionAttempt c)] }

/-- The deferred part of `disconnectNamespaceFromServer`. -/
def markFromServer (σ : Core) (s : SocketId) : Out Unit :=
  { part := ()
    push :=
      if (σ.conn.peer s).connected then
        [.conn (.markDisconnected (σ.conn.sockets s).peer "io server disconnect")]
      else [] }

/-- `BroadcastOperator.disconnectSockets`. -/
def disconnectSockets (σ : Core) (op : BroadcastOperator) (close : Bool) : Out Unit :=
  { part := (), push := (op.managementSockets σ).map fun s => .ctl (.disconnect s close) }

/-! ## 3. Delivering -/

/-- Through which server socket a client is connected. -/
def Core.through (σ : Core) (c : ClientId) : Option SocketId :=
  if (σ.conn.clients c).connected then (σ.conn.clients c).serverSocket else none

/-- Whether a delivery guard lets its packet through; none where evaluating it throws. -/
def DeliveryGuard.passes (σ : Core) (c : ClientId) : DeliveryGuard → Option Bool
  | .survived s => some (σ.conn.ownsDeliveryGeneration c s)
  | .generation captured =>
      if (σ.conn.clients c).connected && decide (σ.conn.current c = captured) then some true
      else captured.map fun s => (σ.memb.sockets s).drainingAdapterDelivery

/-- The closure `sendEncoded` schedules for a client. -/
def deliverClient (σ : Core) (d : Delivery) : Out Unit :=
  match d.guard.passes σ d.client with
  | none => { part := (), fails := true }
  | some false => { part := () }
  | some true =>
      { part := ()
        push := [.app (.clientListener d.client d.event)]
        log := [.delivered d (σ.through d.client)
          (σ.memb.sockets d.sender).drainingAdapterDelivery] }

/-- The closure `sendEncoded` schedules for a server socket. -/
def deliverServer (σ : Core) (d : ServerDelivery) : Out Unit :=
  { part := (), push := if (σ.life.sockets d.socket).deliveryActive then [.life (.dispatch d)] else [] }

/-- `admitDynamic`, with the child namespace. -/
def admitChild (σ : Core) (a : AttemptId) (n : NspId) : Out Unit :=
  { part := ()
    push :=
      if σ.conn.isConnectionAttemptPending a then
        [.conn (.attachNamespace (σ.conn.attempts a).client n), .srv (.continuePair a n false)]
      else [] }

def execCtl (σ : Core) : CtlInstr → Out Unit
  | .completion s err => completion σ s err
  | .emitConnection s => emitConnection σ s
  | .emitConnect s =>
      { part := (), push := [.app (.namespaceListener (σ.conn.sockets s).nsp "connect")] }
  | .dispatchClient c event => dispatchClient c event
  | .reportRepeatedConnectionError c err => reportRepeatedConnectionError c err
  | .clientDisconnect c => clientDisconnect σ c
  | .handleDisconnect c => handleDisconnect σ c
  | .disconnect s close => disconnect σ s close
  | .managerDisconnect m initiator => managerDisconnect σ m initiator
  | .disconnectFromServer c => disconnectFromServer σ c
  | .managerPending m initiator => managerPending σ m initiator
  | .cancelUnlessOwner c initiator => cancelUnlessOwner σ c initiator
  | .markFromServer s => markFromServer σ s
  | .deliverClient d => deliverClient σ d
  | .deliverServer d => deliverServer σ d
  | .admitChild a n => admitChild σ a n
  | .disconnectSockets op close => disconnectSockets σ op close

end Smocket
