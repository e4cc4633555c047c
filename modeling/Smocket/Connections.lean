import Smocket.Instr

/-
  File:      Smocket/Connections.lean
  Subject:   CONNECTION ATTEMPTS AND MANAGERS (`sockets.ts`, `manager.ts`): the functions of
             `ClientSocket` that write an attempt, the client's connection fields or its Manager.
-/

namespace Smocket

open Ordered EventLoop

/-! ## 1. Readers -/

/-- `ClientSocket.isConnectionAttemptPending`. -/
def Conn.isConnectionAttemptPending (κ : Conn) (a : AttemptId) : Bool :=
  decide ((κ.clients (κ.attempts a).client).connectionAttempt = some a) &&
    decide ((κ.attempts a).state = .pending)

/-- `ClientSocket.isConnectionAttemptConnected`. -/
def Conn.isConnectionAttemptConnected (κ : Conn) (a : AttemptId) (s : SocketId) : Bool :=
  let cl := κ.clients (κ.attempts a).client
  decide (cl.connectionAttempt = some a) && decide ((κ.attempts a).state = .connected) &&
    cl.connected && decide (cl.serverSocket = some s)

/-- `this.connectionAttempt?.serverSocket ?? this.serverSocket`. -/
def Conn.current (κ : Conn) (c : ClientId) : Option SocketId :=
  ((κ.clients c).connectionAttempt.bind fun a => (κ.attempts a).serverSocket) <|>
    (κ.clients c).serverSocket

/-- `ClientSocket.ownsDeliveryGeneration`. -/
def Conn.ownsDeliveryGeneration (κ : Conn) (c : ClientId) (s : SocketId) : Bool :=
  decide (κ.current c = some s)

/-- The client of a server socket. -/
def Conn.peer (κ : Conn) (s : SocketId) : ClientSocket := κ.clients (κ.sockets s).peer

/-- `ClientSocket.ownsConnection`. -/
def Core.ownsConnection (σ : Core) (c : ClientId) (s : SocketId) : Bool :=
  let cl := σ.conn.clients c
  (σ.life.sockets s).active &&
    ((cl.connected && decide (cl.serverSocket = some s)) ||
      cl.connectionAttempt.any fun a =>
        decide ((σ.conn.attempts a).state = .pending) &&
          decide ((σ.conn.attempts a).serverSocket = some s))

/-! ## 2. Managers -/

def Manager.registerPending (m : Manager) (c : ClientId) : Manager :=
  { m with pendingClients := m.pendingClients.insert c }

def Manager.settlePending (m : Manager) (c : ClientId) : Manager :=
  { m with pendingClients := m.pendingClients.erase c }

/-- `Manager.connected`. -/
def Manager.clientConnected (m : Manager) (c : ClientId) : Manager :=
  { m with pendingClients := m.pendingClients.erase c
           connectedClients := m.connectedClients.insert c }

/-- `Manager.disconnected`. -/
def Manager.clientDisconnected (m : Manager) (c : ClientId) : Manager :=
  { m with connectedClients := m.connectedClients.erase c }

/-- `new Manager(namespace)`. -/
def Conn.newManager (κ : Conn) (name : String) : Conn × ManagerId :=
  ({ κ with managers := Function.update κ.managers κ.managerCount
              { namespaces := OSet.empty.insert name }
            managerCount := κ.managerCount + 1 }, κ.managerCount)

/-- `Server.managerFor`; `forceNew` stands for either opt-out. -/
def Conn.managerFor (κ : Conn) (name : String) (forceNew : Bool) : Conn × ManagerId :=
  if forceNew then κ.newManager name
  else match κ.cachedManager with
    | none => ({ (κ.newManager name).1 with cachedManager := some (κ.newManager name).2 },
        (κ.newManager name).2)
    | some m =>
        if name ∈ (κ.managers m).namespaces then κ.newManager name
        else ({ κ with managers := modify κ.managers m fun x =>
                         { x with namespaces := x.namespaces.insert name } }, m)

/-! ## 3. Attempts -/

/-- Change the attempt of `a`. -/
def Conn.setAttempt (κ : Conn) (a : AttemptId) (g : ConnectionAttempt → ConnectionAttempt) : Conn :=
  { κ with attempts := modify κ.attempts a g }

def Conn.setClient (κ : Conn) (c : ClientId) (g : ClientSocket → ClientSocket) : Conn :=
  { κ with clients := modify κ.clients c g }

/-- Change the Manager of client `c`. -/
def Conn.setManager (κ : Conn) (c : ClientId) (g : Manager → Manager) : Conn :=
  { κ with managers := modify κ.managers (κ.clients c).io g }

/-- The object literal of `beginConnectionAttempt`. -/
def Conn.newAttempt (κ : Conn) (c : ClientId) : Conn :=
  { κ with attempts := Function.update κ.attempts κ.attemptCount { client := c }
           attemptCount := κ.attemptCount + 1 }

/-- `new ClientSocket`, for a name whose namespace may be registered. -/
def Conn.newClient (κ : Conn) (io : ManagerId) (path : String) (nsp : Option NspId)
    (authCallback : Bool) : Conn :=
  { κ with clients := Function.update κ.clients κ.clientCount { io, path, nsp, authCallback }
           clientCount := κ.clientCount + 1 }

/-- `new ServerSocket` and `attachPeer`, for the attempt `a`. -/
def Conn.newSocket (P : Platform) (κ : Conn) (a : AttemptId) (n : NspId) : Conn :=
  { κ with sockets := Function.update κ.sockets κ.socketCount
             { id := P.newId κ.socketCount, nsp := n, peer := (κ.attempts a).client, attempt := a }
           socketCount := κ.socketCount + 1 }

/-- `ClientSocket.beginConnectionAttempt`. -/
def Conn.beginConnectionAttempt (κ : Conn) (c : ClientId) : Conn × Option AttemptId :=
  if (κ.clients c).connected ||
      (κ.clients c).connectionAttempt.any fun a => decide ((κ.attempts a).state = .pending) then
    (κ, none)
  else
    (((κ.newAttempt c).setClient c fun cl =>
        { cl with connectionAttempt := some κ.attemptCount }).setManager c
      fun m => m.registerPending c, some κ.attemptCount)

/-- The cleanup `attempt.serverSocket?.cleanupConnectionAttempt()`. -/
def cleanupOf (s : Option SocketId) : List Instr :=
  s.toList.map fun s => .life (.cleanupConnectionAttempt s)

/-! ## 4. The instructions -/

/-- The second half of `Server.connect`, from the choice of the Manager on. -/
def openClient (σ : Core) (name : String) (authCallback forceNew : Bool) : Out Conn :=
  let c := σ.conn.clientCount
  let nsp := σ.srv.table.get? name
  let κ := (σ.conn.managerFor name forceNew).1.newClient (σ.conn.managerFor name forceNew).2 name
    nsp authCallback
  match nsp with
  | some n =>
      let b := κ.beginConnectionAttempt c
      { part := b.1, post := b.2.toList.map fun a => .srv (.continuePair a n authCallback) }
  | none =>
      if σ.srv.parents.isEmpty then { part := κ, post := [.ctl (.dispatchClient c "connect_error")] }
      else { part := κ, push := [.conn (.admitDynamic c)] }

/-- `ClientSocket.connect`. -/
def connect (σ : Core) (c : ClientId) : Out Conn :=
  let cl := σ.conn.clients c
  if cl.connected then { part := σ.conn }
  else match cl.nsp <|> σ.srv.table.get? cl.path with
    | none => { part := σ.conn, push := [.conn (.admitDynamic c)] }
    | some n =>
        let b := (σ.conn.setClient c fun cl => { cl with nsp := some n }).beginConnectionAttempt c
        { part := b.1, post := b.2.toList.map fun a => .srv (.continuePair a n cl.authCallback) }

/-- `Server.admitDynamic`, up to its `defer`. -/
def admitDynamic (σ : Core) (c : ClientId) : Out Conn :=
  let b := σ.conn.beginConnectionAttempt c
  { part := b.1
    post := b.2.toList.map fun a => .srv (.dynamicTask a (σ.conn.clients c).authCallback) }

/-- `new ServerSocket` in `continuePair`, then `attachConnectionAttempt`. -/
def newServerSocket (P : Platform) (σ : Core) (a : AttemptId) (n : NspId) : Out Conn :=
  let s := σ.conn.socketCount
  let κ := σ.conn.newSocket P a n
  if σ.conn.isConnectionAttemptPending a && (σ.conn.attempts a).serverSocket.isNone then
    { part := κ.setAttempt a fun x => { x with serverSocket := some s }
      push := [.life (.runMiddleware s)] }
  else { part := κ, push := [.life (.cleanupConnectionAttempt s)] }

/-- `ClientSocket.rejectConnectionAttempt`, up to the cleanup of the attempt's server socket. -/
def rejectConnectionAttempt (σ : Core) (a : AttemptId) (err : MiddlewareError) : Out Conn :=
  if σ.conn.isConnectionAttemptPending a then
    { part := σ.conn.setAttempt a fun x => { x with state := .rejected }
      push := cleanupOf (σ.conn.attempts a).serverSocket ++
        [.conn (.rejectConnectionAttemptRest a err)] }
  else { part := σ.conn }

/-- The rest of it. The error is snapshot before the event is deferred. -/
def rejectConnectionAttemptRest (σ : Core) (a : AttemptId) (err : MiddlewareError) : Out Conn :=
  let c := (σ.conn.attempts a).client
  let κ := (σ.conn.setClient c fun cl => { cl with connectionAttempt := none }).setManager c
    fun m => m.settlePending c
  if err.encodable then { part := κ, post := [.ctl (.dispatchClient c "connect_error")] }
  else { part := κ, fails := true }

/-- `ClientSocket.cancelConnectionAttempt`, up to the cleanup of the attempt's server socket. -/
def cancelConnectionAttempt (σ : Core) (c : ClientId) : Out Conn :=
  match (σ.conn.clients c).connectionAttempt with
  | none => { part := σ.conn }
  | some a =>
      if (σ.conn.attempts a).state = .pending then
        { part := σ.conn.setAttempt a fun x => { x with state := .cancelled }
          push := cleanupOf (σ.conn.attempts a).serverSocket ++
            [.conn (.cancelConnectionAttemptRest c)] }
      else { part := σ.conn }

def cancelConnectionAttemptRest (σ : Core) (c : ClientId) : Out Conn :=
  { part := (σ.conn.setClient c fun cl => { cl with connectionAttempt := none }).setManager c
      fun m => m.settlePending c }

/-- `ClientSocket.completeConnectionAttempt`, up to the flush. -/
def completeConnectionAttempt (σ : Core) (a : AttemptId) (s : SocketId) : Out Conn :=
  let c := (σ.conn.attempts a).client
  if σ.conn.isConnectionAttemptPending a then
    { part := ((σ.conn.setAttempt a fun x => { x with state := .connected }).setClient c fun cl =>
          { cl with serverSocket := some s, connected := true, id := some (σ.conn.sockets s).id
          }).setManager c fun m => m.clientConnected c
      push := [.mail (.flush a s)] }
  else if (σ.conn.attempts a).state ≠ .connected then
    { part := σ.conn, push := [.life (.cleanupConnectionAttempt s)] }
  else { part := σ.conn }

/-- `ClientSocket.markDisconnected`. Reached with no attempt it would throw, as the source's
    non-null assertion does. -/
def markDisconnected (σ : Core) (c : ClientId) (_reason : String) : Out Conn :=
  let cl := σ.conn.clients c
  match cl.connectionAttempt with
  | none => { part := σ.conn, fails := true }
  | some a =>
      { part := ((σ.conn.setAttempt a fun x => { x with state := .cancelled }).setClient c
            fun cl => { cl with connectionAttempt := none, connected := false, id := none
            }).setManager c fun m => m.clientDisconnected c
        push := cl.serverSocket.toList.map (fun s => .life (.invalidateAcknowledgements s)) ++
          [.mail (.rejectPendingAcks c), .ctl (.dispatchClient c "disconnect")] }

def execConn (P : Platform) (σ : Core) : ConnInstr → Out Conn
  | .openClient name authCallback forceNew => openClient σ name authCallback forceNew
  | .connect c => connect σ c
  | .setAuth c b => { part := σ.conn.setClient c fun cl => { cl with authCallback := b } }
  | .admitDynamic c => admitDynamic σ c
  | .attachNamespace c n => { part := σ.conn.setClient c fun cl => { cl with nsp := some n } }
  | .newServerSocket a n => newServerSocket P σ a n
  | .rejectConnectionAttempt a err => rejectConnectionAttempt σ a err
  | .rejectConnectionAttemptRest a err => rejectConnectionAttemptRest σ a err
  | .cancelConnectionAttempt c => cancelConnectionAttempt σ c
  | .cancelConnectionAttemptRest c => cancelConnectionAttemptRest σ c
  | .completeConnectionAttempt a s => completeConnectionAttempt σ a s
  | .markDisconnected c reason => markDisconnected σ c reason

end Smocket
