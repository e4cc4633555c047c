import Smocket.Connections

/-
  File:      Smocket/Lifecycles.lean
  Subject:   SERVER SOCKET LIFECYCLES (`sockets.ts`, `namespaces.ts`): teardown on its three
             paths, connection middleware, packet middleware and dispatch.
-/

namespace Smocket

open Ordered EventLoop

def Life.setSocket (ℓ : Life) (s : SocketId) (g : Lifecycle → Lifecycle) : Life :=
  { ℓ with sockets := modify ℓ.sockets s g }

def Life.setMiddleware (ℓ : Life) (s : SocketId) (g : MiddlewareRun → MiddlewareRun) : Life :=
  { ℓ with middleware := modify ℓ.middleware s g }

def Life.setWaiting (ℓ : Life) (s : SocketId) (g : List Wake → List Wake) : Life :=
  { ℓ with waiting := modify ℓ.waiting s g }

/-- `ServerSocket.use`. -/
def Life.usePacketMiddleware (ℓ : Life) (s : SocketId) (f : FnId) : Life :=
  { ℓ with packetMiddleware := modify ℓ.packetMiddleware s (· ++ [f]) }

/-- `ServerSocket.invalidateDelivery`. -/
def Lifecycle.invalidateDelivery (x : Lifecycle) (clientDrain : Bool) : Lifecycle :=
  { x with deliveryActive := false, clientDrain }

/-- `ServerSocket.invalidateAcknowledgements`. -/
def Lifecycle.invalidateAcknowledgements (x : Lifecycle) : Lifecycle :=
  { x with serverAck := false, clientAck := false }

/-- A local dispatch under `withDispatchOwnership`: the listeners, then `finally`. -/
def ownedDispatch (s : SocketId) (event : String) : List Instr :=
  [.app (.serverListener s event), .life (.endDispatch s)]

def Lifecycle.enterDispatch (x : Lifecycle) : Lifecycle :=
  { x with dispatchDepth := x.dispatchDepth + 1 }

/-! ## 1. Teardown -/

/-- `ServerSocket.teardown`. -/
def teardown (σ : Core) (s : SocketId) (reason : String) (drainQueuedDelivery : Bool) : Out Life :=
  let x := σ.life.sockets s
  if x.teardownPromise ≠ .none then { part := σ.life }
  else
    let drain := drainQueuedDelivery && decide (0 < x.dispatchDepth)
    { part := σ.life.setSocket s fun x =>
        let x := if drain then x else { x.invalidateDelivery false with clientAck := false }
        { x with teardownPromise := .pending }
      post := [.life (.teardownTask s reason drain)] }

/-- The deferred part of `teardown`, up to the `disconnecting` listeners. -/
def teardownTask (σ : Core) (s : SocketId) (reason : String) (drain : Bool) : Out Life :=
  { part := σ.life.setSocket s fun x =>
      { (x.invalidateDelivery drain).invalidateAcknowledgements.enterDispatch with active := false }
    push := ownedDispatch s "disconnecting" ++ [.life (.teardownCleanup s reason false)]
    log := [.disconnecting s] }

/-- `disconnectNamespaceFromServer` and `teardownSynchronously`, up to the `disconnecting`
    listeners. -/
def disconnectNamespaceFromServer (σ : Core) (s : SocketId) : Out Life :=
  if (σ.life.sockets s).teardownPromise ≠ .none then { part := σ.life }
  else
    { part := σ.life.setSocket s fun x =>
        { (x.invalidateDelivery false).invalidateAcknowledgements.enterDispatch with
          teardownPromise := .resolved, active := false }
      push := ownedDispatch s "disconnecting" ++
        [.life (.teardownCleanup s "server namespace disconnect" true)]
      log := [.disconnecting s] }

/-- `this.connected = false; this.cleanupMembership()`, on both teardown paths. -/
def teardownCleanup (σ : Core) (s : SocketId) (reason : String) (sync : Bool) : Out Life :=
  { part := σ.life.setSocket s fun x => { x with connected := false }
    push := [.memb (.cleanupMembership s), .life (.teardownDisconnect s reason sync)] }

/-- `this.dispatch('disconnect', [reason])`, on both teardown paths. -/
def teardownDisconnect (σ : Core) (s : SocketId) (_reason : String) (sync : Bool) : Out Life :=
  { part := σ.life.setSocket s Lifecycle.enterDispatch
    push := ownedDispatch s "disconnect" ++ [.life (.teardownDone s sync)]
    log := [.disconnect s] }

/-- After the `disconnect` listeners: `disconnectNamespaceFromServer` defers the client's part,
    `teardown` resolves its promise. -/
def teardownDone (σ : Core) (s : SocketId) (sync : Bool) : Out Life :=
  if sync then { part := σ.life, post := [.ctl (.markFromServer s)] }
  else
    { part := (σ.life.setSocket s fun x => { x with teardownPromise := .resolved }).setWaiting s
        fun _ => []
      post := (σ.life.waiting s).map fun
        | .resume => .srv (.closeRest s)
        | .closed => .srv (.closeResolved s) }

/-- `ServerSocket.cleanupConnectionAttempt`. -/
def cleanupConnectionAttempt (σ : Core) (s : SocketId) : Out Life :=
  { part := σ.life.setSocket s fun x =>
      { (x.invalidateDelivery false).invalidateAcknowledgements with active := false }
    push := [.memb (.cleanupMembership s)] }

/-! ## 2. Connection middleware -/

/-- The body of the closure `next` without an error: advance the shared index, then invoke the
    next member of the chain or report completion. -/
def Life.advance (ℓ : Life) (s : SocketId) : Out Life :=
  let run := ℓ.middleware s
  let ℓ := ℓ.setMiddleware s fun r => { r with index := r.index + 1 }
  if run.index < run.chain.length then
    { part := ℓ, push := [.app (.connectionMiddleware s run.index)], log := [.invoked s run.index] }
  else { part := ℓ, post := [.ctl (.completion s none)], log := [.completed s] }

/-- `Namespace.runMiddleware`: the snapshot, then the first `next()`. -/
def runMiddleware (σ : Core) (s : SocketId) : Out Life :=
  (σ.life.setMiddleware s fun _ =>
    { chain := (σ.srv.namespaces (σ.conn.sockets s).nsp).middleware, index := 0 }).advance s

/-- The closure `next`, called by member `i` of the chain. An error is a completion of its own. -/
def next (σ : Core) (s : SocketId) (i : Nat) (err : Option MiddlewareError) : Out Life :=
  match err with
  | some e => { part := σ.life, post := [.ctl (.completion s (some e))], log := [.refused s i] }
  | none =>
      let o := σ.life.advance s
      { o with log := o.log ++ [.answered s i] }

/-! ## 3. Dispatch -/

/-- `dispatchCatchAll` of a packet. -/
def dispatchCatchAll (d : ServerDelivery) : List Instr :=
  if d.event ∈ RESERVED_EVENTS then [] else [.app (.serverCatchAll d.socket d.event d.serial)]

/-- `ServerSocket.dispatch`: the catch-all listeners, then the named ones, or packet middleware when
    there is any. The arguments start out as the packet was sent. -/
def dispatch (σ : Core) (d : ServerDelivery) : Out Life :=
  let s := d.socket
  { part := σ.life.setSocket s Lifecycle.enterDispatch
    push := dispatchCatchAll d ++
      if d.event ∈ RESERVED_EVENTS ∨ σ.life.packetMiddleware s = [] then
        [.life (.dispatchEvent s d.event d.serial), .life (.endDispatch s)]
      else
        [.life (.endDispatch s), .life (.startPacket d (σ.life.sockets s).deliveryActive)]
    log := [.entered d] }

/-- `dispatch` with packet middleware, after the catch-all listeners: the snapshot, then
    `run(0)`. -/
def startPacket (σ : Core) (d : ServerDelivery) (enteredWhileActive : Bool) : Out Life :=
  let run : PacketRun :=
    { socket := d.socket, event := d.event, args := d.serial
      chain := σ.life.packetMiddleware d.socket, enteredWhileActive }
  { part := { σ.life with packetRuns := σ.life.packetRuns ++ [run] }
    push := [.life (.runPacket σ.life.packetRuns.length 0)] }

/-- The closure `run(index)` of `dispatch`. -/
def runPacket (σ : Core) (r index : Nat) : Out Life :=
  match σ.life.packetRuns[r]? with
  | none => { part := σ.life }
  | some run =>
      if index < run.chain.length then
        let run := { run with invoked := max run.invoked (index + 1) }
        { part := { σ.life with packetRuns := σ.life.packetRuns.set r run }
          push := [.app (.packetMiddleware r index)] }
      else { part := σ.life, post := [.life (.dispatchNamed r)] }

/-- The `next` callback of packet middleware `i`. -/
def packetNext (σ : Core) (r i : Nat) (err : Bool) : Out Life :=
  match σ.life.packetRuns[r]? with
  | none => { part := σ.life }
  | some run =>
      if err then { part := σ.life, push := [.app (.serverListener run.socket "error")] }
      else { part := σ.life, push := [.life (.runPacket r (i + 1))] }

/-- A middleware changes the packet it was given. -/
def setPacket (σ : Core) (r : Nat) (event : String) (args : Nat) : Out Life :=
  match σ.life.packetRuns[r]? with
  | none => { part := σ.life }
  | some run =>
      { part := { σ.life with packetRuns := σ.life.packetRuns.set r { run with event, args } } }

/-- The deferred `dispatchNamed` at the end of a packet's chain. -/
def dispatchNamed (σ : Core) (r : Nat) : Out Life :=
  match σ.life.packetRuns[r]? with
  | none => { part := σ.life }
  | some run =>
      let x := σ.life.sockets run.socket
      if !x.deliveryActive && !(run.enteredWhileActive && x.clientDrain) then { part := σ.life }
      else
        { part := σ.life.setSocket run.socket Lifecycle.enterDispatch
          push := [.app (.serverNamed run.socket run.event run.args),
            .life (.endDispatch run.socket)] }

def execLife (σ : Core) : LifeInstr → Out Life
  | .runMiddleware s => runMiddleware σ s
  | .next s i err => next σ s i err
  | .markConnected s => { part := σ.life.setSocket s fun x => { x with connected := true } }
  | .teardown s reason drain => teardown σ s reason drain
  | .teardownTask s reason drain => teardownTask σ s reason drain
  | .disconnectNamespaceFromServer s => disconnectNamespaceFromServer σ s
  | .teardownCleanup s reason sync => teardownCleanup σ s reason sync
  | .teardownDisconnect s reason sync => teardownDisconnect σ s reason sync
  | .teardownDone s sync => teardownDone σ s sync
  | .cleanupConnectionAttempt s => cleanupConnectionAttempt σ s
  | .invalidateAcknowledgements s =>
      { part := σ.life.setSocket s Lifecycle.invalidateAcknowledgements }
  | .awaitTeardown s wake =>
      { part := σ.life.setWaiting s (· ++ [wake]) }
  | .use s f => { part := σ.life.usePacketMiddleware s f }
  | .dispatch d => dispatch σ d
  | .dispatchEvent s event args =>
      { part := σ.life, push := [.app (.serverNamed s event args)] }
  | .endDispatch s =>
      { part := σ.life.setSocket s fun x => { x with dispatchDepth := x.dispatchDepth - 1 } }
  | .startPacket d enteredWhileActive => startPacket σ d enteredWhileActive
  | .setPacket r event args => setPacket σ r event args
  | .runPacket r index => runPacket σ r index
  | .packetNext r i err => packetNext σ r i err
  | .dispatchNamed r => dispatchNamed σ r

end Smocket
