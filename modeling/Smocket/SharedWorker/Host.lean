import Smocket.EventLoop
import Smocket.Spawns
import Smocket.SharedWorker.Protocol

/-
  File:      Smocket/SharedWorker/Host.lean
  Subject:   THE WORKER'S END OF THE BRIDGE (`shared-worker-host.ts`): one `attachSharedWorker` over
             a port and a smocket server.

  The queue of the machine is the port's: what the page posts waits there. The server is the
  environment: it calls the listeners `connect` registers on a client socket and the functions the
  host hands out, at any time. `HostCore.failure` says what `server.connect` does next,
  `HostCore.port` what the port does with a message.

  * `HostCore`, `hostExec`, `host` -- the state, its functions and the machine;
  * `hostCallable` -- what the server's client sockets and the port may call;
  * `reach_reasons` -- the runtime disconnects clients for three reasons only.
-/

namespace Smocket.SharedWorker

open Ordered EventLoop

abbrev Generation := Nat
abbrev EventId := Nat
abbrev ReferenceId := Nat

/-! ## 1. The state -/

/-- What `port.postMessage` does: it takes every message, only the clone-safe bridge error, or
    none. -/
inductive Port where
  | works
  | uncloneable (error : String)
  | broken
  deriving DecidableEq

/-- `SharedWorkerConnectionState`, and what its client socket has done so far. -/
structure ConnectionState where
  requestId : String := ""
  /-- ids of the server events that wait for an answer of the page -/
  pendingServerAcknowledgements : OMap String EventId := .empty
  nextAcknowledgement : Nat := 0
  finished : Bool := false
  disconnectReason : Option String := none
  /-- the socket has dispatched `connect` -/
  opened : Bool := false
  /-- the socket was given an event before that -/
  early : Bool := false

/-- `SharedWorkerConnectionReference` with the acknowledgement function that captures it. The set
    `pendingClientAcknowledgements` of a state holds the references that name the state. -/
structure Reference where
  state : Option Generation := none
  ackId : String := ""
  answered : Bool := false
  emitted : Bool := false

/-- What the host records, newest first. -/
inductive HostEvent where
  /-- `connect` drew a generation, after it had replaced another one -/
  | started (g : Generation) (replaced : Option Generation)
  /-- a client event of generation `k` was emitted on the socket of `g` -/
  | emitted (k g : Generation) (active : Option Generation)
  /-- a server event that asks for an answer was forwarded -/
  | forwarded (e : EventId) (g : Generation) (ackId : String)
  /-- an ACK of generation `k` ran the acknowledgement of a server event -/
  | answered (e : EventId) (k : Generation) (ackId : String) (active : Option Generation)
  deriving DecidableEq

/-- The variables of `attachSharedWorker`. -/
structure HostCore where
  active : Option Generation := none
  nextGeneration : Nat := 0
  closed : Bool := false
  states : Generation → ConnectionState := fun _ => {}
  /-- whether `server.connect` returned a socket for the generation -/
  created : Generation → Bool := fun _ => false
  references : ReferenceId → Reference := fun _ => {}
  referenceCount : Nat := 0
  eventCount : Nat := 0
  /-- what the port has taken, in order -/
  posted : List Message := []
  port : Port := .works
  /-- the message `connectionTarget` or `server.connect` throws with next, if it throws -/
  failure : Option String := none
  log : List HostEvent := []

/-- Application code that runs inside a call on the host's client socket. -/
inductive HostFrame where
  | socketDisconnect (g : Generation)
  | socketEmit (g : Generation)
  deriving DecidableEq

inductive HostInstr where
  | app (x : HostFrame)
  | handleMessage (value : JsValue)
  | disconnectSocket (g : Generation)
  /-- the notification at the end of `finish`, and the rest of the `connect` that called it -/
  | notify (g : Generation) (reason : String) (next : Option String)
  /-- `emitted = true` in `handleClientEvent`, and its `finally` -/
  | emitted (r : ReferenceId)
  | emitFinally (r : ReferenceId)
  -- the environment
  | arrive (value : JsValue)
  | onMessageError
  | onConnect (g : Generation) (id : String)
  | onConnectError (g : Generation) (error : String)
  | onDisconnect (g : Generation) (reason : String)
  | onAny (g : Generation) (event : String) (args : List JsValue) (asksAnswer : Bool)
  | acknowledge (r : ReferenceId) (args : List JsValue)
  | close (reason : String)
  | setPort (port : Port)
  | setFailure (failure : Option String)

/-! ## 2. Posting -/

/-- The request a message names. -/
def Message.requestId? : Message → Option String
  | .connect r .. | .connected r .. | .connectError r .. | .disconnect r .. | .disconnected r .. =>
      some r
  | .bridgeError _ r _ => r
  | _ => none

/-- The generation a message names. -/
def Message.generation? : Message → Option Generation
  | .connected _ g _ | .connectError _ g _ | .clientEvent g .. | .serverEvent g ..
  | .acknowledgement g .. | .disconnect _ g _ | .disconnected _ g _ => some g
  | .bridgeError _ _ g => g
  | .connect .. => none

def Message.isBridgeError : Message → Bool
  | .bridgeError .. => true
  | _ => false

/-- What `post` puts on the port in place of a message that cannot be cloned. -/
def cloneError (m : Message) (error : String) : Message :=
  .bridgeError ("could not clone host message: " ++ error) m.requestId? m.generation?

/-- `post`, with its result. -/
def HostCore.post (c : HostCore) (m : Message) : HostCore × Bool :=
  match c.port with
  | .works => ({ c with posted := c.posted ++ [m] }, true)
  | .uncloneable error =>
      if m.isBridgeError then ({ c with posted := c.posted ++ [m] }, true)
      else ({ c with posted := c.posted ++ [cloneError m error] }, false)
  | .broken => (c, false)

/-- `reportBridgeError`. -/
def HostCore.reportBridgeError (c : HostCore) (error : String) : HostCore :=
  (c.post (.bridgeError error none none)).1

def HostCore.setState (c : HostCore) (g : Generation) (f : ConnectionState → ConnectionState) :
    HostCore :=
  { c with states := modify c.states g f }

def HostCore.setReference (c : HostCore) (r : ReferenceId) (f : Reference → Reference) : HostCore :=
  { c with references := modify c.references r f }

/-- `state.finished || active !== state`, negated. -/
def HostCore.owns (c : HostCore) (g : Generation) : Bool :=
  !(c.states g).finished && decide (c.active = some g)

/-! ## 3. The functions -/

/-- The rest of `connect`, once nothing is active: draw the generation, then `server.connect`. -/
def HostCore.connectRest (c : HostCore) (requestId : String) (replaced : Option Generation) :
    HostCore :=
  let g := c.nextGeneration + 1
  let c := { c with nextGeneration := g, log := .started g replaced :: c.log }
  match c.failure with
  | some error => (c.post (.connectError requestId g error)).1
  | none =>
      { c with
        states := Function.update c.states g { requestId }
        created := Function.update c.created g true
        active := some g }

/-- What follows `finish`: the rest of `connect`, for its request. -/
def HostCore.continue (c : HostCore) (next : Option String) (replaced : Option Generation) :
    HostCore :=
  match next with
  | none => c
  | some requestId => c.connectRest requestId replaced

/-- `finish`. -/
def HostCore.finish (c : HostCore) (g : Generation) (reason : String)
    (notify disconnectSocket : Bool) (next : Option String) : Effect HostCore HostInstr :=
  if (c.states g).finished then { core := c.continue next none }
  else
    { core := { c.setState g fun s =>
          { s with finished := true, pendingServerAcknowledgements := .empty } with
        references := fun r =>
          if (c.references r).state = some g then { c.references r with state := none }
          else c.references r
        active := if c.active = some g then none else c.active }
      push := (if disconnectSocket then [.disconnectSocket g] else []) ++
        (if notify then [.notify g reason next] else []) }

/-- `disconnect`. -/
def HostCore.disconnect (c : HostCore) (g : Generation) (reason : String) (notify : Bool)
    (next : Option String) : Effect HostCore HostInstr :=
  (c.setState g fun s => { s with disconnectReason := some reason }).finish g reason notify true next

/-- `connect`. -/
def HostCore.connect (c : HostCore) (requestId : String) : Effect HostCore HostInstr :=
  match c.active with
  | none => { core := c.connectRest requestId none }
  | some g => c.disconnect g "replaced connection" true (some requestId)

/-- The `connect` listener. -/
def HostCore.onConnect (c : HostCore) (g : Generation) (id : String) : Effect HostCore HostInstr :=
  let c := c.setState g fun s => { s with opened := true }
  if !c.owns g then { core := c, push := [.disconnectSocket g] }
  else
    let p := c.post (.connected (c.states g).requestId g id)
    if p.2 then { core := p.1 } else p.1.disconnect g "bridge delivery failed" false none

/-- The `connect_error` listener. -/
def HostCore.onConnectError (c : HostCore) (g : Generation) (error : String) :
    Effect HostCore HostInstr :=
  if !c.owns g then { core := c }
  else (c.post (.connectError (c.states g).requestId g error)).1.finish g "connect error" false false
    none

/-- The `disconnect` listener. -/
def HostCore.onDisconnect (c : HostCore) (g : Generation) (reason : String) :
    Effect HostCore HostInstr :=
  c.finish g ((c.states g).disconnectReason.getD reason) true false none

/-- The id under which the `n`th answer of a generation is awaited. -/
def ackName (side : String) (g n : Nat) : String := s!"{side}:{g}:{n}"

/-- `forwardServerEvent`. An event that asks for an answer waits in the state, unless the port does
    not take it. -/
def HostCore.forwardServerEvent (c : HostCore) (g : Generation) (event : String)
    (args : List JsValue) (asksAnswer : Bool) : HostCore :=
  if !c.owns g then c
  else if asksAnswer then
    let n := (c.states g).nextAcknowledgement + 1
    let ackId := ackName "server" g n
    let e := c.eventCount
    let c := { c.setState g fun s =>
        { s with nextAcknowledgement := n
                 pendingServerAcknowledgements := s.pendingServerAcknowledgements.set ackId e } with
      eventCount := e + 1
      log := .forwarded e g ackId :: c.log }
    let p := c.post (.serverEvent g event args (some ackId))
    if p.2 then p.1
    else p.1.setState g fun s =>
      { s with pendingServerAcknowledgements := s.pendingServerAcknowledgements.erase ackId }
  else (c.post (.serverEvent g event args none)).1

/-- The acknowledgement function `handleClientEvent` hands to the server, and
    `acknowledgeClientEvent`. -/
def HostCore.acknowledge (c : HostCore) (r : ReferenceId) (args : List JsValue) : HostCore :=
  let ref := c.references r
  if ref.answered then c
  else
    let c := c.setReference r fun x => { x with answered := true, state := none }
    match ref.state with
    | none => c
    | some g =>
        if !c.owns g then c else (c.post (.acknowledgement g .client ref.ackId args)).1

/-- `handleClientEvent` for a message of generation `k`, up to `socket.emit`. -/
def HostCore.handleClientEvent (c : HostCore) (g k : Generation) (ackId : Option String) :
    Effect HostCore HostInstr :=
  let c := { c.setState g fun s => { s with early := s.early || !s.opened } with
    log := .emitted k g c.active :: c.log }
  match ackId with
  | none => { core := c, push := [.app (.socketEmit g)] }
  | some ackId =>
      let r := c.referenceCount
      { core := { c with
          references := Function.update c.references r { state := some g, ackId }
          referenceCount := r + 1 }
        push := [.app (.socketEmit g), .emitted r, .emitFinally r] }

/-- The acknowledgement branch of `handleMessage`, for a message of generation `k`. -/
def HostCore.runAcknowledgement (c : HostCore) (g k : Generation) (ackId : String) : HostCore :=
  match (c.states g).pendingServerAcknowledgements.get? ackId with
  | none => c
  | some e =>
      { c.setState g fun s =>
          { s with pendingServerAcknowledgements := s.pendingServerAcknowledgements.erase ackId } with
        log := .answered e k ackId c.active :: c.log }

/-- The checks of `handleMessage` on a message that names a generation: the state it is for, or the
    error to report, if any. -/
def HostCore.owner (c : HostCore) (generation : Generation) (requestId : Option String) :
    Except (Option String) Generation :=
  match c.active with
  | none =>
      if generation ≤ c.nextGeneration then .error none
      else .error (some "shared-worker port has no active connection")
  | some g =>
      if generation < g then .error none
      else if g < generation then .error (some "unknown shared-worker connection generation")
      else if requestId.any fun r => decide (r ≠ (c.states g).requestId) then
        .error (some "disconnect request does not own the active connection")
      else .ok g

/-- Run `f` for the owner of a message, or report why there is none. -/
def HostCore.withOwner (c : HostCore) (generation : Generation) (requestId : Option String)
    (f : Generation → Effect HostCore HostInstr) : Effect HostCore HostInstr :=
  match c.owner generation requestId with
  | .ok g => f g
  | .error none => { core := c }
  | .error (some error) => { core := c.reportBridgeError error }

/-- `handleMessage`; after `close` nothing listens to the port. -/
def HostCore.handleMessage (c : HostCore) (value : JsValue) : Effect HostCore HostInstr :=
  if c.closed then { core := c }
  else match readSharedWorkerPageMessage value with
    | .error error => { core := c.reportBridgeError error }
    | .ok (.connect requestId _ _) => c.connect requestId
    | .ok (.clientEvent generation _ _ ackId) =>
        c.withOwner generation none fun g => c.handleClientEvent g generation ackId
    | .ok (.acknowledgement generation _ ackId _) =>
        c.withOwner generation none fun g => { core := c.runAcknowledgement g generation ackId }
    | .ok (.disconnect requestId generation reason) =>
        c.withOwner generation (some requestId) fun g => c.disconnect g reason true none
    | .ok _ => { core := c }

/-- `close`. -/
def HostCore.close (c : HostCore) (reason : String) : Effect HostCore HostInstr :=
  if c.closed then { core := c }
  else
    let c := { c with closed := true }
    match c.active with
    | none => { core := c }
    | some g => c.disconnect g reason true none

/-- `socket.disconnect()`. On a connected socket nobody but the host listens, and `disconnect` is
    dispatched at once; giving up a pending attempt may run application code. -/
def HostCore.disconnectSocket (c : HostCore) (g : Generation) : Effect HostCore HostInstr :=
  { core := c
    push := if (c.states g).opened then [.onDisconnect g "io client disconnect"]
      else [.app (.socketDisconnect g)] }

/-! ## 4. The machine -/

def hostExec : HostInstr → HostCore → Effect HostCore HostInstr
  | .app _, c => { core := c }
  | .handleMessage value, c => c.handleMessage value
  | .disconnectSocket g, c => c.disconnectSocket g
  | .notify g reason next, c =>
      let p := c.post (.disconnected (c.states g).requestId g reason)
      { core := p.1.continue next (some g) }
  | .emitted r, c => { core := c.setReference r fun x => { x with emitted := true } }
  | .emitFinally r, c =>
      { core := if (c.references r).emitted then c
          else c.setReference r fun x => { x with state := none } }
  | .arrive value, c => { core := c, post := [.handleMessage value] }
  | .onMessageError, c =>
      { core := if c.closed then c
          else c.reportBridgeError "shared-worker page message could not be cloned" }
  | .onConnect g id, c => c.onConnect g id
  | .onConnectError g error, c => c.onConnectError g error
  | .onDisconnect g reason, c => c.onDisconnect g reason
  | .onAny g event args asksAnswer, c => { core := c.forwardServerEvent g event args asksAnswer }
  | .acknowledge r args, c => { core := c.acknowledge r args }
  | .close reason, c => c.close reason
  | .setPort port, c => { core := { c with port } }
  | .setFailure failure, c => { core := { c with failure } }

/-! ## 5. The environment -/

/-- The reasons the runtime gives a client's `disconnect`. -/
def disconnectReasons : List String :=
  ["io client disconnect", "io server disconnect", "transport close"]

/-- **Every pending disconnect of a client has one of them.** -/
theorem reach_reasons {P : Platform} {C : State → Action Instr → Prop} {σ : State}
    (h : (runtime P).Reach C newServer σ) {c : ClientId} {reason : String}
    (hp : .conn (.markDisconnected c reason) ∈ σ.pending) : reason ∈ disconnectReasons := by
  have hI : Machine.Inductive (runtime P) (fun _ _ => True) (fun _ => True)
      (fun _ i => ∀ c r, i = .conn (.markDisconnected c r) → r ∈ disconnectReasons)
      fun _ => (none : Option Unit) := by
    refine .of_facts (fun _ _ _ => trivial) ?_ (fun _ _ _ _ hj => hj) ?_ ?_ fun _ _ _ => trivial
    · rintro σ i - j hj c r rfl
      rcases spawnedBy hj with rfl | ⟨s, rfl⟩ | ⟨s, rfl⟩ <;>
        simp only [runtime, exec, execCtl, execSrv, clientDisconnect, markFromServer, closeRest,
          Effect.spawned] at hj <;>
        split at hj <;> simp_all [disconnectReasons]
    · rintro σ i - hc c r rfl
      cases hc
    · rintro σ i is - - his j hj c r rfl
      rcases onThrow_handle his with rfl | ⟨a, err, rfl, -⟩
      · cases hj
      · cases List.mem_singleton.mp hj
  exact (h.inv_ok hI (fun _ _ _ _ _ _ _ => trivial)
    ⟨trivial, fun _ hj => absurd hj List.not_mem_nil, .nil⟩).ok _ hp c reason rfl

/-- What the environment may call: the port hands over what it was given, and a client socket calls
    the listeners that were registered on it. Of the client socket this takes what `sockets.ts` and
    `delivery.ts` do:

    * its id is one `newId` drew, of twenty characters;
    * its `disconnect` has a reason of `markDisconnected` (`reach_reasons`);
    * an event reaches `onAny` as a packet, whose name passed `assertNotReservedEvent` and whose
      arguments were decoded from an encoded payload, as an answer's are;
    * a packet is dispatched while the client is connected (`DeliveryGuard.passes`), and `connect`
      follows at once when it becomes so, unless packets emitted before are flushed in between. -/
def hostCallable (c : HostCore) : HostInstr → Bool
  | .arrive _ | .onMessageError | .close _ | .setPort _ | .setFailure _ => true
  | .onConnect g id => c.created g && decide (id ≠ "")
  | .onConnectError g _ => c.created g
  | .onDisconnect g reason => c.created g && disconnectReasons.contains reason
  | .onAny g event args _ =>
      c.created g && ((c.states g).opened || (c.states g).early) &&
        !RESERVED_EVENTS.contains event && encodes args
  | .acknowledge r args => decide (r < c.referenceCount) && encodes args
  | _ => false

/-- `attachSharedWorker`. -/
def host : Machine HostCore HostInstr where
  isApp
    | .app _ => true
    | _ => false
  exec := hostExec
  onThrow _
    | .emitFinally _ => .run
    | _ => .skip
  callable := hostCallable

abbrev HostState := Config HostCore HostInstr

/-- Right after `attachSharedWorker`. -/
def attached : HostState := { core := {} }

end Smocket.SharedWorker
