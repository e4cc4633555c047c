import Smocket.Rooms

/-
  File:      Smocket/Traffic.lean
  Subject:   EMITS, DELIVERIES AND ACKNOWLEDGEMENTS (`sockets.ts`, `delivery.ts`, `adapters.ts`):
             the send buffer and its flush, delivery guards, `DelayingAdapter`, the pending
             acknowledgements of a client.
-/

namespace Smocket

open Ordered EventLoop

def Mail.setOutbox (μ : Mail) (c : ClientId) (g : Outbox → Outbox) : Mail :=
  { μ with outboxes := modify μ.outboxes c g }

def Mail.setRequest (μ : Mail) (r : RequestId) (g : Request → Request) : Mail :=
  { μ with requests := modify μ.requests r g }

def Mail.setAck (μ : Mail) (k : AckId) (g : Ack → Ack) : Mail :=
  { μ with acks := modify μ.acks k g }

def Mail.setScheduler (μ : Mail) (n : NspId) (g : Scheduler → Scheduler) : Mail :=
  { μ with schedulers := modify μ.schedulers n g }

/-! ## 1. `DelayingAdapter` -/

/-- `DelayingAdapter.setDelay`; a delay that is not finite is none. -/
def Scheduler.setDelay (S : Scheduler) (sid : String) (ms : Option Int) : Scheduler :=
  match ms with
  | none => S
  | some ms => { S with delays := if ms ≤ 0 then S.delays.erase sid else S.delays.set sid ms }

/-- `this.scheduled.set(sid, run); this.timer.schedule(run, wait)`. -/
def Mail.startTimer (μ : Mail) (run : PumpRun) : Mail :=
  { μ.setScheduler run.nsp fun S => { S with scheduled := S.scheduled.set run.sid run } with
    timers := μ.timers ++ [run] }

/-- `DelayingAdapter.pump`: the tasks it posts come with the new state. -/
def Mail.pump (μ : Mail) (n : NspId) (sid : String) : Mail × List Instr :=
  match (μ.schedulers n).queues.get? sid with
  | none => (μ, [])
  | some q =>
      match q.entries with
      | [] => (μ.setScheduler n fun S => { S with queues := S.queues.erase sid }, [])
      | head :: _ =>
          let run : PumpRun := { nsp := n, sid, ident := q.ident, head }
          if head.fireAt - μ.now ≤ 0 then (μ, [.mail (.pumpRun run)])
          else (μ.startTimer run, [])

/-- `this.queues.set(sid, [entry])`. -/
def Mail.newQueue (μ : Mail) (n : NspId) (sid : String) (entry : QueueEntry) : Mail :=
  let q : DeliveryQueue := { ident := μ.queueCount, entries := [entry] }
  { μ.setScheduler n fun S => { S with queues := S.queues.set sid q } with
    queueCount := μ.queueCount + 1 }

/-- `DelayingAdapter.scheduleDelivery`. -/
def Mail.scheduleDelivery (μ : Mail) (n : NspId) (sid : String) (d : Delivery) :
    Mail × List Instr :=
  let S := μ.schedulers n
  let entry : QueueEntry := { delivery := d, fireAt := μ.now + (S.delays.get? sid).getD 0 }
  match S.queues.get? sid with
  | some q =>
      (μ.setScheduler n fun S =>
        { S with queues := S.queues.set sid { q with entries := q.entries ++ [entry] } }, [])
  | none => (μ.newQueue n sid entry).pump n sid

/-- The queue object at `sid` is still the one `r` was made for. -/
def Mail.ownsQueue (μ : Mail) (r : PumpRun) : Bool :=
  ((μ.schedulers r.nsp).queues.get? r.sid).any fun q => decide (q.ident = r.ident)

/-- The closure `run` of `pump`, up to the delivery of its head. -/
def pumpRun (σ : Core) (r : PumpRun) : Out Mail :=
  let μ := { σ.mail with timers := σ.mail.timers.erase r }
  if σ.mail.ownsQueue r then
    { part := μ.setScheduler r.nsp fun S =>
        { S with
          scheduled := S.scheduled.erase r.sid
          queues := match S.queues.get? r.sid with
            | none => S.queues
            | some q => S.queues.set r.sid { q with entries := q.entries.tail } }
      push := [.ctl (.deliverClient r.head.delivery), .mail (.pumpRest r)] }
  else { part := μ }

/-- The rest of `run`: pump the next head, unless the delivery replaced the queue. -/
def pumpRest (σ : Core) (r : PumpRun) : Out Mail :=
  if σ.mail.ownsQueue r then
    { part := (σ.mail.pump r.nsp r.sid).1, post := (σ.mail.pump r.nsp r.sid).2 }
  else { part := σ.mail }

/-- The base adapter's `removeSocket`: `DelayingAdapter` drains the socket's queue in order, an
    application's own adapter does as it likes. -/
def removeDeliveries (σ : Core) (s : SocketId) : Out Mail :=
  let n := (σ.conn.sockets s).nsp
  let sid := (σ.conn.sockets s).id
  match (σ.srv.namespaces n).base with
  | .builtin => { part := σ.mail }
  | .custom => { part := σ.mail, push := [.app (.adapterHook n)] }
  | .delaying =>
      let S := σ.mail.schedulers n
      let μ := σ.mail.setScheduler n fun S => { S with delays := S.delays.erase sid }
      match S.queues.get? sid with
      | none => { part := μ }
      | some q =>
          { part := μ.setScheduler n fun S =>
              { S with queues := S.queues.erase sid, scheduled := S.scheduled.erase sid }
            push := q.entries.map (fun e => .ctl (.deliverClient e.delivery)) ++
              [.mail (.cancelTimer (S.scheduled.get? sid))] }

/-! ## 2. Sending -/

/-- `delivery.scheduleDelivery` through `ClientSocket.scheduleReceive`: keyed by the id of the
    server socket the client was last paired with, by `defer` before the first pairing. Wrappers
    forward to the base adapter or fall back to `defer` themselves. -/
def scheduleReceive (σ : Core) (μ : Mail) (d : Delivery) : Out Mail :=
  match (σ.conn.clients d.client).serverSocket with
  | none => { part := μ, post := [.ctl (.deliverClient d)] }
  | some paired =>
      let n := (σ.conn.sockets paired).nsp
      match (σ.srv.namespaces n).base with
      | .builtin => { part := μ, post := [.ctl (.deliverClient d)] }
      | .delaying =>
          let r := μ.scheduleDelivery n (σ.conn.sockets paired).id d
          { part := r.1, post := r.2 }
      | .custom => { part := { μ with held := μ.held ++ [d] }, push := [.app (.adapterHook n)] }

/-- `sendEncoded` to a client: capture the guard and the acknowledgement, then schedule. -/
def sendToClient (σ : Core) (s : SocketId) (serial : Nat) (event : String) (reply : Option Reply)
    (survived : Bool) : Out Mail :=
  let c := (σ.conn.sockets s).peer
  let captured := σ.conn.current c
  let guard := if survived then .survived s else .generation captured
  let d : Delivery := { client := c, sender := s, serial, event, ack := none, guard }
  match reply with
  | none => scheduleReceive σ σ.mail d
  | some reply =>
      match captured with
      | none => { part := σ.mail, fails := true }
      | some s' =>
          let μ := { σ.mail with
            acks := Function.update σ.mail.acks σ.mail.ackCount
              { socket := s', forClient := true, reply }
            ackCount := σ.mail.ackCount + 1 }
          scheduleReceive σ μ { d with ack := some σ.mail.ackCount }

/-- `send` to a server socket; server-inbound traffic always takes the next tick. -/
def sendToServer (μ : Mail) (s : SocketId) (c : ClientId) (serial : Nat) (event : String)
    (reply : Option Reply) : Mail × List Instr :=
  match reply with
  | none => (μ, [.ctl (.deliverServer { socket := s, client := c, serial, event, ack := none })])
  | some reply =>
      ({ μ with acks := Function.update μ.acks μ.ackCount { socket := s, reply }
                ackCount := μ.ackCount + 1 },
        [.ctl (.deliverServer { socket := s, client := c, serial, event, ack := some μ.ackCount })])

/-! ## 3. Requests -/

/-- Make the request record of an emit with a trailing function, if it needs one. -/
def Mail.newRequest (μ : Mail) (form : EmitForm) (q : Request) : Mail × Option Reply :=
  match form with
  | .plain => (μ, none)
  | .callback =>
      if q.timed then
        ({ μ with requests := Function.update μ.requests μ.requestCount q
                  requestCount := μ.requestCount + 1
                  ackTimers := μ.ackTimers ++ [μ.requestCount] }, some (.request μ.requestCount))
      else (μ, some .callback)
  | .promise =>
      ({ μ with requests := Function.update μ.requests μ.requestCount q
                requestCount := μ.requestCount + 1
                ackTimers := if q.timed then μ.ackTimers ++ [μ.requestCount] else μ.ackTimers },
        some (.request μ.requestCount))

/-- The request of a reply when `withAckTimeout` wrapped it. -/
def Mail.timedOf (μ : Mail) : Option Reply → Option RequestId
  | some (.request r) => if (μ.requests r).timed then some r else none
  | _ => none

/-- `this.pendingAcks.delete`, for the client of request `r`. -/
def Mail.dropHandle (μ : Mail) (r : RequestId) (h : AckHandle) : Mail :=
  match (μ.requests r).client with
  | none => μ
  | some c => μ.setOutbox c fun b => { b with pendingAcks := b.pendingAcks.erase h }

/-- The `onSettled` argument of `sendEvent`: forget the handle, take the packet out of the
    buffer. -/
def Mail.onSettled (μ : Mail) (r : RequestId) : Mail :=
  let μ := if (μ.requests r).tracked then μ.dropHandle r (.timed r) else μ
  match (μ.requests r).client with
  | none => μ
  | some c => μ.setOutbox c fun b =>
      { b with sendBuffer := b.sendBuffer.filter fun p => decide (p.timedCallback ≠ some r) }

/-- Settle the timed wrapper of `r`: `settled = true`, `clearTimeout`, `onSettled`. -/
def Mail.settle (μ : Mail) (r : RequestId) : Mail :=
  ({ μ.setRequest r fun q => { q with settled := true } with
     ackTimers := μ.ackTimers.erase r } : Mail).onSettled r

/-- The callback under the timed wrapper: application code, or the answer function of
    `emitWithAck`. -/
def Mail.callback (μ : Mail) (r : RequestId) : Out Mail :=
  if (μ.requests r).promise then { part := μ.dropHandle r (.promise r) }
  else { part := μ, push := [.app .ackCallback] }

/-- What the acknowledgement runs one tick after the receiver invoked it. -/
def ackReply (σ : Core) : Reply → Out Mail
  | .callback => { part := σ.mail, push := [.app .ackCallback] }
  | .request r =>
      let q := σ.mail.requests r
      if q.timed then
        if q.settled then { part := σ.mail } else (σ.mail.settle r).callback r
      else { part := σ.mail.dropHandle r (.promise r) }

/-- The timer of `withAckTimeout`. -/
def ackTimeout (σ : Core) (r : RequestId) : Out Mail := (σ.mail.settle r).callback r

/-- One turn of the loop over `rejecters` in `markDisconnected`. -/
def rejectAck (σ : Core) : AckHandle → Out Mail
  | .timed r => (σ.mail.settle r).callback r
  | .promise r =>
      let q := σ.mail.requests r
      if q.sending then { part := σ.mail.setRequest r fun q => { q with reason := true } }
      else if q.timed then (σ.mail.settle r).callback r
      else { part := σ.mail }

/-- The acknowledgement function of `sendEncoded`, invoked by the receiver with values that
    encode or not. Encoding them is taken as returning or throwing: a `toJSON` that invokes the same
    function again is left out. -/
def invokeAck (σ : Core) (k : AckId) (encodable : Bool) : Out Mail :=
  let A := σ.mail.acks k
  let active :=
    if A.forClient then
      (σ.life.sockets A.socket).clientAck || (σ.memb.sockets A.socket).drainingAdapterDelivery
    else (σ.life.sockets A.socket).serverAck
  if A.acked || !active then { part := σ.mail }
  else if encodable then
    { part := σ.mail.setAck k fun A => { A with acked := true }, post := [.mail (.ackReply A.reply)] }
  else
    { part := if A.forClient then σ.mail.setAck k fun A => { A with acked := true } else σ.mail
      fails := true }

/-! ## 4. Client emits -/

/-- `ClientSocket.emit` and `emitWithAck`, up to the outgoing observers. -/
def clientEmit (σ : Core) (c : ClientId) (event : String) (form : EmitForm) : Out Mail :=
  if event ∈ RESERVED_EVENTS then { part := σ.mail, fails := decide (form ≠ .promise) }
  else
    let flags := (σ.mail.outboxes c).flags
    let connected := (σ.conn.clients c).connected
    let q : Request :=
      { client := some c, promise := decide (form = .promise)
        timed := flags.timeout.isSome && decide (form ≠ .plain)
        tracked := decide (form ≠ .promise), sending := connected }
    let (μ, reply) := σ.mail.newRequest form q
    let p : BufferedPacket :=
      { serial := μ.serial, event, reply, timedCallback := μ.timedOf reply }
    let μ := { μ with serial := μ.serial + 1 }
    -- `emitWithAck` registers its own handle before it sends
    let μ := match form, reply with
      | .promise, some (.request r) =>
          μ.setOutbox c fun b => { b with pendingAcks := b.pendingAcks.insert (.promise r) }
      | _, _ => μ
    if !connected then
      { part := μ.setOutbox c fun b =>
          { b with sendBuffer := if flags.isVolatile then b.sendBuffer else b.sendBuffer ++ [p]
                   flags := {} } }
    else
      { part := match p.timedCallback with
          | none => μ
          | some r => μ.setOutbox c fun b => { b with pendingAcks := b.pendingAcks.insert (.timed r) }
        push := [.app (.clientOutgoing c), .mail (.clientEmitRest c p)] }

/-- The rest of it: send to the current server socket, consume the flags; an `emitWithAck` whose
    observers disconnected the client settles now. -/
def clientEmitRest (σ : Core) (c : ClientId) (p : BufferedPacket) : Out Mail :=
  match (σ.conn.clients c).serverSocket with
  | none => { part := σ.mail, fails := true }
  | some s =>
      let (μ, post) := sendToServer σ.mail s c p.serial p.event p.reply
      let μ := μ.setOutbox c fun b => { b with flags := {} }
      match p.reply with
      | some (.request r) =>
          let q := μ.requests r
          { part := μ.setRequest r fun q => { q with sending := false }
            post
            push := if q.promise && q.reason then [.mail (.rejectAck c (.promise r))] else [] }
      | _ => { part := μ, post }

/-- `completeConnectionAttempt`: detach the buffer. -/
def flush (σ : Core) (a : AttemptId) (s : SocketId) : Out Mail :=
  let c := (σ.conn.attempts a).client
  { part := σ.mail.setOutbox c fun b => { b with sendBuffer := [] }
    push := [.mail (.flushPackets a s (σ.mail.outboxes c).sendBuffer)] }

/-- A packet whose timed callback has settled is skipped. -/
def Mail.isSettled (μ : Mail) (p : BufferedPacket) : Bool :=
  p.timedCallback.any fun r => (μ.requests r).settled

/-- The loop of `completeConnectionAttempt`, up to a packet's outgoing observers. -/
def flushPackets (σ : Core) (a : AttemptId) (s : SocketId) : List BufferedPacket → Out Mail
  | [] => { part := σ.mail, push := [.ctl (.dispatchClient (σ.conn.attempts a).client "connect")] }
  | p :: ps =>
      let c := (σ.conn.attempts a).client
      if σ.mail.isSettled p then { part := σ.mail, push := [.mail (.flushPackets a s ps)] }
      else
        { part := match p.timedCallback with
            | none => σ.mail
            | some r => σ.mail.setOutbox c fun b =>
                { b with pendingAcks := b.pendingAcks.insert (.timed r) }
          push := [.app (.clientOutgoing c), .mail (.flushRest a s p ps)] }

/-- The rest of one turn: restore the remainder when the connection is gone, else send. -/
def flushRest (σ : Core) (a : AttemptId) (s : SocketId) (p : BufferedPacket)
    (ps : List BufferedPacket) : Out Mail :=
  let c := (σ.conn.attempts a).client
  if σ.conn.isConnectionAttemptConnected a s then
    let (μ, post) := sendToServer σ.mail s c p.serial p.event p.reply
    { part := μ, post, push := [.mail (.flushPackets a s ps)] }
  else
    { part := σ.mail.setOutbox c fun b =>
        { b with sendBuffer := (p :: ps).filter (fun p => !σ.mail.isSettled p) ++ b.sendBuffer } }

/-! ## 5. Server emits -/

/-- `ServerSocket.emit` and `emitWithAck`, up to the outgoing observers. -/
def serverEmit (σ : Core) (s : SocketId) (event : String) (form : EmitForm) : Out Mail :=
  if event ∈ RESERVED_EVENTS then { part := σ.mail, fails := decide (form ≠ .promise) }
  else
    let flags := σ.mail.serverFlags s
    let (μ, reply) := σ.mail.newRequest form
      { promise := decide (form = .promise)
        timed := flags.timeout.isSome && decide (form ≠ .plain) }
    let μ := { μ with serverFlags := Function.update μ.serverFlags s {}, serial := μ.serial + 1 }
    let connected := (σ.conn.peer s).connected
    if flags.isVolatile && !connected then { part := μ }
    else
      { part := μ
        push := [.app (.serverOutgoing s),
          .mail (.serverEmitRest s σ.mail.serial event reply connected)] }

/-- The rest of it. -/
def serverEmitRest (σ : Core) (s : SocketId) (serial : Nat) (event : String)
    (reply : Option Reply) (peerWasConnected : Bool) : Out Mail :=
  if !(σ.life.sockets s).active then { part := σ.mail }
  else sendToClient σ s serial event reply (peerWasConnected && !(σ.conn.peer s).connected)

/-- `ServerSocket.sendBroadcast`, up to the outgoing observers. -/
def sendBroadcast (σ : Core) (s : SocketId) (event : String) : Out Mail :=
  { part := { σ.mail with serial := σ.mail.serial + 1 }
    push := [.app (.serverOutgoing s),
      .mail (.sendBroadcastRest s σ.mail.serial event (σ.conn.peer s).connected)] }

/-- The rest of it; unlike `emit` it does not ask whether the socket is active. -/
def sendBroadcastRest (σ : Core) (s : SocketId) (serial : Nat) (event : String)
    (peerWasConnected : Bool) : Out Mail :=
  sendToClient σ s serial event none (peerWasConnected && !(σ.conn.peer s).connected)

def execMail (σ : Core) : MailInstr → Out Mail
  | .clientFlags c flags => { part := σ.mail.setOutbox c fun b => { b with flags := flags } }
  | .clientEmit c event form => clientEmit σ c event form
  | .clientEmitRest c p => clientEmitRest σ c p
  | .flush a s => flush σ a s
  | .flushPackets a s ps => flushPackets σ a s ps
  | .flushRest a s p ps => flushRest σ a s p ps
  | .rejectPendingAcks c =>
      { part := σ.mail.setOutbox c fun b => { b with pendingAcks := .empty }
        push := (σ.mail.outboxes c).pendingAcks.elems.map fun h => .mail (.rejectAck c h) }
  | .rejectAck _ h => rejectAck σ h
  | .serverFlags s flags =>
      { part := { σ.mail with serverFlags := Function.update σ.mail.serverFlags s flags } }
  | .serverEmit s event form => serverEmit σ s event form
  | .serverEmitRest s serial event reply was => serverEmitRest σ s serial event reply was
  | .sendBroadcast s event => sendBroadcast σ s event
  | .sendBroadcastRest s serial event was => sendBroadcastRest σ s serial event was
  | .pumpRun r => pumpRun σ r
  | .pumpRest r => pumpRest σ r
  | .removeDeliveries s => removeDeliveries σ s
  | .cancelTimer r =>
      { part := { σ.mail with timers := r.elim σ.mail.timers σ.mail.timers.erase } }
  | .invokeAck k encodable => invokeAck σ k encodable
  | .ackReply reply => ackReply σ reply
  | .ackTimeout r => ackTimeout σ r
  | .setDelay n sid ms => { part := σ.mail.setScheduler n fun S => S.setDelay sid ms }
  | .setNow t => { part := { σ.mail with now := t } }

end Smocket
