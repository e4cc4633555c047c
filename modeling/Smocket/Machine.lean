import Smocket.Traffic
import Smocket.Servers
import Smocket.Control

/-
  File:      Smocket/Machine.lean
  Subject:   THE RUNTIME AS A MACHINE: the groups of instructions put together, what application
             code may call, where exceptions are caught, and the state after `new Server`.
-/

namespace Smocket

open Ordered EventLoop

/-! ## 1. Execution -/

/-- One instruction. The connection and the traffic part record no event. -/
def exec (P : Platform) : Instr → Core → Effect Core Instr
  | .app _, σ => { core := σ }
  | .conn i, σ =>
      let o := execConn P σ i
      { core := { σ with conn := o.part }
        push := o.push, post := o.post, fails := o.fails }
  | .life i, σ =>
      let o := execLife σ i
      { core := { σ with life := o.part, log := o.log ++ σ.log }
        push := o.push, post := o.post, fails := o.fails }
  | .memb i, σ =>
      let o := execMemb σ i
      { core := { σ with memb := o.part, log := o.log ++ σ.log }
        push := o.push, post := o.post, fails := o.fails }
  | .mail i, σ =>
      let o := execMail σ i
      { core := { σ with mail := o.part }
        push := o.push, post := o.post, fails := o.fails }
  | .srv i, σ =>
      let o := execSrv P σ i
      { core := { σ with srv := o.part, log := o.log ++ σ.log }
        push := o.push, post := o.post, fails := o.fails }
  | .ctl i, σ =>
      let o := execCtl σ i
      { core := { σ with log := o.log ++ σ.log }, push := o.push, post := o.post, fails := o.fails }

def isApp : Instr → Bool
  | .app _ => true
  | _ => false

/-! ## 2. Exceptions -/

/-- Whether the packet's trailing function is the answer function of `emitWithAck`, whose body
    runs in a Promise executor. -/
def Core.inExecutor (σ : Core) : Option Reply → Bool
  | some (.request r) => (σ.mail.requests r).promise
  | _ => false

/-- The `finally` blocks of `withDispatchOwnership`, `cleanupMembership` and
    `DelayingAdapter.removeSocket`; the `catch` of `admitDynamic`, for an error that encodes; the
    executors of `emitWithAck`. -/
def onThrow (σ : Core) : Instr → Handler Instr
  | .life (.endDispatch _) => .run
  | .memb (.drainEnd _) => .run
  | .mail (.cancelTimer _) => .run
  | .srv (.createNamespace _ _ _ (.attempt a)) =>
      .handle [.conn (.rejectConnectionAttempt a { message := "adapter factory failed" })]
  | .srv (.createNamespaceRest _ (.attempt a)) =>
      .handle [.conn (.rejectConnectionAttempt a { message := "new_namespace listener failed" })]
  | .mail (.clientEmitRest _ p) => if σ.inExecutor p.reply then .handle [] else .skip
  | .mail (.serverEmitRest _ _ _ reply _) => if σ.inExecutor reply then .handle [] else .skip
  | _ => .skip

/-! ## 3. The application's side -/

/-- The public functions, on objects that exist; the callbacks the runtime has handed out; the
    deliveries an application's own adapter holds; the callbacks of running timers. -/
def callable (σ : Core) : Instr → Bool
  | .conn (.connect c) | .conn (.setAuth c _) => decide (c < σ.conn.clientCount)
  | .life (.use s _) => decide (s < σ.conn.socketCount)
  | .life (.next s i _) =>
      decide (s < σ.conn.socketCount) && decide (i < (σ.life.middleware s).index) &&
        decide (i < (σ.life.middleware s).chain.length)
  | .life (.packetNext r i _) => (σ.life.packetRuns[r]?).any fun run => decide (i < run.invoked)
  | .life (.setPacket r ..) => (σ.life.packetRuns[r]?).any fun run => decide (0 < run.invoked)
  | .memb (.join s _) | .memb (.leave s _) => decide (s < σ.conn.socketCount)
  | .memb (.socketsJoin op _) | .memb (.socketsLeave op _) => decide (op.nsp < σ.srv.nspCount)
  | .mail (.clientFlags c _) | .mail (.clientEmit c _ _) => decide (c < σ.conn.clientCount)
  | .mail (.serverFlags s _) | .mail (.serverEmit s _ _) => decide (s < σ.conn.socketCount)
  | .mail (.invokeAck k _) => decide (k < σ.mail.ackCount)
  | .mail (.setDelay n _ _) => decide (n < σ.srv.nspCount)
  | .mail (.setNow _) => true
  | .mail (.pumpRun r) => σ.mail.timers.contains r
  | .mail (.ackTimeout r) => σ.mail.ackTimers.contains r
  | .srv (.serverConnect ..) | .srv (.adapter _) | .srv (.of _) | .srv (.ofMatcher _) => true
  | .srv (.use n _) | .srv (.setDropped n ..) => decide (n < σ.srv.nspCount)
  | .srv (.useParent p _) => decide (p < σ.srv.parents.length)
  | .srv (.nextConnection _) | .srv (.factoryReturns _) | .srv .close => true
  | .srv (.authorized a n) => σ.srv.authCalls.contains (a, some n)
  | .srv (.dynamicAuthorized a) => σ.srv.authCalls.contains (a, none)
  | .srv (.matched a p _) => σ.srv.matcherCalls.contains (a, p)
  | .srv (.broadcast op _) => decide (op.nsp < σ.srv.nspCount)
  | .ctl (.clientDisconnect c) => decide (c < σ.conn.clientCount)
  | .ctl (.disconnect s _) => decide (s < σ.conn.socketCount)
  | .ctl (.deliverClient d) => σ.mail.held.contains d
  | .ctl (.disconnectSockets op _) => decide (op.nsp < σ.srv.nspCount)
  | _ => false

/-- The runtime of one server. -/
def runtime (P : Platform) : Machine Core Instr where
  isApp := isApp
  exec := exec P
  onThrow := onThrow
  callable := callable

abbrev State := Config Core Instr

/-- `new Server(url)`: the root namespace exists. -/
def newServer : State where
  core := { srv := { nspCount := 1, table := OMap.empty.set "/" 0 } }

/-- A platform for runs on fixed inputs. -/
def unary : Platform where
  newId n := String.ofList (List.replicate n 'x')
  test _ _ := true
  newId_injective m n h := by
    have h' := congrArg (fun s => s.toList.length) h
    simpa using h'

end Smocket
