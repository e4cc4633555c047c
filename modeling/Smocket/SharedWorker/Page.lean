import Smocket.EventLoop
import Smocket.SharedWorker.Host

/-
  File:      Smocket/SharedWorker/Page.lean
  Subject:   THE PAGE'S END OF THE BRIDGE (`shared-worker-client.ts`): one `SharedWorkerSocket`.

  The queue of the machine is the port's: what the host posts waits there. Listeners and
  acknowledgement callbacks are application code. `PageCore.port` says what the port does with a
  message.
-/

namespace Smocket.SharedWorker

open Ordered EventLoop

abbrev EmissionId := Nat

/-! ## 1. The state -/

/-- What `port.postMessage` does: it takes every message, or fails after a number of them. -/
inductive PagePort where
  | works
  | takes (n : Nat) (error : String)
  deriving DecidableEq

/-- `BufferedEmission`, under the number `emit` gives it. -/
structure Emission where
  id : EmissionId
  event : String
  args : List JsValue
  acknowledge : Bool

/-- `ServerAcknowledgementReference`, and whether it still has its owner. The set
    `pendingServerAcknowledgements` holds those that do. -/
structure PageReference where
  owned : Bool := false
  generation : Generation := 0
  ackId : String := ""

/-- What the page records, newest first. -/
inductive PageEvent where
  /-- an emission that asks for an answer was posted for `g`, under `ackId` -/
  | sent (n : EmissionId) (g : Generation) (ackId : String)
  /-- an ACK of generation `k` ran the acknowledgement of an emission -/
  | ran (n : EmissionId) (k : Generation) (ackId : String) (live : Option Generation)
  /-- a SERVER_EVENT of generation `k` was dispatched -/
  | dispatched (k : Generation) (live : Option Generation)

/-- The fields of `SharedWorkerSocketImplementation`. -/
structure PageCore where
  url : String := ""
  auth : JsValue := .object []
  id : Option String := none
  connected : Bool := false
  connecting : Bool := false
  disconnecting : Bool := false
  disconnectAfterConnect : Bool := false
  requestId : Option String := none
  generation : Option Generation := none
  requestSequence : Nat := 0
  acknowledgementSequence : Nat := 0
  outgoingBuffer : List Emission := []
  pendingClientAcknowledgements : OMap String EmissionId := .empty
  references : ReferenceId → PageReference := fun _ => {}
  referenceCount : Nat := 0
  emissionCount : Nat := 0
  /-- whether the page has a `pagehide` event -/
  lifecycle : Bool := false
  observingPageHide : Bool := false
  /-- what the port has taken, and what it has handed over, in order -/
  posted : List Message := []
  received : List JsValue := []
  port : PagePort := .works
  log : List PageEvent := []

/-- Application code that the page calls, with what it is given. -/
inductive PageFrame where
  | bridgeError (error : String)
  | connectError (error : String)
  | connect
  | disconnect (reason : String)
  | event (event : String) (args : List JsValue) (reference : Option ReferenceId)
  | acknowledge (n : EmissionId) (args : List JsValue)

inductive PageInstr where
  | app (x : PageFrame)
  | receive (value : JsValue)
  /-- the rest of `connect`, when nothing was posted -/
  | connectFailed
  /-- the `finally` of `postEmission` -/
  | dropAcknowledgement (ackId : String)
  /-- the rest of `flushOutgoing` -/
  | flush (es : List Emission) (g : Generation)
  /-- the rest of `receiveConnected` -/
  | connected (g : Generation)
  /-- a `dispatch` that follows other application code -/
  | dispatch (x : PageFrame)
  -- the application and the environment
  | connect
  | disconnect
  | emit (event : String) (args : List JsValue) (acknowledge : Bool)
  | acknowledge (r : ReferenceId) (args : List JsValue)
  | setAuth (auth : JsValue)
  | pageHide
  | messageError
  | arrive (value : JsValue)
  | setPort (port : PagePort)

/-! ## 2. Posting and releasing -/

/-- The `RESERVED_EVENTS` of the page. -/
def PAGE_RESERVED_EVENTS : List String :=
  ["connect", "connect_error", "disconnect", "disconnecting", "bridge_error", "newListener",
    "removeListener"]

/-- The generation the page is connected with and not leaving. -/
def PageCore.live (c : PageCore) : Option Generation :=
  if c.connected && !c.disconnecting then c.generation else none

/-- `post`: the page reads its own message first. The error, if any, is dispatched as
    `bridge_error`. -/
def PageCore.post (c : PageCore) (m : Message) : PageCore × Option String :=
  match readSharedWorkerPageMessage m.toValue with
  | .error error => (c, some error)
  | .ok _ =>
      match c.port with
      | .works => ({ c with posted := c.posted ++ [m] }, none)
      | .takes (n + 1) error => ({ c with posted := c.posted ++ [m], port := .takes n error }, none)
      | .takes 0 error => (c, some ("could not clone page message: " ++ error))

/-- Post, then go on as the caller does when that succeeds, or when it fails. -/
def PageCore.posting (c : PageCore) (m : Message) (done failed : List PageInstr) :
    Effect PageCore PageInstr where
  core := (c.post m).1
  push :=
    match (c.post m).2 with
    | none => done
    | some error => .app (.bridgeError error) :: failed

/-- `releaseAcknowledgements`. -/
def PageCore.releaseAcknowledgements (c : PageCore) : PageCore :=
  { c with
    pendingClientAcknowledgements := .empty
    references := fun r => { c.references r with owned := false } }

/-- `observePageHide`. -/
def PageCore.observePageHide (c : PageCore) : PageCore :=
  { c with observingPageHide := c.observingPageHide || c.lifecycle }

/-- `stopObservingPageHide`. -/
def PageCore.stopObservingPageHide (c : PageCore) : PageCore :=
  { c with observingPageHide := false }

/-- `releaseGeneration`. -/
def PageCore.releaseGeneration (c : PageCore) : PageCore :=
  { c.releaseAcknowledgements.stopObservingPageHide with
    connected := false, id := none, generation := none }

/-! ## 3. What the application calls -/

/-- `connect`. -/
def PageCore.connect (c : PageCore) : Effect PageCore PageInstr :=
  if c.connected && !c.disconnecting then { core := c }
  else
    let requestId := s!"connect:{c.requestSequence + 1}"
    let c := { c.releaseGeneration.observePageHide with
      disconnectAfterConnect := false
      disconnecting := false
      connecting := true
      requestSequence := c.requestSequence + 1
      requestId := some requestId }
    c.posting (.connect requestId c.url c.auth) [] [.connectFailed]

/-- `disconnect`. -/
def PageCore.disconnect (c : PageCore) : Effect PageCore PageInstr :=
  if c.disconnecting || (!c.connected && !c.connecting) then { core := c }
  else
    let c := c.stopObservingPageHide
    match c.connected, c.generation, c.requestId with
    | true, some g, some requestId =>
        let c := { c.releaseAcknowledgements with disconnecting := true, connected := false, id := none }
        c.posting (.disconnect requestId g "io client disconnect")
          [.app (.disconnect "io client disconnect")] [.dispatch (.disconnect "io client disconnect")]
    | _, _, _ => { core := { c with disconnectAfterConnect := true } }

/-- `postEmission`, and what the caller does then. -/
def PageCore.postEmission (c : PageCore) (e : Emission) (g : Generation) (rest : List PageInstr) :
    Effect PageCore PageInstr :=
  if e.acknowledge then
    let ackId := ackName "client" g (c.acknowledgementSequence + 1)
    let c := { c with
      acknowledgementSequence := c.acknowledgementSequence + 1
      pendingClientAcknowledgements := c.pendingClientAcknowledgements.set ackId e.id
      log := .sent e.id g ackId :: c.log }
    c.posting (.clientEvent g e.event e.args (some ackId)) rest (.dropAcknowledgement ackId :: rest)
  else c.posting (.clientEvent g e.event e.args none) rest rest

/-- `queueEmission`. -/
def PageCore.queueEmission (c : PageCore) (event : String) (args : List JsValue)
    (acknowledge : Bool) : Effect PageCore PageInstr :=
  if event ∈ PAGE_RESERVED_EVENTS then { core := c, fails := true }
  else
    let e : Emission := { id := c.emissionCount, event, args, acknowledge }
    let c := { c with emissionCount := c.emissionCount + 1 }
    match c.live with
    | none => { core := { c with outgoingBuffer := c.outgoingBuffer ++ [e] } }
    | some g => c.postEmission e g []

/-- `flushOutgoing`, from the next emission on. -/
def PageCore.flush (c : PageCore) (g : Generation) : List Emission → Effect PageCore PageInstr
  | [] => { core := c }
  | e :: es =>
      if c.live = some g then c.postEmission e g [.flush es g]
      else { core := { c with outgoingBuffer := e :: es ++ c.outgoingBuffer } }

/-- The acknowledgement function `receiveServerEvent` hands to the listeners, and
    `postServerAcknowledgement`. -/
def PageCore.acknowledge (c : PageCore) (r : ReferenceId) (args : List JsValue) :
    Effect PageCore PageInstr :=
  let ref := c.references r
  if !ref.owned then { core := c }
  else
    let c := { c with references := modify c.references r fun x => { x with owned := false } }
    if c.live ≠ some ref.generation then { core := c }
    else c.posting (.acknowledgement ref.generation .server ref.ackId args) [] []

/-! ## 4. What the host says -/

/-- `receiveConnected`. -/
def PageCore.receiveConnected (c : PageCore) (requestId : String) (g : Generation) (id : String) :
    Effect PageCore PageInstr :=
  if c.requestId ≠ some requestId ∨ c.connecting = false then { core := c }
  else
    let c := { c with
      generation := some g, id := some id, connected := true, connecting := false
      acknowledgementSequence := 0 }
    if c.disconnectAfterConnect then PageCore.disconnect { c with disconnectAfterConnect := false }
    else
      { core := { c with outgoingBuffer := [] }
        push := [.flush c.outgoingBuffer g, .connected g] }

/-- `receiveServerEvent`. -/
def PageCore.receiveServerEvent (c : PageCore) (g : Generation) (event : String)
    (args : List JsValue) (ackId : Option String) : Effect PageCore PageInstr :=
  let c := { c with log := .dispatched g c.live :: c.log }
  match ackId with
  | none => { core := c, push := [.app (.event event args none)] }
  | some ackId =>
      let r := c.referenceCount
      { core := { c with
          references := Function.update c.references r { owned := true, generation := g, ackId }
          referenceCount := r + 1 }
        push := [.app (.event event args (some r))] }

/-- The acknowledgement branch of `receive`. -/
def PageCore.receiveAcknowledgement (c : PageCore) (g : Generation) (ackId : String)
    (args : List JsValue) : Effect PageCore PageInstr :=
  match c.pendingClientAcknowledgements.get? ackId with
  | none => { core := c }
  | some n =>
      { core := { c with
          pendingClientAcknowledgements := c.pendingClientAcknowledgements.erase ackId
          log := .ran n g ackId c.live :: c.log }
        push := [.app (.acknowledge n args)] }

/-- The DISCONNECTED branch of `receive`. -/
def PageCore.receiveDisconnected (c : PageCore) (reason : String) : Effect PageCore PageInstr :=
  { core := PageCore.releaseGeneration { c with connecting := false, disconnecting := false }
    push := if c.connected && !c.disconnecting then [.app (.disconnect reason)] else [] }

/-- `receive`, once the message is read. -/
def PageCore.hear (c : PageCore) : Message → Effect PageCore PageInstr
  | .bridgeError error requestId generation =>
      if (requestId ≠ none ∧ requestId ≠ c.requestId) ∨
          (generation ≠ none ∧ generation ≠ c.generation) then { core := c }
      else { core := c, push := [.app (.bridgeError error)] }
  | .connected requestId g id => c.receiveConnected requestId g id
  | .connectError requestId _ error =>
      if c.requestId ≠ some requestId ∨ c.connecting = false then { core := c }
      else
        { core := PageCore.stopObservingPageHide
            { c with connecting := false, generation := none, id := none, connected := false }
          push := [.app (.connectError error)] }
  | .serverEvent g event args ackId =>
      if c.generation ≠ some g ∨ !(c.connected && !c.disconnecting) then { core := c }
      else c.receiveServerEvent g event args ackId
  | .acknowledgement g _ ackId args =>
      if c.generation ≠ some g ∨ !(c.connected && !c.disconnecting) then { core := c }
      else c.receiveAcknowledgement g ackId args
  | .disconnected requestId g reason =>
      if c.generation ≠ some g ∨ c.requestId ≠ some requestId then { core := c }
      else c.receiveDisconnected reason
  | _ => { core := c }

/-- `receive`. -/
def PageCore.receive (c : PageCore) (value : JsValue) : Effect PageCore PageInstr :=
  let c := { c with received := c.received ++ [value] }
  match readSharedWorkerHostMessage value with
  | .error error => { core := c, push := [.app (.bridgeError error)] }
  | .ok m => c.hear m

/-! ## 5. The machine -/

def pageExec : PageInstr → PageCore → Effect PageCore PageInstr
  | .app _, c => { core := c }
  | .receive value, c => c.receive value
  | .connectFailed, c =>
      { core := PageCore.stopObservingPageHide { c with connecting := false, requestId := none } }
  | .dropAcknowledgement ackId, c =>
      { core := { c with
          pendingClientAcknowledgements := c.pendingClientAcknowledgements.erase ackId } }
  | .flush es g, c => c.flush g es
  | .connected g, c =>
      { core := c
        push := if c.connected ∧ c.generation = some g then [.app .connect] else [] }
  | .dispatch x, c => { core := c, push := [.app x] }
  | .connect, c => c.connect
  | .disconnect, c => c.disconnect
  | .emit event args acknowledge, c => c.queueEmission event args acknowledge
  | .acknowledge r args, c => c.acknowledge r args
  | .setAuth auth, c => { core := { c with auth } }
  | .pageHide, c =>
      if c.observingPageHide then PageCore.disconnect { c with observingPageHide := false }
      else { core := c }
  | .messageError, c =>
      { core := c, push := [.app (.bridgeError "shared-worker message could not be deserialized")] }
  | .arrive value, c => { core := c, post := [.receive value] }
  | .setPort port, c => { core := { c with port } }

/-- What the application and the environment may call. -/
def pageCallable (c : PageCore) : PageInstr → Bool
  | .connect | .disconnect | .emit .. | .pageHide | .messageError | .arrive _ | .setPort _ => true
  | .setAuth auth => auth.isRecord
  | .acknowledge r _ => decide (r < c.referenceCount)
  | _ => false

/-- `SharedWorkerSocketImplementation`. -/
def page : Machine PageCore PageInstr where
  isApp
    | .app _ => true
    | _ => false
  exec := pageExec
  onThrow _
    | .dropAcknowledgement _ => .run
    | _ => .skip
  callable := pageCallable

abbrev PageState := Config PageCore PageInstr

/-- `connectSharedWorker`: the constructor ends in `connect`. -/
def opened (url : String) (auth : JsValue) (lifecycle : Bool) : PageState where
  core := { url, auth, lifecycle }
  stack := [.connect]

/-! ## 6. What an instruction posts -/

/-- The generation an event or an acknowledgement of the page belongs to. -/
def Message.traffic? : Message → Option Generation
  | .clientEvent g .. | .acknowledgement g .. => some g
  | _ => none

/-- From `c` to `c'` the port took nothing, or one message that the page's reader accepts; an event
    or an acknowledgement is one of the live generation. -/
def PageCore.Posts (c c' : PageCore) : Prop :=
  c'.posted = c.posted ∨ ∃ m, c'.posted = c.posted ++ [m] ∧
    readSharedWorkerPageMessage m.toValue = .ok m ∧ ∀ g, m.traffic? = some g → c.live = some g

theorem PageCore.Posts.posting {c c₁ : PageCore} (hp : c₁.posted = c.posted) {m : Message}
    {done failed : List PageInstr} (hm : ∀ g, m.traffic? = some g → c.live = some g) :
    c.Posts (c₁.posting m done failed).core := by
  simp only [PageCore.posting, PageCore.post]
  split
  · exact Or.inl hp
  · rename_i x hread
    have htaken : readSharedWorkerPageMessage m.toValue = .ok m := by
      rw [hread, readSharedWorkerPageMessage_toValue_eq hread]
    split
    · exact Or.inr ⟨m, congrArg (· ++ [m]) hp, htaken, hm⟩
    · exact Or.inr ⟨m, congrArg (· ++ [m]) hp, htaken, hm⟩
    · exact Or.inl hp

theorem PageCore.Posts.disconnect {c c₁ : PageCore} (hp : c₁.posted = c.posted) :
    c.Posts c₁.disconnect.core := by
  unfold PageCore.disconnect
  split
  · exact Or.inl hp
  · dsimp only
    split
    · refine .posting ?_ nofun
      exact hp
    · exact Or.inl hp

theorem PageCore.Posts.postEmission {c c₁ : PageCore} (hp : c₁.posted = c.posted) {g : Generation}
    (hl : c.live = some g) (e : Emission) (rest : List PageInstr) :
    c.Posts (c₁.postEmission e g rest).core := by
  unfold PageCore.postEmission
  split
  · refine .posting ?_ fun k hk => Option.some.inj hk ▸ hl
    exact hp
  · exact .posting hp fun k hk => Option.some.inj hk ▸ hl

theorem PageCore.Posts.hear {c c₁ : PageCore} (hp : c₁.posted = c.posted) (m : Message) :
    c.Posts (c₁.hear m).core := by
  cases m with
  | bridgeError error requestId generation =>
      simp only [PageCore.hear]
      split <;> exact Or.inl hp
  | connected requestId g id =>
      simp only [PageCore.hear, PageCore.receiveConnected]
      split
      · exact Or.inl hp
      · split
        · exact .disconnect hp
        · exact Or.inl hp
  | connectError requestId g error =>
      simp only [PageCore.hear]
      split <;> exact Or.inl hp
  | serverEvent g event args ackId =>
      simp only [PageCore.hear]
      split
      · exact Or.inl hp
      · unfold PageCore.receiveServerEvent
        dsimp only
        split <;> exact Or.inl hp
  | acknowledgement g direction ackId args =>
      simp only [PageCore.hear]
      split
      · exact Or.inl hp
      · unfold PageCore.receiveAcknowledgement
        split <;> exact Or.inl hp
  | disconnected requestId g reason =>
      simp only [PageCore.hear]
      split <;> exact Or.inl hp
  | _ => exact Or.inl hp

/-- **What an instruction of the page posts.** -/
theorem pageExec_posts (c : PageCore) (i : PageInstr) : c.Posts (pageExec i c).core := by
  cases i with
  | receive value =>
      simp only [pageExec, PageCore.receive]
      split
      · exact Or.inl rfl
      · exact .hear rfl _
  | flush es g =>
      cases es with
      | nil => exact Or.inl rfl
      | cons e es =>
          simp only [pageExec, PageCore.flush]
          split
          · rename_i hl
            exact .postEmission rfl hl _ _
          · exact Or.inl rfl
  | connect =>
      simp only [pageExec, PageCore.connect]
      split
      · exact Or.inl rfl
      · refine .posting ?_ nofun
        rfl
  | disconnect => exact .disconnect rfl
  | emit event args acknowledge =>
      simp only [pageExec, PageCore.queueEmission]
      split
      · exact Or.inl rfl
      · split
        · exact Or.inl rfl
        · rename_i g hl
          exact .postEmission rfl hl _ _
  | acknowledge r args =>
      simp only [pageExec, PageCore.acknowledge]
      split
      · exact Or.inl rfl
      · split
        · exact Or.inl rfl
        · rename_i hl
          exact .posting rfl fun k hk => Option.some.inj hk ▸ not_not.mp hl
  | pageHide =>
      simp only [pageExec]
      split
      · exact .disconnect rfl
      · exact Or.inl rfl
  | _ => exact Or.inl rfl

end Smocket.SharedWorker
