import Smocket.Rooms

/-
  File:      Smocket/Servers.lean
  Subject:   THE SERVER AND ITS NAMESPACES (`server.ts`, `namespaces.ts`): creation and lookup of
             namespaces, dynamic admission, the `nextConnection` queues, broadcasts, `close`.

  The promises of `close` are followed job by job: an `await` or a reaction is one task, posted
  when the promise it waits for settles.
-/

namespace Smocket

open Ordered EventLoop

def Srv.setNamespace (ν : Srv) (n : NspId) (g : Namespace → Namespace) : Srv :=
  { ν with namespaces := modify ν.namespaces n g }

def Srv.setObserver (ν : Srv) (o : ObserverId) (x : Observer) : Srv :=
  { ν with observers := Function.update ν.observers o x }

/-- `serverClosedError()`. -/
def serverClosedError : MiddlewareError := { message := "server is closed" }

/-! ## 1. Connecting -/

/-- `Server.connect`. -/
def serverConnect (σ : Core) (name : String) (authCallback forceNew : Bool) : Out Srv :=
  { part := { σ.srv with admissionStarted := true }
    push := [.conn (.openClient (normalizeNamespace name) authCallback forceNew)] }

/-- `Namespace.continuePair`, up to `resolveAuth`. -/
def continuePair (σ : Core) (a : AttemptId) (n : NspId) (authCallback : Bool) : Out Srv :=
  if !σ.conn.isConnectionAttemptPending a then { part := σ.srv }
  else if (σ.srv.namespaces n).closed then
    { part := σ.srv, push := [.conn (.rejectConnectionAttempt a serverClosedError)] }
  else if authCallback then
    { part := { σ.srv with authCalls := (a, some n) :: σ.srv.authCalls }, push := [.app (.auth a)] }
  else { part := σ.srv, push := [.srv (.authorized a n)] }

/-- The `done` callback of `continuePair`. -/
def authorized (σ : Core) (a : AttemptId) (n : NspId) : Out Srv :=
  if !σ.conn.isConnectionAttemptPending a then { part := σ.srv }
  else if (σ.srv.namespaces n).closed then
    { part := σ.srv, push := [.conn (.rejectConnectionAttempt a serverClosedError)] }
  else { part := σ.srv, push := [.conn (.newServerSocket a n)] }

/-! ## 2. Dynamic admission -/

/-- The deferred part of `admitDynamic`, up to `resolveAuth`. -/
def dynamicTask (σ : Core) (a : AttemptId) (authCallback : Bool) : Out Srv :=
  if !σ.conn.isConnectionAttemptPending a then { part := σ.srv }
  else if authCallback then
    { part := { σ.srv with authCalls := (a, none) :: σ.srv.authCalls }, push := [.app (.auth a)] }
  else { part := σ.srv, push := [.srv (.dynamicAuthorized a)] }

/-- The `done` callback of `admitDynamic`. -/
def dynamicAuthorized (σ : Core) (a : AttemptId) : Out Srv :=
  if !σ.conn.isConnectionAttemptPending a then { part := σ.srv }
  else { part := σ.srv, push := [.srv (.tryParent a 0)] }

/-- The name an attempt asks for. -/
def Core.path (σ : Core) (a : AttemptId) : String :=
  (σ.conn.clients (σ.conn.attempts a).client).path

/-- The closure `tryParent(index)` with `ParentNamespace.matches`. -/
def tryParent (P : Platform) (σ : Core) (a : AttemptId) (index : ParentId) : Out Srv :=
  match σ.srv.parents[index]? with
  | none =>
      { part := σ.srv
        push := [.conn (.rejectConnectionAttempt a { message := "Invalid namespace" })] }
  | some p =>
      match p.matcher with
      | .regExp r => { part := σ.srv, push := [.srv (.matched a index (P.test r (σ.path a)))] }
      | .function =>
          { part := { σ.srv with matcherCalls := (a, index) :: σ.srv.matcherCalls }
            push := [.app (.matcher a index)] }

/-- The `next` callback of `matches`. -/
def matched (σ : Core) (a : AttemptId) (index : ParentId) (allowed : Bool) : Out Srv :=
  if allowed then
    { part := σ.srv, push := [.srv (.getNamespace (σ.path a) (some index) (.attempt a))] }
  else { part := σ.srv, push := [.srv (.tryParent a (index + 1))] }

/-! ## 3. Namespaces -/

/-- What runs with the namespace `getNamespace` returned. -/
def Cont.instrs (n : NspId) : Cont → List Instr
  | .attempt a => [.ctl (.admitChild a n)]
  | .observe o => [.srv (.observe o n)]
  | .done => []

/-- `Server.matchingRegExpParent`. -/
def Srv.matchingRegExpParent (P : Platform) (ν : Srv) (name : String) : Option ParentId :=
  ν.regexParents.values.find? fun p =>
    match ν.parents[p]? with
    | some { matcher := .regExp r, .. } => P.test r name
    | _ => false

/-- `Server.getNamespace`, up to the adapter factory. -/
def getNamespace (P : Platform) (σ : Core) (name : String) (parent : Option ParentId) (k : Cont) :
    Out Srv :=
  match σ.srv.table.get? name with
  | some n => { part := σ.srv, push := k.instrs n }
  | none =>
      let attachTo := parent <|> σ.srv.matchingRegExpParent P name
      { part := σ.srv
        push := (if σ.srv.adapterFactory then [.app .adapterFactory] else []) ++
          [.srv (.createNamespace name attachTo σ.srv.closed k)] }

/-- `ParentNamespace.addChild` on the parent's side. -/
def Srv.addChild (ν : Srv) (parent : Option ParentId) (n : NspId) : Srv :=
  match parent with
  | none => ν
  | some p =>
    { ν with parents := ν.parents.modify p fun x => { x with children := x.children.insert n } }

/-- `Namespace.useAdapter`; the adapter that was in place leaves it with the index `A`. -/
def Namespace.useAdapter (N : Namespace) (A : Adapter) (r : FactoryResult) : Namespace :=
  let retired := Function.update N.retired N.adapter
    { index := A, base := N.base, layers := N.layers }
  match r with
  | .fresh base layers =>
      { N with base, layers, retired, adapter := N.adapterCount, adapterCount := N.adapterCount + 1 }
  | .earlier k =>
      { N with base := (retired k).base, layers := (retired k).layers, retired, adapter := k }
  | .reused => N

/-- It touches adapters only. -/
theorem Namespace.useAdapter_eq (N : Namespace) (A : Adapter) (r : FactoryResult) :
    N.useAdapter A r = { N with
      base := (N.useAdapter A r).base
      layers := (N.useAdapter A r).layers
      adapter := (N.useAdapter A r).adapter
      adapterCount := (N.useAdapter A r).adapterCount
      retired := (N.useAdapter A r).retired } := by
  cases r <;> rfl

/-- The namespace `getNamespace` builds: the factory's adapter in place of the constructor's, the
    parent's middleware, the observers that waited for the name. The only adapter a new namespace
    has had before is the constructor's. -/
def Srv.newNamespace (ν : Srv) (name : String) (attachTo : Option ParentId) (closed : Bool) :
    Namespace :=
  let N : Namespace :=
    { name, closed
      middleware := (attachTo.bind fun p => ν.parents[p]?).elim [] ParentNamespace.middleware
      waiters := ((ν.dynamicWaiters.get? name).getD []).map fun o =>
        { observer := o, transferred := true } }
  match ν.adapterFactory, ν.factoryResult with
  | true, .fresh base layers => N.useAdapter {} (.fresh base layers)
  | _, _ => N

/-- What a new namespace has besides its adapter and its middleware. -/
theorem Srv.newNamespace_spec (ν : Srv) (name : String) (attachTo : Option ParentId)
    (closed : Bool) :
    (ν.newNamespace name attachTo closed).name = name ∧
      (ν.newNamespace name attachTo closed).closed = closed ∧
      (ν.newNamespace name attachTo closed).ready = [] ∧
      (ν.newNamespace name attachTo closed).waiters =
        ((ν.dynamicWaiters.get? name).getD []).map fun o =>
          { observer := o, transferred := true } := by
  unfold newNamespace
  dsimp only
  split <;> exact ⟨rfl, rfl, rfl, rfl⟩

/-- Enter a new namespace in the table; its observers stop waiting for the name. -/
def Srv.register (ν : Srv) (name : String) (N : Namespace) : Srv :=
  { ν with
    namespaces := Function.update ν.namespaces ν.nspCount N
    nspCount := ν.nspCount + 1
    table := ν.table.set name ν.nspCount
    dynamicWaiters := ν.dynamicWaiters.erase name }

/-- `Server.getNamespace`, from the factory's return to the `new_namespace` listeners. Where the
    factory returned an instance in use it throws; `admitDynamic` catches that. -/
def createNamespace (σ : Core) (name : String) (attachTo : Option ParentId) (closed : Bool)
    (k : Cont) : Out Srv :=
  if σ.srv.adapterFactory && decide (σ.srv.factoryResult = .reused) then
    match k with
    | .attempt a =>
        { part := σ.srv
          push := [.conn (.rejectConnectionAttempt a
            { message := "adapter factory must return a fresh instance for each namespace" })] }
    | _ => { part := σ.srv, fails := true }
  else
    let n := σ.srv.nspCount
    let N := σ.srv.newNamespace name attachTo closed
    { part := (σ.srv.register name N).addChild attachTo n
      push := (if name = "/" then [] else [.app (.namespaceListener 0 "new_namespace")]) ++
        [.srv (.createNamespaceRest n k)] }

/-- `Server.of` with a matcher. -/
def ofMatcher (σ : Core) (m : Matcher) : Out Srv :=
  let p := σ.srv.parents.length
  { part := { σ.srv with
      parents := σ.srv.parents ++ [{ matcher := m }]
      regexParents := match m with
        | .regExp r => σ.srv.regexParents.set r p
        | .function => σ.srv.regexParents } }

/-- `used.has(adapter)`, for what the factory returned for a namespace. An adapter in place is among
    the `adapterInstances` once a factory is registered. -/
def Srv.usesAdapter (ν : Srv) (n : NspId) : FactoryResult → Bool
  | .fresh .. => false
  | .earlier k =>
      ν.adapterFactory && decide (k = (ν.namespaces n).adapter) ||
        decide ((ν.namespaces n).adapterCount ≤ k)
  | .reused => true

/-- `Server.adapter`, with what the factory returns for each existing namespace; the factory's
    calls are taken as part of the step. The index of the namespace stays: before the first
    connection attempt it is empty, as that of any other adapter is (`unstarted_empty`). -/
def adapter (σ : Core) (results : List FactoryResult) : Out Srv :=
  let ns := σ.srv.table.values
  let replacements := ns.zip results
  if σ.srv.admissionStarted || replacements.any (fun x => σ.srv.usesAdapter x.1 x.2) ||
      decide (results.length ≠ ns.length) then
    { part := σ.srv, fails := true }
  else
    { part := replacements.foldl (fun ν x =>
          ν.setNamespace x.1 fun N => N.useAdapter (σ.memb.adapters x.1) x.2)
        { σ.srv with adapterFactory := true } }

/-- What is true of the server before `Server.adapter`, and kept by each `useAdapter` while
    registration is open, is true after it. -/
theorem adapter_induct {σ : Core} {results : List FactoryResult} {motive : Srv → Prop}
    (same : motive σ.srv)
    (enabled : σ.srv.admissionStarted = false → motive { σ.srv with adapterFactory := true })
    (use : σ.srv.admissionStarted = false → ∀ ν, motive ν → ∀ n, ∀ r ∈ results,
      motive (ν.setNamespace n fun N => N.useAdapter (σ.memb.adapters n) r)) :
    motive (adapter σ results).part := by
  unfold adapter
  dsimp only
  split
  · exact same
  · rename_i hno
    have hopen : σ.srv.admissionStarted = false := by
      simp only [Bool.or_eq_true, not_or] at hno
      simpa using hno.1.1
    exact List.foldlRecOn (motive := motive) _ _ (enabled hopen) fun ν h x hx =>
      use hopen ν h x.1 x.2 (List.of_mem_zip hx).2

/-! ## 4. The direct connection API -/

/-- Settle the observer of a waiter; a transferred one settles through a reaction. -/
def settleWaiter (ν : Srv) (w : Waiter) (x : Observer) : Srv × List Instr :=
  if w.transferred then (ν, [.srv (.settleObserver w.observer x)])
  else (ν.setObserver w.observer x, [])

/-- `Namespace.offer`. -/
def offer (σ : Core) (s : SocketId) : Out Srv :=
  let n := (σ.conn.sockets s).nsp
  match (σ.srv.namespaces n).waiters with
  | [] => { part := σ.srv.setNamespace n fun N => { N with ready := N.ready ++ [s] } }
  | w :: ws =>
      let r := settleWaiter (σ.srv.setNamespace n fun N => { N with waiters := ws }) w (.resolved s)
      { part := r.1, post := r.2 }

/-- `Namespace.discardReady`. -/
def discardReady (σ : Core) (s : SocketId) : Out Srv :=
  { part := σ.srv.setNamespace (σ.conn.sockets s).nsp fun N => { N with ready := N.ready.erase s } }

/-- `Namespace.nextConnection`, for observer `o`. -/
def observe (σ : Core) (o : ObserverId) (n : NspId) : Out Srv :=
  match (σ.srv.namespaces n).ready with
  | s :: rest =>
      { part := (σ.srv.setNamespace n fun N => { N with ready := rest }).setObserver o (.resolved s) }
  | [] => { part := σ.srv.setNamespace n fun N =>
      { N with waiters := N.waiters ++ [{ observer := o, transferred := false }] } }

/-- Queue an observer until a dynamic child of that name exists. -/
def Srv.addWaiter (ν : Srv) (name : String) (o : ObserverId) : Srv :=
  let waiters := (ν.dynamicWaiters.get? name).getD []
  { ν with dynamicWaiters := ν.dynamicWaiters.set name (waiters ++ [o]) }

/-- `Server.nextConnection`. -/
def nextConnection (P : Platform) (σ : Core) (name : String) : Out Srv :=
  let o := σ.srv.observerCount
  let ν := { σ.srv with observers := Function.update σ.srv.observers o .waiting
                        observerCount := o + 1 }
  let name := normalizeNamespace name
  if σ.srv.closed then { part := ν.setObserver o .rejected }
  else match σ.srv.table.get? name with
    | some n => { part := ν, push := [.srv (.observe o n)] }
    | none =>
        let regexpParent := σ.srv.matchingRegExpParent P name
        if regexpParent.isNone && !σ.srv.parents.isEmpty then
          { part := ν.addWaiter name o }
        else { part := ν, push := [.srv (.getNamespace name regexpParent (.observe o))] }

/-! ## 5. Broadcasts and wrappers -/

/-- Record a trace in the outermost `TracingAdapter`, if there is one. -/
def traceBroadcast (trace : BroadcastTrace) : List Layer → List Layer
  | [] => []
  | .tracing traces :: rest => .tracing (traces ++ [trace]) :: rest
  | .dropping dropped :: rest => .dropping dropped :: traceBroadcast trace rest

/-- `BroadcastOperator.trace`, into the adapter the operator captured. -/
def Namespace.trace (N : Namespace) (adapter : Nat) (trace : BroadcastTrace) : Namespace :=
  if adapter = N.adapter then { N with layers := traceBroadcast trace N.layers }
  else
    { N with retired := modify N.retired adapter fun x =>
        { x with layers := traceBroadcast trace x.layers } }

/-- A trace touches wrappers only. -/
theorem Namespace.trace_eq (N : Namespace) (adapter : Nat) (trace : BroadcastTrace) :
    N.trace adapter trace = { N with
      layers := (N.trace adapter trace).layers
      retired := (N.trace adapter trace).retired } := by
  unfold Namespace.trace
  split <;> rfl

/-- `BroadcastOperator.emit` without a trailing function: trace, then one `sendBroadcast` for each
    recipient in turn. -/
def broadcast (σ : Core) (op : BroadcastOperator) (event : String) : Out Srv :=
  if event ∈ RESERVED_EVENTS then { part := σ.srv, fails := true }
  else
    let r := op.recipients σ
    let trace : BroadcastTrace :=
      { event, rooms := op.targetRooms.elems, exceptRooms := op.exceptRooms.elems
        excluded := r.2.elems, recipients := r.1.map fun s => (σ.conn.sockets s).id
        isVolatile := op.isVolatile }
    { part := σ.srv.setNamespace op.nsp fun N => N.trace op.adapter trace
      push := r.1.map fun s => .mail (.sendBroadcast s event) }

/-- `DroppingAdapter.setDropped` on one wrapper. -/
def Layer.setDropped (sid : String) (dropped : Bool) : Layer → Layer
  | .dropping l => .dropping (if dropped then (if sid ∈ l then l else l ++ [sid])
      else l.filter (· ≠ sid))
  | .tracing l => .tracing l

/-- `setDropped` of the wrapper at position `layer`, for a sid the adapter knows. -/
def setDropped (σ : Core) (n : NspId) (layer : Nat) (sid : String) (dropped : Bool) : Out Srv :=
  if ((σ.memb.adapters n).sids.get? sid).isNone then { part := σ.srv }
  else { part := σ.srv.setNamespace n fun N =>
    { N with layers := N.layers.modify layer (Layer.setDropped sid dropped) } }

/-- `adapter.removeSocket` from the outermost wrapper down to the base. -/
def removeSocket (σ : Core) (s : SocketId) : Out Srv :=
  { part := σ.srv.setNamespace (σ.conn.sockets s).nsp fun N =>
      { N with layers := N.layers.map (Layer.setDropped (σ.conn.sockets s).id false) }
    push := [.mail (.removeDeliveries s)] }

/-! ## 6. Close -/

/-- Settle waiters in turn; the tasks are collected. -/
def settleWaiters (x : Observer) (r : Srv × List Instr) (ws : List Waiter) : Srv × List Instr :=
  ws.foldl (fun r w => ((settleWaiter r.1 w x).1, r.2 ++ (settleWaiter r.1 w x).2)) r

/-- The synchronous part of `Server.close`, up to its namespaces. -/
def Srv.startClose (ν : Srv) : Srv :=
  ν.dynamicWaiters.values.flatten.foldl (fun ν o => ν.setObserver o .rejected)
    { ν with closed := true, dynamicWaiters := .empty }

/-- `Server.close`. -/
def close (σ : Core) : Out Srv :=
  let ν := σ.srv.startClose
  if ν.closePromise ≠ .unset then { part := ν, log := [.closeCalled] }
  else
    let ns := ν.table.values
    { part := { ν with closePromise := .pending, namespacesLeft := ns.length }
      push := ns.map fun n => .srv (.closeNamespace n)
      log := [.closeCalled] }

/-- `Namespace.close`, up to its `await`. -/
def closeNamespace (σ : Core) (n : NspId) : Out Srv :=
  let r := settleWaiters .rejected
    (σ.srv.setNamespace n fun N => { N with closed := true, ready := [], waiters := [] }, [])
    (σ.srv.namespaces n).waiters
  let sockets := (σ.memb.rosters n).values
  { part := { r.1 with socketsLeft := modify r.1.socketsLeft n fun _ => sockets.length }
    post := r.2
    push := if sockets.isEmpty then [.srv (.namespaceEmpty n)]
      else sockets.map fun s => .srv (.closeFromServer s) }

/-- `ServerSocket.closeFromServer`, up to its `await`. -/
def closeFromServer (σ : Core) (s : SocketId) : Out Srv :=
  if (σ.life.sockets s).teardownPromise ≠ .none then
    { part := σ.srv, post := [.srv (.awaitClosed s)] }
  else
    { part := σ.srv
      push := [.life (.teardown s "server shutting down" false), .life (.awaitTeardown s .resume)] }

/-- The job that follows a returned `teardownPromise`. -/
def awaitClosed (σ : Core) (s : SocketId) : Out Srv :=
  if (σ.life.sockets s).teardownPromise = .resolved then
    { part := σ.srv, post := [.srv (.closeResolved s)] }
  else { part := σ.srv, push := [.life (.awaitTeardown s .closed)] }

/-- The rest of `closeFromServer`. -/
def closeRest (σ : Core) (s : SocketId) : Out Srv :=
  { part := σ.srv
    push := (if (σ.conn.peer s).connected then
        [.conn (.markDisconnected (σ.conn.sockets s).peer "transport close")] else []) ++
      [.srv (.closeResolved s)] }

/-- A socket's promise of the inner `Promise.all` is fulfilled. -/
def socketClosed (σ : Core) (n : NspId) : Out Srv :=
  { part := { σ.srv with socketsLeft := modify σ.srv.socketsLeft n (· - 1) }
    post := if σ.srv.socketsLeft n = 1 then [.srv (.namespaceRest n)] else [] }

/-- A namespace's promise of the outer `Promise.all` is fulfilled. -/
def namespaceClosed (σ : Core) : Out Srv :=
  { part := { σ.srv with namespacesLeft := σ.srv.namespacesLeft - 1 }
    post := if σ.srv.namespacesLeft = 1 then [.srv .closeThen] else [] }

def execSrv (P : Platform) (σ : Core) : SrvInstr → Out Srv
  | .serverConnect name authCallback forceNew => serverConnect σ name authCallback forceNew
  | .adapter results => adapter σ results
  | .of name =>
      { part := σ.srv, push := [.srv (.getNamespace (normalizeNamespace name) none .done)] }
  | .ofMatcher m => ofMatcher σ m
  | .use n f =>
    { part := σ.srv.setNamespace n fun N => { N with middleware := N.middleware ++ [f] } }
  | .useParent p f =>
      { part := { σ.srv with parents := σ.srv.parents.modify p fun x =>
                    { x with middleware := x.middleware ++ [f] } } }
  | .nextConnection name => nextConnection P σ name
  | .factoryReturns r => { part := { σ.srv with factoryResult := r } }
  | .continuePair a n authCallback => continuePair σ a n authCallback
  | .authorized a n => authorized σ a n
  | .dynamicTask a authCallback => dynamicTask σ a authCallback
  | .dynamicAuthorized a => dynamicAuthorized σ a
  | .tryParent a index => tryParent P σ a index
  | .matched a index allowed => matched σ a index allowed
  | .getNamespace name parent k => getNamespace P σ name parent k
  | .createNamespace name attachTo closed k => createNamespace σ name attachTo closed k
  | .createNamespaceRest n k => { part := σ.srv, push := k.instrs n }
  | .observe o n => observe σ o n
  | .settleObserver o x => { part := σ.srv.setObserver o x }
  | .offer s => offer σ s
  | .discardReady s => discardReady σ s
  | .broadcast op event => broadcast σ op event
  | .setDropped n layer sid dropped => setDropped σ n layer sid dropped
  | .removeSocket s => removeSocket σ s
  | .close => close σ
  | .closeNamespace n => closeNamespace σ n
  | .closeFromServer s => closeFromServer σ s
  | .awaitClosed s => awaitClosed σ s
  | .closeRest s => closeRest σ s
  | .closeResolved s => { part := σ.srv, post := [.srv (.socketClosed (σ.conn.sockets s).nsp)] }
  | .socketClosed n => socketClosed σ n
  | .namespaceEmpty n => { part := σ.srv, post := [.srv (.namespaceRest n)] }
  | .namespaceRest _ => { part := σ.srv, post := [.srv .namespaceClosed] }
  | .namespaceClosed => namespaceClosed σ
  | .closeThen => { part := { σ.srv with closePromise := .resolved } }

end Smocket
