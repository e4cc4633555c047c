import Smocket.WellFormed

/-
  File:      Smocket/Spawns.lean
  Subject:   WHO SPAWNS WHAT. The table of the runtime's internal calls, read backwards: for each
             instruction, the instructions that push or post it. What the table does not list,
             only the application calls.

  * `spawnedBy` -- the table is right.
-/

namespace Smocket

open Ordered EventLoop

variable {P : Platform}

/-! ## 1. The table -/

/-- `j.SpawnedBy i`: executing `i` may leave `j` pending. -/
def ConnInstr.SpawnedBy : ConnInstr → Instr → Prop
  | openClient _ b f, i => ∃ name, i = .srv (.serverConnect name b f)
  | admitDynamic c, i => (∃ name b f, i = .conn (.openClient name b f)) ∨ i = .conn (.connect c)
  | attachNamespace _ n, i => ∃ a, i = .ctl (.admitChild a n)
  | newServerSocket a n, i => i = .srv (.authorized a n)
  | rejectConnectionAttempt a _, i => (∃ s err, i = .ctl (.completion s err)) ∨
      (∃ n b, i = .srv (.continuePair a n b)) ∨ (∃ n, i = .srv (.authorized a n)) ∨
      (∃ k, i = .srv (.tryParent a k)) ∨ ∃ name p b, i = .srv (.createNamespace name p b (.attempt a))
  | rejectConnectionAttemptRest a err, i => i = .conn (.rejectConnectionAttempt a err)
  | cancelConnectionAttempt c, i => i = .ctl (.clientDisconnect c) ∨
      ∃ s, i = .ctl (.cancelUnlessOwner c s)
  | cancelConnectionAttemptRest c, i => i = .conn (.cancelConnectionAttempt c)
  | completeConnectionAttempt _ s, i => i = .ctl (.completion s none)
  | markDisconnected c _, i => i = .ctl (.clientDisconnect c) ∨
      (∃ s, i = .ctl (.markFromServer s)) ∨ ∃ s, i = .srv (.closeRest s)
  | connect _, _ | setAuth .., _ => False

/-- Where each instruction of a socket's lifecycle comes from. -/
def LifeInstr.SpawnedBy : LifeInstr → Instr → Prop
  | runMiddleware _, i => ∃ a n, i = .conn (.newServerSocket a n)
  | markConnected s, i => i = .ctl (.completion s none)
  | teardown s .., i => (∃ err, i = .ctl (.completion s (some err))) ∨
      (∃ c, i = .ctl (.handleDisconnect c)) ∨ i = .srv (.closeFromServer s)
  | teardownTask s r _, i => ∃ d, i = .life (.teardown s r d)
  | disconnectNamespaceFromServer s, i => i = .ctl (.disconnect s false) ∨
      (∃ c, i = .ctl (.disconnectFromServer c)) ∨ ∃ m, i = .ctl (.managerPending m s)
  | teardownCleanup s r false, i => ∃ d, i = .life (.teardownTask s r d)
  | teardownCleanup s _ true, i => i = .life (.disconnectNamespaceFromServer s)
  | teardownDisconnect s r sync, i => i = .life (.teardownCleanup s r sync)
  | teardownDone s sync, i => ∃ r, i = .life (.teardownDisconnect s r sync)
  | cleanupConnectionAttempt s, i => (∃ a n, i = .conn (.newServerSocket a n)) ∨
      (∃ a err, i = .conn (.rejectConnectionAttempt a err)) ∨
      (∃ c, i = .conn (.cancelConnectionAttempt c)) ∨
      (∃ a, i = .conn (.completeConnectionAttempt a s)) ∨ ∃ err, i = .ctl (.completion s err)
  | invalidateAcknowledgements _, i => ∃ c r, i = .conn (.markDisconnected c r)
  | awaitTeardown s _, i => i = .srv (.closeFromServer s) ∨ i = .srv (.awaitClosed s)
  | dispatch d, i => i = .ctl (.deliverServer d)
  | dispatchEvent s e k, i => ∃ d : ServerDelivery, d.socket = s ∧ d.event = e ∧ d.serial = k ∧
      i = .life (.dispatch d)
  | startPacket d _, i => i = .life (.dispatch d)
  | endDispatch s, i => (∃ r d, i = .life (.teardownTask s r d)) ∨
      i = .life (.disconnectNamespaceFromServer s) ∨
      (∃ r sync, i = .life (.teardownDisconnect s r sync)) ∨ (∃ d, i = .life (.dispatch d)) ∨
      ∃ r, i = .life (.dispatchNamed r)
  | runPacket r k, i => (∃ d b, i = .life (.startPacket d b)) ∨
      ∃ j, k = j + 1 ∧ i = .life (.packetNext r j false)
  | dispatchNamed r, i => ∃ k, i = .life (.runPacket r k)
  | next .., _ | use .., _ | setPacket .., _ | packetNext .., _ => False

/-- Rooms are entered on admission and left in a cleanup; the rest is the application's. -/
def MembInstr.SpawnedBy : MembInstr → Instr → Prop
  | enter s, i => i = .ctl (.completion s none)
  | cleanupMembership s, i => i = .life (.cleanupConnectionAttempt s) ∨
      ∃ r sync, i = .life (.teardownCleanup s r sync)
  | drainEnd s, i | cleanupMembershipRest s, i => i = .memb (.cleanupMembership s)
  | join .., _ | leave .., _ | socketsJoin .., _ | socketsLeave .., _ => False

/-- The two instructions that hand a packet for a client to its delivery. -/
def Instr.SendsToClient (i : Instr) : Prop :=
  (∃ s n e r w, i = .mail (.serverEmitRest s n e r w)) ∨
    ∃ s n e w, i = .mail (.sendBroadcastRest s n e w)

/-- Each half of an emit comes from the half before it, a flush from the attempt that completed. -/
def MailInstr.SpawnedBy : MailInstr → Instr → Prop
  | clientEmitRest c _, i => ∃ e form, i = .mail (.clientEmit c e form)
  | flush a s, i => i = .conn (.completeConnectionAttempt a s)
  | flushPackets a s _, i => i = .mail (.flush a s) ∨ (∃ ps, i = .mail (.flushPackets a s ps)) ∨
      ∃ p ps, i = .mail (.flushRest a s p ps)
  | flushRest a s p ps, i => i = .mail (.flushPackets a s (p :: ps))
  | rejectPendingAcks c, i => ∃ r, i = .conn (.markDisconnected c r)
  | rejectAck c _, i => i = .mail (.rejectPendingAcks c) ∨ ∃ p, i = .mail (.clientEmitRest c p)
  | serverEmitRest s .., i => ∃ e form, i = .mail (.serverEmit s e form)
  | sendBroadcast _ e, i => ∃ op, i = .srv (.broadcast op e)
  | sendBroadcastRest s _ e _, i => i = .mail (.sendBroadcast s e)
  | pumpRun _, i => i.SendsToClient ∨ ∃ r, i = .mail (.pumpRest r)
  | pumpRest r, i => i = .mail (.pumpRun r)
  | removeDeliveries s, i => i = .srv (.removeSocket s)
  | cancelTimer _, i => ∃ s, i = .mail (.removeDeliveries s)
  | ackReply _, i => ∃ k b, i = .mail (.invokeAck k b)
  | clientFlags .., _ | clientEmit .., _ | serverFlags .., _ | serverEmit .., _ | invokeAck .., _
  | ackTimeout _, _ | setDelay .., _ | setNow _, _ => False

/-- Where the server's instructions come from. -/
def SrvInstr.SpawnedBy : SrvInstr → Instr → Prop
  | continuePair a n _, i => (∃ name b f, i = .conn (.openClient name b f)) ∨
      (∃ c, i = .conn (.connect c)) ∨ i = .ctl (.admitChild a n)
  | authorized a n, i => i = .srv (.continuePair a n false)
  | dynamicTask .., i => ∃ c, i = .conn (.admitDynamic c)
  | dynamicAuthorized a, i => i = .srv (.dynamicTask a false)
  | tryParent a _, i => i = .srv (.dynamicAuthorized a) ∨ ∃ k, i = .srv (.matched a k false)
  | matched a k _, i => i = .srv (.tryParent a k)
  | getNamespace _ _ k, i => (k = .done ∧ ∃ name, i = .srv (.of name)) ∨
      (∃ o name, k = .observe o ∧ i = .srv (.nextConnection name)) ∨
      ∃ a p, k = .attempt a ∧ i = .srv (.matched a p true)
  | createNamespace name _ _ k, i => ∃ p, i = .srv (.getNamespace name p k)
  | createNamespaceRest _ k, i => ∃ name p b, i = .srv (.createNamespace name p b k)
  | observe o n, i => (∃ name, i = .srv (.nextConnection name)) ∨
      (∃ name p, i = .srv (.getNamespace name p (.observe o))) ∨
      i = .srv (.createNamespaceRest n (.observe o))
  | settleObserver .., i => (∃ s, i = .srv (.offer s)) ∨ ∃ n, i = .srv (.closeNamespace n)
  | offer s, i => i = .ctl (.completion s none)
  | discardReady s, i => ∃ err, i = .ctl (.completion s (some err))
  | removeSocket s, i => i = .memb (.cleanupMembership s)
  | closeNamespace _, i => i = .srv .close
  | closeFromServer _, i | namespaceEmpty _, i => ∃ n, i = .srv (.closeNamespace n)
  | awaitClosed s, i => i = .srv (.closeFromServer s)
  | closeRest s, i => i = .life (.teardownDone s false)
  | closeResolved s, i => i = .life (.teardownDone s false) ∨ i = .srv (.awaitClosed s) ∨
      i = .srv (.closeRest s)
  | socketClosed _, i => ∃ s, i = .srv (.closeResolved s)
  | namespaceRest n, i => i = .srv (.socketClosed n) ∨ i = .srv (.namespaceEmpty n)
  | namespaceClosed, i => ∃ n, i = .srv (.namespaceRest n)
  | closeThen, i => i = .srv .namespaceClosed
  | serverConnect .., _ | adapter _, _ | of _, _ | ofMatcher _, _ | use .., _ | useParent .., _
  | nextConnection _, _ | factoryReturns _, _ | broadcast .., _ | setDropped .., _ | close, _ =>
      False

/-- A middleware chain completes once it has run or a member has answered; the rest follows in the
    order of the source. -/
def CtlInstr.SpawnedBy : CtlInstr → Instr → Prop
  | completion s none, i => i = .life (.runMiddleware s) ∨ ∃ k, i = .life (.next s k none)
  | completion s (some err), i => ∃ k, i = .life (.next s k (some err))
  | emitConnection s, i => i = .ctl (.completion s none)
  | emitConnect s, i => i = .ctl (.emitConnection s)
  | dispatchClient c _, i => (∃ name b f, i = .conn (.openClient name b f)) ∨
      (∃ a err, i = .conn (.rejectConnectionAttemptRest a err)) ∨
      (∃ r, i = .conn (.markDisconnected c r)) ∨ (∃ a s, i = .mail (.flushPackets a s [])) ∨
      (∃ s, i = .ctl (.completion s none)) ∨ ∃ err, i = .ctl (.reportRepeatedConnectionError c err)
  | reportRepeatedConnectionError _ err, i => ∃ s, i = .ctl (.completion s (some err))
  | handleDisconnect c, i => i = .ctl (.clientDisconnect c)
  | disconnect _ close, i => ∃ op, i = .ctl (.disconnectSockets op close)
  | managerDisconnect _ s, i => i = .ctl (.disconnect s true)
  | disconnectFromServer _, i => ∃ m s, i = .ctl (.managerDisconnect m s)
  | managerPending m s, i => i = .ctl (.managerDisconnect m s)
  | cancelUnlessOwner _ s, i => ∃ m, i = .ctl (.managerPending m s)
  | markFromServer s, i => i = .life (.teardownDone s true)
  | deliverClient d, i => i.SendsToClient ∨ (∃ r, i = .mail (.pumpRun r) ∧ d = r.head.delivery) ∨
      ∃ s, i = .mail (.removeDeliveries s)
  | deliverServer _, i => (∃ c p, i = .mail (.clientEmitRest c p)) ∨
      ∃ a s p ps, i = .mail (.flushRest a s p ps)
  | admitChild a n, i => (∃ name p, i = .srv (.getNamespace name p (.attempt a))) ∨
      i = .srv (.createNamespaceRest n (.attempt a))
  | clientDisconnect _, _ | disconnectSockets .., _ => False

/-- **Where each instruction comes from.** Whatever an instruction calls of the application may
    come from anywhere. -/
def Instr.SpawnedBy : Instr → Instr → Prop
  | app .ackCallback, i => (∃ reply, i = .mail (.ackReply reply)) ∨
      (∃ r, i = .mail (.ackTimeout r)) ∨ ∃ c h, i = .mail (.rejectAck c h)
  | app (.serverNamed s e k), i =>
    i = .life (.dispatchEvent s e k) ∨ ∃ r, i = .life (.dispatchNamed r)
  | app _, _ => True
  | conn j, i => j.SpawnedBy i
  | life j, i => j.SpawnedBy i
  | memb j, i => j.SpawnedBy i
  | mail j, i => j.SpawnedBy i
  | srv j, i => j.SpawnedBy i
  | ctl j, i => j.SpawnedBy i

attribute [simp] ConnInstr.SpawnedBy LifeInstr.SpawnedBy MembInstr.SpawnedBy MailInstr.SpawnedBy
  SrvInstr.SpawnedBy CtlInstr.SpawnedBy Instr.SpawnedBy

/-! ## 2. The table is right -/

/-- All of a list is spawned by `i`. -/
def AllBy (i : Instr) (l : List Instr) : Prop := ∀ j ∈ l, j.SpawnedBy i

@[simp] theorem allBy_nil (i : Instr) : AllBy i [] := nofun

@[simp] theorem allBy_cons {i j : Instr} {l : List Instr} :
    AllBy i (j :: l) ↔ j.SpawnedBy i ∧ AllBy i l := List.forall_mem_cons

@[simp] theorem allBy_append {i : Instr} {l l' : List Instr} :
    AllBy i (l ++ l') ↔ AllBy i l ∧ AllBy i l' := List.forall_mem_append

/-- A list made from another is judged entry by entry. -/
theorem allBy_map {α : Type} {i : Instr} {l : List α} {f : α → Instr}
    (h : ∀ x ∈ l, (f x).SpawnedBy i) : AllBy i (l.map f) := by
  intro j hj
  obtain ⟨x, hx, rfl⟩ := List.mem_map.mp hj
  exact h x hx

/-- What a client's side spawns. -/
theorem execConn_by (P : Platform) (σ : Core) (i : ConnInstr) :
    AllBy (.conn i) ((execConn P σ i).push ++ (execConn P σ i).post) := by
  cases i <;> simp only [execConn]
  case openClient =>
    simp only [openClient]
    split
    · simp only [List.nil_append]
      exact allBy_map fun a _ => by simp
    · split <;> simp
  case connect c =>
    simp only [connect]
    split
    · simp
    · split
      · simp
      · simp only [List.nil_append]
        exact allBy_map fun a _ => by simp
  case admitDynamic c =>
    simp only [admitDynamic, List.nil_append]
    exact allBy_map fun a _ => by simp
  case newServerSocket => simp only [newServerSocket]; split <;> simp
  case rejectConnectionAttempt =>
    simp only [rejectConnectionAttempt]
    split
    · simp only [List.append_nil, allBy_append]
      exact ⟨allBy_map fun s _ => by simp, by simp⟩
    · simp
  case rejectConnectionAttemptRest => simp only [rejectConnectionAttemptRest]; split <;> simp
  case cancelConnectionAttempt =>
    simp only [cancelConnectionAttempt]
    split
    · simp
    · split
      · simp only [List.append_nil, allBy_append]
        exact ⟨allBy_map fun s _ => by simp, by simp⟩
      · simp
  case completeConnectionAttempt =>
    simp only [completeConnectionAttempt]
    split
    · simp
    · split <;> simp
  case markDisconnected =>
    simp only [markDisconnected]
    split
    · simp
    · simp only [List.append_nil, allBy_append]
      exact ⟨allBy_map fun s _ => by simp, by simp⟩
  all_goals simp [cancelConnectionAttemptRest]

/-- What the lifecycle of a socket spawns. -/
theorem execLife_by (σ : Core) (i : LifeInstr) :
    AllBy (.life i) ((execLife σ i).push ++ (execLife σ i).post) := by
  cases i <;> simp only [execLife]
  case runMiddleware => simp only [runMiddleware, Life.advance]; split <;> simp
  case next s k err =>
    cases err with
    | some err => simp [next]
    | none => simp only [next, Life.advance]; split <;> simp
  case teardown => simp only [teardown]; split <;> simp
  case teardownTask => simp [teardownTask, ownedDispatch]
  case disconnectNamespaceFromServer =>
    simp only [disconnectNamespaceFromServer]
    split <;> simp [ownedDispatch]
  case teardownCleanup s r sync => cases sync <;> simp [teardownCleanup]
  case teardownDisconnect => simp [teardownDisconnect, ownedDispatch]
  case teardownDone s sync =>
    cases sync with
    | true => simp [teardownDone]
    | false =>
        simp only [teardownDone, Bool.false_eq_true, if_false, List.nil_append]
        exact allBy_map fun w _ => by cases w <;> simp
  case cleanupConnectionAttempt => simp [cleanupConnectionAttempt]
  case dispatch d =>
    simp only [dispatch, dispatchCatchAll]
    split <;> split <;> simp
  case startPacket => simp [startPacket]
  case setPacket => simp only [setPacket]; split <;> simp
  case runPacket =>
    simp only [runPacket]
    split
    · simp
    · split <;> simp
  case packetNext r k err =>
    simp only [packetNext]
    split
    · simp
    · split <;> simp_all
  case dispatchNamed =>
    simp only [dispatchNamed]
    split
    · simp
    · split <;> simp
  all_goals simp

/-- Nothing of a lifecycle throws. -/
theorem execLife_fails (σ : Core) (i : LifeInstr) : (execLife σ i).fails = false := by
  cases i <;> simp only [execLife]
  case runMiddleware => simp only [runMiddleware, Life.advance]; split <;> rfl
  case next s i err =>
    cases err with
    | some err => rfl
    | none => simp only [next, Life.advance]; split <;> rfl
  case teardown => simp only [teardown]; split <;> rfl
  case disconnectNamespaceFromServer =>
    simp only [disconnectNamespaceFromServer]
    split <;> rfl
  case teardownDone => simp only [teardownDone]; split <;> rfl
  case setPacket => simp only [setPacket]; split <;> rfl
  case runPacket => simp only [runPacket]; split <;> [rfl; (split <;> rfl)]
  case packetNext => simp only [packetNext]; split <;> [rfl; (split <;> rfl)]
  case dispatchNamed => simp only [dispatchNamed]; split <;> [rfl; (split <;> rfl)]
  all_goals rfl

theorem execMemb_by (σ : Core) (i : MembInstr) :
    AllBy (.memb i) ((execMemb σ i).push ++ (execMemb σ i).post) := by
  cases i <;> simp only [execMemb]
  case cleanupMembership => simp only [cleanupMembership]; split <;> simp
  all_goals simp [enter]

/-- A queue that is pumped takes the run of its head. -/
theorem pump_by {i : Instr} (μ : Mail) (n : NspId) (sid : String)
    (h : i.SendsToClient ∨ ∃ r, i = .mail (.pumpRest r)) : AllBy i (μ.pump n sid).2 := by
  unfold Mail.pump
  split
  · simp
  · split
    · simp
    · dsimp only
      split <;> simp [h]

/-- A packet to a client is delivered by its adapter or by the tick. -/
theorem scheduleReceive_by {i : Instr} (σ : Core) (μ : Mail) (d : Delivery)
    (h : i.SendsToClient) :
    AllBy i ((scheduleReceive σ μ d).push ++ (scheduleReceive σ μ d).post) := by
  unfold scheduleReceive
  split
  · simp [h]
  · dsimp only
    split
    · simp [h]
    · simp only [List.nil_append, Mail.scheduleDelivery]
      split
      · simp
      · exact pump_by _ _ _ (Or.inl h)
    · simp

/-- A packet to a client is scheduled or fails. -/
theorem sendToClient_by {i : Instr} (σ : Core) (s : SocketId) (serial : Nat) (event : String)
    (reply : Option Reply) (survived : Bool) (h : i.SendsToClient) :
    AllBy i ((sendToClient σ s serial event reply survived).push ++
      (sendToClient σ s serial event reply survived).post) := by
  unfold sendToClient
  dsimp only
  split
  · exact scheduleReceive_by _ _ _ h
  · split
    · simp
    · exact scheduleReceive_by _ _ _ h

theorem sendToServer_by {i : Instr} (μ : Mail) (s : SocketId) (c : ClientId) (serial : Nat)
    (event : String) (reply : Option Reply) (h : (∃ c p, i = .mail (.clientEmitRest c p)) ∨
      ∃ a s p ps, i = .mail (.flushRest a s p ps)) :
    AllBy i (sendToServer μ s c serial event reply).2 := by
  unfold sendToServer
  split <;> simpa using h

/-- A request calls back when it is answered, when its time is up and when its client goes. -/
theorem callback_by {i : Instr} (μ : Mail) (r : RequestId)
    (h : (∃ reply, i = .mail (.ackReply reply)) ∨ (∃ r, i = .mail (.ackTimeout r)) ∨
      ∃ c h, i = .mail (.rejectAck c h)) : AllBy i ((μ.callback r).push ++ (μ.callback r).post) := by
  unfold Mail.callback
  split
  · simp
  · simpa using h

/-- What an emit, a delivery and an acknowledgement spawn. -/
theorem execMail_by (σ : Core) (i : MailInstr) :
    AllBy (.mail i) ((execMail σ i).push ++ (execMail σ i).post) := by
  cases i <;> simp only [execMail]
  case clientEmit =>
    simp only [clientEmit]
    split
    · simp
    · split <;> simp
  case clientEmitRest c p =>
    simp only [clientEmitRest]
    split
    · simp
    · have h := fun μ s => sendToServer_by (i := .mail (.clientEmitRest c p)) μ s c p.serial p.event
        p.reply (Or.inl ⟨c, p, rfl⟩)
      split
      · simp only [allBy_append]
        refine ⟨?_, h _ _⟩
        split <;> simp
      · simp only [List.nil_append]
        exact h _ _
  case flush => simp [flush]
  case flushPackets a s ps =>
    cases ps with
    | nil => simp [flushPackets]
    | cons p ps => simp only [flushPackets]; split <;> simp
  case flushRest a s p ps =>
    simp only [flushRest]
    split
    · simp only [allBy_append]
      exact ⟨by simp, sendToServer_by _ _ _ _ _ _ (Or.inr ⟨a, s, p, ps, rfl⟩)⟩
    · simp
  case rejectPendingAcks =>
    simp only [List.append_nil]
    exact allBy_map fun _ _ => by simp
  case rejectAck c k =>
    unfold rejectAck
    split
    · exact callback_by _ _ (by simp)
    · dsimp only
      split
      · simp
      · split
        · exact callback_by _ _ (by simp)
        · simp
  case serverEmit =>
    simp only [serverEmit]
    split
    · simp
    · split <;> simp
  case serverEmitRest s n e r w =>
    simp only [serverEmitRest]
    split
    · simp
    · exact sendToClient_by _ _ _ _ _ _ (Or.inl ⟨s, n, e, r, w, rfl⟩)
  case sendBroadcast => simp [sendBroadcast]
  case sendBroadcastRest s n e w => exact sendToClient_by _ _ _ _ _ _ (Or.inr ⟨s, n, e, w, rfl⟩)
  case pumpRun => simp only [pumpRun]; split <;> simp
  case pumpRest r =>
    simp only [pumpRest]
    split
    · simp only [List.nil_append]
      exact pump_by _ _ _ (Or.inr ⟨r, rfl⟩)
    · simp
  case removeDeliveries s =>
    simp only [removeDeliveries]
    split
    · simp
    · simp
    · split
      · simp
      · simp only [List.append_nil, allBy_append]
        exact ⟨allBy_map fun e _ => by simp, by simp⟩
  case invokeAck =>
    simp only [invokeAck]
    generalize (if (σ.mail.acks _).forClient = true then _ else _ : Bool) = active
    split
    · simp
    · split <;> simp
  case ackReply reply =>
    unfold ackReply
    split
    · simp
    · dsimp only
      split
      · split
        · simp
        · exact callback_by _ _ (by simp)
      · simp
  case ackTimeout => exact callback_by _ _ (by simp)
  all_goals simp

/-- Whoever asked for a namespace goes on once it is there. -/
theorem Cont.instrs_by {i : Instr} {n : NspId} {k : Cont}
    (hattempt : ∀ a, k = .attempt a → (∃ name p, i = .srv (.getNamespace name p (.attempt a))) ∨
      i = .srv (.createNamespaceRest n (.attempt a)))
    (hobserve : ∀ o, k = .observe o → (∃ name p, i = .srv (.getNamespace name p (.observe o))) ∨
      i = .srv (.createNamespaceRest n (.observe o))) : AllBy i (k.instrs n) := by
  cases k with
  | attempt a => simpa [Cont.instrs] using hattempt a rfl
  | observe o => simpa [Cont.instrs] using Or.inr (hobserve o rfl)
  | done => simp [Cont.instrs]

theorem settleWaiter_by {i : Instr} (ν : Srv) (w : Waiter) (x : Observer)
    (h : (∃ s, i = .srv (.offer s)) ∨ ∃ n, i = .srv (.closeNamespace n)) :
    AllBy i (settleWaiter ν w x).2 := by
  unfold settleWaiter
  split <;> simp [h]

/-- Settling those who wait spawns the reactions of the transferred ones. -/
theorem settleWaiters_by {i : Instr} (x : Observer) (h : ∃ n, i = .srv (.closeNamespace n)) :
    ∀ (ws : List Waiter) (r : Srv × List Instr), AllBy i r.2 → AllBy i (settleWaiters x r ws).2
  | [], _, hr => hr
  | w :: ws, r, hr => settleWaiters_by x h ws _
      (allBy_append.mpr ⟨hr, settleWaiter_by r.1 w x (Or.inr h)⟩)

/-- What the server spawns. -/
theorem execSrv_by (P : Platform) (σ : Core) (i : SrvInstr) :
    AllBy (.srv i) ((execSrv P σ i).push ++ (execSrv P σ i).post) := by
  cases i <;> simp only [execSrv]
  case adapter => simp only [adapter]; split <;> simp
  case nextConnection =>
    simp only [nextConnection]
    split
    · simp
    · split
      · simp
      · split <;> simp
  case continuePair a n b =>
    simp only [continuePair]
    split
    · simp
    · split
      · simp
      · cases b <;> simp
  case authorized =>
    simp only [authorized]
    split
    · simp
    · split <;> simp
  case dynamicTask a b =>
    simp only [dynamicTask]
    split
    · simp
    · cases b <;> simp
  case dynamicAuthorized => simp only [dynamicAuthorized]; split <;> simp
  case tryParent =>
    simp only [tryParent]
    split
    · simp
    · split <;> simp
  case matched a k allowed => cases allowed <;> simp [matched]
  case getNamespace name p k =>
    simp only [getNamespace]
    split
    · simp only [List.append_nil]
      exact Cont.instrs_by (fun a ha => Or.inl ⟨name, p, by rw [ha]⟩)
        fun o ho => Or.inl ⟨name, p, by rw [ho]⟩
    · simp only [List.append_nil, allBy_append]
      refine ⟨?_, by simp⟩
      split <;> simp
  case createNamespace name p b k =>
    simp only [createNamespace]
    split
    · split <;> simp
    · simp only [List.append_nil, allBy_append]
      refine ⟨?_, by simp⟩
      split <;> simp
  case createNamespaceRest n k =>
    simp only [List.append_nil]
    exact Cont.instrs_by (fun a ha => Or.inr (by rw [ha])) fun o ho => Or.inr (by rw [ho])
  case observe => simp only [observe]; split <;> simp
  case offer s =>
    simp only [offer]
    split
    · simp
    · simp only [List.nil_append]
      exact settleWaiter_by _ _ _ (Or.inl ⟨s, rfl⟩)
  case broadcast op e =>
    simp only [broadcast]
    split
    · simp
    · simp only [List.append_nil]
      exact allBy_map fun s _ => by simp
  case setDropped => simp only [setDropped]; split <;> simp
  case close =>
    simp only [close]
    split
    · simp
    · simp only [List.append_nil]
      exact allBy_map fun n _ => by simp
  case closeNamespace n =>
    simp only [closeNamespace, allBy_append]
    refine ⟨?_, settleWaiters_by _ ⟨n, rfl⟩ _ _ (by simp)⟩
    split
    · simp
    · exact allBy_map fun s _ => by simp
  case closeFromServer => simp only [closeFromServer]; split <;> simp
  case awaitClosed => simp only [awaitClosed]; split <;> simp
  case closeRest => simp only [closeRest]; split <;> simp
  case socketClosed => simp only [socketClosed]; split <;> simp
  case namespaceClosed => simp only [namespaceClosed]; split <;> simp
  all_goals simp [serverConnect, ofMatcher, discardReady, removeSocket]

/-- What the calls between the groups spawn. -/
theorem execCtl_by (σ : Core) (i : CtlInstr) :
    AllBy (.ctl i) ((execCtl σ i).push ++ (execCtl σ i).post) := by
  cases i <;> simp only [execCtl]
  case completion s err =>
    cases err with
    | some err =>
        simp only [completion]
        split
        · simp
        · split <;> simp
    | none =>
        simp only [completion]
        split
        · split <;> simp [admission]
        · split
          · split <;> simp
          · split <;> simp [admission]
  case reportRepeatedConnectionError =>
    simp only [reportRepeatedConnectionError]
    split <;> simp
  case clientDisconnect => simp only [clientDisconnect]; split <;> simp
  case handleDisconnect =>
    simp only [handleDisconnect, List.append_nil]
    exact allBy_map fun _ _ => by simp
  case disconnect s close =>
    simp only [disconnect]
    split
    · rename_i h
      split <;> simp [h]
    · rename_i h
      simp [h]
  case managerDisconnect =>
    simp only [managerDisconnect, List.append_nil, allBy_append]
    exact ⟨allBy_map fun _ _ => by simp, by simp⟩
  case disconnectFromServer =>
    simp only [disconnectFromServer, List.append_nil]
    split
    · exact allBy_map fun _ _ => by simp
    · simp
  case managerPending m s =>
    simp only [managerPending, List.append_nil, allBy_append]
    exact ⟨allBy_map fun _ _ => by simp, by simp⟩
  case cancelUnlessOwner => simp only [cancelUnlessOwner]; split <;> simp
  case markFromServer => simp only [markFromServer]; split <;> simp
  case deliverClient => simp only [deliverClient]; split <;> simp
  case deliverServer => simp only [deliverServer]; split <;> simp
  case admitChild => simp only [admitChild]; split <;> simp
  case disconnectSockets =>
    simp only [disconnectSockets, List.append_nil]
    exact allBy_map fun _ _ => by simp
  all_goals simp [emitConnection, dispatchClient]

/-- **The table is right.** -/
theorem spawnedBy {i j : Instr} {σ : Core} (h : j ∈ (exec P i σ).spawned) : j.SpawnedBy i := by
  cases i with
  | app x => cases h
  | conn i => exact execConn_by P σ i j h
  | life i => exact execLife_by σ i j h
  | memb i => exact execMemb_by σ i j h
  | mail i => exact execMail_by σ i j h
  | srv i => exact execSrv_by P σ i j h
  | ctl i => exact execCtl_by σ i j h

end Smocket
