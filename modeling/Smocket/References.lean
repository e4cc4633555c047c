import Smocket.Machine
import Mathlib.Order.Nat

/-
  File:      Smocket/References.lean
  Subject:   THE OBJECTS AN INSTRUCTION REFERS TO EXIST, and refer to each other as they were
             built. A heap only grows (`Conn.Extends`), so a reference stays valid.

  * `Conn.Wf.id_inj` -- a sid is that of one socket;
  * `execConn_keeps` -- the connection part stays in order.
-/

namespace Smocket

open Ordered EventLoop

/-! ## 1. References -/

/-- What an instruction says about the objects it names. -/
inductive Ref where
  | client (c : ClientId)
  | attempt (a : AttemptId)
  | socket (s : SocketId)
  /-- `s` was built for the attempt `a` -/
  | builtFor (a : AttemptId) (s : SocketId)
  /-- `c` is the peer of `s` -/
  | peer (c : ClientId) (s : SocketId)

/-- A reference is good where it points to something that exists and belongs together. -/
@[simp] def Ref.Valid (κ : Conn) : Ref → Prop
  | client c => c < κ.clientCount
  | attempt a => a < κ.attemptCount
  | socket s => s < κ.socketCount
  | builtFor a s => s < κ.socketCount ∧ (κ.sockets s).attempt = a
  | peer c s => s < κ.socketCount ∧ (κ.sockets s).peer = c

/-- What the instructions of a client's side name. -/
@[simp] def ConnInstr.refs : ConnInstr → List Ref
  | openClient .. => []
  | connect c | setAuth c _ | admitDynamic c | attachNamespace c _ | cancelConnectionAttempt c
  | cancelConnectionAttemptRest c | markDisconnected c _ => [.client c]
  | newServerSocket a _ | rejectConnectionAttempt a _ | rejectConnectionAttemptRest a _ =>
      [.attempt a]
  | completeConnectionAttempt a s => [.builtFor a s]

@[simp] def LifeInstr.refs : LifeInstr → List Ref
  | runMiddleware s | next s .. | markConnected s | teardown s .. | teardownTask s ..
  | disconnectNamespaceFromServer s | teardownCleanup s .. | teardownDisconnect s ..
  | teardownDone s _ | cleanupConnectionAttempt s | invalidateAcknowledgements s
  | awaitTeardown s _ | use s _ => [.socket s]
  | dispatch d | startPacket d _ => [.peer d.client d.socket]
  | dispatchEvent .. | endDispatch _ | setPacket .. | runPacket .. | packetNext ..
  | dispatchNamed _ => []

@[simp] def MembInstr.refs : MembInstr → List Ref
  | enter s | join s _ | leave s _ | cleanupMembership s | drainEnd s | cleanupMembershipRest s =>
      [.socket s]
  | socketsJoin .. | socketsLeave .. => []

@[simp] def PumpRun.refs (r : PumpRun) : List Ref :=
  [.peer r.head.delivery.client r.head.delivery.sender]

/-- A packet names its sender and whom it goes to. -/
@[simp] def MailInstr.refs : MailInstr → List Ref
  | flush a s | flushPackets a s _ | flushRest a s .. => [.builtFor a s]
  | serverFlags s _ | serverEmit s .. | serverEmitRest s .. | sendBroadcast s _
  | sendBroadcastRest s .. | removeDeliveries s => [.socket s]
  | pumpRun r | pumpRest r => r.refs
  | clientFlags c _ | clientEmit c .. | clientEmitRest c _ | rejectPendingAcks c
  | rejectAck c _ => [.client c]
  | cancelTimer _ | invokeAck .. | ackReply _ | ackTimeout _ | setDelay .. | setNow _ => []

@[simp] def Cont.refs : Cont → List Ref
  | attempt a => [.attempt a]
  | observe _ | done => []

/-- What waits for a namespace names the attempt it goes on with. -/
@[simp] def SrvInstr.refs : SrvInstr → List Ref
  | continuePair a .. | authorized a _ | dynamicTask a _ | dynamicAuthorized a | tryParent a _
  | matched a .. => [.attempt a]
  | getNamespace _ _ k | createNamespace _ _ _ k | createNamespaceRest _ k => k.refs
  | offer s | discardReady s | removeSocket s | closeFromServer s | awaitClosed s | closeRest s
  | closeResolved s => [.socket s]
  | _ => []

@[simp] def CtlInstr.refs : CtlInstr → List Ref
  | completion s _ | emitConnection s | emitConnect s | disconnect s _ | markFromServer s
  | managerDisconnect _ s | managerPending _ s => [.socket s]
  | dispatchClient c _ | reportRepeatedConnectionError c _ | clientDisconnect c
  | handleDisconnect c | disconnectFromServer c => [.client c]
  | cancelUnlessOwner c s => [.client c, .socket s]
  | deliverClient d => [.peer d.client d.sender]
  | deliverServer d => [.peer d.client d.socket]
  | admitChild a _ => [.attempt a]
  | disconnectSockets .. => []

/-- The references of an instruction. -/
@[simp] def Instr.refs : Instr → List Ref
  | app _ => []
  | conn i => i.refs
  | life i => i.refs
  | memb i => i.refs
  | mail i => i.refs
  | srv i => i.refs
  | ctl i => i.refs

/-- Every reference of an instruction is valid. -/
def Instr.Valid (σ : Core) (i : Instr) : Prop := ∀ r ∈ i.refs, r.Valid σ.conn

/-! ## 2. Growth -/

/-- Objects are only added, and what they were built with stays. -/
structure Conn.Extends (κ κ' : Conn) : Prop where
  clients : κ.clientCount ≤ κ'.clientCount
  attempts : κ.attemptCount ≤ κ'.attemptCount
  sockets : κ.socketCount ≤ κ'.socketCount
  clientOf : ∀ a < κ.attemptCount, (κ'.attempts a).client = (κ.attempts a).client
  socketOf : ∀ s < κ.socketCount, κ'.sockets s = κ.sockets s

theorem Conn.Extends.refl (κ : Conn) : κ.Extends κ :=
  ⟨le_rfl, le_rfl, le_rfl, fun _ _ => rfl, fun _ _ => rfl⟩

/-- Objects are made and never unmade. -/
theorem Conn.Extends.trans {κ κ' κ'' : Conn} (h : κ.Extends κ') (h' : κ'.Extends κ'') :
    κ.Extends κ'' where
  clients := h.clients.trans h'.clients
  attempts := h.attempts.trans h'.attempts
  sockets := h.sockets.trans h'.sockets
  clientOf a ha := (h'.clientOf a (ha.trans_le h.attempts)).trans (h.clientOf a ha)
  socketOf s hs := (h'.socketOf s (hs.trans_le h.sockets)).trans (h.socketOf s hs)

/-- A reference that is good stays good. -/
theorem Ref.Valid.mono {κ κ' : Conn} (h : κ.Extends κ') {r : Ref} (hr : r.Valid κ) :
    r.Valid κ' := by
  cases r with
  | client c => exact lt_of_lt_of_le hr h.clients
  | attempt a => exact lt_of_lt_of_le hr h.attempts
  | socket s => exact lt_of_lt_of_le hr h.sockets
  | builtFor a s => exact ⟨hr.1.trans_le h.sockets, by rw [h.socketOf s hr.1]; exact hr.2⟩
  | peer c s => exact ⟨hr.1.trans_le h.sockets, by rw [h.socketOf s hr.1]; exact hr.2⟩

/-- Writing to an attempt that keeps its client makes nothing. -/
theorem Conn.Extends.setAttempt (κ : Conn) (a : AttemptId)
    (g : ConnectionAttempt → ConnectionAttempt) (hg : ∀ x, (g x).client = x.client) :
    κ.Extends (κ.setAttempt a g) where
  clients := le_rfl
  attempts := le_rfl
  sockets := le_rfl
  clientOf b _ := by
    simp only [Conn.setAttempt, modify_apply]
    split
    · rename_i h
      rw [hg, h]
    · rfl
  socketOf _ _ := rfl

theorem Conn.Extends.setClient (κ : Conn) (c : ClientId) (g : ClientSocket → ClientSocket) :
    κ.Extends (κ.setClient c g) :=
  ⟨le_rfl, le_rfl, le_rfl, fun _ _ => rfl, fun _ _ => rfl⟩

theorem Conn.Extends.setManager (κ : Conn) (c : ClientId) (g : Manager → Manager) :
    κ.Extends (κ.setManager c g) :=
  ⟨le_rfl, le_rfl, le_rfl, fun _ _ => rfl, fun _ _ => rfl⟩

theorem Conn.Extends.newAttempt (κ : Conn) (c : ClientId) : κ.Extends (κ.newAttempt c) :=
  ⟨le_rfl, Nat.le_succ _, le_rfl, fun _ ha =>
    congrArg ConnectionAttempt.client (Function.update_of_ne ha.ne ..), fun _ _ => rfl⟩

theorem Conn.Extends.newSocket (P : Platform) (κ : Conn) (a : AttemptId) (n : NspId) :
    κ.Extends (κ.newSocket P a n) :=
  ⟨le_rfl, le_rfl, Nat.le_succ _, fun _ _ => rfl, fun _ hs => Function.update_of_ne hs.ne ..⟩

theorem Conn.Extends.newClient (κ : Conn) (io : ManagerId) (path : String) (nsp : Option NspId)
    (authCallback : Bool) : κ.Extends (κ.newClient io path nsp authCallback) :=
  ⟨Nat.le_succ _, le_rfl, le_rfl, fun _ _ => rfl, fun _ _ => rfl⟩

/-! ## 3. The connection part -/

/-- **The objects of the connection part refer to each other as the constructors made them.** -/
structure Conn.Wf (P : Platform) (κ : Conn) : Prop where
  socket : ∀ s < κ.socketCount, (κ.sockets s).id = P.newId s ∧
    (κ.sockets s).attempt < κ.attemptCount ∧
    (κ.sockets s).peer = (κ.attempts (κ.sockets s).attempt).client
  attempt : ∀ a < κ.attemptCount, (κ.attempts a).client < κ.clientCount
  serverSocket : ∀ a s, (κ.attempts a).serverSocket = some s → (Ref.builtFor a s).Valid κ
  connectionAttempt : ∀ c a, (κ.clients c).connectionAttempt = some a →
    a < κ.attemptCount ∧ (κ.attempts a).client = c
  paired : ∀ c s, (κ.clients c).serverSocket = some s → (Ref.peer c s).Valid κ
  managed : ∀ m c, c ∈ (κ.managers m).pendingClients ∨ c ∈ (κ.managers m).connectedClients →
    c < κ.clientCount

variable {P : Platform}

/-- A sid is that of one socket. -/
theorem Conn.Wf.id_inj {κ : Conn} (h : κ.Wf P) {s t : SocketId} (hs : s < κ.socketCount)
    (ht : t < κ.socketCount) (hid : (κ.sockets s).id = (κ.sockets t).id) : s = t := by
  rw [(h.socket s hs).1, (h.socket t ht).1] at hid
  exact P.newId_injective hid

/-- An attempt may be given a socket that was built for it. -/
theorem Conn.Wf.setAttempt {κ : Conn} (h : κ.Wf P) {a : AttemptId}
    {g : ConnectionAttempt → ConnectionAttempt} (hg : ∀ x, (g x).client = x.client)
    (hs : ∀ s, (g (κ.attempts a)).serverSocket = some s → (Ref.builtFor a s).Valid κ) :
    (κ.setAttempt a g).Wf P := by
  have hE := Conn.Extends.setAttempt κ a g hg
  constructor
  · intro s hs
    obtain ⟨h1, h2, h3⟩ := h.socket s hs
    exact ⟨h1, h2, h3.trans (hE.clientOf _ h2).symm⟩
  · intro b hb
    rw [hE.clientOf b hb]
    exact h.attempt b hb
  · intro b s hb
    refine Ref.Valid.mono hE ?_
    simp only [Conn.setAttempt, modify_apply] at hb
    split at hb
    · rename_i hba
      rw [hba]
      exact hs s hb
    · exact h.serverSocket b s hb
  · intro c b hb
    obtain ⟨h1, h2⟩ := h.connectionAttempt c b hb
    exact ⟨h1, (hE.clientOf b h1).trans h2⟩
  · exact fun c s hc => (h.paired c s hc).mono hE
  · exact h.managed

/-- A client may be given an attempt of its own, and a socket whose peer it is. -/
theorem Conn.Wf.setClient {κ : Conn} (h : κ.Wf P) {c : ClientId}
    {g : ClientSocket → ClientSocket}
    (ha : ∀ a, (g (κ.clients c)).connectionAttempt = some a →
      a < κ.attemptCount ∧ (κ.attempts a).client = c)
    (hs : ∀ s, (g (κ.clients c)).serverSocket = some s → (Ref.peer c s).Valid κ) :
    (κ.setClient c g).Wf P where
  socket := h.socket
  attempt := h.attempt
  serverSocket := h.serverSocket
  connectionAttempt d b hb := by
    simp only [Conn.setClient, modify_apply] at hb
    split at hb
    · rename_i hd
      rw [hd]
      exact ha b hb
    · exact h.connectionAttempt d b hb
  paired d s hd := by
    simp only [Conn.setClient, modify_apply] at hd
    split at hd
    · rename_i hdc
      rw [hdc]
      exact hs s hd
    · exact h.paired d s hd
  managed := h.managed

/-- A manager may be given clients that exist. -/
theorem Conn.Wf.setManager {κ : Conn} (h : κ.Wf P) {c : ClientId} {g : Manager → Manager}
    (hg : ∀ x d, d ∈ (g x).pendingClients ∨ d ∈ (g x).connectedClients →
      d ∈ x.pendingClients ∨ d ∈ x.connectedClients ∨ d < κ.clientCount) :
    (κ.setManager c g).Wf P where
  socket := h.socket
  attempt := h.attempt
  serverSocket := h.serverSocket
  connectionAttempt := h.connectionAttempt
  paired := h.paired
  managed m d hd := by
    simp only [Conn.setManager, modify_apply] at hd
    split at hd
    · rcases hg _ d hd with hd | hd | hd
      · exact h.managed _ d (Or.inl hd)
      · exact h.managed _ d (Or.inr hd)
      · exact hd
    · exact h.managed m d hd

/-- Forgetting a client's attempt leaves less to check. -/
theorem Conn.Wf.clearAttempt {κ : Conn} (h : κ.Wf P) {c : ClientId}
    {g : ClientSocket → ClientSocket} (ha : (g (κ.clients c)).connectionAttempt = none)
    (hs : (g (κ.clients c)).serverSocket = (κ.clients c).serverSocket) :
    (κ.setClient c g).Wf P :=
  h.setClient (fun a h => by rw [ha] at h; cases h) fun s h' => h.paired c s (hs ▸ h')

theorem Conn.Wf.settlePending {κ : Conn} (h : κ.Wf P) {c : ClientId} :
    (κ.setManager c fun m => m.settlePending c).Wf P :=
  h.setManager fun x d hd => by
    simp only [Manager.settlePending, OSet.mem_erase] at hd
    tauto

/-- A new attempt is its client's, pending, and has no socket. -/
theorem Conn.Wf.newAttempt {κ : Conn} (h : κ.Wf P) {c : ClientId} (hc : c < κ.clientCount) :
    (κ.newAttempt c).Wf P := by
  have hE := Conn.Extends.newAttempt κ c
  constructor
  · intro s hs
    obtain ⟨h1, h2, h3⟩ := h.socket s hs
    exact ⟨h1, h2.trans (Nat.lt_succ_self _), h3.trans (hE.clientOf _ h2).symm⟩
  · intro b hb
    rcases Nat.lt_succ_iff_lt_or_eq.mp hb with hb | rfl
    · exact (hE.clientOf b hb).symm ▸ h.attempt b hb
    · simpa [Conn.newAttempt] using hc
  · intro b s hb
    by_cases hbn : b = κ.attemptCount
    · subst hbn
      simp [Conn.newAttempt] at hb
    · exact (h.serverSocket b s (by simpa [Conn.newAttempt, hbn] using hb)).mono hE
  · intro d b hb
    obtain ⟨h1, h2⟩ := h.connectionAttempt d b hb
    exact ⟨h1.trans (Nat.lt_succ_self _), (hE.clientOf b h1).trans h2⟩
  · exact fun d s hd => (h.paired d s hd).mono hE
  · exact h.managed

/-- A client begins at most one attempt at a time, and that exists. -/
theorem Conn.Wf.beginConnectionAttempt {κ : Conn} (h : κ.Wf P) {c : ClientId}
    (hc : c < κ.clientCount) :
    (κ.beginConnectionAttempt c).1.Wf P ∧ κ.Extends (κ.beginConnectionAttempt c).1 ∧
      ∀ a ∈ (κ.beginConnectionAttempt c).2, a < (κ.beginConnectionAttempt c).1.attemptCount := by
  unfold Conn.beginConnectionAttempt
  split
  · exact ⟨h, .refl κ, fun a ha => by cases ha⟩
  · have hE := Conn.Extends.newAttempt κ c
    have hW := h.newAttempt hc
    refine ⟨(hW.setClient (fun a ha => ?_) fun s hs => hW.paired c s hs).setManager fun x d hd => ?_,
      hE.trans ((Conn.Extends.setClient ..).trans (.setManager ..)), fun a ha => ?_⟩
    · obtain rfl : κ.attemptCount = a := by simpa using ha
      exact ⟨Nat.lt_succ_self _, by simp [Conn.newAttempt]⟩
    · simp only [Manager.registerPending, OSet.mem_insert] at hd
      rcases hd with (hd | rfl) | hd
      · exact Or.inl hd
      · exact Or.inr (Or.inr hc)
      · exact Or.inr (Or.inl hd)
    · obtain rfl : κ.attemptCount = a := by simpa using ha
      exact Nat.lt_succ_self _

/-- A new socket takes a sid nobody has had. -/
theorem Conn.Wf.newSocket {κ : Conn} (h : κ.Wf P) {a : AttemptId} (ha : a < κ.attemptCount)
    (n : NspId) : (κ.newSocket P a n).Wf P := by
  have hE := Conn.Extends.newSocket P κ a n
  constructor
  · intro s hs
    rcases Nat.lt_succ_iff_lt_or_eq.mp hs with hs | rfl
    · rw [hE.socketOf s hs]
      exact h.socket s hs
    · simpa [Conn.newSocket] using ha
  · exact h.attempt
  · exact fun b s hb => (h.serverSocket b s hb).mono hE
  · exact h.connectionAttempt
  · exact fun c s hc => (h.paired c s hc).mono hE
  · exact h.managed

/-- A new client has no attempt and no socket. -/
theorem Conn.Wf.newClient {κ : Conn} (h : κ.Wf P) (io : ManagerId) (path : String)
    (nsp : Option NspId) (authCallback : Bool) : (κ.newClient io path nsp authCallback).Wf P where
  socket := h.socket
  attempt a ha := (h.attempt a ha).trans (Nat.lt_succ_self _)
  serverSocket := h.serverSocket
  connectionAttempt c a hc := by
    by_cases hcn : c = κ.clientCount
    · subst hcn
      simp [Conn.newClient] at hc
    · exact h.connectionAttempt c a (by simpa [Conn.newClient, hcn] using hc)
  paired c s hc := by
    by_cases hcn : c = κ.clientCount
    · subst hcn
      simp [Conn.newClient] at hc
    · exact h.paired c s (by simpa [Conn.newClient, hcn] using hc)
  managed m c hc := (h.managed m c hc).trans (Nat.lt_succ_self _)

theorem Conn.Wf.newManager {κ : Conn} (h : κ.Wf P) (name : String) : (κ.newManager name).1.Wf P :=
  { h with
    managed := fun m d hd => by
      by_cases hm : m = κ.managerCount
      · subst hm
        simp [Conn.newManager] at hd
      · exact h.managed m d (by simpa [Conn.newManager, hm] using hd) }

/-- A client finds its manager or gets a new one. -/
theorem Conn.Wf.managerFor {κ : Conn} (h : κ.Wf P) (name : String) (forceNew : Bool) :
    (κ.managerFor name forceNew).1.Wf P := by
  unfold Conn.managerFor
  split
  · exact h.newManager name
  · split
    · exact { h.newManager name with }
    · split
      · exact h.newManager name
      · exact { h with
          managed := fun m d hd => by
            simp only [modify_apply] at hd
            split at hd
            · rename_i hm
              exact h.managed m d (hm ▸ hd)
            · exact h.managed m d hd }

theorem Conn.Extends.managerFor (κ : Conn) (name : String) (forceNew : Bool) :
    κ.Extends (κ.managerFor name forceNew).1 := by
  have hnew : κ.Extends (κ.newManager name).1 :=
    ⟨le_rfl, le_rfl, le_rfl, fun _ _ => rfl, fun _ _ => rfl⟩
  unfold Conn.managerFor
  split
  · exact hnew
  · split
    · exact ⟨le_rfl, le_rfl, le_rfl, fun _ _ => rfl, fun _ _ => rfl⟩
    · split
      · exact hnew
      · exact ⟨le_rfl, le_rfl, le_rfl, fun _ _ => rfl, fun _ _ => rfl⟩

/-! ## 4. The instructions of that part -/

/-- What `execConn` guarantees: the heap grows and stays in order, what it spawns is valid. -/
structure Conn.Keeps (P : Platform) (κ : Conn) (o : Out Conn) : Prop where
  wf : o.part.Wf P
  grows : κ.Extends o.part
  spawned : ∀ j ∈ o.push ++ o.post, ∀ r ∈ j.refs, r.Valid o.part

/-- Where nothing is written and nothing spawned there is nothing to keep. -/
theorem Conn.Keeps.same {κ : Conn} (h : κ.Wf P) (fails : Bool) :
    Conn.Keeps P κ { part := κ, fails } :=
  ⟨h, .refl κ, fun j hj => by simp at hj⟩

/-- `io()`: what it spawns names the client it makes. -/
theorem openClient_keeps {σ : Core} (h : σ.conn.Wf P) (name : String)
    (authCallback forceNew : Bool) :
    Conn.Keeps P σ.conn (openClient σ name authCallback forceNew) := by
  have hE := Conn.Extends.managerFor σ.conn name forceNew
  have hc : (σ.conn.managerFor name forceNew).1.clientCount = σ.conn.clientCount := by
    unfold Conn.managerFor
    split
    · rfl
    · split
      · rfl
      · split <;> rfl
  have hE' := hE.trans (Conn.Extends.newClient _ (σ.conn.managerFor name forceNew).2 name
    (σ.srv.table.get? name) authCallback)
  have hW := (h.managerFor name forceNew).newClient (σ.conn.managerFor name forceNew).2 name
    (σ.srv.table.get? name) authCallback
  have hlt : σ.conn.clientCount < ((σ.conn.managerFor name forceNew).1.newClient
      (σ.conn.managerFor name forceNew).2 name (σ.srv.table.get? name) authCallback).clientCount := by
    simp [Conn.newClient, hc]
  unfold openClient
  dsimp only
  split
  · obtain ⟨h1, h2, h3⟩ := hW.beginConnectionAttempt hlt
    refine ⟨h1, hE'.trans h2, fun j hj r hr => ?_⟩
    simp only [List.nil_append, List.mem_map, Option.mem_toList] at hj
    obtain ⟨a, ha, rfl⟩ := hj
    obtain rfl := List.mem_singleton.mp hr
    exact h3 a ha
  · split
    · refine ⟨hW, hE', fun j hj r hr => ?_⟩
      obtain rfl := List.mem_singleton.mp hj
      obtain rfl := List.mem_singleton.mp hr
      exact hlt
    · refine ⟨hW, hE', fun j hj r hr => ?_⟩
      obtain rfl := List.mem_singleton.mp hj
      obtain rfl := List.mem_singleton.mp hr
      exact hlt

/-- `connect()`: what it spawns names the client, or the attempt it begins. -/
theorem connect_keeps {σ : Core} (h : σ.conn.Wf P) {c : ClientId} (hc : c < σ.conn.clientCount) :
    Conn.Keeps P σ.conn (connect σ c) := by
  unfold connect
  dsimp only
  split
  · exact .same h false
  · split
    · refine ⟨h, .refl _, fun j hj r hr => ?_⟩
      obtain rfl := List.mem_singleton.mp hj
      obtain rfl := List.mem_singleton.mp hr
      exact hc
    · rename_i n _
      have hW : (σ.conn.setClient c fun cl => { cl with nsp := some n }).Wf P :=
        h.setClient (fun a ha => h.connectionAttempt c a ha) fun s hs => h.paired c s hs
      obtain ⟨h1, h2, h3⟩ := hW.beginConnectionAttempt hc
      refine ⟨h1, (Conn.Extends.setClient ..).trans h2, fun j hj r hr => ?_⟩
      simp only [List.nil_append, List.mem_map, Option.mem_toList] at hj
      obtain ⟨a, ha, rfl⟩ := hj
      obtain rfl := List.mem_singleton.mp hr
      exact h3 a ha

theorem admitDynamic_keeps {σ : Core} (h : σ.conn.Wf P) {c : ClientId}
    (hc : c < σ.conn.clientCount) : Conn.Keeps P σ.conn (admitDynamic σ c) := by
  obtain ⟨h1, h2, h3⟩ := h.beginConnectionAttempt hc
  refine ⟨h1, h2, fun j hj r hr => ?_⟩
  simp only [admitDynamic, List.nil_append, List.mem_map, Option.mem_toList] at hj
  obtain ⟨a, ha, rfl⟩ := hj
  obtain rfl := List.mem_singleton.mp hr
  exact h3 a ha

/-- The socket is built for the attempt, and its admission names it. -/
theorem newServerSocket_keeps {σ : Core} (h : σ.conn.Wf P) {a : AttemptId}
    (ha : a < σ.conn.attemptCount) (n : NspId) :
    Conn.Keeps P σ.conn (newServerSocket P σ a n) := by
  have hE := Conn.Extends.newSocket P σ.conn a n
  have hW := h.newSocket ha n
  have hs : (Ref.builtFor a σ.conn.socketCount).Valid (σ.conn.newSocket P a n) :=
    ⟨Nat.lt_succ_self _, by simp [Conn.newSocket]⟩
  have hg : ∀ x : ConnectionAttempt,
      ({ x with serverSocket := some σ.conn.socketCount } : ConnectionAttempt).client = x.client :=
    fun _ => rfl
  unfold newServerSocket
  dsimp only
  split
  · refine ⟨hW.setAttempt hg fun s h' => ?_, hE.trans (.setAttempt _ _ _ hg), fun j hj r hr => ?_⟩
    · obtain rfl : σ.conn.socketCount = s := by simpa using h'
      exact hs
    · obtain rfl := List.mem_singleton.mp hj
      obtain rfl := List.mem_singleton.mp hr
      exact Nat.lt_succ_self _
  · refine ⟨hW, hE, fun j hj r hr => ?_⟩
    obtain rfl := List.mem_singleton.mp hj
    obtain rfl := List.mem_singleton.mp hr
    exact Nat.lt_succ_self _

theorem cleanupOf_valid {κ : Conn} {o : Option SocketId} (h : ∀ s, o = some s → s < κ.socketCount)
    {j : Instr} (hj : j ∈ cleanupOf o) : ∀ r ∈ j.refs, r.Valid κ := by
  intro r hr
  simp only [cleanupOf, List.mem_map, Option.mem_toList] at hj
  obtain ⟨s, hs, rfl⟩ := hj
  obtain rfl := List.mem_singleton.mp hr
  exact h s hs

/-- A rejection names the attempt and the socket built for it. -/
theorem rejectConnectionAttempt_keeps {σ : Core} (h : σ.conn.Wf P) {a : AttemptId}
    (ha : a < σ.conn.attemptCount) (err : MiddlewareError) :
    Conn.Keeps P σ.conn (rejectConnectionAttempt σ a err) := by
  unfold rejectConnectionAttempt
  split
  · refine ⟨h.setAttempt (fun _ => rfl) fun s hs => h.serverSocket a s hs,
      .setAttempt _ _ _ fun _ => rfl, fun j hj => ?_⟩
    simp only [List.append_nil, List.mem_append, List.mem_singleton] at hj
    rcases hj with hj | rfl
    · exact cleanupOf_valid (fun s hs => (h.serverSocket a s hs).1) hj
    · intro r hr
      obtain rfl := List.mem_singleton.mp hr
      exact ha
  · exact .same h false

theorem rejectConnectionAttemptRest_keeps {σ : Core} (h : σ.conn.Wf P) {a : AttemptId}
    (ha : a < σ.conn.attemptCount) (err : MiddlewareError) :
    Conn.Keeps P σ.conn (rejectConnectionAttemptRest σ a err) := by
  have hW : ((σ.conn.setClient (σ.conn.attempts a).client fun cl =>
      { cl with connectionAttempt := none }).setManager (σ.conn.attempts a).client
        fun m => m.settlePending (σ.conn.attempts a).client).Wf P :=
    (h.clearAttempt rfl rfl).settlePending
  have hE : σ.conn.Extends ((σ.conn.setClient (σ.conn.attempts a).client fun cl =>
      { cl with connectionAttempt := none }).setManager (σ.conn.attempts a).client
        fun m => m.settlePending (σ.conn.attempts a).client) :=
    (Conn.Extends.setClient ..).trans (.setManager ..)
  unfold rejectConnectionAttemptRest
  dsimp only
  split
  · refine ⟨hW, hE, fun j hj r hr => ?_⟩
    obtain rfl := List.mem_singleton.mp hj
    obtain rfl := List.mem_singleton.mp hr
    exact h.attempt a ha
  · exact ⟨hW, hE, fun j hj => by simp at hj⟩

/-- So does a cancellation. -/
theorem cancelConnectionAttempt_keeps {σ : Core} (h : σ.conn.Wf P) {c : ClientId}
    (hc : c < σ.conn.clientCount) : Conn.Keeps P σ.conn (cancelConnectionAttempt σ c) := by
  unfold cancelConnectionAttempt
  split
  · exact .same h false
  · rename_i a _
    split
    · refine ⟨h.setAttempt (fun _ => rfl) fun s hs => h.serverSocket a s hs,
        .setAttempt _ _ _ fun _ => rfl, fun j hj => ?_⟩
      simp only [List.append_nil, List.mem_append, List.mem_singleton] at hj
      rcases hj with hj | rfl
      · exact cleanupOf_valid (fun s hs => (h.serverSocket a s hs).1) hj
      · intro r hr
        obtain rfl := List.mem_singleton.mp hr
        exact hc
    · exact .same h false

theorem cancelConnectionAttemptRest_keeps {σ : Core} (h : σ.conn.Wf P) (c : ClientId) :
    Conn.Keeps P σ.conn (cancelConnectionAttemptRest σ c) :=
  ⟨(h.clearAttempt rfl rfl).settlePending, (Conn.Extends.setClient ..).trans (.setManager ..),
    fun j hj => by simp [cancelConnectionAttemptRest] at hj⟩

/-- A completed attempt pairs its client with the socket built for it. -/
theorem completeConnectionAttempt_keeps {σ : Core} (h : σ.conn.Wf P) {a : AttemptId}
    {s : SocketId} (hs : (Ref.builtFor a s).Valid σ.conn) :
    Conn.Keeps P σ.conn (completeConnectionAttempt σ a s) := by
  obtain ⟨-, hlt, hpeer⟩ := h.socket s hs.1
  rw [hs.2] at hlt hpeer
  unfold completeConnectionAttempt
  dsimp only
  split
  · have hE : σ.conn.Extends (σ.conn.setAttempt a fun x => { x with state := .connected }) :=
      .setAttempt _ _ _ fun _ => rfl
    have hW : (σ.conn.setAttempt a fun x => { x with state := .connected }).Wf P :=
      h.setAttempt (fun _ => rfl) fun s hs => h.serverSocket a s hs
    refine ⟨(hW.setClient (fun b hb => hW.connectionAttempt _ b hb) fun s' h' => ?_).setManager
      fun x d hd => ?_, hE.trans ((Conn.Extends.setClient ..).trans (.setManager ..)),
      fun j hj r hr => ?_⟩
    · obtain rfl : s = s' := by simpa using h'
      exact Ref.Valid.mono hE (r := .peer _ s) ⟨hs.1, hpeer⟩
    · simp only [Manager.clientConnected, OSet.mem_insert, OSet.mem_erase] at hd
      rcases hd with hd | hd | rfl
      · exact Or.inl hd.1
      · exact Or.inr (Or.inl hd)
      · exact Or.inr (Or.inr (h.attempt a hlt))
    · obtain rfl := List.mem_singleton.mp hj
      obtain rfl := List.mem_singleton.mp hr
      exact hs
  · split
    · refine ⟨h, .refl _, fun j hj r hr => ?_⟩
      obtain rfl := List.mem_singleton.mp hj
      obtain rfl := List.mem_singleton.mp hr
      exact hs.1
    · exact .same h false

/-- A client that is disconnected loses its attempt, not the socket it was paired with. -/
theorem markDisconnected_keeps {σ : Core} (h : σ.conn.Wf P) {c : ClientId}
    (hc : c < σ.conn.clientCount) (reason : String) :
    Conn.Keeps P σ.conn (markDisconnected σ c reason) := by
  unfold markDisconnected
  dsimp only
  split
  · exact .same h true
  · rename_i a _
    have hE : σ.conn.Extends (σ.conn.setAttempt a fun x => { x with state := .cancelled }) :=
      .setAttempt _ _ _ fun _ => rfl
    have hW : (σ.conn.setAttempt a fun x => { x with state := .cancelled }).Wf P :=
      h.setAttempt (fun _ => rfl) fun s hs => h.serverSocket a s hs
    refine ⟨(hW.clearAttempt rfl rfl).setManager fun x d hd => ?_,
      hE.trans ((Conn.Extends.setClient ..).trans (.setManager ..)), fun j hj r hr => ?_⟩
    · simp only [Manager.clientDisconnected, OSet.mem_erase] at hd
      tauto
    · simp only [List.append_nil, List.mem_append, List.mem_map, Option.mem_toList, List.mem_cons,
        List.not_mem_nil, or_false] at hj
      rcases hj with ⟨s, hs, rfl⟩ | rfl | rfl
      · obtain rfl := List.mem_singleton.mp hr
        exact (h.paired c s hs).1
      · obtain rfl := List.mem_singleton.mp hr
        exact hc
      · obtain rfl := List.mem_singleton.mp hr
        exact hc

/-- **The connection part stays in order.** -/
theorem execConn_keeps {σ : Core} (h : σ.conn.Wf P) {i : ConnInstr}
    (hi : ∀ r ∈ i.refs, r.Valid σ.conn) : Conn.Keeps P σ.conn (execConn P σ i) := by
  cases i with
  | openClient name b f => exact openClient_keeps h name b f
  | connect c => exact connect_keeps h (hi (.client c) (List.mem_singleton_self _))
  | setAuth c b =>
      exact ⟨h.setClient (fun a ha => h.connectionAttempt c a ha) fun s hs => h.paired c s hs,
        .setClient .., fun j hj => by simp [execConn] at hj⟩
  | admitDynamic c => exact admitDynamic_keeps h (hi (.client c) (List.mem_singleton_self _))
  | attachNamespace c n =>
      exact ⟨h.setClient (fun a ha => h.connectionAttempt c a ha) fun s hs => h.paired c s hs,
        .setClient .., fun j hj => by simp [execConn] at hj⟩
  | newServerSocket a n =>
      exact newServerSocket_keeps h (hi (.attempt a) (List.mem_singleton_self _)) n
  | rejectConnectionAttempt a err =>
      exact rejectConnectionAttempt_keeps h (hi (.attempt a) (List.mem_singleton_self _)) err
  | rejectConnectionAttemptRest a err =>
      exact rejectConnectionAttemptRest_keeps h (hi (.attempt a) (List.mem_singleton_self _)) err
  | cancelConnectionAttempt c =>
      exact cancelConnectionAttempt_keeps h (hi (.client c) (List.mem_singleton_self _))
  | cancelConnectionAttemptRest c => exact cancelConnectionAttemptRest_keeps h c
  | completeConnectionAttempt a s =>
      exact completeConnectionAttempt_keeps h (hi (.builtFor a s) (List.mem_singleton_self _))
  | markDisconnected c reason =>
      exact markDisconnected_keeps h (hi (.client c) (List.mem_singleton_self _)) reason

end Smocket
