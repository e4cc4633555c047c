import Smocket.Deliveries

/-
  File:      Smocket/WellFormed.lean
  Subject:   WELL-FORMED HEAPS. In every reachable state every reference held anywhere is valid:
             in the heap, on the stack and in the queue.

  * `valid_inductive` -- existing objects and the instructions that name them form an invariant;
  * `reach_wf` -- every reference is valid in every run.
-/

namespace Smocket

open Ordered EventLoop EventLoop.Machine

variable {P : Platform}

/-! ## 1. The invariant -/

/-- The references of a delivery. -/
def Delivery.Valid (κ : Conn) (d : Delivery) : Prop := (Ref.peer d.client d.sender).Valid κ

/-- A delivery that waits in a queue was captured with a server socket at hand. -/
structure Delivery.Queued (κ : Conn) (d : Delivery) : Prop where
  valid : d.Valid κ
  guarded : d.guard ≠ .generation none

/-- Packets name sockets and clients that belong together. -/
abbrev Mail.Wf (κ : Conn) (μ : Mail) : Prop := μ.Carries (Delivery.Valid κ) (Delivery.Queued κ)

/-- **Every reference in the heap is valid.** -/
structure Core.Wf (P : Platform) (σ : Core) : Prop where
  conn : σ.conn.Wf P
  /-- a roster lists sockets of its namespace under their ids -/
  roster : ∀ n sid s, (σ.memb.rosters n).get? sid = some s →
    s < σ.conn.socketCount ∧ (σ.conn.sockets s).nsp = n ∧ (σ.conn.sockets s).id = sid
  mail : σ.mail.Wf σ.conn
  authCalls : ∀ p ∈ σ.srv.authCalls, p.1 < σ.conn.attemptCount
  matcherCalls : ∀ p ∈ σ.srv.matcherCalls, p.1 < σ.conn.attemptCount

/-- Packets stay good while objects are made. -/
theorem Mail.Wf.mono {κ κ' : Conn} {μ : Mail} (h : μ.Wf κ) (hE : κ.Extends κ') : μ.Wf κ' where
  held d hd := Ref.Valid.mono hE (h.held d hd)
  timers r hr := Ref.Valid.mono hE (h.timers r hr)
  queues n sid q hq e he :=
    ⟨Ref.Valid.mono hE (h.queues n sid q hq e he).valid, (h.queues n sid q hq e he).guarded⟩

/-- The packets, rosters and calls of a state stay good, too. -/
theorem Core.Wf.mono {σ : Core} (h : σ.Wf P) {κ : Conn} (hκ : κ.Wf P)
    (hE : σ.conn.Extends κ) : Core.Wf P { σ with conn := κ } where
  conn := hκ
  roster n sid s hs := by
    obtain ⟨h1, h2, h3⟩ := h.roster n sid s hs
    exact ⟨h1.trans_le hE.sockets, (hE.socketOf s h1).symm ▸ h2, (hE.socketOf s h1).symm ▸ h3⟩
  mail := h.mail.mono hE
  authCalls p hp := (h.authCalls p hp).trans_le hE.attempts
  matcherCalls p hp := (h.matcherCalls p hp).trans_le hE.attempts

/-! ## 2. What each group spawns -/

/-- The instructions of a list are valid. -/
def AllValid (κ : Conn) (l : List Instr) : Prop := ∀ j ∈ l, ∀ r ∈ j.refs, r.Valid κ

@[simp] theorem allValid_nil (κ : Conn) : AllValid κ [] := fun _ hj => absurd hj List.not_mem_nil

@[simp] theorem allValid_cons {κ : Conn} {i : Instr} {l : List Instr} :
    AllValid κ (i :: l) ↔ (∀ r ∈ i.refs, r.Valid κ) ∧ AllValid κ l := List.forall_mem_cons

@[simp] theorem allValid_append {κ : Conn} {l l' : List Instr} :
    AllValid κ (l ++ l') ↔ AllValid κ l ∧ AllValid κ l' := List.forall_mem_append

/-- A list made from another is judged entry by entry. -/
theorem allValid_map {α : Type} {κ : Conn} {l : List α} {f : α → Instr}
    (h : ∀ x ∈ l, ∀ r ∈ (f x).refs, r.Valid κ) : AllValid κ (l.map f) := by
  intro j hj
  obtain ⟨x, hx, rfl⟩ := List.mem_map.mp hj
  exact h x hx

/-- A dispatch calls the application and then ends. -/
theorem ownedDispatch_valid (κ : Conn) (s : SocketId) (event : String) :
    AllValid κ (ownedDispatch s event) := by
  simp [ownedDispatch]

/-- A chain goes on for the socket it was started for. -/
theorem advance_valid {κ : Conn} (ℓ : Life) {s : SocketId} (hs : s < κ.socketCount) :
    AllValid κ ((ℓ.advance s).push ++ (ℓ.advance s).post) := by
  unfold Life.advance
  dsimp only
  split <;> simp [hs]

/-- Whoever waits for a teardown goes on for its socket. -/
theorem teardownDone_valid {σ : Core} {s : SocketId} (hs : s < σ.conn.socketCount) (sync : Bool) :
    AllValid σ.conn ((teardownDone σ s sync).push ++ (teardownDone σ s sync).post) := by
  unfold teardownDone
  split
  · simp [hs]
  · refine allValid_map fun w _ => ?_
    cases w <;> simp [hs]

/-- The lifecycle of a socket spawns instructions for that socket. -/
theorem execLife_valid {σ : Core} {i : LifeInstr} (hi : ∀ r ∈ i.refs, r.Valid σ.conn) :
    AllValid σ.conn ((execLife σ i).push ++ (execLife σ i).post) := by
  cases i <;> simp at hi
  case runMiddleware s => exact advance_valid _ hi
  case next s i err =>
    cases err with
    | none => exact advance_valid _ hi
    | some e => simp [execLife, next, hi]
  case teardownDone s sync => exact teardownDone_valid hi sync
  case teardown s reason drain =>
    simp only [execLife, teardown]
    split <;> simp [hi]
  case disconnectNamespaceFromServer s =>
    simp only [execLife, disconnectNamespaceFromServer]
    split <;> simp [ownedDispatch_valid, hi]
  case dispatch d =>
    simp only [execLife, dispatch, dispatchCatchAll]
    split <;> split <;> simp [hi]
  case startPacket d b => simp [execLife, startPacket]
  case setPacket r event args =>
    simp only [execLife, setPacket]
    split <;> simp
  case runPacket r index =>
    simp only [execLife, runPacket]
    split
    · simp
    · split <;> simp
  case packetNext r i err =>
    simp only [execLife, packetNext]
    split
    · simp
    · split <;> simp
  case dispatchNamed r =>
    simp only [execLife, dispatchNamed]
    split
    · simp
    · split <;> simp
  all_goals
    simp [execLife, teardownTask, teardownCleanup, teardownDisconnect, cleanupConnectionAttempt,
      ownedDispatch_valid, hi]

theorem execMemb_valid {σ : Core} {i : MembInstr} (hi : ∀ r ∈ i.refs, r.Valid σ.conn) :
    AllValid σ.conn ((execMemb σ i).push ++ (execMemb σ i).post) := by
  cases i <;> simp at hi
  case cleanupMembership s =>
    simp only [execMemb, cleanupMembership]
    split <;> simp [hi]
  all_goals simp [execMemb, enter]

/-- The attempt a socket was built for exists. -/
theorem Conn.Wf.attempt_lt {κ : Conn} (h : κ.Wf P) {s : SocketId} (hs : s < κ.socketCount) :
    (κ.sockets s).attempt < κ.attemptCount := (h.socket s hs).2.1

theorem Conn.Wf.peer_lt {κ : Conn} (h : κ.Wf P) {s : SocketId} (hs : s < κ.socketCount) :
    (κ.sockets s).peer < κ.clientCount := by
  rw [(h.socket s hs).2.2]
  exact h.attempt _ (h.attempt_lt hs)

/-- After the chain its socket is admitted or torn down. -/
theorem completion_valid {σ : Core} (h : σ.conn.Wf P) {s : SocketId} (hs : s < σ.conn.socketCount)
    (err : Option MiddlewareError) :
    AllValid σ.conn ((completion σ s err).push ++ (completion σ s err).post) := by
  have ha := h.attempt_lt hs
  have hc := h.peer_lt hs
  unfold completion
  cases err with
  | some err =>
      dsimp only
      split
      · simp [ha]
      · split
        · simp [hs, hc]
        · simp
  | none =>
      dsimp only
      split
      · split <;>
          simp [admission,
            hs, hc]
      · split
        · split <;> simp [hs]
        · split <;>
            simp [admission,
              hs, ha]

/-- Scanning a room finds sockets of the list that is scanned. -/
theorem Core.mem_scanRoom {σ : Core} {s : SocketId} {room : String} :
    ∀ {sockets acc : List SocketId}, s ∈ σ.scanRoom sockets acc room → s ∈ acc ∨ s ∈ sockets
  | [], _, h => Or.inl h
  | x :: sockets, acc, h => by
      rw [Core.scanRoom, List.foldl_cons] at h
      rcases @Core.mem_scanRoom _ _ _ sockets _ h with h | h
      · split at h
        · exact Or.inl h
        · rcases List.mem_append.mp h with h | h
          · exact Or.inl h
          · exact Or.inr (List.mem_cons.mpr (Or.inl (List.mem_singleton.mp h)))
      · exact Or.inr (List.mem_cons_of_mem _ h)

/-- The sockets `managementSockets` selects come from the roster. -/
theorem mem_managementSockets {op : BroadcastOperator} {σ : Core} {s : SocketId}
    (h : s ∈ op.managementSockets σ) : s ∈ (σ.memb.rosters op.nsp).values := by
  have hrooms : ∀ (rooms : List String) (acc : List SocketId),
      s ∈ rooms.foldl (σ.scanRoom (σ.memb.rosters op.nsp).values) acc →
      s ∈ acc ∨ s ∈ (σ.memb.rosters op.nsp).values := by
    intro rooms
    induction rooms with
    | nil => exact fun acc h => Or.inl h
    | cons room rooms ih =>
        intro acc h
        rcases ih _ h with h | h
        · exact Core.mem_scanRoom h
        · exact Or.inr h
  have hmem := (List.mem_filter.mp h).1
  split at hmem
  · exact hmem
  · exact (hrooms _ _ hmem).elim (fun h => absurd h List.not_mem_nil) id

theorem Core.Wf.management_lt {σ : Core} (h : σ.Wf P) {op : BroadcastOperator} {s : SocketId}
    (hs : s ∈ op.managementSockets σ) : s < σ.conn.socketCount := by
  obtain ⟨sid, hsid⟩ := OMap.mem_values.mp (mem_managementSockets hs)
  exact (h.roster _ _ _ hsid).1

/-- The calls between the groups name what their callers name. -/
theorem execCtl_valid {σ : Core} (h : σ.Wf P) {i : CtlInstr}
    (hi : ∀ r ∈ i.refs, r.Valid σ.conn) :
    AllValid σ.conn ((execCtl σ i).push ++ (execCtl σ i).post) := by
  cases i <;> simp at hi
  case completion s err => exact completion_valid h.conn hi err
  case reportRepeatedConnectionError c err =>
    simp only [execCtl, reportRepeatedConnectionError]
    split <;> simp [hi]
  case clientDisconnect c =>
    simp only [execCtl, clientDisconnect]
    split <;> simp [hi]
  case handleDisconnect c =>
    simp only [execCtl, handleDisconnect, List.append_nil]
    refine allValid_map fun s hs => ?_
    simpa [Life] using (h.conn.paired c s (Option.mem_toList.mp hs)).1
  case disconnect s close =>
    simp only [execCtl, disconnect]
    split
    · split <;> simp [hi]
    · simp [hi]
  case managerDisconnect m s =>
    simp only [execCtl, managerDisconnect, List.append_nil, allValid_append]
    refine ⟨allValid_map fun c hc => ?_, by simp [hi]⟩
    simpa using h.conn.managed m c (Or.inr hc)
  case disconnectFromServer c =>
    simp only [execCtl, disconnectFromServer, List.append_nil]
    split
    · refine allValid_map fun s hs => ?_
      simpa [Life] using (h.conn.paired c s (Option.mem_toList.mp hs)).1
    · simp
  case managerPending m s =>
    simp only [execCtl, managerPending, List.append_nil, allValid_append]
    refine ⟨allValid_map fun c hc => ?_, by simp [hi]⟩
    simpa [hi] using h.conn.managed m c (Or.inl hc)
  case cancelUnlessOwner c s =>
    simp only [execCtl, cancelUnlessOwner]
    split <;> simp [hi]
  case markFromServer s =>
    simp only [execCtl, markFromServer]
    split <;> simp [h.conn.peer_lt hi]
  case deliverClient d =>
    simp only [execCtl, deliverClient]
    split <;> simp
  case deliverServer d =>
    simp only [execCtl, deliverServer]
    split <;> simp [hi]
  case admitChild a n =>
    simp only [execCtl, admitChild]
    split <;> simp [hi, h.conn.attempt a hi]
  case disconnectSockets op close =>
    simp only [execCtl, disconnectSockets, List.append_nil]
    refine allValid_map fun s hs => ?_
    simpa [Ref.Valid] using h.management_lt hs
  all_goals
    simp [execCtl, emitConnection, dispatchClient, hi]

/-! ## 3. Traffic -/

/-- A request is no packet yet. -/
theorem Mail.newRequest_same (μ : Mail) (form : EmitForm) (q : Request) :
    μ.SameDeliveries (μ.newRequest form q).1 := by
  cases form with
  | plain => exact .refl μ
  | callback =>
      unfold Mail.newRequest
      dsimp only
      split
      · exact ⟨rfl, rfl, rfl, rfl⟩
      · exact .refl μ
  | promise => exact ⟨rfl, rfl, rfl, rfl⟩

theorem Mail.dropHandle_same (μ : Mail) (r : RequestId) (h : AckHandle) :
    μ.SameDeliveries (μ.dropHandle r h) := by
  unfold Mail.dropHandle
  split
  · exact .refl μ
  · exact ⟨rfl, rfl, rfl, rfl⟩

/-- A packet that is no longer wanted leaves the buffer. No scheduler has it yet. -/
theorem Mail.onSettled_same (μ : Mail) (r : RequestId) : μ.SameDeliveries (μ.onSettled r) := by
  have h : μ.SameDeliveries (if (μ.requests r).tracked then μ.dropHandle r (.timed r) else μ) := by
    split
    · exact μ.dropHandle_same r _
    · exact .refl μ
  unfold Mail.onSettled
  dsimp only
  split
  · exact h
  · exact h.trans ⟨rfl, rfl, rfl, rfl⟩

theorem Mail.settle_same (μ : Mail) (r : RequestId) : μ.SameDeliveries (μ.settle r) := by
  refine Mail.SameDeliveries.trans ?_ (Mail.onSettled_same _ r)
  exact ⟨rfl, rfl, rfl, rfl⟩

/-- What `execMail` guarantees. -/
structure Mail.Keeps (κ : Conn) (o : Out Mail) : Prop where
  wf : o.part.Wf κ
  spawned : AllValid κ (o.push ++ o.post)

/-- Where nothing is written there is nothing to keep. -/
theorem Mail.Keeps.same {κ : Conn} {μ : Mail} (h : μ.Wf κ) (fails : Bool) :
    Mail.Keeps κ { part := μ, fails } := ⟨h, by simp⟩

/-- A callback is the application's. -/
theorem Mail.callback_keeps {κ : Conn} {μ : Mail} (h : μ.Wf κ) (r : RequestId) :
    Mail.Keeps κ (μ.callback r) := by
  unfold Mail.callback
  split
  · exact .same (h.same (μ.dropHandle_same r _)) false
  · exact ⟨h, by simp⟩

/-- What carries valid packets keeps the heap well-formed. -/
theorem Out.Carries.keeps {κ : Conn} {o : Out Mail}
    (h : o.Carries (Delivery.Valid κ) (Delivery.Queued κ)) : Mail.Keeps κ o := by
  refine ⟨h.mail, fun j hj r hr => ?_⟩
  rcases h.spawned j hj with ⟨d, hd, hv⟩ | hn
  · unfold Instr.delivery at hd
    split at hd <;> cases hd <;> exact List.mem_singleton.mp hr ▸ hv
  · rw [hn] at hr
    cases hr

/-- A packet goes to the peer of its sender, and waits only for a client that is paired. -/
theorem Delivery.Queued.of_packet {σ : Core} {s : SocketId} (hs : s < σ.conn.socketCount)
    {serial : Nat} {event : String} {reply : Option Reply} {survived : Bool} {d : Delivery}
    (hd : σ.packet s serial event reply survived = some d) : d.Valid σ.conn ∧
      ((σ.conn.clients d.client).serverSocket ≠ none → d.Queued σ.conn) := by
  have hg : (σ.conn.clients (σ.conn.sockets s).peer).serverSocket ≠ none →
      (if survived then DeliveryGuard.survived s
        else .generation (σ.conn.current (σ.conn.sockets s).peer)) ≠ .generation none := by
    intro hp
    split
    · nofun
    · intro hnone
      rw [DeliveryGuard.generation.injEq] at hnone
      exact hp ((Option.orElse_eq_none _ _).mp hnone).2
  unfold Core.packet at hd
  dsimp only at hd
  split at hd
  · cases hd
    exact ⟨⟨hs, rfl⟩, fun hp => ⟨⟨hs, rfl⟩, hg hp⟩⟩
  · obtain ⟨_, _, rfl⟩ := Option.map_eq_some_iff.mp hd
    exact ⟨⟨hs, rfl⟩, fun hp => ⟨⟨hs, rfl⟩, hg hp⟩⟩

theorem sendToClient_keeps {σ : Core} (h : σ.mail.Wf σ.conn) {s : SocketId}
    (hs : s < σ.conn.socketCount) (serial : Nat) (event : String) (reply : Option Reply)
    (survived : Bool) : Mail.Keeps σ.conn (sendToClient σ s serial event reply survived) :=
  (sendToClient_carries h (fun _ hq => hq.valid) fun _ hd => Delivery.Queued.of_packet hs hd).keeps

/-- A packet to the server goes to a socket whose peer sent it. -/
theorem sendToServer_keeps {κ : Conn} {μ : Mail} (h : μ.Wf κ) {s : SocketId} {c : ClientId}
    (hs : (Ref.peer c s).Valid κ) (serial : Nat) (event : String) (reply : Option Reply) :
    (sendToServer μ s c serial event reply).1.Wf κ ∧
      AllValid κ (sendToServer μ s c serial event reply).2 := by
  unfold sendToServer
  split
  · exact ⟨h, by simpa using hs⟩
  · exact ⟨⟨h.held, h.timers, h.queues⟩, by simpa using hs⟩

theorem ackReply_keeps {σ : Core} (h : σ.mail.Wf σ.conn) (reply : Reply) :
    Mail.Keeps σ.conn (ackReply σ reply) := by
  unfold ackReply
  split
  · exact ⟨h, by simp⟩
  · dsimp only
    split
    · split
      · exact .same h false
      · exact Mail.callback_keeps (h.same (σ.mail.settle_same _)) _
    · exact .same (h.same (σ.mail.dropHandle_same _ _)) false

theorem rejectAck_keeps {σ : Core} (h : σ.mail.Wf σ.conn) (k : AckHandle) :
    Mail.Keeps σ.conn (rejectAck σ k) := by
  unfold rejectAck
  split
  · exact Mail.callback_keeps (h.same (σ.mail.settle_same _)) _
  · dsimp only
    split
    · exact ⟨⟨h.held, h.timers, h.queues⟩, by simp⟩
    · split
      · exact Mail.callback_keeps (h.same (σ.mail.settle_same _)) _
      · exact .same h false

theorem invokeAck_keeps {σ : Core} (h : σ.mail.Wf σ.conn) (k : AckId) (encodable : Bool) :
    Mail.Keeps σ.conn (invokeAck σ k encodable) := by
  have hset : ∀ g, (σ.mail.setAck k g).Wf σ.conn := fun g => ⟨h.held, h.timers, h.queues⟩
  unfold invokeAck
  dsimp only
  generalize (if (σ.mail.acks k).forClient = true then _ else _ : Bool) = active
  split
  · exact .same h false
  · split
    · exact ⟨hset _, by simp⟩
    · refine .same ?_ true
      split
      · exact hset _
      · exact h

/-- An emit names the client that emits. -/
theorem clientEmit_keeps {σ : Core} (h : σ.mail.Wf σ.conn) {c : ClientId}
    (hc : c < σ.conn.clientCount) (event : String) (form : EmitForm) :
    Mail.Keeps σ.conn (clientEmit σ c event form) := by
  have hreq : ∀ q, (σ.mail.newRequest form q).1.Wf σ.conn := fun q =>
    h.same (σ.mail.newRequest_same form q)
  unfold clientEmit
  dsimp only
  split
  · exact .same h _
  · split
    · refine .same ?_ false
      split
      · exact ⟨h.held, h.timers, h.queues⟩
      · exact ⟨(hreq _).held, (hreq _).timers, (hreq _).queues⟩
    · refine ⟨?_, by simpa using hc⟩
      split <;> split
      · exact ⟨h.held, h.timers, h.queues⟩
      · exact ⟨(hreq _).held, (hreq _).timers, (hreq _).queues⟩
      · exact ⟨h.held, h.timers, h.queues⟩
      · exact ⟨(hreq _).held, (hreq _).timers, (hreq _).queues⟩

/-- What its observers leave of it goes to the socket the client is paired with. -/
theorem clientEmitRest_keeps {σ : Core} (h : σ.Wf P) {c : ClientId} (hc : c < σ.conn.clientCount)
    (p : BufferedPacket) : Mail.Keeps σ.conn (clientEmitRest σ c p) := by
  unfold clientEmitRest
  split
  · exact .same h.mail true
  · rename_i s hs
    obtain ⟨h1, h2⟩ := sendToServer_keeps h.mail (h.conn.paired c s hs) p.serial p.event p.reply
    dsimp only
    split
    · refine ⟨⟨h1.held, h1.timers, h1.queues⟩, allValid_append.mpr ⟨?_, h2⟩⟩
      split
      · simpa using hc
      · simp
    · exact ⟨⟨h1.held, h1.timers, h1.queues⟩, h2⟩

/-- A flush goes to the socket built for the attempt that completed. -/
theorem flushPackets_keeps {σ : Core} (h : σ.Wf P) {a : AttemptId} {s : SocketId}
    (hs : (Ref.builtFor a s).Valid σ.conn) (ps : List BufferedPacket) :
    Mail.Keeps σ.conn (flushPackets σ a s ps) := by
  have hc : (σ.conn.attempts a).client < σ.conn.clientCount :=
    h.conn.attempt a (hs.2 ▸ h.conn.attempt_lt hs.1)
  simp only [Ref.Valid] at hs
  cases ps with
  | nil => exact ⟨h.mail, by simpa [flushPackets] using hc⟩
  | cons p ps =>
      unfold flushPackets
      dsimp only
      split
      · exact ⟨h.mail, by simpa using hs⟩
      · refine ⟨?_, by simpa using hs⟩
        split
        · exact h.mail
        · exact ⟨h.mail.held, h.mail.timers, h.mail.queues⟩

theorem flushRest_keeps {σ : Core} (h : σ.Wf P) {a : AttemptId} {s : SocketId}
    (hs : (Ref.builtFor a s).Valid σ.conn) (p : BufferedPacket) (ps : List BufferedPacket) :
    Mail.Keeps σ.conn (flushRest σ a s p ps) := by
  have hpeer : (Ref.peer (σ.conn.attempts a).client s).Valid σ.conn :=
    ⟨hs.1, (h.conn.socket s hs.1).2.2.trans (by rw [hs.2])⟩
  unfold flushRest
  dsimp only
  split
  · obtain ⟨h1, h2⟩ := sendToServer_keeps h.mail hpeer p.serial p.event p.reply
    exact ⟨h1, allValid_append.mpr ⟨by simpa using hs, h2⟩⟩
  · exact ⟨⟨h.mail.held, h.mail.timers, h.mail.queues⟩, by simp⟩

/-- A server socket emits to its peer. -/
theorem serverEmit_keeps {σ : Core} (h : σ.mail.Wf σ.conn) {s : SocketId}
    (hs : s < σ.conn.socketCount) (event : String) (form : EmitForm) :
    Mail.Keeps σ.conn (serverEmit σ s event form) := by
  have hreq : ∀ q, (σ.mail.newRequest form q).1.Wf σ.conn := fun q =>
    h.same (σ.mail.newRequest_same form q)
  unfold serverEmit
  dsimp only
  split
  · exact .same h _
  · split
    · exact ⟨⟨(hreq _).held, (hreq _).timers, (hreq _).queues⟩, by simp⟩
    · exact ⟨⟨(hreq _).held, (hreq _).timers, (hreq _).queues⟩, by simpa using hs⟩

/-- **No packet is ever addressed to an object that does not exist.** -/
theorem execMail_keeps {σ : Core} (h : σ.Wf P) {i : MailInstr}
    (hi : ∀ r ∈ i.refs, r.Valid σ.conn) : Mail.Keeps σ.conn (execMail σ i) := by
  have hμ := h.mail
  cases i <;> simp at hi
  case clientEmit c event form => exact clientEmit_keeps hμ hi event form
  case clientEmitRest c p => exact clientEmitRest_keeps h hi p
  case flush a s => exact ⟨⟨hμ.held, hμ.timers, hμ.queues⟩, by simpa [execMail, flush] using hi⟩
  case flushPackets a s ps => exact flushPackets_keeps h hi ps
  case flushRest a s p ps => exact flushRest_keeps h hi p ps
  case rejectPendingAcks c =>
    refine ⟨⟨hμ.held, hμ.timers, hμ.queues⟩, ?_⟩
    simp only [execMail, List.append_nil]
    exact allValid_map fun x _ => by simpa using hi
  case rejectAck c k => exact rejectAck_keeps hμ k
  case serverEmit s event form => exact serverEmit_keeps hμ hi event form
  case serverEmitRest s serial event reply was =>
    simp only [execMail, serverEmitRest]
    split
    · exact .same hμ false
    · exact sendToClient_keeps hμ hi serial event reply _
  case sendBroadcast s event =>
    exact ⟨⟨hμ.held, hμ.timers, hμ.queues⟩, by simpa [execMail, sendBroadcast] using hi⟩
  case sendBroadcastRest s serial event was => exact sendToClient_keeps hμ hi serial event none _
  case pumpRun r => exact (pumpRun_carries hμ hi).keeps
  case pumpRest r => exact (pumpRest_carries hμ (fun _ hq => hq.valid) r).keeps
  case removeDeliveries s => exact (removeDeliveries_carries hμ (fun _ hq => hq.valid) s).keeps
  case cancelTimer r =>
    refine ⟨⟨hμ.held, fun x hx => ?_, hμ.queues⟩, by simp [execMail]⟩
    cases r with
    | none => exact hμ.timers x hx
    | some r => exact hμ.timers x (List.mem_of_mem_erase hx)
  case invokeAck k encodable => exact invokeAck_keeps hμ k encodable
  case ackReply reply => exact ackReply_keeps hμ reply
  case ackTimeout r => exact Mail.callback_keeps (hμ.same (σ.mail.settle_same r)) r
  case setDelay n sid ms =>
    refine .same (hμ.setScheduler fun sid' q hq => hμ.queues n sid' q ?_) false
    revert hq
    cases ms <;> exact id
  all_goals exact ⟨⟨hμ.held, hμ.timers, hμ.queues⟩, by simp [execMail]⟩

/-- The instructions that schedule, deliver or withdraw. -/
def MailInstr.schedules : MailInstr → Bool
  | serverEmitRest .. | sendBroadcastRest .. | pumpRun _ | pumpRest _ | removeDeliveries _
  | cancelTimer _ | setDelay .. => true
  | _ => false

theorem Mail.callback_same (μ : Mail) (r : RequestId) : μ.SameDeliveries (μ.callback r).part := by
  unfold Mail.callback
  split
  · exact μ.dropHandle_same r _
  · exact .refl μ

/-- What goes to the server waits in no scheduler. -/
theorem sendToServer_same (μ : Mail) (s : SocketId) (c : ClientId) (serial : Nat) (event : String)
    (reply : Option Reply) : μ.SameDeliveries (sendToServer μ s c serial event reply).1 := by
  unfold sendToServer
  split
  · exact .refl μ
  · exact ⟨rfl, rfl, rfl, rfl⟩

theorem ackReply_same (σ : Core) (reply : Reply) :
    σ.mail.SameDeliveries (ackReply σ reply).part := by
  unfold ackReply
  split
  · exact .refl _
  · dsimp only
    split
    · split
      · exact .refl _
      · exact (σ.mail.settle_same _).trans (Mail.callback_same _ _)
    · exact σ.mail.dropHandle_same _ _

theorem rejectAck_same (σ : Core) (k : AckHandle) : σ.mail.SameDeliveries (rejectAck σ k).part := by
  unfold rejectAck
  split
  · exact (σ.mail.settle_same _).trans (Mail.callback_same _ _)
  · dsimp only
    split
    · exact ⟨rfl, rfl, rfl, rfl⟩
    · split
      · exact (σ.mail.settle_same _).trans (Mail.callback_same _ _)
      · exact .refl _

/-- What a client emits waits in no scheduler. -/
theorem clientEmit_same (σ : Core) (c : ClientId) (event : String) (form : EmitForm) :
    σ.mail.SameDeliveries (clientEmit σ c event form).part := by
  have hreq : ∀ q, σ.mail.SameDeliveries (σ.mail.newRequest form q).1 :=
    σ.mail.newRequest_same form
  unfold clientEmit
  dsimp only
  split
  · exact .refl _
  · split
    · split
      · exact ⟨rfl, rfl, rfl, rfl⟩
      · exact (hreq _).trans ⟨rfl, rfl, rfl, rfl⟩
    · split <;> split
      · exact ⟨rfl, rfl, rfl, rfl⟩
      · exact (hreq _).trans ⟨rfl, rfl, rfl, rfl⟩
      · exact ⟨rfl, rfl, rfl, rfl⟩
      · exact (hreq _).trans ⟨rfl, rfl, rfl, rfl⟩

theorem serverEmit_same (σ : Core) (s : SocketId) (event : String) (form : EmitForm) :
    σ.mail.SameDeliveries (serverEmit σ s event form).part := by
  unfold serverEmit
  dsimp only
  split
  · exact .refl _
  · split <;> exact (σ.mail.newRequest_same form _).trans ⟨rfl, rfl, rfl, rfl⟩

/-- Only what schedules a packet changes what is scheduled. -/
theorem execMail_same (σ : Core) {i : MailInstr} (h : i.schedules = false) :
    σ.mail.SameDeliveries (execMail σ i).part := by
  cases i with
  | serverEmitRest | sendBroadcastRest | pumpRun | pumpRest | removeDeliveries | cancelTimer
  | setDelay => cases h
  | clientEmit c event form => exact clientEmit_same σ c event form
  | serverEmit s event form => exact serverEmit_same σ s event form
  | ackReply reply => exact ackReply_same σ reply
  | rejectAck c k => exact rejectAck_same σ k
  | ackTimeout r => exact (σ.mail.settle_same r).trans (Mail.callback_same _ r)
  | clientEmitRest c p =>
      simp only [execMail, clientEmitRest]
      split
      · exact .refl _
      · split <;> exact (sendToServer_same ..).trans ⟨rfl, rfl, rfl, rfl⟩
  | flushPackets a s ps =>
      simp only [execMail]
      cases ps with
      | nil => exact .refl _
      | cons p ps =>
          unfold flushPackets
          dsimp only
          split
          · exact .refl _
          · split <;> exact ⟨rfl, rfl, rfl, rfl⟩
  | flushRest a s p ps =>
      simp only [execMail, flushRest]
      split
      · exact sendToServer_same ..
      · exact ⟨rfl, rfl, rfl, rfl⟩
  | invokeAck k encodable =>
      simp only [execMail, invokeAck]
      generalize (if (σ.mail.acks k).forClient = true then _ else _ : Bool) = active
      repeat' split
      all_goals exact ⟨rfl, rfl, rfl, rfl⟩
  | _ => exact ⟨rfl, rfl, rfl, rfl⟩

/-! ## 4. The server -/

/-- What `execSrv` guarantees. -/
structure Srv.Keeps (κ : Conn) (o : Out Srv) : Prop where
  authCalls : ∀ p ∈ o.part.authCalls, p.1 < κ.attemptCount
  matcherCalls : ∀ p ∈ o.part.matcherCalls, p.1 < κ.attemptCount
  spawned : AllValid κ (o.push ++ o.post)

/-- The callbacks handed out are those of before. -/
structure Srv.SameCalls (ν ν' : Srv) : Prop where
  authCalls : ν'.authCalls = ν.authCalls
  matcherCalls : ν'.matcherCalls = ν.matcherCalls

theorem Srv.SameCalls.refl (ν : Srv) : ν.SameCalls ν := ⟨rfl, rfl⟩

theorem Srv.SameCalls.trans {ν ν' ν'' : Srv} (h : ν.SameCalls ν') (h' : ν'.SameCalls ν'') :
    ν.SameCalls ν'' :=
  ⟨h'.authCalls.trans h.authCalls, h'.matcherCalls.trans h.matcherCalls⟩

/-- A fold of steps that keep the callbacks keeps them. -/
theorem Srv.SameCalls.foldl {α : Type} {f : Srv → α → Srv}
    (hf : ∀ (ν : Srv) (x : α), ν.SameCalls (f ν x)) :
    ∀ (l : List α) (ν : Srv), ν.SameCalls (l.foldl f ν)
  | [], ν => .refl ν
  | x :: l, ν => (hf ν x).trans (Srv.SameCalls.foldl hf l _)

/-- Where no call is recorded, the instructions it spawns are all there is to judge. -/
theorem Srv.Keeps.same {σ : Core} (h : σ.Wf P) {o : Out Srv} (ho : σ.srv.SameCalls o.part)
    (hv : AllValid σ.conn (o.push ++ o.post)) : Srv.Keeps σ.conn o :=
  ⟨ho.authCalls ▸ h.authCalls, ho.matcherCalls ▸ h.matcherCalls, hv⟩

/-- Whoever asked for a namespace goes on with the attempt it asked for. -/
theorem Cont.instrs_valid {κ : Conn} {k : Cont} (n : NspId) (hk : ∀ r ∈ k.refs, r.Valid κ) :
    AllValid κ (k.instrs n) := by
  cases k <;> simp_all [Cont.instrs]

/-- Settling an observer names no socket. -/
theorem settleWaiter_keeps (κ : Conn) (ν : Srv) (w : Waiter) (x : Observer) :
    ν.SameCalls (settleWaiter ν w x).1 ∧ AllValid κ (settleWaiter ν w x).2 := by
  unfold settleWaiter
  split
  · exact ⟨.refl ν, by simp⟩
  · exact ⟨⟨rfl, rfl⟩, by simp⟩

theorem addChild_same (ν : Srv) (parent : Option ParentId) (n : NspId) :
    ν.SameCalls (ν.addChild parent n) := by
  cases parent with
  | none => exact .refl ν
  | some p => exact ⟨rfl, rfl⟩

theorem settleWaiters_keeps (κ : Conn) (x : Observer) :
    ∀ (ws : List Waiter) (r : Srv × List Instr), AllValid κ r.2 →
      r.1.SameCalls (settleWaiters x r ws).1 ∧ AllValid κ (settleWaiters x r ws).2
  | [], r, h => ⟨.refl _, h⟩
  | w :: ws, r, h => by
      obtain ⟨h1, h2⟩ := settleWaiter_keeps κ r.1 w x
      obtain ⟨h3, h4⟩ := settleWaiters_keeps κ x ws
        ((settleWaiter r.1 w x).1, r.2 ++ (settleWaiter r.1 w x).2) (allValid_append.mpr ⟨h, h2⟩)
      exact ⟨h1.trans h3, h4⟩

/-- `Server.close` rejects observers and records no call. -/
theorem startClose_same (ν : Srv) : ν.SameCalls ν.startClose := by
  have h : ∀ (ν : Srv) (o : ObserverId), ν.SameCalls (ν.setObserver o .rejected) :=
    fun _ _ => ⟨rfl, rfl⟩
  have h' := Srv.SameCalls.foldl h ν.dynamicWaiters.values.flatten
    { ν with closed := true, dynamicWaiters := .empty }
  exact ⟨h'.authCalls, h'.matcherCalls⟩

/-- Closing the server names its namespaces. -/
theorem close_keeps {σ : Core} (h : σ.Wf P) : Srv.Keeps σ.conn (close σ) := by
  have hν := startClose_same σ.srv
  unfold close
  dsimp only
  split
  · exact .same h hν (by simp)
  · refine .same h ⟨hν.authCalls, hν.matcherCalls⟩ ?_
    simp only [List.append_nil]
    exact allValid_map fun n _ => by simp

/-- Closing a namespace names the sockets of its roster. -/
theorem closeNamespace_keeps {σ : Core} (h : σ.Wf P) (n : NspId) :
    Srv.Keeps σ.conn (closeNamespace σ n) := by
  obtain ⟨h1, h2⟩ := settleWaiters_keeps σ.conn .rejected (σ.srv.namespaces n).waiters
    (σ.srv.setNamespace n fun N => { N with closed := true, ready := [], waiters := [] }, [])
    (by simp)
  refine .same h ⟨h1.authCalls, h1.matcherCalls⟩ (allValid_append.mpr ⟨?_, h2⟩)
  simp only [closeNamespace]
  split
  · simp
  · refine allValid_map fun s hs => ?_
    obtain ⟨sid, hsid⟩ := OMap.mem_values.mp hs
    simpa using (h.roster n sid s hsid).1

/-- A broadcast goes to members of the roster. -/
theorem recipients_mem {op : BroadcastOperator} {σ : Core} {s : SocketId}
    (h : s ∈ (op.recipients σ).1) : s ∈ (σ.memb.rosters op.nsp).values := by
  obtain ⟨sid, -, hsid⟩ := List.mem_filterMap.mp (List.mem_filter.mp h).1
  split at hsid
  · cases hsid
  · obtain ⟨s', hs', hif⟩ := Option.bind_eq_some_iff.mp hsid
    split at hif
    · cases hif
    · obtain rfl := Option.some.inj hif
      exact OMap.mem_values.mpr ⟨sid, hs'⟩

/-- **The server names only attempts and sockets that exist.** -/
theorem execSrv_keeps {σ : Core} (h : σ.Wf P) {i : SrvInstr}
    (hi : ∀ r ∈ i.refs, r.Valid σ.conn) : Srv.Keeps σ.conn (execSrv P σ i) := by
  cases i <;> simp only [SrvInstr.refs] at hi <;> try simp at hi
  case close => exact close_keeps h
  case closeNamespace n => exact closeNamespace_keeps h n
  case adapter results =>
    have hsame : σ.srv.SameCalls (adapter σ results).part :=
      adapter_induct (.refl _) (fun _ => ⟨rfl, rfl⟩) fun _ _ hν _ _ _ => hν.trans ⟨rfl, rfl⟩
    refine .same h hsame ?_
    simp only [execSrv, adapter]
    split <;> simp
  case nextConnection name =>
    simp only [execSrv, nextConnection]
    split
    · exact .same h ⟨rfl, rfl⟩ (by simp)
    · split
      · exact .same h ⟨rfl, rfl⟩ (by simp)
      · split
        · exact .same h ⟨rfl, rfl⟩ (by simp)
        · exact .same h ⟨rfl, rfl⟩ (by simp)
  case continuePair a n authCallback =>
    simp only [execSrv, continuePair]
    split
    · exact .same h (.refl _) (by simp)
    · split
      · exact .same h (.refl _) (by simpa using hi)
      · split
        · refine ⟨fun p hp => ?_, h.matcherCalls, by simp⟩
          rcases List.mem_cons.mp hp with rfl | hp
          · exact hi
          · exact h.authCalls p hp
        · exact .same h (.refl _) (by simpa using hi)
  case authorized a n =>
    simp only [execSrv, authorized]
    split
    · exact .same h (.refl _) (by simp)
    · split <;> exact .same h (.refl _) (by simpa using hi)
  case dynamicTask a authCallback =>
    simp only [execSrv, dynamicTask]
    split
    · exact .same h (.refl _) (by simp)
    · split
      · refine ⟨fun p hp => ?_, h.matcherCalls, by simp⟩
        rcases List.mem_cons.mp hp with rfl | hp
        · exact hi
        · exact h.authCalls p hp
      · exact .same h (.refl _) (by simpa using hi)
  case dynamicAuthorized a =>
    simp only [execSrv, dynamicAuthorized]
    split
    · exact .same h (.refl _) (by simp)
    · exact .same h (.refl _) (by simpa using hi)
  case tryParent a index =>
    simp only [execSrv, tryParent]
    split
    · exact .same h (.refl _) (by simpa using hi)
    · split
      · exact .same h (.refl _) (by simpa using hi)
      · refine ⟨h.authCalls, fun p hp => ?_, by simp⟩
        rcases List.mem_cons.mp hp with rfl | hp
        · exact hi
        · exact h.matcherCalls p hp
  case matched a index allowed =>
    simp only [execSrv, matched]
    split <;> exact .same h (.refl _) (by simpa using hi)
  case getNamespace name parent k =>
    simp only [execSrv, getNamespace]
    split
    · exact .same h (.refl _) (by simpa using Cont.instrs_valid _ hi)
    · refine .same h (.refl _) ?_
      simp only [List.append_nil, allValid_append]
      refine ⟨?_, by simpa using hi⟩
      split <;> simp
  case createNamespace name attachTo closed k =>
    simp only [execSrv, createNamespace]
    split
    · split
      · exact .same h (.refl _) (by simpa using hi)
      · exact .same h (.refl _) (by simp)
    · have hc := addChild_same (σ.srv.register name (σ.srv.newNamespace name attachTo closed))
        attachTo σ.srv.nspCount
      refine .same h ⟨hc.authCalls, hc.matcherCalls⟩ ?_
      simp only [List.append_nil, allValid_append]
      refine ⟨?_, by simpa using hi⟩
      split <;> simp
  case createNamespaceRest n k =>
    exact .same h (.refl _) (by simpa [execSrv] using Cont.instrs_valid n hi)
  case observe o n =>
    simp only [execSrv, observe]
    split <;> exact .same h ⟨rfl, rfl⟩ (by simp)
  case offer s =>
    simp only [execSrv, offer]
    split
    · exact .same h ⟨rfl, rfl⟩ (by simp)
    · rename_i w ws _
      obtain ⟨h1, h2⟩ := settleWaiter_keeps σ.conn
        (σ.srv.setNamespace (σ.conn.sockets s).nsp fun N => { N with waiters := ws }) w (.resolved s)
      exact .same h ⟨h1.authCalls, h1.matcherCalls⟩ (by simpa using h2)
  case broadcast op event =>
    simp only [execSrv, broadcast]
    split
    · exact .same h (.refl _) (by simp)
    · refine .same h ⟨rfl, rfl⟩ ?_
      simp only [List.append_nil]
      refine allValid_map fun s hs => ?_
      obtain ⟨sid, hsid⟩ := OMap.mem_values.mp (recipients_mem hs)
      simpa using (h.roster _ sid s hsid).1
  case setDropped n layer sid dropped =>
    simp only [execSrv, setDropped]
    split <;> exact .same h ⟨rfl, rfl⟩ (by simp)
  case closeFromServer s =>
    simp only [execSrv, closeFromServer]
    split <;> exact .same h (.refl _) (by simpa using hi)
  case awaitClosed s =>
    simp only [execSrv, awaitClosed]
    split <;> exact .same h (.refl _) (by simpa using hi)
  case closeRest s =>
    simp only [execSrv, closeRest]
    refine .same h (.refl _) ?_
    split <;> simp [hi, h.conn.peer_lt hi]
  case socketClosed n =>
    refine .same h ⟨rfl, rfl⟩ ?_
    simp only [execSrv, socketClosed, List.nil_append]
    split <;> simp
  case namespaceClosed =>
    refine .same h ⟨rfl, rfl⟩ ?_
    simp only [execSrv, namespaceClosed, List.nil_append]
    split <;> simp
  all_goals
    exact .same h ⟨rfl, rfl⟩
      (by simp [execSrv, serverConnect, ofMatcher, discardReady, removeSocket, hi])

/-! ## 5. The rosters -/

@[simp] theorem join_rosters (μ : Memb) (κ : Conn) (s : SocketId) (rooms : List String) :
    (μ.join κ s rooms).rosters = μ.rosters := by
  have hfold : ∀ (rooms : List String) (μ : Memb),
      (rooms.foldl (Memb.joinRoom κ s) μ).rosters = μ.rosters := by
    intro rooms
    induction rooms with
    | nil => exact fun _ => rfl
    | cons room rooms ih => exact fun μ => ih _
  unfold Memb.join
  split
  · exact hfold rooms μ
  · rfl

/-- A fold of steps that keep the rosters keeps them. -/
theorem foldl_rosters {α : Type} {f : Memb → α → Memb}
    (hf : ∀ (μ : Memb) (x : α), (f μ x).rosters = μ.rosters) :
    ∀ (l : List α) (μ : Memb), (l.foldl f μ).rosters = μ.rosters
  | [], _ => rfl
  | x :: l, μ => (foldl_rosters hf l (f μ x)).trans (hf μ x)

/-- The only ways a roster changes: an admission adds the socket under its id, a cleanup takes an
    id out. -/
theorem execMemb_roster {σ : Core} {i : MembInstr} {n : NspId} {sid : String} {s : SocketId}
    (h : ((execMemb σ i).part.rosters n).get? sid = some s) :
    (σ.memb.rosters n).get? sid = some s ∨
      (i = .enter s ∧ (σ.conn.sockets s).nsp = n ∧ (σ.conn.sockets s).id = sid) := by
  cases i with
  | enter t =>
      simp only [execMemb, enter, join_rosters, Memb.setRoster, modify_apply] at h
      split at h
      · rename_i hn
        simp only [OMap.get?_set] at h
        split at h
        · rename_i hsid
          obtain rfl := Option.some.inj h
          exact Or.inr ⟨rfl, hn.symm, hsid.symm⟩
        · exact Or.inl (hn ▸ h)
      · exact Or.inl h
  | join t rooms => exact Or.inl (by simpa [execMemb] using h)
  | leave t room => exact Or.inl h
  | socketsJoin op rooms =>
      simp only [execMemb] at h
      rw [foldl_rosters (fun μ s => join_rosters μ _ s rooms)] at h
      exact Or.inl h
  | socketsLeave op rooms =>
      simp only [execMemb] at h
      rw [foldl_rosters (f := fun μ s => rooms.foldl (fun μ room => μ.leave σ.conn s room) μ)
        (fun μ s => foldl_rosters (f := fun μ room => μ.leave σ.conn s room) (fun _ _ => rfl)
          rooms μ)] at h
      exact Or.inl h
  | cleanupMembership t =>
      simp only [execMemb, cleanupMembership] at h
      split at h <;> exact Or.inl h
  | drainEnd t => exact Or.inl h
  | cleanupMembershipRest t =>
      simp only [execMemb, Memb.endCleanup, Memb.setRoster, modify_apply] at h
      split at h
      · rename_i hn
        simp only [OMap.get?_erase] at h
        split at h
        · cases h
        · exact Or.inl (hn ▸ h)
      · exact Or.inl h

/-! ## 6. The invariant -/

/-- No instruction unmakes an object. -/
theorem conn_extends {σ : Core} (h : σ.Wf P) {i : Instr} (hi : i.Valid σ) :
    σ.conn.Extends (exec P i σ).core.conn := by
  cases i with
  | conn i => exact (execConn_keeps h.conn hi).grows
  | _ => exact .refl _

/-- **One step keeps every reference good**, also those of the packets under way. -/
theorem wf_exec {σ : Core} (h : σ.Wf P) {i : Instr} (hi : i.Valid σ) :
    (exec P i σ).core.Wf P := by
  cases i with
  | app x => exact h
  | conn i => exact h.mono (execConn_keeps h.conn hi).wf (execConn_keeps h.conn hi).grows
  | life i => exact { h with }
  | memb i =>
      exact { h with
        roster := fun n sid s hs => by
          rcases execMemb_roster hs with hs | ⟨rfl, hn, hsid⟩
          · exact h.roster n sid s hs
          · exact ⟨hi (.socket s) (List.mem_singleton_self _), hn, hsid⟩ }
  | mail i => exact { h with mail := (execMail_keeps h hi).wf }
  | srv i =>
      exact { h with
        authCalls := (execSrv_keeps h hi).authCalls
        matcherCalls := (execSrv_keeps h hi).matcherCalls }
  | ctl i => exact { h with }

/-- What it leaves pending refers to objects that exist. -/
theorem valid_spawned {σ : Core} (h : σ.Wf P) {i : Instr} (hi : i.Valid σ) :
    ∀ j ∈ (exec P i σ).spawned, j.Valid (exec P i σ).core := by
  cases i with
  | app x => exact fun j hj => absurd hj List.not_mem_nil
  | conn i => exact (execConn_keeps h.conn hi).spawned
  | life i => exact execLife_valid hi
  | memb i => exact execMemb_valid hi
  | mail i => exact (execMail_keeps h hi).spawned
  | srv i => exact (execSrv_keeps h hi).spawned
  | ctl i => exact execCtl_valid h hi

/-- The application calls methods of objects it was given. -/
theorem valid_callable {σ : Core} (h : σ.Wf P) {i : Instr} (hc : callable σ i = true) :
    i.Valid σ := by
  intro r hr
  cases i with
  | app x => cases hr
  | conn i => cases i <;> simp [callable] at hc hr <;> subst hr <;> exact hc
  | life i =>
      cases i <;> simp [callable] at hc hr <;> subst hr
      case next s i err => exact hc.1.1
      case use s f => exact hc
  | memb i => cases i <;> simp [callable] at hc hr <;> subst hr <;> exact hc
  | mail i =>
      cases i <;> simp [callable] at hc hr <;> subst hr
      case pumpRun r => exact h.mail.timers r hc
      all_goals exact hc
  | srv i =>
      cases i <;> simp [callable] at hc hr <;> subst hr
      case authorized a n => exact h.authCalls _ hc
      case dynamicAuthorized a => exact h.authCalls _ hc
      case matched a p allowed => exact h.matcherCalls _ hc
  | ctl i =>
      cases i <;> simp [callable] at hc hr <;> subst hr
      case deliverClient d => exact h.mail.held d hc
      all_goals exact hc

/-- What a handler does: it swallows the exception, or rejects the attempt it belongs to. -/
theorem onThrow_handle {σ : Core} {i : Instr} {is : List Instr} (h : onThrow σ i = .handle is) :
    is = [] ∨ ∃ a err, is = [.conn (.rejectConnectionAttempt a err)] ∧ i.refs = [.attempt a] := by
  unfold onThrow at h
  split at h
  case h_4 => exact Or.inr ⟨_, _, (Handler.handle.inj h).symm, rfl⟩
  case h_5 => exact Or.inr ⟨_, _, (Handler.handle.inj h).symm, rfl⟩
  case h_6 =>
    split at h
    · exact Or.inl (Handler.handle.inj h).symm
    · cases h
  case h_7 =>
    split at h
    · exact Or.inl (Handler.handle.inj h).symm
    · cases h
  all_goals cases h

/-- The three `finally` blocks. -/
theorem onThrow_run {σ : Core} {i : Instr} (h : onThrow σ i = .run) :
    (∃ s, i = .life (.endDispatch s)) ∨ (∃ s, i = .memb (.drainEnd s)) ∨
      ∃ r, i = .mail (.cancelTimer r) := by
  unfold onThrow at h
  split at h
  case h_1 s => exact Or.inl ⟨s, rfl⟩
  case h_2 s => exact Or.inr (Or.inl ⟨s, rfl⟩)
  case h_3 r => exact Or.inr (Or.inr ⟨r, rfl⟩)
  case h_6 => split at h <;> cases h
  case h_7 => split at h <;> cases h
  all_goals cases h

/-- Existing objects and the instructions that name them form an invariant. -/
theorem valid_inductive (P : Platform) :
    Inductive (runtime P) (fun _ _ => True) (Core.Wf P) (fun σ i => i.Valid σ)
      fun _ => (none : Option Unit) :=
  .of_facts (fun _ _ h => wf_exec h.inv h.ok) (fun _ _ h => valid_spawned h.inv h.ok)
    (fun _ _ _ h hj r hr => (hj r hr).mono (conn_extends h.inv h.ok))
    (fun _ _ h hc => valid_callable h hc)
    (fun σ i is _ hi his j hj => by
      rcases onThrow_handle his with rfl | ⟨a, err, rfl, ha⟩
      · cases hj
      · obtain rfl := List.mem_singleton.mp hj
        exact fun r hr => hi r (ha ▸ hr))
    fun _ _ _ => trivial

/-- A server that has just been made refers to nothing. -/
theorem newServer_wf (P : Platform) : newServer.core.Wf P where
  conn := by
    refine ⟨?_, ?_, ?_, ?_, ?_, ?_⟩ <;> intro x hx <;> try cases hx
    all_goals simp [newServer]
  roster _ _ _ hs := by cases hs
  mail := ⟨nofun, nofun, nofun⟩
  authCalls _ hp := by cases hp
  matcherCalls _ hp := by cases hp

/-- **Every reference is valid in every reachable state.** -/
theorem reach_wf {C : State → Action Instr → Prop} {σ : State}
    (h : (runtime P).Reach C newServer σ) :
    σ.core.Wf P ∧ ∀ i ∈ σ.pending, i.Valid σ.core := by
  have hk := h.inv_ok (valid_inductive P) (fun _ _ _ _ _ _ _ => trivial)
    ⟨newServer_wf P, nofun, .nil⟩
  exact ⟨hk.inv, hk.ok⟩

end Smocket
