import Smocket.Handles

/-
  File:      Smocket/Acks.lean
  Subject:   THE ACKNOWLEDGEMENT FUNCTIONS `sendEncoded` hands to receivers: a table that grows by
             one entry for a packet with a trailing function. An entry keeps what it was made with;
             it is only ever consumed.

  * `exec_acks` -- what an instruction adds to the table and what it consumes;
  * `reach_replies` -- every trailing function in the runtime belongs to a request that was made.
-/

namespace Smocket

open Ordered EventLoop EventLoop.Machine

variable {P : Platform}

/-! ## 1. What every instruction does to the table -/

/-- The trailing function of the packet an instruction hands to `send`. -/
def Instr.reply : Instr → Option Reply
  | .mail (.clientEmitRest _ p) | .mail (.flushRest _ _ p _) => p.reply
  | .mail (.serverEmitRest _ _ _ reply _) => reply
  | _ => none

/-- Nothing is added to the table and nothing consumed. -/
structure Mail.SameAcks (μ μ' : Mail) : Prop where
  acks : μ'.acks = μ.acks
  ackCount : μ'.ackCount = μ.ackCount

theorem Mail.SameAcks.refl (μ : Mail) : μ.SameAcks μ := ⟨rfl, rfl⟩

theorem Mail.SameAcks.trans {μ μ' μ'' : Mail} (h : μ.SameAcks μ') (h' : μ'.SameAcks μ'') :
    μ.SameAcks μ'' := ⟨h'.acks.trans h.acks, h'.ackCount.trans h.ackCount⟩

/-- The entry `A` is added. -/
structure Mail.AddsAck (μ μ' : Mail) (A : Ack) : Prop where
  acks : μ'.acks = Function.update μ.acks μ.ackCount A
  ackCount : μ'.ackCount = μ.ackCount + 1

/-- What an instruction with the trailing function `reply` does to the table. -/
def Mail.Sends (μ μ' : Mail) (reply : Option Reply) : Prop :=
  μ.SameAcks μ' ∨ ∃ A, reply = some A.reply ∧ A.acked = false ∧ μ.AddsAck μ' A

/-- What comes after a sending and makes no acknowledgement leaves it a sending. -/
theorem Mail.Sends.later {μ μ' μ'' : Mail} {reply : Option Reply} (h : μ.Sends μ' reply)
    (h' : μ'.SameAcks μ'') : μ.Sends μ'' reply :=
  h.imp (fun h => h.trans h') fun ⟨A, hr, ha, h⟩ =>
    ⟨A, hr, ha, h'.acks.trans h.acks, h'.ackCount.trans h.ackCount⟩

theorem dropHandle_acks (μ : Mail) (r : RequestId) (h : AckHandle) :
    μ.SameAcks (μ.dropHandle r h) := by
  unfold Mail.dropHandle
  split <;> exact ⟨rfl, rfl⟩

/-- Settling a request removes its handle and its timer, no acknowledgement. -/
theorem onSettled_acks (μ : Mail) (r : RequestId) : μ.SameAcks (μ.onSettled r) := by
  unfold Mail.onSettled
  have h : μ.SameAcks (if (μ.requests r).tracked then μ.dropHandle r (.timed r) else μ) := by
    split
    · exact dropHandle_acks ..
    · exact .refl μ
  dsimp only
  split
  · exact h
  · exact h.trans ⟨rfl, rfl⟩

theorem settle_acks (μ : Mail) (r : RequestId) : μ.SameAcks ((μ.settle r).callback r).part := by
  have hset : μ.SameAcks { μ.setRequest r fun q => { q with settled := true } with
      ackTimers := μ.ackTimers.erase r } := ⟨rfl, rfl⟩
  have hsettle : μ.SameAcks (μ.settle r) := hset.trans (onSettled_acks ..)
  refine hsettle.trans ?_
  unfold Mail.callback
  split
  · exact dropHandle_acks ..
  · exact .refl _

/-- A request is the caller's side of an emit. The acknowledgement is made when it is sent. -/
theorem newRequest_acks (μ : Mail) (form : EmitForm) (q : Request) :
    μ.SameAcks (μ.newRequest form q).1 := by
  unfold Mail.newRequest
  split
  · exact .refl μ
  · split <;> exact ⟨rfl, rfl⟩
  · exact ⟨rfl, rfl⟩

/-- A client's emit makes none before its observers have run. -/
theorem clientEmit_acks (σ : Core) (c : ClientId) (event : String) (form : EmitForm) :
    σ.mail.SameAcks (clientEmit σ c event form).part := by
  unfold clientEmit
  dsimp only
  split
  · exact .refl _
  · have hr := newRequest_acks σ.mail form
      { client := some c, promise := decide (form = .promise)
        timed := (σ.mail.outboxes c).flags.timeout.isSome && decide (form ≠ .plain)
        tracked := decide (form ≠ .promise), sending := (σ.conn.clients c).connected }
    refine hr.trans ?_
    generalize σ.mail.newRequest form _ = nr
    obtain ⟨μ, reply⟩ := nr
    dsimp only
    split <;> split <;> first | exact ⟨rfl, rfl⟩ | (split <;> exact ⟨rfl, rfl⟩)

/-- Nor does a server socket's. -/
theorem serverEmit_acks (σ : Core) (s : SocketId) (event : String) (form : EmitForm) :
    σ.mail.SameAcks (serverEmit σ s event form).part := by
  unfold serverEmit
  dsimp only
  split
  · exact .refl _
  · have hr := newRequest_acks σ.mail form
      { promise := decide (form = .promise)
        timed := (σ.mail.serverFlags s).timeout.isSome && decide (form ≠ .plain) }
    split <;> exact hr.trans ⟨rfl, rfl⟩

theorem pump_acks (μ : Mail) (n : NspId) (sid : String) : μ.SameAcks (μ.pump n sid).1 := by
  unfold Mail.pump
  split
  · exact .refl μ
  · split
    · exact ⟨rfl, rfl⟩
    · dsimp only
      split <;> exact ⟨rfl, rfl⟩

/-- A packet that waits for its delivery carries the acknowledgement it was sent with. -/
theorem scheduleReceive_acks (σ : Core) (μ : Mail) (d : Delivery) :
    μ.SameAcks (scheduleReceive σ μ d).part := by
  unfold scheduleReceive
  split
  · exact .refl μ
  · dsimp only
    split
    · exact .refl μ
    · unfold Mail.scheduleDelivery
      dsimp only
      split
      · exact ⟨rfl, rfl⟩
      · have hnew : ∀ n sid entry, μ.SameAcks (μ.newQueue n sid entry) := fun _ _ _ => ⟨rfl, rfl⟩
        exact (hnew ..).trans (pump_acks ..)
    · exact ⟨rfl, rfl⟩

/-- One packet to a client is at most one acknowledgement, for the reply it asks for. -/
theorem sendToClient_acks (σ : Core) (s : SocketId) (serial : Nat) (event : String)
    (reply : Option Reply) (survived : Bool) :
    σ.mail.Sends (sendToClient σ s serial event reply survived).part reply := by
  unfold sendToClient
  dsimp only
  cases reply with
  | none => exact Or.inl (scheduleReceive_acks ..)
  | some x =>
      dsimp only
      split
      · exact Or.inl (.refl _)
      · have h := scheduleReceive_acks σ
        exact Or.inr ⟨_, rfl, rfl, (h _ _).acks, (h _ _).ackCount⟩

/-- So is one packet to the server. -/
theorem sendToServer_acks (μ : Mail) (s : SocketId) (c : ClientId) (serial : Nat) (event : String)
    (reply : Option Reply) : μ.Sends (sendToServer μ s c serial event reply).1 reply := by
  cases reply with
  | none => exact Or.inl (.refl μ)
  | some x => exact Or.inr ⟨_, rfl, rfl, rfl, rfl⟩

theorem clientEmitRest_acks (σ : Core) (c : ClientId) (p : BufferedPacket) :
    σ.mail.Sends (clientEmitRest σ c p).part p.reply := by
  unfold clientEmitRest
  split
  · exact Or.inl (.refl _)
  · rename_i s _
    have h := sendToServer_acks σ.mail s c p.serial p.event p.reply
    dsimp only
    split
    · rename_i r hr
      rw [hr] at h ⊢
      exact h.later ⟨rfl, rfl⟩
    · exact h.later ⟨rfl, rfl⟩

/-- The flush makes none of its own: each packet makes its own when its observers have run. -/
theorem flushPackets_acks (σ : Core) (a : AttemptId) (s : SocketId) (ps : List BufferedPacket) :
    σ.mail.SameAcks (flushPackets σ a s ps).part := by
  cases ps with
  | nil => exact .refl _
  | cons p ps =>
      simp only [flushPackets]
      split
      · exact .refl _
      · dsimp only
        split
        · exact .refl _
        · exact ⟨rfl, rfl⟩

theorem flushRest_acks (σ : Core) (a : AttemptId) (s : SocketId) (p : BufferedPacket)
    (ps : List BufferedPacket) : σ.mail.Sends (flushRest σ a s p ps).part p.reply := by
  unfold flushRest
  dsimp only
  split
  · exact sendToServer_acks ..
  · exact Or.inl ⟨rfl, rfl⟩

/-- An answer that arrives settles a request. -/
theorem ackReply_acks (σ : Core) (reply : Reply) : σ.mail.SameAcks (ackReply σ reply).part := by
  unfold ackReply
  split
  · exact .refl _
  · dsimp only
    split
    · split
      · exact .refl _
      · exact settle_acks ..
    · exact dropHandle_acks ..

theorem rejectAck_acks (σ : Core) (h : AckHandle) : σ.mail.SameAcks (rejectAck σ h).part := by
  unfold rejectAck
  split
  · exact settle_acks ..
  · dsimp only
    split
    · exact ⟨rfl, rfl⟩
    · split
      · exact settle_acks ..
      · exact .refl _

theorem pumpRun_acks (σ : Core) (r : PumpRun) : σ.mail.SameAcks (pumpRun σ r).part := by
  unfold pumpRun
  dsimp only
  split <;> exact ⟨rfl, rfl⟩

theorem removeDeliveries_acks (σ : Core) (s : SocketId) :
    σ.mail.SameAcks (removeDeliveries σ s).part := by
  unfold removeDeliveries
  dsimp only
  split
  · exact .refl _
  · exact .refl _
  · split <;> exact ⟨rfl, rfl⟩

/-- **The table grows by what is sent, and an invocation consumes its entry.** -/
theorem exec_acks (i : Instr) (σ : Core) :
    σ.mail.Sends (exec P i σ).core.mail i.reply ∨
      ∃ k encodable, i = .mail (.invokeAck k encodable) ∧
        (exec P i σ).core.mail.ackCount = σ.mail.ackCount ∧
        (exec P i σ).core.mail.acks = modify σ.mail.acks k fun A => { A with acked := true } := by
  have hsame : ∀ {μ' : Mail} {reply : Option Reply} {Q : Prop}, σ.mail.SameAcks μ' →
      σ.mail.Sends μ' reply ∨ Q := fun h => Or.inl (Or.inl h)
  cases i with
  | mail i =>
      cases i with
      | clientEmit c event form => exact hsame (clientEmit_acks ..)
      | clientEmitRest c p => exact Or.inl (clientEmitRest_acks ..)
      | flushPackets a s ps => exact hsame (flushPackets_acks ..)
      | flushRest a s p ps => exact Or.inl (flushRest_acks ..)
      | rejectAck c h => exact hsame (rejectAck_acks ..)
      | serverEmit s event form => exact hsame (serverEmit_acks ..)
      | serverEmitRest s serial event reply was =>
          simp only [exec, execMail, serverEmitRest]
          split
          · exact hsame (.refl _)
          · exact Or.inl (sendToClient_acks ..)
      | sendBroadcastRest s serial event was => exact Or.inl (sendToClient_acks ..)
      | pumpRun r => exact hsame (pumpRun_acks ..)
      | pumpRest r =>
          simp only [exec, execMail, pumpRest]
          split
          · exact hsame (pump_acks ..)
          · exact hsame (.refl _)
      | removeDeliveries s => exact hsame (removeDeliveries_acks ..)
      | invokeAck k encodable =>
          simp only [exec, execMail, invokeAck]
          generalize (if (σ.mail.acks k).forClient = true then _ else _ : Bool) = active
          split
          · exact hsame (.refl _)
          · split
            · exact Or.inr ⟨k, encodable, rfl, rfl, rfl⟩
            · split
              · exact Or.inr ⟨k, encodable, rfl, rfl, rfl⟩
              · exact hsame (.refl _)
      | ackReply reply => exact hsame (ackReply_acks ..)
      | ackTimeout r => exact hsame (settle_acks ..)
      | clientFlags | flush | rejectPendingAcks | serverFlags | sendBroadcast | cancelTimer
      | setDelay | setNow => exact hsame ⟨rfl, rfl⟩
  | _ => exact hsame (.refl _)

/-! ## 2. Every trailing function belongs to a request that was made -/

/-- The request under the function, if any, has been made. -/
def Mail.Made (μ : Mail) (x : Reply) : Prop := ∀ r, x = .request r → r < μ.requestCount

/-- The trailing functions an instruction has in hand. -/
def Instr.replies : Instr → List Reply
  | .mail (.ackReply x) => [x]
  | .mail (.clientEmitRest _ p) => p.reply.toList
  | .mail (.flushPackets _ _ ps) => ps.filterMap BufferedPacket.reply
  | .mail (.flushRest _ _ p ps) => (p :: ps).filterMap BufferedPacket.reply
  | .mail (.serverEmitRest _ _ _ reply _) => reply.toList
  | _ => []

/-- The table and the buffers. -/
structure Mail.Answerable (μ : Mail) : Prop where
  acks : ∀ k, μ.Made (μ.acks k).reply
  buffered : ∀ c, ∀ p ∈ (μ.outboxes c).sendBuffer, ∀ x, p.reply = some x → μ.Made x

/-- Requests are never unmade. -/
theorem Mail.Made.mono {μ μ' : Mail} {x : Reply} (h : μ.Made x)
    (hc : μ.requestCount ≤ μ'.requestCount) : μ'.Made x := fun r hr => (h r hr).trans_le hc

theorem reply_mem_replies {i : Instr} {x : Reply} (h : i.reply = some x) : x ∈ i.replies := by
  unfold Instr.reply at h
  split at h
  · simp [Instr.replies, h]
  · simp [Instr.replies, h]
  · simp [Instr.replies, h]
  · cases h

/-- A request an instruction has just made may be answered. -/
theorem made_of_fresh {μ μ' : Mail} {reply : Option Reply}
    (h : ∀ r, reply = some (.request r) → μ.Fresh μ' r) {x : Reply} (hx : reply = some x) :
    μ'.Made x := fun r hr => (h r (hr ▸ hx)).2

/-- A packet that waits for its observers asks for a reply that exists. -/
theorem serverEmitRest_spawned {i : Instr} {σ : Core} {s : SocketId} {serial : Nat} {event : String}
    {reply : Option Reply} {was : Bool}
    (hj : .mail (.serverEmitRest s serial event reply was) ∈ (exec P i σ).spawned) {x : Reply}
    (hx : reply = some x) : (exec P i σ).core.mail.Made x := by
  obtain ⟨event', form, rfl⟩ : ∃ e form, i = .mail (.serverEmit s e form) := spawnedBy hj
  simp only [exec, execMail, serverEmit] at hj ⊢
  split at hj
  · cases hj
  · rename_i hres
    rw [if_neg hres]
    generalize hq : (Request.mk _ _ _ _ _ _ _) = q at hj ⊢
    have hr := (newRequest_turns (T := fun _ _ => False) (B := fun _ _ => False)
      σ.mail form (q := q) (show q.client = none by rw [← hq]) (by rw [← hq]) (by rw [← hq])
      (fun h => absurd rfl h) (by rw [← hq])).2
    split at hj
    · cases hj
    · rename_i hv
      rw [if_neg hv]
      simp only [Effect.spawned, List.append_nil, List.mem_cons, reduceCtorEq, Instr.mail.injEq,
        MailInstr.serverEmitRest.injEq, List.not_mem_nil, or_false, false_or] at hj
      exact fun r hxr => (hr r (by rw [← hj.2.2.2.1, hx, hxr])).2.1.2

/-- Where a trailing function comes from. -/
theorem replies_spawned {σ : Core} {i j : Instr} (h : σ.mail.Answerable)
    (hi : ∀ x ∈ i.replies, σ.mail.Made x) (hj : j ∈ (exec P i σ).spawned) {x : Reply}
    (hx : x ∈ j.replies) : (exec P i σ).core.mail.Made x := by
  have hcount : σ.mail.requestCount ≤ (exec P i σ).core.mail.requestCount := (exec_turns i σ).count
  unfold Instr.replies at hx
  split at hx
  · rename_i y
    obtain rfl := List.mem_singleton.mp hx
    obtain ⟨k, encodable, rfl⟩ : ∃ k encodable, i = .mail (.invokeAck k encodable) := spawnedBy hj
    have hy : x = (σ.mail.acks k).reply := by
      simp only [exec, execMail, invokeAck] at hj
      generalize (if (σ.mail.acks k).forClient = true then _ else _ : Bool) = active at hj
      split at hj
      · cases hj
      · split at hj
        · simpa [Effect.spawned] using hj
        · cases hj
    exact hy ▸ (h.acks k).mono hcount
  · rename_i c p
    obtain ⟨event, form, rfl, -, hpush, -⟩ := clientEmitRest_spawned hj
    obtain ⟨-, hf⟩ :=
      (clientEmit_turns (T := fun _ _ => False) (B := fun _ _ => False) σ c event form).2 p hpush
    exact made_of_fresh hf (Option.mem_toList.mp hx)
  · rename_i a s ps
    obtain ⟨p, hp, hpx⟩ := List.mem_filterMap.mp hx
    rcases flushPackets_spawned hj with ⟨rfl, rfl⟩ | ⟨q, rfl | rfl⟩
    · exact (h.buffered _ p hp x hpx).mono hcount
    · exact (hi x (List.mem_filterMap.mpr ⟨p, List.mem_cons_of_mem _ hp, hpx⟩)).mono hcount
    · exact (hi x (List.mem_filterMap.mpr ⟨p, List.mem_cons_of_mem _ hp, hpx⟩)).mono hcount
  · obtain ⟨rfl, -⟩ := flushRest_spawned hj
    exact (hi x hx).mono hcount
  · exact serverEmitRest_spawned hj (Option.mem_toList.mp hx)
  · cases hx

/-- **One step keeps every acknowledgement answerable.** -/
theorem answerable_exec {σ : Core} {i : Instr} (h : σ.mail.Answerable)
    (hi : ∀ x ∈ i.replies, σ.mail.Made x) : (exec P i σ).core.mail.Answerable where
  acks k := by
    have hcount : σ.mail.requestCount ≤ (exec P i σ).core.mail.requestCount :=
      (exec_turns i σ).count
    rcases exec_acks (P := P) i σ with (hsame | ⟨A, hr, -, hadd⟩) | ⟨k', e, -, -, hacks⟩
    · rw [hsame.acks]
      exact (h.acks k).mono hcount
    · rw [hadd.acks, Function.update_apply]
      split
      · exact (hi _ (reply_mem_replies hr)).mono hcount
      · exact (h.acks k).mono hcount
    · rw [hacks, modify_apply]
      split
      · exact (h.acks k').mono hcount
      · exact (h.acks k).mono hcount
  buffered c p hp x hx := by
    have hT := exec_turns (P := P) i σ
    rcases hT.sendBuffer c p hp with hp | ⟨-, -, hf⟩ | ⟨a, s, p₀, ps, rfl, -, hp, -⟩
    · exact (h.buffered c p hp x hx).mono hT.count
    · exact made_of_fresh hf hx
    · exact (hi x (List.mem_filterMap.mpr ⟨p, hp, hx⟩)).mono hT.count

/-- So does a run. -/
theorem answerable_inductive (P : Platform) : Inductive (runtime P) (fun _ _ => True)
    (fun σ => σ.mail.Answerable) (fun σ i => ∀ x ∈ i.replies, σ.mail.Made x)
    fun _ => (none : Option Unit) :=
  .of_facts (fun _ _ h => answerable_exec h.inv h.ok)
    (fun _ _ h j hj x hx => replies_spawned h.inv h.ok hj hx)
    (fun _ i _ _ hj x hx => (hj x hx).mono (exec_turns i _).count)
    (fun σ i _ hc x hx => by
      unfold Instr.replies at hx
      split at hx <;> [cases hc; cases hc; cases hc; cases hc; cases hc; cases hx])
    (fun σ i is _ _ his j hj x hx => by
      rcases onThrow_handle his with rfl | ⟨a, err, rfl, -⟩
      · cases hj
      · rw [List.mem_singleton.mp hj] at hx
        cases hx)
    fun _ _ _ => trivial

/-- **Every trailing function in the runtime belongs to a request that was made.** -/
theorem reach_replies {C : State → Action Instr → Prop} {σ : State}
    (h : (runtime P).Reach C newServer σ) :
    σ.core.mail.Answerable ∧ ∀ j ∈ σ.pending, ∀ x ∈ j.replies, σ.core.mail.Made x := by
  have hK := h.inv_ok (answerable_inductive P) (fun _ _ _ _ _ _ _ => trivial)
    ⟨⟨fun _ _ hr => (by cases hr), fun _ _ hp => absurd hp List.not_mem_nil⟩,
      fun _ hj => absurd hj List.not_mem_nil, .nil⟩
  exact ⟨hK.inv, hK.ok⟩

end Smocket
