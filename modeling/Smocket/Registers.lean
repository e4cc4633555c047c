import Smocket.Flushes
import Smocket.Acks
import Smocket.Bookkeeping

/-
  File:      Smocket/Registers.lean
  Subject:   WHAT A CLIENT'S `pendingAcks` HOLDS: a handle for every `emitWithAck` without an answer
             and for every emit with a timeout that has been sent and not settled.

  A disconnect takes the handles out and rejects them one by one, so a handle is with its client or
  among the rejections that are due; a request whose own observers disconnect the client is
  rejected when its emit goes on (`Held`). The history says what was sent and what was concluded.

  * `Core.concludes` -- an answer, a timer or a rejection settles a request;
  * `CallsReturn` -- no exception leaves the observers and callbacks that run inside an emit, a
    flush or a disconnect;
  * `reach_lone` -- the handle of a promise is in one place at a time;
  * `run_tracked` -- what is not concluded is held;
  * **`registers_exact`** -- outside its emits a client holds the handles of its open requests.
-/

namespace Smocket

open Ordered EventLoop EventLoop.Machine

variable {P : Platform}

/-! ## 1. Concluded requests -/

/-- The instruction answers, times out or rejects the request `r`, which was open if a timeout
    wraps it. A rejection that comes while the `emitWithAck` is still sending is put off. -/
def Core.concludes (σ : Core) (r : RequestId) : Instr → Bool
  | .mail (.ackReply (.request r')) =>
      decide (r' = r) && !((σ.mail.requests r).timed && (σ.mail.requests r).settled)
  | .mail (.ackTimeout r') => decide (r' = r)
  | .mail (.rejectAck _ (.timed r')) => decide (r' = r)
  | .mail (.rejectAck _ (.promise r')) => decide (r' = r) && !(σ.mail.requests r).sending
  | _ => false

/-- In the history `tr` the request `r` has been concluded. -/
def concludedIn (tr : List (Core × Instr)) (r : RequestId) : Prop :=
  ∃ x ∈ tr, x.1.concludes r x.2 = true

/-- In the history `tr` the request `r` has been rejected. -/
def rejectedIn (tr : List (Core × Instr)) (r : RequestId) : Prop :=
  ∃ x ∈ tr, x.1.rejects r x.2 = true

/-- In the history `tr` the packet with the wrapper of `r` has been sent. -/
def requestSentIn (tr : List (Core × Instr)) (r : RequestId) : Prop :=
  ∃ x ∈ tr, ∃ p : BufferedPacket, p.timedCallback = some r ∧ x.1.sends p x.2

theorem concludedIn_append {tr tr' : List (Core × Instr)} {r : RequestId} :
    concludedIn (tr ++ tr') r ↔ concludedIn tr r ∨ concludedIn tr' r := by
  simp only [concludedIn, List.mem_append, or_and_right, exists_or]

theorem requestSentIn_append {tr tr' : List (Core × Instr)} {r : RequestId} :
    requestSentIn (tr ++ tr') r ↔ requestSentIn tr r ∨ requestSentIn tr' r := by
  simp only [requestSentIn, List.mem_append, or_and_right, exists_or]

theorem rejects_concludes {σ : Core} {r : RequestId} {i : Instr} (h : σ.rejects r i = true) :
    σ.concludes r i = true := by
  unfold Core.rejects at h
  split at h <;> first | exact h | cases h

theorem rejectedIn_concluded {tr : List (Core × Instr)} {r : RequestId} (h : rejectedIn tr r) :
    concludedIn tr r :=
  let ⟨x, hx, hr⟩ := h
  ⟨x, hx, rejects_concludes hr⟩

theorem rejectedIn_append {tr tr' : List (Core × Instr)} {r : RequestId} :
    rejectedIn (tr ++ tr') r ↔ rejectedIn tr r ∨ rejectedIn tr' r := by
  simp only [rejectedIn, List.mem_append, or_and_right, exists_or]

/-- Under a timeout, concluding is settling. -/
theorem concludes_timed {σ : Core} {i : Instr} {r : RequestId}
    (ht : (σ.mail.requests r).timed = true) : σ.concludes r i = σ.settles r i := by
  unfold Core.concludes Core.settles
  split <;> simp [ht]

/-! ## 2. What no exception skips -/

/-- The instructions of a disconnect's rejections, and of an emit after its observers. -/
def Instr.unskipped : Instr → Bool
  | .life (.invalidateAcknowledgements _) | .mail (.rejectPendingAcks _) | .mail (.rejectAck ..)
  | .mail (.clientEmitRest ..) => true
  | _ => false

/-- The application code that runs directly above them. -/
def Instr.isInner : Instr → Bool
  | .app .ackCallback | .app (.clientOutgoing _) => true
  | _ => false

/-- **Callbacks return**: no exception leaves the outgoing observers of an emit or a flush (a
    payload that does not encode throws where they end), nor the callbacks a disconnect invokes. -/
abbrev CallsReturn : State → Action Instr → Prop :=
  Returns (fun j => (j.unskipped || j.isFlushRest) = true) fun i => i.isInner = true

theorem Returns.mono {S S' A A' : Instr → Prop} {σ : State} {a : Action Instr}
    (hS : ∀ i, S' i → S i) (hA : ∀ i, A' i → A i) (h : Returns S A σ a) : Returns S' A' σ a :=
  fun ha i k hst hi j hj hSj => h ha i k hst (hA i hi) j hj (hS j hSj)

theorem CallsReturn.rejections {σ : State} {a : Action Instr} (h : CallsReturn σ a) :
    Returns (fun j => j.unskipped = true) (fun i => i.isInner = true) σ a :=
  Returns.mono (fun _ hi => by simp [hi]) (fun _ hi => hi) h

theorem CallsReturn.observers {σ : State} {a : Action Instr} (h : CallsReturn σ a) :
    ObserversReturn σ a :=
  Returns.mono (fun _ hi => by simp [hi]) (fun i hi => by
    unfold Instr.isObserver at hi
    split at hi
    · rfl
    · cases hi) h

/-- An emit that goes on has a server socket to send to. -/
def Core.Sendable (σ : Core) : Instr → Prop
  | .mail (.clientEmitRest c _) => (σ.conn.clients c).serverSocket.isSome = true
  | _ => True

theorem sendable_inductive (P : Platform) : Inductive (runtime P) (fun _ _ => True)
    (fun σ => (σ.Wf P ∧ σ.conn.Steady) ∧
      ∀ c, (σ.conn.clients c).connected = true → (σ.conn.clients c).serverSocket.isSome = true)
    (fun σ i => (i.Valid σ ∧ True) ∧ σ.Sendable i) fun _ => (none : Option Unit) := by
  refine Machine.Layer.inductive (steady_inductive P) (fun _ _ _ => trivial) (.of_facts ?core ?spawn
    ?stable ?call ?handle fun _ _ _ => trivial)
  case core =>
    exact fun σ i hw _ h c hc => serverSocket_exec hw.2 (h.inv c) i hc
  case spawn =>
    intro σ i hw hv h j hj
    unfold Core.Sendable
    split
    · obtain ⟨event, form, rfl, hc, -, -⟩ := clientEmitRest_spawned hj
      exact h.inv _ hc
    · trivial
  case stable =>
    intro σ i j hw _ hvj _ hj
    unfold Core.Sendable at hj ⊢
    split
    · rename_i c p
      cases i with
      | conn i =>
          rcases execConn_serverSocket (P := P) (i := i)
            (hvj.1 (.client c) (List.mem_singleton_self _)) with hs | ⟨a, s, rfl, hp, rfl⟩
          · exact hs ▸ hj
          · simp [runtime, exec, execConn, completeConnectionAttempt, hp, Conn.setManager,
              Conn.setClient]
      | _ => exact hj
    · trivial
  case call =>
    intro σ i _ _ hc
    unfold Core.Sendable
    split
    · cases hc
    · trivial
  case handle =>
    intro σ i is _ _ his j hj
    rcases onThrow_handle his with rfl | ⟨a, err, rfl, -⟩
    · cases hj
    · rw [List.mem_singleton.mp hj]
      trivial

/-- Who leaves an instruction of the section pending. -/
theorem unskipped_spawned {σ : Core} {i j : Instr} (hj : j ∈ (exec P i σ).spawned)
    (hu : j.unskipped = true) :
    (∃ c r, i = .conn (.markDisconnected c r)) ∨ (∃ c, i = .mail (.rejectPendingAcks c)) ∨
      (∃ c p, i = .mail (.clientEmitRest c p)) ∨ ∃ c e f, i = .mail (.clientEmit c e f) := by
  have hby := spawnedBy hj
  unfold Instr.unskipped at hu
  split at hu
  · obtain ⟨c, r, rfl⟩ : ∃ c r, i = .conn (.markDisconnected c r) := hby
    exact Or.inl ⟨c, r, rfl⟩
  · rename_i c
    obtain ⟨r, rfl⟩ : ∃ r, i = .conn (.markDisconnected c r) := hby
    exact Or.inl ⟨c, r, rfl⟩
  · rcases rejectAck_spawned hj with ⟨rfl, -⟩ | ⟨p, r, rfl, -⟩
    · exact Or.inr (Or.inl ⟨_, rfl⟩)
    · exact Or.inr (Or.inr (Or.inl ⟨_, _, rfl⟩))
  · obtain ⟨event, form, rfl, -⟩ := clientEmitRest_spawned hj
    exact Or.inr (Or.inr (Or.inr ⟨_, _, _, rfl⟩))
  · cases hu

theorem callback_inner (μ : Mail) (r : RequestId) :
    ∀ j ∈ (μ.callback r).push, j.isInner = true := by
  rw [callback_push]
  split
  · exact fun _ hj => absurd hj List.not_mem_nil
  · intro j hj
    rw [List.mem_singleton.mp hj]
    rfl

/-- **The section**: nothing in it throws, so that an exception passes none of it. -/
theorem acks_section (P : Platform) : Section (runtime P) (fun _ _ => True)
    (fun σ => (σ.Wf P ∧ σ.conn.Steady) ∧
      ∀ c, (σ.conn.clients c).connected = true → (σ.conn.clients c).serverSocket.isSome = true)
    (fun σ i => (i.Valid σ ∧ True) ∧ σ.Sendable i) (fun i => i.unskipped = true)
    fun i => i.isInner = true where
  app i hi := by
    unfold Instr.unskipped at hi
    split at hi <;> [rfl; rfl; rfl; rfl; cases hi]
  frame i hi := by
    unfold Instr.isInner at hi
    split at hi <;> [rfl; rfl; cases hi]
  push σ i hi hu j hj := by
    unfold Instr.unskipped at hu
    split at hu
    · cases hj
    · simp only [runtime, exec, execMail, List.mem_map] at hj
      obtain ⟨h, -, rfl⟩ := hj
      exact Or.inl rfl
    · rename_i c h
      refine Or.inr ?_
      cases h with
      | timed r => exact callback_inner _ r j hj
      | promise r =>
          simp only [runtime, exec, execMail, rejectAck] at hj
          split at hj
          · cases hj
          · split at hj
            · exact callback_inner _ r j hj
            · cases hj
    · rename_i c p
      simp only [runtime, exec, execMail, clientEmitRest] at hj
      split at hj
      · cases hj
      · split at hj
        · split at hj
          · rw [List.mem_singleton.mp hj]
            exact Or.inl rfl
          · cases hj
        · cases hj
    · cases hu
  chain σ i _ := by
    by_cases hu : ∃ j ∈ (exec P i σ).push, j.unskipped = true
    · obtain ⟨j, hj, hu⟩ := hu
      rcases unskipped_spawned (List.mem_append_left _ hj) hu with
        ⟨c, r, rfl⟩ | ⟨c, rfl⟩ | ⟨c, p, rfl⟩ | ⟨c, e, f, rfl⟩
      · simp only [runtime, exec, execConn, markDisconnected]
        split
        · exact .nil
        · cases (σ.conn.clients c).serverSocket with
          | none => exact List.isChain_cons_cons.mpr ⟨(by intro h; cases h), .singleton _⟩
          | some s =>
              exact List.isChain_cons_cons.mpr
                ⟨fun _ => Or.inl rfl, List.isChain_cons_cons.mpr ⟨(by intro h; cases h), .singleton _⟩⟩
      · refine chain_of_all fun k hk => ?_
        simp only [runtime, exec, execMail, List.mem_map] at hk
        obtain ⟨h, -, rfl⟩ := hk
        rfl
      · simp only [runtime, exec, execMail, clientEmitRest]
        split
        · exact .nil
        · split
          · split
            · exact .singleton _
            · exact .nil
          · exact .nil
      · simp only [runtime, exec, execMail, clientEmit]
        split
        · exact .nil
        · split
          · exact .nil
          · exact List.isChain_cons_cons.mpr ⟨fun _ => Or.inr rfl, .singleton _⟩
    · refine chain_of_tail fun j hj hS => hu ⟨j, ?_, hS⟩
      exact List.mem_of_mem_tail hj
  fails σ i hi hu := by
    unfold Instr.unskipped at hu
    split at hu
    · rfl
    · rfl
    · rename_i c h
      have hcallback : ∀ (μ : Mail) (r : RequestId), (μ.callback r).fails = false := fun μ r => by
        unfold Mail.callback
        split <;> rfl
      cases h with
      | timed r => exact hcallback ..
      | promise r =>
          simp only [runtime, exec, execMail, rejectAck]
          split
          · rfl
          · split
            · exact hcallback ..
            · rfl
    · rename_i c p
      obtain ⟨s, hs⟩ :=
        Option.isSome_iff_exists.mp (hi.ok.2 : (σ.conn.clients c).serverSocket.isSome)
      simp only [runtime, exec, execMail, clientEmitRest, hs]
      split <;> rfl
    · cases hu
  handleChain σ i is _ _ his := by
    rcases onThrow_handle his with rfl | ⟨a, err, rfl, -⟩
    · exact .nil
    · exact .singleton _

/-- What is pending of the section stays pending until it is executed. -/
theorem unskipped_stays {C : State → Action Instr → Prop} {σ σ' : State} {a : Action Instr}
    (h : (runtime P).Reach C newServer σ) (hC : ∀ τ a, C τ a → CallsReturn τ a) (hc : C σ a)
    (hs : (runtime P).step σ a = some σ') {j : Instr} (hj : j ∈ σ.pending)
    (hu : j.unskipped = true) :
    j ∈ σ'.pending ∨ ∃ τ, a = .run ∧ (runtime P).next σ = some (j, τ) := by
  have hK₀ : Keeps (fun σ : Core => (σ.Wf P ∧ σ.conn.Steady) ∧
        ∀ c, (σ.conn.clients c).connected = true → (σ.conn.clients c).serverSocket.isSome = true)
      (fun σ i => (i.Valid σ ∧ True) ∧ σ.Sendable i) (fun _ => (none : Option Unit))
      newServer.core newServer.pending :=
    ⟨⟨⟨newServer_wf P, fun _ _ hc => (by cases hc), fun _ hc => (by cases hc)⟩,
      fun _ hc => (by cases hc)⟩, nofun, .nil⟩
  have hK := h.inv_ok (sendable_inductive P) (fun _ _ _ _ _ _ _ => trivial) hK₀
  have hk := h.chain (acks_section P) (sendable_inductive P) (fun _ _ _ _ _ _ _ => trivial)
    (fun τ a hc => (hC τ a hc).rejections) hK₀ .nil
  exact (acks_section P).survives (sendable_inductive P) hK hk (fun _ _ _ _ => trivial)
    (hC σ a hc).rejections hs hj hu

/-! ## 3. What an instruction does to the handles -/

theorem setOutbox_mem {μ : Mail} {c d : ClientId} {g : Outbox → Outbox} {k : AckHandle}
    (hg : ∀ b : Outbox, k ∈ b.pendingAcks → k ∈ (g b).pendingAcks)
    (hk : k ∈ (μ.outboxes c).pendingAcks) : k ∈ ((μ.setOutbox d g).outboxes c).pendingAcks := by
  simp only [Mail.setOutbox, modify_apply]
  split
  · rename_i hd
    exact hg _ (hd ▸ hk)
  · exact hk

theorem dropHandle_mem {μ : Mail} {r : RequestId} {h k : AckHandle} {c : ClientId}
    (hk : k ∈ (μ.outboxes c).pendingAcks) :
    k ∈ ((μ.dropHandle r h).outboxes c).pendingAcks ∨ k = h := by
  by_cases he : k = h
  · exact Or.inr he
  · refine Or.inl ?_
    unfold Mail.dropHandle
    split
    · exact hk
    · exact setOutbox_mem (fun b hb => OSet.mem_erase.mpr ⟨hb, he⟩) hk

theorem onSettled_mem {μ : Mail} {r : RequestId} {k : AckHandle} {c : ClientId}
    (hk : k ∈ (μ.outboxes c).pendingAcks) :
    k ∈ ((μ.onSettled r).outboxes c).pendingAcks ∨ k.request = r := by
  have hdrop : k ∈ ((if (μ.requests r).tracked then μ.dropHandle r (.timed r)
      else μ).outboxes c).pendingAcks ∨ k.request = r := by
    split
    · exact (dropHandle_mem hk).imp_right fun h => by rw [h]; rfl
    · exact Or.inl hk
  unfold Mail.onSettled
  dsimp only
  split
  · exact hdrop
  · exact hdrop.imp_left (setOutbox_mem fun _ h => h)

/-- Settling `r` takes out no handle of another request. -/
theorem settle_mem {μ : Mail} {r : RequestId} {k : AckHandle} {c : ClientId}
    (hk : k ∈ (μ.outboxes c).pendingAcks) :
    k ∈ (((μ.settle r).callback r).part.outboxes c).pendingAcks ∨ k.request = r := by
  have hsettle : k ∈ ((μ.settle r).outboxes c).pendingAcks ∨ k.request = r :=
    onSettled_mem hk
  rcases hsettle with h | h
  · unfold Mail.callback
    split
    · exact (dropHandle_mem h).imp_right fun h => by rw [h]; rfl
    · exact Or.inl h
  · exact Or.inr h

theorem clientEmit_mem {σ : Core} {c d : ClientId} {event : String} {form : EmitForm}
    {k : AckHandle} (hk : k ∈ (σ.mail.outboxes c).pendingAcks) :
    k ∈ ((clientEmit σ d event form).part.outboxes c).pendingAcks := by
  have hinsert : ∀ (h : AckHandle) (b : Outbox), k ∈ b.pendingAcks →
      k ∈ (b.pendingAcks.insert h) := fun h b hb => OSet.mem_insert.mpr (Or.inl hb)
  unfold clientEmit
  dsimp only
  split
  · exact hk
  · generalize Request.mk _ _ _ _ _ _ _ = q
    have hout := newRequest_outboxes σ.mail form q
    generalize σ.mail.newRequest form q = nr at hout
    obtain ⟨μ, reply⟩ := nr
    have hμ : k ∈ (μ.outboxes c).pendingAcks := by
      rw [show μ.outboxes = σ.mail.outboxes from hout]
      exact hk
    dsimp only
    split
    · refine setOutbox_mem (fun _ h => h) ?_
      split
      · exact setOutbox_mem (fun b hb => hinsert _ b hb) hμ
      · exact hμ
    · split
      · split
        · exact setOutbox_mem (fun b hb => hinsert _ b hb) hμ
        · exact hμ
      · refine setOutbox_mem (fun b hb => hinsert _ b hb) ?_
        split
        · exact setOutbox_mem (fun b hb => hinsert _ b hb) hμ
        · exact hμ

theorem settles_concludes {σ : Core} {i : Instr} {r : RequestId} (h : σ.settles r i = true) :
    σ.concludes r i = true := by
  unfold Core.settles at h
  unfold Core.concludes
  split at h <;> simp_all

/-- **A handle leaves `pendingAcks`** when its request is concluded, or for the rejections of a
    disconnect. -/
theorem exec_registers (i : Instr) {σ : Core} {c : ClientId} {k : AckHandle}
    (hk : k ∈ (σ.mail.outboxes c).pendingAcks) :
    k ∈ ((exec P i σ).core.mail.outboxes c).pendingAcks ∨ i = .mail (.rejectPendingAcks c) ∨
      σ.concludes k.request i = true := by
  have hsame : ∀ {μ : Mail} {Q : Prop}, μ.outboxes = σ.mail.outboxes →
      k ∈ (μ.outboxes c).pendingAcks ∨ Q := fun h => Or.inl (h ▸ hk)
  by_cases hs : ∃ r, σ.settles r i = true
  · obtain ⟨r, hs⟩ := hs
    rw [(exec_settles hs).1]
    rcases settle_mem (r := r) hk with h | rfl
    · exact Or.inl h
    · exact Or.inr (Or.inr (settles_concludes hs))
  · cases i with
    | mail i =>
        cases i with
        | clientFlags d flags => exact Or.inl (setOutbox_mem (fun _ h => h) hk)
        | clientEmit d event form => exact Or.inl (clientEmit_mem hk)
        | clientEmitRest d p =>
            have h := fun s =>
              (sendToServer_requests σ.mail s d p.serial p.event p.reply).outboxes
            refine Or.inl ?_
            simp only [exec, execMail, clientEmitRest]
            split
            · exact hk
            · split
              · exact setOutbox_mem (fun _ h => h) (h _ ▸ hk)
              · exact setOutbox_mem (fun _ h => h) (h _ ▸ hk)
        | flush a s => exact Or.inl (setOutbox_mem (fun _ h => h) hk)
        | flushPackets a s ps =>
            cases ps with
            | nil => exact Or.inl hk
            | cons p ps =>
                refine Or.inl ?_
                simp only [exec, execMail, flushPackets]
                split
                · exact hk
                · split
                  · exact hk
                  · exact setOutbox_mem (fun b hb => OSet.mem_insert.mpr (Or.inl hb)) hk
        | flushRest a s p ps =>
            refine Or.inl ?_
            simp only [exec, execMail, flushRest]
            split
            · rw [(sendToServer_requests ..).outboxes]
              exact hk
            · exact setOutbox_mem (fun _ h => h) hk
        | rejectPendingAcks d =>
            by_cases hd : d = c
            · exact Or.inr (Or.inl (hd ▸ rfl))
            · refine Or.inl ?_
              simpa [exec, execMail, Mail.setOutbox, Ne.symm hd] using hk
        | rejectAck d h =>
            cases h with
            | timed r => exact absurd ⟨r, decide_eq_true rfl⟩ hs
            | promise r =>
                simp only [exec, execMail, rejectAck]
                split
                · exact Or.inl hk
                · rename_i hsend
                  split
                  · rename_i ht
                    exact absurd ⟨r, by simp [Core.settles, hsend, ht]⟩ hs
                  · exact Or.inl hk
        | ackReply reply =>
            cases reply with
            | callback => exact Or.inl hk
            | request r =>
                simp only [exec, execMail, ackReply]
                split
                · rename_i ht
                  split
                  · exact Or.inl hk
                  · rename_i hset
                    exact absurd ⟨r, by simp [Core.settles, ht, hset]⟩ hs
                · rename_i ht
                  rcases dropHandle_mem (r := r) (h := .promise r) hk with h | rfl
                  · exact Or.inl h
                  · exact Or.inr (Or.inr (by simp [Core.concludes, AckHandle.request, ht]))
        | ackTimeout r => exact absurd ⟨r, decide_eq_true rfl⟩ hs
        | serverEmit s event form =>
            refine Or.inl ?_
            simp only [exec, execMail, serverEmit]
            split
            · exact hk
            · have h := newRequest_outboxes σ.mail form
                { promise := decide (form = .promise)
                  timed := (σ.mail.serverFlags s).timeout.isSome && decide (form ≠ .plain) }
              split <;> exact h ▸ hk
        | serverEmitRest s serial event reply was =>
            simp only [exec, execMail, serverEmitRest]
            split
            · exact Or.inl hk
            · exact hsame (sendToClient_requests ..).outboxes
        | sendBroadcastRest s serial event was => exact hsame (sendToClient_requests ..).outboxes
        | pumpRun r => exact hsame (pumpRun_requests σ r).outboxes
        | pumpRest r =>
            simp only [exec, execMail, pumpRest]
            split
            · exact hsame (pump_requests ..).outboxes
            · exact Or.inl hk
        | removeDeliveries s => exact hsame (removeDeliveries_requests σ s).outboxes
        | invokeAck j encodable => exact hsame (invokeAck_requests σ j encodable).outboxes
        | serverFlags | sendBroadcast | cancelTimer | setDelay | setNow => exact Or.inl hk
    | _ => exact Or.inl hk

/-- **What an emit registers** for its request `r`: the answer function of an `emitWithAck`; and, if
    its client is connected, the wrapper of the packet it is about to send. -/
structure Core.Registers (σ : Core) (c : ClientId) (event : String) (form : EmitForm)
    (r : RequestId) (o : Out Mail) : Prop where
  named : event ∉ RESERVED_EVENTS
  request : o.part.requests r = σ.request c form
  promise : form = .promise → .promise r ∈ (o.part.outboxes c).pendingAcks
  packet : (σ.conn.clients c).connected = true → ∃ p, .mail (.clientEmitRest c p) ∈ o.push ∧
    p.reply = some (.request r) ∧ ((o.part.requests r).timed = true →
      p.timedCallback = some r ∧ .timed r ∈ (o.part.outboxes c).pendingAcks)
  unsent : (σ.conn.clients c).connected = false → .timed r ∈ (o.part.outboxes c).pendingAcks →
    .timed r ∈ (σ.mail.outboxes c).pendingAcks

theorem clientEmit_registers (σ : Core) (c : ClientId) (event : String) (form : EmitForm)
    {r : RequestId} (hf : σ.mail.Fresh (clientEmit σ c event form).part r) :
    σ.Registers c event form r (clientEmit σ c event form) := by
  obtain ⟨hle, hlt⟩ := hf
  unfold clientEmit at hlt ⊢
  dsimp only at hlt ⊢
  split at hlt
  · exact absurd hlt (Nat.not_lt.mpr hle)
  · rename_i hres
    rw [if_neg hres]
    have hnew : r < σ.mail.requestCount + 1 → r = σ.mail.requestCount := fun h =>
      Nat.le_antisymm (Nat.le_of_lt_succ h) hle
    cases hconn : (σ.conn.clients c).connected <;>
      cases htime : (σ.mail.outboxes c).flags.timeout.isSome <;> cases form <;>
      simp only [hconn, htime, Mail.newRequest, Mail.timedOf, Mail.setOutbox, Bool.and_true,
        decide_true, decide_false, Bool.not_true, Bool.not_false, if_true,
        Bool.false_eq_true, if_false, ne_eq, reduceCtorEq, not_false_eq_true, not_true_eq_false,
        Function.update_self, Bool.and_self] at hlt ⊢
    -- a plain emit, or a callback without a timeout, makes no request
    all_goals first
      | exact absurd hlt (Nat.not_lt.mpr hle)
      | obtain rfl := hnew hlt
        constructor <;> simp [hconn, htime, hres, Core.request]

/-! ## 4. The answer function of a promise is in one place -/

/-- What an instruction alone may do: reject a promise, or go on with its emit. -/
def Instr.handles : Instr → Option (RequestId ⊕ RequestId)
  | .mail (.rejectAck _ (.promise r)) => some (.inl r)
  | .mail (.clientEmitRest _ p) =>
      match p.reply with
      | some (.request r) => some (.inr r)
      | _ => none
  | _ => none

/-- A promise its client holds has not been given up. -/
def Mail.Lone (μ : Mail) : Prop :=
  ∀ c r, .promise r ∈ (μ.outboxes c).pendingAcks →
    r < μ.requestCount ∧ (μ.requests r).client = some c ∧ (μ.requests r).reason = false

/-- A promise under rejection is held by nobody; an emit that goes on is still sending. -/
def Core.Lone (σ : Core) : Instr → Prop
  | .mail (.rejectAck _ (.promise r)) => r < σ.mail.requestCount ∧
      (∀ c, .promise r ∉ (σ.mail.outboxes c).pendingAcks) ∧
      ((σ.mail.requests r).reason = true → (σ.mail.requests r).sending = false)
  | .mail (.clientEmitRest _ p) => ∀ r, p.reply = some (.request r) →
      r < σ.mail.requestCount ∧ (σ.mail.requests r).sending = true
  | _ => True

theorem handles_eq_inl {i : Instr} {r : RequestId} (h : i.handles = some (.inl r)) :
    ∃ c, i = .mail (.rejectAck c (.promise r)) := by
  unfold Instr.handles at h
  split at h
  · rename_i c r'
    obtain rfl : r' = r := by simpa using h
    exact ⟨c, rfl⟩
  · split at h <;> cases h
  · cases h

theorem handles_eq_inr {i : Instr} {r : RequestId} (h : i.handles = some (.inr r)) :
    ∃ c p, i = .mail (.clientEmitRest c p) ∧ p.reply = some (.request r) := by
  unfold Instr.handles at h
  split at h
  · cases h
  · rename_i c p
    split at h
    · rename_i hr
      simp only [Option.some.injEq, Sum.inr.injEq] at h
      exact ⟨c, p, rfl, h ▸ hr⟩
    · cases h
  · cases h

/-- Handles of promises are registered by emits only. -/
theorem promise_mem {σ : Core} (i : Instr) {c : ClientId} {r : RequestId}
    (h : .promise r ∈ ((exec P i σ).core.mail.outboxes c).pendingAcks) :
    .promise r ∈ (σ.mail.outboxes c).pendingAcks ∨
      (i.requester = some c ∧ σ.mail.Fresh (exec P i σ).core.mail r) := by
  rcases (exec_turns (P := P) i σ).pendingAcks c _ h with
    h | ⟨hc, hf, -⟩ | ⟨a, s, p, ps, r', -, -, -, he, -⟩
  · exact Or.inl h
  · exact Or.inr ⟨hc, hf⟩
  · cases he

theorem lone_core {σ : Core} {i : Instr} (h : σ.mail.Lone) (hi : σ.Lone i) :
    (exec P i σ).core.mail.Lone := by
  intro c r hm
  have hT := exec_turns (P := P) i σ
  rcases promise_mem i hm with hold | ⟨hc, hf⟩
  · obtain ⟨hlt, hcl, hre⟩ := h c r hold
    refine ⟨hlt.trans_le hT.count, (hT.old hlt).client.trans hcl, ?_⟩
    rw [← Bool.not_eq_true]
    intro hre'
    rcases (exec_answers i hlt).reason.mp hre' with hr | ⟨-, d, rfl⟩
    · rw [hre] at hr
      cases hr
    · exact hi.2.1 c hold
  · exact ⟨hf.2, (hT.asked r hf).client.trans hc, (hT.asked r hf).reason⟩

theorem lone_spawned {σ : Core} {i j : Instr} (h : σ.mail.Lone) (hi : σ.Lone i)
    (hj : j ∈ (exec P i σ).spawned) : (exec P i σ).core.Lone j := by
  have hT := exec_turns (P := P) i σ
  unfold Core.Lone
  split
  · rename_i c r
    rcases rejectAck_spawned hj with ⟨rfl, hk⟩ | ⟨p, r', rfl, hr, hrep, -, hre⟩
    · obtain ⟨hlt, hcl, hre⟩ := h c r hk
      refine ⟨hlt.trans_le hT.count, fun d hd => ?_, fun hre' => ?_⟩
      · rcases promise_mem _ hd with hold | ⟨hc, -⟩
        · obtain rfl := Option.some.inj ((h d r hold).2.1.symm.trans hcl)
          simp [exec, execMail, Mail.setOutbox] at hd
        · cases hc
      · exact absurd (hre'.symm.trans hre) (by intro h; cases h)
    · obtain rfl := AckHandle.promise.inj hr
      obtain ⟨hlt, hsend⟩ := hi r hrep
      refine ⟨hlt.trans_le hT.count, fun d hd => ?_, fun _ => ?_⟩
      · rcases promise_mem _ hd with hold | ⟨hc, -⟩
        · rw [(h d r hold).2.2] at hre
          cases hre
        · cases hc
      · rw [← Bool.not_eq_true, (exec_answers _ hlt).sending]
        rintro ⟨-, hno⟩
        refine hno ⟨c, p, rfl, hrep, ?_⟩
        simp only [exec, execMail, clientEmitRest] at hj
        split at hj
        · cases hj
        · rename_i hs
          rw [hs]
          rfl
  · rename_i c p
    intro r hrep
    obtain ⟨event, form, rfl, hc, hpush, -⟩ := clientEmitRest_spawned hj
    obtain ⟨-, hf⟩ := (clientEmit_turns (T := fun _ _ => False) (B := fun _ _ => False) σ c event
      form).2 p hpush
    refine ⟨(hf r hrep).2, ?_⟩
    rw [show (exec P (.mail (.clientEmit c event form)) σ).core.mail.requests r = _ from
      (clientEmit_registers σ c event form (hf r hrep)).request]
    exact hc
  · trivial

theorem lone_stable {σ : Core} {i j : Instr} (hj : σ.Lone j) (ha : Apart Instr.handles i j) :
    (exec P i σ).core.Lone j := by
  have hT := exec_turns (P := P) i σ
  unfold Core.Lone at hj ⊢
  split
  · rename_i c r
    obtain ⟨hlt, hno, hre⟩ := hj
    refine ⟨hlt.trans_le hT.count, fun d hd => ?_, fun hre' => ?_⟩
    · rcases promise_mem _ hd with hold | ⟨-, hf⟩
      · exact hno d hold
      · exact absurd hlt (Nat.not_lt.mpr hf.1)
    · rw [← Bool.not_eq_true, (exec_answers _ hlt).sending]
      rintro ⟨hsend, -⟩
      rcases (exec_answers i hlt).reason.mp hre' with hr | ⟨-, d, rfl⟩
      · rw [hre hr] at hsend
        cases hsend
      · exact ha _ rfl rfl
  · rename_i c p
    intro r hrep
    obtain ⟨hlt, hsend⟩ := hj r hrep
    refine ⟨hlt.trans_le hT.count, (exec_answers _ hlt).sending.mpr ⟨hsend, ?_⟩⟩
    rintro ⟨d, q, rfl, hq, -⟩
    exact ha (.inr r) (by simp [Instr.handles, hq]) (by simp [Instr.handles, hrep])
  · trivial

theorem lone_fresh {σ : Core} {i j k : Instr} (hi : σ.Lone i) (hj : σ.Lone j)
    (hk : k ∈ (exec P i σ).spawned) : Apart Instr.handles k j := by
  intro t ht ht'
  cases t with
  | inl r =>
      obtain ⟨c, rfl⟩ := handles_eq_inl ht
      obtain ⟨d, rfl⟩ := handles_eq_inl ht'
      rcases rejectAck_spawned hk with ⟨rfl, hheld⟩ | ⟨p, r', rfl, hr, hrep, -, hre⟩
      · exact hj.2.1 c hheld
      · obtain rfl := AckHandle.promise.inj hr
        exact absurd ((hi r hrep).2.symm.trans (hj.2.2 hre)) nofun
  | inr r =>
      obtain ⟨c, p, rfl, hrep⟩ := handles_eq_inr ht
      obtain ⟨d, q, rfl, hrep'⟩ := handles_eq_inr ht'
      obtain ⟨event, form, rfl, -, hpush, -⟩ := clientEmitRest_spawned hk
      obtain ⟨-, hf⟩ := (clientEmit_turns (T := fun _ _ => False) (B := fun _ _ => False) σ c event
        form).2 p hpush
      exact absurd (hj r hrep').1 (Nat.not_lt.mpr (hf r hrep).1)

theorem lone_apart (σ : Core) (i : Instr) :
    (exec P i σ).spawned.Pairwise (Apart Instr.handles) := by
  have hfree : ∀ l : List Instr, (∀ j ∈ l, j.handles = none) → l.Pairwise (Apart Instr.handles) :=
    fun l h => List.pairwise_of_forall_mem_list fun a ha _ _ => .of_none (h a ha)
  by_cases hh : ∀ j ∈ (exec P i σ).spawned, j.handles = none
  · exact hfree _ hh
  · obtain ⟨j, hj, hne⟩ : ∃ j ∈ (exec P i σ).spawned, j.handles ≠ none := by simpa using hh
    obtain ⟨t, ht⟩ := Option.ne_none_iff_exists'.mp hne
    cases t with
    | inl r =>
        obtain ⟨c, rfl⟩ := handles_eq_inl ht
        rcases rejectAck_spawned hj with ⟨rfl, -⟩ | ⟨p, r', rfl, -⟩
        · simp only [exec, execMail, Effect.spawned, List.append_nil]
          rw [List.pairwise_map]
          refine (σ.mail.outboxes c).pendingAcks.nodup.imp fun {h k} hne t ht ht' => ?_
          cases t with
          | inl r =>
              obtain ⟨_, hh⟩ := handles_eq_inl ht
              obtain ⟨_, hk⟩ := handles_eq_inl ht'
              simp only [Instr.mail.injEq, MailInstr.rejectAck.injEq] at hh hk
              exact hne (hh.2.trans hk.2.symm)
          | inr r =>
              obtain ⟨_, _, hh, -⟩ := handles_eq_inr ht
              cases hh
        · have hpost : ∀ {s k}, k ∈ (sendToServer σ.mail s c p.serial p.event p.reply).2 →
              k.handles = none := fun {s k} hk => by
            have hm := (sendToServer_posts k hk).2
            unfold Instr.handles
            split <;> [cases hm; cases hm; rfl]
          simp only [exec, execMail, clientEmitRest]
          split
          · exact .nil
          · split
            · split
              · exact .cons (fun k hk => (Apart.of_none (hpost hk)).symm)
                  (hfree _ fun k hk => hpost hk)
              · exact hfree _ fun k hk => hpost hk
            · exact hfree _ fun k hk => hpost hk
    | inr r =>
        obtain ⟨c, p, rfl, -⟩ := handles_eq_inr ht
        obtain ⟨event, form, rfl, -⟩ := clientEmitRest_spawned hj
        simp only [exec, execMail, clientEmit]
        split
        · exact .nil
        · split
          · exact .nil
          · exact .cons (fun _ _ => .of_none rfl) (List.pairwise_singleton _ _)

/-- The rejections and the emits of promises are each in one place. -/
theorem lone_inductive (P : Platform) : Inductive (runtime P) (fun _ _ => True)
    (fun σ => σ.mail.Lone) Core.Lone Instr.handles where
  core _ _ h := lone_core h.inv h.ok
  spawn _ _ h _ hj := lone_spawned h.inv h.ok hj
  stable _ _ _ _ hj ha := lone_stable hj ha
  call σ i _ hc := by
    unfold Core.Lone
    split <;> [cases hc; cases hc; trivial]
  handle σ i is _ _ his j hj := by
    rcases onThrow_handle his with rfl | ⟨a, err, rfl, -⟩
    · cases hj
    · rw [List.mem_singleton.mp hj]
      trivial
  apart σ i _ := lone_apart σ i
  fresh _ _ _ _ h hj _ hk := lone_fresh h.ok hj hk
  callFresh σ i j _ hc _ := by
    refine .of_none ?_
    unfold Instr.handles
    split <;> [cases hc; cases hc; rfl]
  handleFree σ i is his j hj := by
    rcases onThrow_handle his with rfl | ⟨a, err, rfl, -⟩
    · cases hj
    · rw [List.mem_singleton.mp hj]
      rfl
  free _ _ _ := trivial

theorem reach_lone {C : State → Action Instr → Prop} {σ : State}
    (h : (runtime P).Reach C newServer σ) : Keeps (fun σ : Core => σ.mail.Lone) Core.Lone
      Instr.handles σ.core σ.pending :=
  h.inv_ok (lone_inductive P) (fun _ _ _ _ _ _ _ => trivial)
    ⟨fun _ _ h => absurd h (OSet.not_mem_empty _), fun _ hj => absurd hj List.not_mem_nil, .nil⟩

/-! ## 5. What is known of a step -/

theorem concludedIn_singleton {σ : Core} {i : Instr} {r : RequestId} :
    concludedIn [(σ, i)] r ↔ σ.concludes r i = true := by
  simp [concludedIn]

theorem requestSentIn_singleton {σ : Core} {i : Instr} {r : RequestId} :
    requestSentIn [(σ, i)] r ↔ ∃ p : BufferedPacket, p.timedCallback = some r ∧ σ.sends p i := by
  simp [requestSentIn]

/-- What belongs to an emit, a flush or a disconnect was pending before a step, or the instruction
    it executes has left it behind. -/
theorem midway_pending {σ σ' : State} {a : Action Instr} (hs : (runtime P).step σ a = some σ')
    {j : Instr} (hj : j ∈ σ'.pending) (hm : j.midway = true) : j ∈ σ.pending ∨
      ∃ i τ, a = .run ∧ (runtime P).next σ = some (i, τ) ∧ j ∈ (exec P i σ.core).spawned := by
  rcases pending_cases hs hj with hj | ⟨i, τ, rfl, hn, hj⟩ | ⟨-, hc⟩ | ⟨c, i, is, his, hj⟩
  · exact Or.inl hj
  · exact Or.inr ⟨i, τ, rfl, hn, (next_mem hn).2 ▸ hj⟩
  · unfold Instr.midway at hm
    split at hm <;> [cases hc; cases hc; cases hc; cases hc; cases hc; cases hc; cases hc; cases hm]
  · rcases onThrow_handle his with rfl | ⟨b, err, rfl, -⟩
    · cases hj
    · rw [List.mem_singleton.mp hj] at hm
      cases hm

section Step

variable {C : State → Action Instr → Prop} {σ σ' τ : State} {tr : List (Core × Instr)} {i : Instr}

/-- A task, and the last instruction of the stack, execute with no emit, flush or disconnect under
    way. -/
theorem reach_alone (h : (runtime P).Reach C newServer σ) (hC : ∀ τ a, C τ a → timersIdle τ a)
    (hn : (runtime P).next σ = some (i, τ)) (hi : i.isLast = true ∨ i.isTask = true) {j : Instr}
    (hj : j ∈ σ.pending) : j = i ∨ j.midway = false := by
  have hrel := (List.pairwise_cons.mp ((reach_handled h hC).next hn).rel).1
  have hj' : j = i ∨ j ∈ τ.pending := by
    obtain ⟨-, ⟨-, hst, hq⟩ | ⟨hst, hst', hq⟩⟩ := next_pending hn
    · simpa [Config.pending, hst, hq] using hj
    · simpa [Config.pending, hst, hst', hq] using hj
  exact hj'.imp_right fun hj => (hrel j hj).task hi

/-- What a step leaves of a request that was made. -/
theorem made_step {a : Action Instr} (hs : (runtime P).step σ a = some σ') {r : RequestId}
    (hlt : r < σ.core.mail.requestCount) : r < σ'.core.mail.requestCount ∧
      (σ'.core.mail.requests r).client = (σ.core.mail.requests r).client ∧
      (σ'.core.mail.requests r).timed = (σ.core.mail.requests r).timed := by
  rcases (similar_keeping P).step hs with ⟨i, τ, rfl, -, -, hsim⟩ | ⟨-, hsim⟩
  · have hT := exec_turns (P := P) i σ.core
    rw [hsim.mail.requestCount, hsim.mail.requests]
    exact ⟨hlt.trans_le hT.count, (hT.old hlt).client, (hT.old hlt).timed⟩
  · rw [hsim.mail.requestCount, hsim.mail.requests]
    exact ⟨hlt, rfl, rfl⟩

theorem made_run (hrun : (runtime P).Run C σ tr σ') {r : RequestId}
    (hlt : r < σ.core.mail.requestCount) : r < σ'.core.mail.requestCount ∧
      (σ'.core.mail.requests r).client = (σ.core.mail.requests r).client ∧
      (σ'.core.mail.requests r).timed = (σ.core.mail.requests r).timed := by
  induction hrun with
  | start => exact ⟨hlt, rfl, rfl⟩
  | step _ _ hs ih =>
      obtain ⟨hlt', hcl, ht⟩ := made_step hs ih.1
      exact ⟨hlt', hcl.trans ih.2.1, ht.trans ih.2.2⟩

/-- Only requests that were made are concluded. -/
theorem concludes_lt (h : (runtime P).Reach C newServer σ) (hC : ∀ τ a, C τ a → timersIdle τ a)
    (hn : (runtime P).next σ = some (i, τ)) {r : RequestId} (hc : σ.core.concludes r i = true) :
    r < σ.core.mail.requestCount := by
  have he := reach_executes h hC hn
  have hd := he.due
  have hpl := he.known.placed
  have hmade := (reach_replies h).2 i (next_mem hn).1
  unfold Core.concludes at hc
  split at hc
  case h_5 => cases hc
  all_goals simp only [Bool.and_eq_true, decide_eq_true_eq] at hc
  · exact hc.1 ▸ hmade _ (List.mem_singleton_self _) _ rfl
  · exact hc ▸ (he.handled.requested.timer _ hd).1
  · exact hc ▸ hpl.1.lt
  · exact hc.1 ▸ hpl.1.lt

/-- Only packets of requests that were made are sent, each of them by its own client. -/
theorem sends_owned (he : Executes P σ i) {p : BufferedPacket} (hs : σ.core.sends p i) :
    ∃ c, σ.core.mail.Owns c p := by
  have hpl := he.known.placed
  unfold Core.sends at hs
  split at hs
  · exact ⟨_, hs.1 ▸ hpl.1⟩
  · exact ⟨_, hs.1 ▸ hpl.1 _ List.mem_cons_self⟩
  · exact hs.elim

/-- **What the history says of the requests of the heap.** -/
structure Recorded (tr : List (Core × Instr)) (σ : Core) : Prop where
  settled : ∀ r < σ.mail.requestCount, (σ.mail.requests r).timed = true →
    ((σ.mail.requests r).settled = true ↔ concludedIn tr r)
  concluded : ∀ r, concludedIn tr r → r < σ.mail.requestCount
  sent : ∀ r, requestSentIn tr r → r < σ.mail.requestCount

theorem Recorded.similar {σ σ' : Core} (h : Recorded tr σ) (hs : σ.Similar σ') :
    Recorded tr σ' := by
  refine ⟨?_, ?_, ?_⟩ <;> rw [hs.mail.requestCount]
  · rw [hs.mail.requests]
    exact h.settled
  · exact h.concluded
  · exact h.sent

theorem run_recorded (h : (runtime P).Run C newServer tr σ) (hC : ∀ τ a, C τ a → timersIdle τ a) :
    Recorded tr σ.core := by
  induction h with
  | start =>
      exact ⟨fun r hr => absurd hr (Nat.not_lt_zero r), by simp [concludedIn],
        by simp [requestSentIn]⟩
  | @step tr σ σ' a hr hc hs ih =>
      rcases (similar_keeping P).step hs with ⟨i, τ, rfl, hn, ht, hsim⟩ | ⟨ht, hsim⟩
      · have he := reach_executes hr.reach hC hn
        have hT := exec_turns (P := P) i σ.core
        have hlt := fun {r} => concludes_lt hr.reach hC hn (r := r)
        rw [ht]
        refine Recorded.similar ⟨fun r hr' htimed => ?_, fun r hcon => ?_, fun r hsent => ?_⟩ hsim
        · rw [concludedIn_append, concludedIn_singleton]
          by_cases hold : r < σ.core.mail.requestCount
          · have htimed' := (hT.old hold).timed.symm.trans htimed
            show ((exec P i σ.core).core.mail.requests r).settled = true ↔ _
            rw [(exec_answers i hold).settled, ih.settled r hold htimed', concludes_timed htimed']
          · have hfresh : σ.core.mail.Fresh (exec P i σ.core).core.mail r :=
              ⟨Nat.not_lt.mp hold, hr'⟩
            have hset := (hT.asked r hfresh).settled
            exact ⟨fun h' => absurd (hset.symm.trans h') nofun,
              fun h' => absurd (h'.elim (ih.concluded r) hlt) hold⟩
        · rw [concludedIn_append, concludedIn_singleton] at hcon
          exact (hcon.elim (ih.concluded r) hlt).trans_le hT.count
        · rw [requestSentIn_append, requestSentIn_singleton] at hsent
          refine lt_of_lt_of_le ?_ hT.count
          rcases hsent with hsent | ⟨p, hp, hsend⟩
          · exact ih.sent r hsent
          · obtain ⟨c, howns⟩ := sends_owned he hsend
            exact (howns.timed hp).1
      · rw [ht, List.append_nil]
        exact ih.similar hsim

end Step

/-! ## 6. Promises with a timeout -/

/-- The instruction is about to send an `emitWithAck` with a timeout: its handle for the timer is
    one that settling it does not take out. -/
def Core.sendsTimedPromise (σ : Core) : Instr → Bool
  | .mail (.clientEmit c event .promise) => decide (event ∉ RESERVED_EVENTS) &&
      (σ.conn.clients c).connected && (σ.mail.outboxes c).flags.timeout.isSome
  | .mail (.flushPackets _ _ (p :: _)) => !σ.mail.isSettled p &&
      p.timedCallback.any fun r => (σ.mail.requests r).promise
  | _ => false

/-- **The condition**: no `timeout(ms).emitWithAck` is sent. -/
abbrev TimedPromisesUnsent (P : Platform) : State → Action Instr → Prop :=
  (runtime P).Obeys fun σ i => σ.sendsTimedPromise i = false

/-- No promise is held, or rejected, for its timer. -/
structure Untimed (σ : State) : Prop where
  held : ∀ c r, .timed r ∈ (σ.core.mail.outboxes c).pendingAcks →
    (σ.core.mail.requests r).promise = false
  rejected : ∀ c r, .mail (.rejectAck c (.timed r)) ∈ σ.pending →
    (σ.core.mail.requests r).promise = false

/-- Where the handle of a wrapper comes from. -/
theorem timed_mem {σ : Core} (i : Instr) {c : ClientId} {r : RequestId}
    (h : .timed r ∈ ((exec P i σ).core.mail.outboxes c).pendingAcks) :
    .timed r ∈ (σ.mail.outboxes c).pendingAcks ∨
      (∃ event form, i = .mail (.clientEmit c event form) ∧
        σ.mail.Fresh (clientEmit σ c event form).part r) ∨
      ∃ a s p ps, i = .mail (.flushPackets a s (p :: ps)) ∧ c = (σ.conn.attempts a).client ∧
        p.timedCallback = some r ∧ (σ.mail.requests r).settled = false := by
  rcases (exec_turns (P := P) i σ).pendingAcks c _ h with
    h | ⟨hc, hf, -⟩ | ⟨a, s, p, ps, r', rfl, hc, hp, he, hset⟩
  · exact Or.inl h
  · refine Or.inr (Or.inl ?_)
    unfold Instr.requester at hc
    split at hc
    · obtain rfl := Option.some.inj hc
      exact ⟨_, _, rfl, hf⟩
    · cases hc
  · obtain rfl := AckHandle.timed.inj he
    exact Or.inr (Or.inr ⟨a, s, p, ps, rfl, hc, hp, hset⟩)

section Step

variable {C : State → Action Instr → Prop} {σ σ' : State}

theorem Untimed.step (hU : Untimed σ) (h : (runtime P).Reach C newServer σ)
    (hC : ∀ τ a, C τ a → timersIdle τ a) {a : Action Instr} (hc : TimedPromisesUnsent P σ a)
    (hs : (runtime P).step σ a = some σ') : Untimed σ' := by
  have hL := reach_handled h hC
  have hlt : ∀ {c r}, .timed r ∈ (σ.core.mail.outboxes c).pendingAcks →
      r < σ.core.mail.requestCount := fun hm => (hL.inv.requested.handle _ _ hm).lt
  rcases (similar_keeping P).step hs with ⟨i, τ, rfl, hn, -, hsim⟩ | ⟨ht, hsim⟩
  · have hgood : σ.core.sendsTimedPromise i = false := (next_mem hn).2 ▸ hc rfl i τ hn
    have hT := exec_turns (P := P) i σ.core
    have hpl := (reach_executes h hC hn).known.placed
    constructor
    · intro c r hm
      rw [hsim.mail.outboxes] at hm
      rw [hsim.mail.requests]
      rcases timed_mem i hm with hold | ⟨event, form, rfl, hf⟩ | ⟨b, s, p, ps, rfl, -, hp, hset⟩
      · exact (hT.old (hlt hold)).promise.trans (hU.held c r hold)
      · have hreg := clientEmit_registers σ.core c event form hf
        show ((clientEmit σ.core c event form).part.requests r).promise = false
        rw [hreg.request]
        cases hconn : (σ.core.conn.clients c).connected with
        | false => exact absurd (hlt (hreg.unsent hconn hm)) (Nat.not_lt.mpr hf.1)
        | true =>
            have hfit : ((clientEmit σ.core c event form).part.requests r).timed = true := by
              rcases hT.pendingAcks c _ hm with hold | ⟨-, -, hfit⟩ | ⟨_, _, _, _, _, he, -⟩
              · exact absurd (hlt hold) (Nat.not_lt.mpr hf.1)
              · exact hfit
              · cases he
            rw [hreg.request] at hfit
            simp only [Core.request, Bool.and_eq_true] at hfit
            cases form with
            | promise => simp [Core.sendsTimedPromise, hreg.named, hconn, hfit.1] at hgood
            | _ => rfl
      · have hpr : (σ.core.mail.requests r).promise = false := by
          simpa [Core.sendsTimedPromise, Mail.isSettled, hp, hset] using hgood
        exact (hT.old ((hpl p List.mem_cons_self).timed hp).1).promise.trans hpr
    · intro c r hj
      rw [hsim.mail.requests]
      rcases midway_pending hs hj rfl with hj | ⟨i', τ', -, hn', hj⟩
      · exact (hT.old (hL.ok _ hj).placed.1.lt).promise.trans (hU.rejected c r hj)
      · obtain ⟨rfl, -⟩ := Prod.mk.inj (Option.some.inj (hn.symm.trans hn'))
        rcases rejectAck_spawned hj with ⟨rfl, hk⟩ | ⟨_, _, -, hk, -⟩
        · exact (hT.old (hlt hk)).promise.trans (hU.held c r hk)
        · cases hk
  · constructor
    · rw [hsim.mail.outboxes, hsim.mail.requests]
      exact hU.held
    · intro c r hj
      rw [hsim.mail.requests]
      rcases midway_pending hs hj rfl with hj | ⟨i', τ', rfl, hn', -⟩
      · exact hU.rejected c r hj
      · simp [taken, hn'] at ht

theorem reach_untimed (h : (runtime P).Reach C newServer σ) (hC : ∀ τ a, C τ a → timersIdle τ a)
    (hT : ∀ τ a, C τ a → TimedPromisesUnsent P τ a) : Untimed σ := by
  induction h with
  | start =>
      exact ⟨fun _ _ hm => absurd hm (OSet.not_mem_empty _),
        fun _ _ hj => absurd hj List.not_mem_nil⟩
  | step hr hc hs ih => exact ih.step hr hC (hT _ _ hc) hs

end Step

/-! ## 7. Flushes and disconnects -/

/-- The only way a client is disconnected. -/
theorem execConn_disconnects {σ : Core} {i : ConnInstr} {c : ClientId}
    (hn : c < σ.conn.clientCount) (hc : (σ.conn.clients c).connected = true)
    (hc' : ((execConn P σ i).part.clients c).connected = false) :
    ∃ r, i = .markDisconnected c r := by
  have hset : ∀ {κ : Conn} {d : ClientId} {g : ClientSocket → ClientSocket},
      (κ.clients c).connected = true → ((κ.setClient d g).clients c).connected = false →
      (∀ x, x.connected = true → (g x).connected = true) → False := by
    intro κ d g h h' hg
    simp only [Conn.setClient, modify_apply] at h'
    split at h'
    · rename_i hd
      exact Bool.false_ne_true (h'.symm.trans (hg _ (hd ▸ h)))
    · exact Bool.false_ne_true (h'.symm.trans h)
  have hsame : (σ.conn.clients c).connected = false → False := fun h =>
    Bool.false_ne_true (h.symm.trans hc)
  cases i with
  | openClient name b f =>
      have hne : c ≠ (σ.conn.managerFor name f).1.clientCount :=
        (hn.trans_le (Conn.Extends.managerFor σ.conn name f).clients).ne
      have hnew : ∀ io nsp, ((σ.conn.managerFor name f).1.newClient io name nsp b).clients c =
          σ.conn.clients c := fun io nsp => by
        simp [Conn.newClient, hne, managerFor_clients]
      simp only [execConn, openClient] at hc'
      split at hc'
      · rw [begin_connected, hnew] at hc'
        exact (hsame hc').elim
      · split at hc' <;> exact (hsame ((congrArg ClientSocket.connected (hnew _ _)).symm.trans hc')).elim
  | connect d =>
      simp only [execConn, connect] at hc'
      split at hc'
      · exact (hsame hc').elim
      · split at hc'
        · exact (hsame hc').elim
        · rw [begin_connected] at hc'
          exact (hset hc hc' fun _ h => h).elim
  | setAuth d b => exact (hset hc hc' fun _ h => h).elim
  | admitDynamic d =>
      rw [show (execConn P σ (.admitDynamic d)).part = (σ.conn.beginConnectionAttempt d).1 from rfl,
        begin_connected] at hc'
      exact (hsame hc').elim
  | attachNamespace d n => exact (hset hc hc' fun _ h => h).elim
  | newServerSocket b n =>
      simp only [execConn, newServerSocket] at hc'
      split at hc' <;> exact (hsame hc').elim
  | rejectConnectionAttempt b err =>
      simp only [execConn, rejectConnectionAttempt] at hc'
      split at hc' <;> exact (hsame hc').elim
  | rejectConnectionAttemptRest b err =>
      simp only [execConn, rejectConnectionAttemptRest] at hc'
      split at hc' <;> exact (hset hc hc' fun _ h => h).elim
  | cancelConnectionAttempt d =>
      simp only [execConn, cancelConnectionAttempt] at hc'
      split at hc'
      · exact (hsame hc').elim
      · split at hc' <;> exact (hsame hc').elim
  | cancelConnectionAttemptRest d => exact (hset hc hc' fun _ h => h).elim
  | completeConnectionAttempt b s =>
      simp only [execConn, completeConnectionAttempt] at hc'
      split at hc'
      · exact (hset (κ := σ.conn.setAttempt b _) hc hc' fun _ _ => rfl).elim
      · split at hc' <;> exact (hsame hc').elim
  | markDisconnected d reason =>
      by_cases hd : d = c
      · exact ⟨reason, hd ▸ rfl⟩
      · simp only [execConn, markDisconnected] at hc'
        split at hc'
        · exact (hsame hc').elim
        · have h : (σ.conn.clients c).connected = false := by
            simpa [Conn.setManager, Conn.setClient, Conn.setAttempt, Ne.symm hd] using hc'
          exact (hsame h).elim

/-- A connection stays as it is until its client is disconnected. -/
theorem connected_exec {σ : Core} {i : Instr} (h : σ.Handled P) (hi : σ.Known i) {a : AttemptId}
    {s : SocketId} (hc : σ.conn.isConnectionAttemptConnected a s = true)
    (hc' : ((exec P i σ).core.conn.clients (σ.conn.attempts a).client).connected = true) :
    (exec P i σ).core.conn.isConnectionAttemptConnected a s = true := by
  have hold := hc
  simp only [Conn.isConnectionAttemptConnected, Bool.and_eq_true, decide_eq_true_eq] at hold
  obtain ⟨⟨⟨hcur, hst⟩, hcon⟩, hsock⟩ := hold
  have hlt := (h.wf.conn.connectionAttempt _ a hcur).1
  have hborn := h.steady.born _ hcon
  cases i with
  | conn i =>
      have hclient : ((execConn P σ i).part.attempts a).client = (σ.conn.attempts a).client :=
        (conn_extends h.wf hi.valid).clientOf a hlt
      have hcur' : ((execConn P σ i).part.clients (σ.conn.attempts a).client).connectionAttempt =
          some a := by
        obtain ⟨b, hb⟩ := Option.isSome_iff_exists.mp (attempt_exec h hi hc')
        have hb' := execConn_current (P := P) hcon hb hborn
        rw [← Option.some.inj (hcur.symm.trans hb')] at hb
        exact hb
      have hst' : ((execConn P σ i).part.attempts a).state = .connected := by
        rcases state_exec (P := P) (.conn i) hlt with he | ⟨hp, -⟩ | ⟨hp, -⟩ | ⟨c, r, hm, hca, -⟩
        · exact he.trans hst
        · cases (completes_pending hp).symm.trans hst
        · cases (endsAttempt_pending hp).symm.trans hst
        · obtain rfl := Instr.conn.inj hm
          have hcl := (h.wf.conn.connectionAttempt c a hca).2
          simp [exec, execConn, markDisconnected, hcl, hca, Conn.setManager, Conn.setClient,
            Conn.setAttempt] at hc'
      have hsock' : ((execConn P σ i).part.clients (σ.conn.attempts a).client).serverSocket =
          some s := by
        rcases execConn_serverSocket (P := P) (i := i) hborn with he | ⟨b, t, -, hp, hb⟩
        · exact he.trans hsock
        · simp only [Conn.isConnectionAttemptPending, Bool.and_eq_true, decide_eq_true_eq, hb,
            hcur, Option.some.injEq] at hp
          obtain ⟨rfl, hp⟩ := hp
          cases hp.symm.trans hst
      show (execConn P σ i).part.isConnectionAttemptConnected a s = true
      have hcon' : ((execConn P σ i).part.clients (σ.conn.attempts a).client).connected = true := hc'
      simp [Conn.isConnectionAttemptConnected, hclient, hcur', hst', hsock', hcon']
  | _ => exact hc

section Step

variable {C : State → Action Instr → Prop} {σ σ' : State} {tr : List (Core × Instr)}

/-- A flush whose observers run still has its connection, or its client is disconnected. -/
def Flushed (σ : State) : Prop :=
  ∀ a s p ps, .mail (.flushRest a s p ps) ∈ σ.pending →
    σ.core.conn.isConnectionAttemptConnected a s = true ∨
      (σ.core.conn.clients (σ.core.conn.attempts a).client).connected = false

theorem reach_flushed (h : (runtime P).Reach C newServer σ) (hC : ∀ τ a, C τ a → timersIdle τ a) :
    Flushed σ := by
  induction h with
  | start => exact fun _ _ _ _ hj => absurd hj List.not_mem_nil
  | @step σ σ' x hr hc hs ih =>
      intro a s p ps hj
      have hL := reach_handled hr hC
      rcases (similar_keeping P).step hs with ⟨i, τ, rfl, hn, -, hsim⟩ | ⟨ht, hsim⟩
      · have he := reach_executes hr hC hn
        rw [hsim.conn]
        rcases midway_pending hs hj rfl with hj' | ⟨i', τ', -, hn', hj'⟩
        · have hvalid := hL.ok _ hj'
          have hclient : (((runtime P).exec i σ.core).core.conn.attempts a).client =
              (σ.core.conn.attempts a).client := by
            obtain ⟨hlt, rfl⟩ := hvalid.valid (.builtFor a s) (List.mem_singleton_self _)
            exact (conn_extends he.handled.wf he.known.valid).clientOf _
              (he.handled.wf.conn.attempt_lt hlt)
          rw [hclient]
          refine or_iff_not_imp_right.mpr fun hcon => ?_
          rw [Bool.not_eq_false] at hcon
          rcases ih a s p ps hj' with hold | hold
          · exact connected_exec he.handled he.known hold hcon
          · -- nothing connects a client while a flush is under way
            have hB : i = .mail (.flushRest a s p ps) ∨ i.Before (.mail (.flushRest a s p ps)) := by
              have hrel := (List.pairwise_cons.mp (hL.next hn).rel).1
              obtain ⟨-, ⟨-, hst, hq⟩ | ⟨hst, hst', hq⟩⟩ := next_pending hn
              · have := hj'
                simp only [Config.pending, hst, hq, List.cons_append, List.mem_cons] at this
                exact this.imp Eq.symm fun hm => hrel _ hm
              · have := hj'
                simp only [Config.pending, hst, hq, List.nil_append, List.mem_cons] at this
                exact this.imp Eq.symm fun hm => hrel _ (by simp [Config.pending, hst', hm])
            rcases hB with rfl | hB
            · exact absurd (hold.symm.trans hcon) (by intro h; cases h)
            · have hoff : ((exec P i σ.core).core.conn.clients _).connected = false :=
                connected_stable hB rfl hold
              exact absurd (hoff.symm.trans hcon) (by intro h; cases h)
        · obtain ⟨rfl, -⟩ := Prod.mk.inj (Option.some.inj (hn.symm.trans hn'))
          obtain ⟨rfl, -⟩ := flushRest_spawned hj'
          exact Or.inl he.due
      · rw [hsim.conn]
        rcases midway_pending hs hj rfl with hj' | ⟨i', τ', rfl, hn', -⟩
        · exact ih a s p ps hj'
        · simp [taken, hn'] at ht

/-- A client that is not connected holds no wrapper, or is about to reject it. -/
def Dropped (σ : State) : Prop :=
  ∀ c r, (σ.core.conn.clients c).connected = false →
    .timed r ∈ (σ.core.mail.outboxes c).pendingAcks → .mail (.rejectPendingAcks c) ∈ σ.pending

theorem reach_dropped (h : (runtime P).Reach C newServer σ) (hC : ∀ τ a, C τ a → timersIdle τ a)
    (hR : ∀ τ a, C τ a → CallsReturn τ a) : Dropped σ := by
  induction h with
  | start => exact fun _ _ _ hm => absurd hm (OSet.not_mem_empty _)
  | @step σ σ' x hr hc hs ih =>
      intro c r hoff hm
      have hstays : .mail (.rejectPendingAcks c) ∈ σ.pending →
          .mail (.rejectPendingAcks c) ∈ σ'.pending ∨
          ∃ τ, x = .run ∧ (runtime P).next σ = some (.mail (.rejectPendingAcks c), τ) := fun hj =>
        unskipped_stays hr hR hc hs hj rfl
      rcases (similar_keeping P).step hs with ⟨i, τ, rfl, hn, -, hsim⟩ | ⟨ht, hsim⟩
      · have he := reach_executes hr hC hn
        rw [hsim.conn] at hoff
        rw [hsim.mail.outboxes] at hm
        have hi : ∀ τ', (runtime P).next σ = some (.mail (.rejectPendingAcks c), τ') → False :=
          fun τ' hn' => by
            obtain ⟨rfl, -⟩ := Prod.mk.inj (Option.some.inj (hn.symm.trans hn'))
            simp [runtime, exec, execMail, Mail.setOutbox] at hm
        rcases timed_mem i hm with hold | ⟨event, form, rfl, hf⟩ | ⟨a, s, p, ps, rfl, rfl, -⟩
        · cases hcon : (σ.core.conn.clients c).connected with
          | false =>
              rcases hstays (ih c r hcon hold) with h | ⟨τ', -, hn'⟩
              · exact h
              · exact (hi τ' hn').elim
          | true =>
              cases i with
              | conn i =>
                  obtain ⟨reason, rfl⟩ :=
                    execConn_disconnects (he.handled.steady.born c hcon) hcon hoff
                  obtain ⟨a, ha⟩ := Option.isSome_iff_exists.mp (he.handled.paired.attempt c hcon)
                  refine spawned_waits hn hs ?_ ?_ <;> simp [runtime, exec, execConn, markDisconnected,
                    ha, Effect.spawned]
              | _ => exact absurd (hoff.symm.trans hcon) (by intro h; cases h)
        · have hlt := ((reach_handled hr hC).inv.requested.handle c _
            ((clientEmit_registers σ.core c event form hf).unsent hoff hm)).lt
          exact absurd hlt (Nat.not_lt.mpr hf.1)
        · have hdue : σ.core.conn.isConnectionAttemptConnected a s = true := he.due
          simp only [Conn.isConnectionAttemptConnected, Bool.and_eq_true] at hdue
          exact absurd (hoff.symm.trans hdue.1.2) (by intro h; cases h)
      · rw [hsim.conn] at hoff
        rw [hsim.mail.outboxes] at hm
        rcases hstays (ih c r hoff hm) with h | ⟨τ', rfl, hn'⟩
        · exact h
        · simp [taken, hn'] at ht

end Step

/-! ## 8. What is held -/

/-- The packet an emit or a flush is about to send. -/
def Instr.sending : Instr → Option BufferedPacket
  | .mail (.clientEmitRest _ p) | .mail (.flushRest _ _ p _) => some p
  | _ => none

/-- The packet with the wrapper of `r` is about to be sent. -/
def Underway (σ : State) (r : RequestId) : Prop :=
  ∃ j ∈ σ.pending, ∃ p, j.sending = some p ∧ p.timedCallback = some r

/-- A disconnect is rejecting the handle `h`: in its loop, or when the emit it interrupted goes
    on. -/
def Rejecting (σ : State) (c : ClientId) (h : AckHandle) : Prop :=
  .mail (.rejectAck c h) ∈ σ.pending ∨ ∃ r, h = .promise r ∧
    (σ.core.mail.requests r).client = some c ∧ (σ.core.mail.requests r).promise = true ∧
    (σ.core.mail.requests r).sending = true ∧ (σ.core.mail.requests r).reason = true

/-- **The handle `h` is with its client or being rejected.** -/
def Held (σ : State) (c : ClientId) (h : AckHandle) : Prop :=
  h ∈ (σ.core.mail.outboxes c).pendingAcks ∨ Rejecting σ c h

theorem sends_of_sending {σ : Core} {i : Instr} {p : BufferedPacket} (h : σ.sends p i) :
    i.sending = some p := by
  unfold Core.sends at h
  split at h
  · exact congrArg some h.1
  · exact congrArg some h.1
  · exact h.elim

section Step

variable {C : State → Action Instr → Prop} {σ σ' : State} {tr : List (Core × Instr)}

/-- What an instruction sends is under way when it executes. -/
theorem underway_now {i : Instr} {τ : State} (hn : (runtime P).next σ = some (i, τ))
    {r : RequestId} (h : requestSentIn [(σ.core, i)] r) : Underway σ r := by
  obtain ⟨p, hp, hs⟩ := requestSentIn_singleton.mp h
  exact ⟨i, (next_mem hn).1, p, sends_of_sending hs, hp⟩

/-- A promise that is sending has its emit under way. -/
def Sending (σ : State) : Prop :=
  ∀ r < σ.core.mail.requestCount, ∀ c, (σ.core.mail.requests r).client = some c →
    (σ.core.mail.requests r).sending = true →
      ∃ p, .mail (.clientEmitRest c p) ∈ σ.pending ∧ p.reply = some (.request r)

theorem clientEmit_fresh {i : Instr} {σ : Core} {r : RequestId} {c : ClientId}
    (hf : σ.mail.Fresh (exec P i σ).core.mail r)
    (hc : ((exec P i σ).core.mail.requests r).client = some c) :
    ∃ event form, i = .mail (.clientEmit c event form) ∧
      σ.Registers c event form r (clientEmit σ c event form) := by
  have hreq := ((exec_turns (P := P) i σ).asked r hf).client.symm.trans hc
  unfold Instr.requester at hreq
  split at hreq
  · obtain rfl := Option.some.inj hreq
    exact ⟨_, _, rfl, clientEmit_registers σ _ _ _ hf⟩
  · cases hreq

theorem emits_run {σ : Core} {c : ClientId} {event : String} {form : EmitForm}
    (h : event ∉ RESERVED_EVENTS) : (clientEmit σ c event form).fails = false := by
  simp only [clientEmit, if_neg h]
  split <;> rfl

theorem reach_sending (h : (runtime P).Reach C newServer σ) (hC : ∀ τ a, C τ a → timersIdle τ a)
    (hR : ∀ τ a, C τ a → CallsReturn τ a) : Sending σ := by
  induction h with
  | start => exact fun r hr => absurd hr (Nat.not_lt_zero r)
  | @step σ σ' x hr hc hs ih =>
      intro r hlt c hcl hsend
      rcases (similar_keeping P).step hs with ⟨i, τ, rfl, hn, -, hsim⟩ | ⟨ht, hsim⟩
      · have he := reach_executes hr hC hn
        rw [hsim.mail.requestCount] at hlt
        rw [hsim.mail.requests] at hcl hsend
        by_cases hold : r < σ.core.mail.requestCount
        · have hcl' := ((exec_turns i σ.core).old hold).client.symm.trans hcl
          obtain ⟨hsend', hno⟩ := (exec_answers i hold).sending.mp hsend
          obtain ⟨p, hp, hrep⟩ := ih r hold c hcl' hsend'
          rcases unskipped_stays hr hR hc hs hp rfl with hp | ⟨τ', -, hn'⟩
          · exact ⟨p, hp, hrep⟩
          · obtain ⟨rfl, -⟩ := Prod.mk.inj (Option.some.inj (hn.symm.trans hn'))
            exact absurd ⟨c, p, rfl, hrep, he.known.placed.2.1⟩ hno
        · obtain ⟨event, form, rfl, hreg⟩ := clientEmit_fresh (P := P) ⟨Nat.not_lt.mp hold, hlt⟩ hcl
          have hcon : (σ.core.conn.clients c).connected = true := by
            have hsend' : ((clientEmit σ.core c event form).part.requests r).sending = true := hsend
            rw [hreg.request] at hsend'
            exact hsend'
          obtain ⟨p, hp, hrep, -⟩ := hreg.packet hcon
          exact ⟨p, spawned_waits hn hs (emits_run hreg.named) (List.mem_append_left _ hp), hrep⟩
      · rw [hsim.mail.requestCount] at hlt
        rw [hsim.mail.requests] at hcl hsend
        obtain ⟨p, hp, hrep⟩ := ih r hlt c hcl hsend
        rcases unskipped_stays hr hR hc hs hp rfl with hp | ⟨τ', rfl, hn'⟩
        · exact ⟨p, hp, hrep⟩
        · simp [taken, hn'] at ht

/-- An emit whose promise was given up meanwhile rejects it where it goes on. -/
theorem clientEmitRest_rejects {σ : Core} {c : ClientId} {p : BufferedPacket} {r : RequestId}
    {s : SocketId} (hs : (σ.conn.clients c).serverSocket = some s)
    (hr : p.reply = some (.request r)) (hp : (σ.mail.requests r).promise = true)
    (hre : (σ.mail.requests r).reason = true) :
    (clientEmitRest σ c p).fails = false ∧
      .mail (.rejectAck c (.promise r)) ∈ (clientEmitRest σ c p).push := by
  have hreq := (sendToServer_requests σ.mail s c p.serial p.event p.reply).requests
  simp only [clientEmitRest, hs]
  rw [hr] at hreq ⊢
  simp only [Mail.setOutbox, hreq, hp, hre, Bool.and_self, if_true, List.mem_singleton, true_and]

/-- A rejection goes on, or rejects its request. -/
theorem rejecting_step (h : (runtime P).Reach C newServer σ) (hC : ∀ τ a, C τ a → timersIdle τ a)
    (hR : ∀ τ a, C τ a → CallsReturn τ a) {a : Action Instr} (hc : C σ a)
    (hs : (runtime P).step σ a = some σ') {c : ClientId} {k : AckHandle}
    (hlt : k.request < σ.core.mail.requestCount)
    (hcl : (σ.core.mail.requests k.request).client = some c) (hk : Rejecting σ c k) :
    Rejecting σ' c k ∨ rejectedIn ((runtime P).taken σ a) k.request := by
  have hL := reach_handled h hC
  rcases hk with hj | ⟨r, rfl, -, hprom, hsend, hre⟩
  · rcases unskipped_stays h hR hc hs hj rfl with hj | ⟨τ, rfl, hn⟩
    · exact Or.inl (Or.inl hj)
    · have ht : (runtime P).taken σ .run = [(σ.core, .mail (.rejectAck c k))] := by
        simp [taken, hn]
      rw [ht]
      cases k with
      | timed r => exact Or.inr ⟨_, List.mem_singleton_self _, decide_eq_true rfl⟩
      | promise r =>
          by_cases hsend : (σ.core.mail.requests r).sending = true
          · -- the rejection is put off until the emit goes on
            refine Or.inl (Or.inr ⟨r, rfl, ?_⟩)
            obtain ⟨i, τ', -, hn', -, hsim⟩ | ⟨ht', -⟩ := (similar_keeping P).step hs
            · obtain ⟨rfl, -⟩ := Prod.mk.inj (Option.some.inj (hn.symm.trans hn'))
              rw [hsim.mail.requests]
              have hA := exec_answers (P := P) (.mail (.rejectAck c (.promise r))) hlt
              have hmade := (exec_turns (P := P) (.mail (.rejectAck c (.promise r))) σ.core).old hlt
              exact ⟨hmade.client.trans hcl, hmade.promise.trans (hL.ok _ hj).placed.1.fits,
                hA.sending.mpr ⟨hsend, (by simp)⟩, hA.reason.mpr (Or.inr ⟨hsend, c, rfl⟩)⟩
            · rw [ht] at ht'
              cases ht'
          · refine Or.inr ⟨_, List.mem_singleton_self _, ?_⟩
            simp [Core.rejects, AckHandle.request, Bool.not_eq_true _ ▸ hsend]
  · rcases (similar_keeping P).step hs with ⟨i, τ, rfl, hn, -, hsim⟩ | ⟨-, hsim⟩
    · have he := reach_executes h hC hn
      have hA := exec_answers (P := P) i hlt
      by_cases hemit : ∃ d p, i = .mail (.clientEmitRest d p) ∧ p.reply = some (.request r)
      · obtain ⟨d, p, rfl, hrep⟩ := hemit
        obtain ⟨howns, hsock, -⟩ := he.known.placed
        obtain rfl := Option.some.inj ((howns.client r hrep).symm.trans hcl)
        obtain ⟨s, hs'⟩ := Option.isSome_iff_exists.mp hsock
        obtain ⟨hf, hpush⟩ := clientEmitRest_rejects hs' hrep hprom hre
        exact Or.inl (Or.inl (spawned_waits hn hs hf (List.mem_append_left _ hpush)))
      · refine Or.inl (Or.inr ⟨r, rfl, ?_⟩)
        rw [hsim.mail.requests]
        have hmade := (exec_turns (P := P) i σ.core).old hlt
        exact ⟨hmade.client.trans hcl, hmade.promise.trans hprom,
          hA.sending.mpr ⟨hsend, by rintro ⟨d, p, hi, hp, -⟩; exact hemit ⟨d, p, hi, hp⟩⟩,
          hA.reason.mpr (Or.inl hre)⟩
    · refine Or.inl (Or.inr ⟨r, rfl, ?_⟩)
      rw [hsim.mail.requests]
      exact ⟨hcl, hprom, hsend, hre⟩

/-- A handle stays with its client, is handed to the rejections of a disconnect, or its request is
    concluded. -/
theorem held_step {a : Action Instr} (hs : (runtime P).step σ a = some σ') {c : ClientId}
    {k : AckHandle}
    (hk : k ∈ (σ.core.mail.outboxes c).pendingAcks) :
    k ∈ (σ'.core.mail.outboxes c).pendingAcks ∨
      ((∃ τ, a = .run ∧ (runtime P).next σ = some (.mail (.rejectPendingAcks c), τ)) ∧
        .mail (.rejectAck c k) ∈ σ'.pending) ∨
      concludedIn ((runtime P).taken σ a) k.request := by
  rcases (similar_keeping P).step hs with ⟨i, τ, rfl, hn, ht, hsim⟩ | ⟨-, hsim⟩
  · rw [hsim.mail.outboxes]
    rcases exec_registers (P := P) i hk with hk' | rfl | hcon
    · exact Or.inl hk'
    · refine Or.inr (Or.inl ⟨⟨τ, rfl, hn⟩, spawned_waits hn hs rfl (List.mem_append_left _ ?_)⟩)
      exact List.mem_map_of_mem (OSet.mem_def.mp hk)
    · rw [ht, concludedIn_singleton]
      exact Or.inr (Or.inr hcon)
  · rw [hsim.mail.outboxes]
    exact Or.inl hk

end Step

/-! ## 9. Concluded is not held -/

section Step

variable {C : State → Action Instr → Prop} {σ σ' : State} {tr : List (Core × Instr)}

/-- What concludes a promise on a task takes its handle out. -/
theorem concludes_drops {σ : Core} {i : Instr} {r : RequestId} {c : ClientId}
    (h : σ.concludes r i = true) (ht : i.isLast = true ∨ i.isTask = true)
    (hp : (σ.mail.requests r).promise = true) (hc : (σ.mail.requests r).client = some c) :
    .promise r ∉ ((exec P i σ).core.mail.outboxes c).pendingAcks := by
  have hsettle : .promise r ∉ (((σ.mail.settle r).callback r).part.outboxes c).pendingAcks := by
    have hpr : ((σ.mail.settle r).requests r).promise = true := (settle_promise ..).trans hp
    have hcl : ((σ.mail.settle r).requests r).client = some c := by
      rw [settle_requests, modify_apply, if_pos rfl]
      exact hc
    unfold Mail.callback
    rw [if_pos hpr]
    exact dropHandle_drops _ r _ hcl
  unfold Core.concludes at h
  split at h
  · simp only [Bool.and_eq_true, decide_eq_true_eq, Bool.not_eq_true', Bool.and_eq_false_iff] at h
    obtain ⟨rfl, h⟩ := h
    simp only [exec, execMail, ackReply]
    split
    · rename_i htimed
      rw [if_neg (by simpa [htimed] using h)]
      exact hsettle
    · exact dropHandle_drops _ _ _ hc
  · obtain rfl := of_decide_eq_true h
    exact hsettle
  · rcases ht with ht | ht <;> cases ht
  · rcases ht with ht | ht <;> cases ht
  · cases h

/-- **A promise that is concluded is neither held nor rejected.** -/
def Closed (tr : List (Core × Instr)) (σ : State) : Prop :=
  ∀ r, (σ.core.mail.requests r).promise = true → concludedIn tr r → ∀ c, ¬ Held σ c (.promise r)

/-- Who would be held after a step was held before. -/
theorem held_before (h : (runtime P).Reach C newServer σ) (hC : ∀ τ a, C τ a → timersIdle τ a)
    {a : Action Instr} (hs : (runtime P).step σ a = some σ') {r : RequestId} {c : ClientId}
    (hlt : r < σ.core.mail.requestCount) (hk : Held σ' c (.promise r)) :
    Held σ c (.promise r) := by
  have hspawn : ∀ {i τ}, (runtime P).next σ = some (i, τ) →
      .mail (.rejectAck c (.promise r)) ∈ (exec P i σ.core).spawned → Held σ c (.promise r) := by
    intro i τ hn hj
    rcases rejectAck_spawned hj with ⟨rfl, hm⟩ | ⟨p, r', rfl, hr, hrep, hprom, hre⟩
    · exact Or.inl hm
    · obtain rfl := AckHandle.promise.inj hr
      have hsend := ((reach_lone h).ok _ (next_mem hn).1 r hrep).2
      have hcl := (reach_executes h hC hn).known.placed.1.client r hrep
      exact Or.inr (Or.inr ⟨r, rfl, hcl, hprom, hsend, hre⟩)
  have hpending : .mail (.rejectAck c (.promise r)) ∈ σ'.pending → Held σ c (.promise r) := by
    intro hj
    rcases midway_pending hs hj rfl with hj | ⟨i, τ, -, hn, hj⟩
    · exact Or.inr (Or.inl hj)
    · exact hspawn hn hj
  rcases (similar_keeping P).step hs with ⟨i, τ, rfl, hn, -, hsim⟩ | ⟨-, hsim⟩
  · rcases hk with hm | hj | ⟨r', hr, hcl, hprom, hsend, hre⟩
    · rw [hsim.mail.outboxes] at hm
      rcases promise_mem i hm with hold | ⟨-, hf⟩
      · exact Or.inl hold
      · exact absurd hlt (Nat.not_lt.mpr hf.1)
    · exact hpending hj
    · obtain rfl := AckHandle.promise.inj hr
      rw [hsim.mail.requests] at hcl hprom hsend hre
      have hmade := (exec_turns (P := P) i σ.core).old hlt
      have hA := exec_answers (P := P) i hlt
      have hcl' := hmade.client.symm.trans hcl
      rcases hA.reason.mp hre with hre | ⟨-, d, rfl⟩
      · exact Or.inr (Or.inr ⟨r, rfl, hcl', hmade.promise.symm.trans hprom,
          (hA.sending.mp hsend).1, hre⟩)
      · have hd := (reach_executes h hC hn).known.placed.1.client
        obtain rfl := Option.some.inj (hd.symm.trans hcl')
        exact Or.inr (Or.inl (next_mem hn).1)
  · rcases hk with hm | hj | ⟨r', hr, hcl, hprom, hsend, hre⟩
    · exact Or.inl (hsim.mail.outboxes ▸ hm)
    · exact hpending hj
    · rw [hsim.mail.requests] at hcl hprom hsend hre
      exact Or.inr (Or.inr ⟨r', hr, hcl, hprom, hsend, hre⟩)

theorem run_closed (h : (runtime P).Run C newServer tr σ) (hC : ∀ τ a, C τ a → timersIdle τ a)
    (hR : ∀ τ a, C τ a → CallsReturn τ a) (hT : ∀ τ a, C τ a → TimedPromisesUnsent P τ a) :
    Closed tr σ := by
  induction h with
  | start => exact fun r hp => by cases hp
  | @step tr σ σ' x hr hc hs ih =>
      intro r hprom hcon c hk
      have hL := reach_handled hr.reach hC
      have hold := run_recorded hr hC
      rw [concludedIn_append] at hcon
      rcases (similar_keeping P).step hs with ⟨i, τ, rfl, hn, ht, hsim⟩ | ⟨ht, hsim⟩
      · rw [ht, concludedIn_singleton] at hcon
        have hlt : r < σ.core.mail.requestCount :=
          hcon.elim (hold.concluded r) (concludes_lt hr.reach hC hn)
        have hmade := (exec_turns (P := P) i σ.core).old hlt
        rw [hsim.mail.requests] at hprom
        have hprom' := hmade.promise.symm.trans hprom
        have hk' := held_before hr.reach hC hs hlt hk
        rcases hcon with hcon | hcon
        · exact ih r hprom' hcon c hk'
        · have hcl : (σ.core.mail.requests r).client = some c := by
            rcases hk' with hm | hj | ⟨r', he, hcl, -⟩
            · exact (hL.inv.requested.handle c _ hm).client
            · exact (hL.ok _ hj).placed.1.client
            · exact AckHandle.promise.inj he ▸ hcl
          by_cases htask : i.isLast = true ∨ i.isTask = true
          · -- on a task no emit, flush or disconnect is under way
            have halone : ∀ j ∈ σ.pending, j.midway = true → j = i := fun j hj hm =>
              (reach_alone hr.reach hC hn htask hj).resolve_right (by simp [hm])
            rcases hk with hm | hj | ⟨r', he, -, -, hsend, -⟩
            · rw [hsim.mail.outboxes] at hm
              exact concludes_drops hcon htask hprom' hcl hm
            · rcases midway_pending hs hj rfl with hj | ⟨i', τ', -, hn', hj⟩
              · have := halone _ hj rfl
                subst this
                rcases htask with ht | ht <;> cases ht
              · obtain ⟨rfl, -⟩ := Prod.mk.inj (Option.some.inj (hn.symm.trans hn'))
                rcases rejectAck_spawned hj with ⟨rfl, -⟩ | ⟨p, r', rfl, -⟩
                · rcases htask with ht | ht <;> cases ht
                · rcases htask with ht | ht <;> cases ht
            · obtain rfl := AckHandle.promise.inj he
              rw [hsim.mail.requests] at hsend
              obtain ⟨p, hp, -⟩ := reach_sending hr.reach hC hR r hlt c hcl
                ((exec_answers (P := P) i hlt).sending.mp hsend).1
              have := halone _ hp rfl
              subst this
              rcases htask with ht | ht <;> cases ht
          · have hi := (reach_lone hr.reach).ok i (next_mem hn).1
            unfold Core.concludes at hcon
            split at hcon
            · exact htask (Or.inr rfl)
            · exact htask (Or.inl rfl)
            · obtain rfl := of_decide_eq_true hcon
              have hun := (reach_untimed hr.reach hC hT).rejected _ _ (next_mem hn).1
              exact absurd (hprom'.symm.trans hun) nofun
            · simp only [Bool.and_eq_true, decide_eq_true_eq, Bool.not_eq_true'] at hcon
              obtain ⟨rfl, hsend⟩ := hcon
              rcases hk with hm | hj | ⟨r', he, -, -, hsend', -⟩
              · rw [hsim.mail.outboxes] at hm
                rcases promise_mem _ hm with hm | ⟨-, hf⟩
                · exact hi.2.1 c hm
                · exact absurd hlt (Nat.not_lt.mpr hf.1)
              · -- the rejection that has executed was the only one
                have hap := (List.pairwise_cons.mp ((reach_lone hr.reach).next hn).apart).1
                rcases step_cases hs with ⟨i', τ', -, hn', rfl⟩ | ⟨_, ha, -⟩ | ⟨_, _, ha, -⟩ |
                  ⟨_, _, ha, -⟩
                · obtain ⟨rfl, rfl⟩ := Prod.mk.inj (Option.some.inj (hn.symm.trans hn'))
                  rcases execute_pending hj with hj | hj | ⟨c', i, is, his, hj⟩
                  · exact hap _ hj _ rfl rfl
                  · rcases rejectAck_spawned hj with ⟨h', -⟩ | ⟨_, _, h', -⟩ <;> cases h'
                  · rcases onThrow_handle his with rfl | ⟨b, err, rfl, -⟩
                    · cases hj
                    · cases List.mem_singleton.mp hj
                · cases ha
                · cases ha
                · cases ha
              · obtain rfl := AckHandle.promise.inj he
                rw [hsim.mail.requests] at hsend'
                have := ((exec_answers (P := P) _ hlt).sending.mp hsend').1
                exact absurd (this.symm.trans hsend) nofun
            · cases hcon
      · rw [ht] at hcon
        have hcon' : concludedIn tr r := hcon.resolve_right (by simp [concludedIn])
        rw [hsim.mail.requests] at hprom
        exact ih r hprom hcon' c (held_before hr.reach hC hs (hold.concluded r hcon') hk)

end Step

/-! ## 10. What is sent and not concluded is held -/

/-- **Of every request of a client**: a promise is held until it is concluded; a wrapper is held
    from the time its packet is about to be sent until it is concluded; and nothing else is held. -/
structure Tracked (tr : List (Core × Instr)) (σ : State) : Prop where
  promise : ∀ r < σ.core.mail.requestCount, ∀ c, (σ.core.mail.requests r).client = some c →
    (σ.core.mail.requests r).promise = true → concludedIn tr r ∨ Held σ c (.promise r)
  timed : ∀ r < σ.core.mail.requestCount, ∀ c, (σ.core.mail.requests r).client = some c →
    (σ.core.mail.requests r).promise = false → requestSentIn tr r ∨ Underway σ r →
      concludedIn tr r ∨ Held σ c (.timed r)
  sent : ∀ c r, .timed r ∈ (σ.core.mail.outboxes c).pendingAcks ∨
    .mail (.rejectAck c (.timed r)) ∈ σ.pending → requestSentIn tr r ∨ Underway σ r

section Step

variable {C : State → Action Instr → Prop} {σ σ' : State} {tr : List (Core × Instr)}

/-- What is held goes on being held, or is concluded. -/
theorem held_or_concluded (h : (runtime P).Reach C newServer σ)
    (hC : ∀ τ a, C τ a → timersIdle τ a) (hR : ∀ τ a, C τ a → CallsReturn τ a) {a : Action Instr}
    (hc : C σ a) (hs : (runtime P).step σ a = some σ') {c : ClientId} {k : AckHandle}
    (hlt : k.request < σ.core.mail.requestCount)
    (hcl : (σ.core.mail.requests k.request).client = some c) (hk : Held σ c k) :
    concludedIn ((runtime P).taken σ a) k.request ∨ Held σ' c k := by
  rcases hk with hm | hj
  · rcases held_step hs hm with hm | ⟨-, hj⟩ | hcon
    · exact Or.inr (Or.inl hm)
    · exact Or.inr (Or.inr (Or.inl hj))
    · exact Or.inl hcon
  · exact (rejecting_step h hC hR hc hs hlt hcl hj).symm.imp rejectedIn_concluded Or.inr

/-- What is about to be sent is sent, unless a flush finds its connection gone. -/
theorem underway_step (h : (runtime P).Reach C newServer σ) (hC : ∀ τ a, C τ a → timersIdle τ a)
    (hR : ∀ τ a, C τ a → CallsReturn τ a) {a : Action Instr} (hc : C σ a)
    (hs : (runtime P).step σ a = some σ') {r : RequestId} (hu : Underway σ r) :
    (requestSentIn ((runtime P).taken σ a) r ∨ Underway σ' r) ∨
      ∃ b s p ps τ, a = .run ∧ (runtime P).next σ = some (.mail (.flushRest b s p ps), τ) ∧
        p.timedCallback = some r ∧ σ.core.conn.isConnectionAttemptConnected b s = false := by
  obtain ⟨j, hj, p, hp, hr⟩ := hu
  have hnow : ∀ τ, a = .run → (runtime P).next σ = some (j, τ) → σ.core.sends p j →
      requestSentIn ((runtime P).taken σ a) r := by
    rintro τ rfl hn hsend
    rw [show (runtime P).taken σ .run = [(σ.core, j)] by simp [taken, hn],
      requestSentIn_singleton]
    exact ⟨p, hr, hsend⟩
  unfold Instr.sending at hp
  split at hp
  · obtain rfl := Option.some.inj hp
    rcases unskipped_stays h hR hc hs hj rfl with hj | ⟨τ, ha, hn⟩
    · exact Or.inl (Or.inr ⟨_, hj, _, rfl, hr⟩)
    · exact Or.inl (Or.inl (hnow τ ha hn ⟨rfl, (reach_executes h hC hn).known.placed.2.1⟩))
  · rename_i b s q ps
    obtain rfl := Option.some.inj hp
    have hF := reach_flushing h
    have hF' := reach_flushing (h.step hc hs)
    have hst : Instr.mail (.flushRest b s q ps) ∈ σ.stack := by
      rcases List.mem_append.mp hj with hj | hj
      · exact hj
      · exact absurd rfl (hF.queue _ hj)
    rcases (watched_step hF hF' (reach_watched h) hs).2 (hR _ _ hc).observers _ hst rfl with
      hst' | ⟨τ, ha, hn⟩
    · exact Or.inl (Or.inr ⟨_, List.mem_append_left _ hst', _, rfl, hr⟩)
    · cases hcon : σ.core.conn.isConnectionAttemptConnected b s with
      | true => exact Or.inl (Or.inl (hnow τ ha hn ⟨rfl, hcon⟩))
      | false => exact Or.inr ⟨b, s, q, ps, τ, ha, hn, hr, hcon⟩
  · cases hp

/-- A flush that finds its connection gone has nothing held for its packet. -/
theorem gone_unheld (h : (runtime P).Reach C newServer σ) (hC : ∀ τ a, C τ a → timersIdle τ a)
    (hR : ∀ τ a, C τ a → CallsReturn τ a) (hs : (runtime P).step σ .run = some σ') {a : AttemptId}
    {s : SocketId} {p : BufferedPacket} {ps : List BufferedPacket} {τ : State} {r : RequestId}
    (hn : (runtime P).next σ = some (.mail (.flushRest a s p ps), τ))
    (hr : p.timedCallback = some r)
    (hcon : σ.core.conn.isConnectionAttemptConnected a s = false) {c : ClientId}
    (hk : .timed r ∈ (σ'.core.mail.outboxes c).pendingAcks ∨
      .mail (.rejectAck c (.timed r)) ∈ σ'.pending) : False := by
  have he := reach_executes h hC hn
  have halone : ∀ j ∈ σ.pending, j.midway = true → j = .mail (.flushRest a s p ps) :=
    fun j hj hm => (reach_alone h hC hn (Or.inl rfl) hj).resolve_right (by simp [hm])
  rcases hk with hm | hj
  · obtain ⟨i, τ', -, hn', -, hsim⟩ | ⟨ht, -⟩ := (similar_keeping P).step hs
    · obtain ⟨rfl, -⟩ := Prod.mk.inj (Option.some.inj (hn.symm.trans hn'))
      rw [hsim.mail.outboxes] at hm
      rcases timed_mem _ hm with hold | ⟨_, _, he', -⟩ | ⟨_, _, _, _, he', -⟩
      · have hcl := (he.handled.requested.handle c _ hold).client
        obtain rfl := Option.some.inj
          ((((he.known.placed.1 p List.mem_cons_self).timed hr).2.1).symm.trans hcl)
        rcases reach_flushed h hC a s p ps (next_mem hn).1 with hconn | hoff
        · exact absurd (hconn.symm.trans hcon) nofun
        · cases halone _ (reach_dropped h hC hR _ r hoff hold) rfl
      · cases he'
      · cases he'
    · simp [taken, hn] at ht
  · rcases midway_pending hs hj rfl with hj | ⟨i', τ', -, hn', hj⟩
    · cases halone _ hj rfl
    · obtain ⟨rfl, -⟩ := Prod.mk.inj (Option.some.inj (hn.symm.trans hn'))
      rcases rejectAck_spawned hj with ⟨h', -⟩ | ⟨_, _, h', -⟩ <;> cases h'

/-- Who is about to be sent was so before the step, or its wrapper has just been registered. -/
theorem underway_before {a : Action Instr} (hs : (runtime P).step σ a = some σ') {r : RequestId}
    (hu : Underway σ' r) : Underway σ r ∨ ∃ i τ, a = .run ∧ (runtime P).next σ = some (i, τ) ∧
      ((∃ c event form p, i = .mail (.clientEmit c event form) ∧ p.timedCallback = some r ∧
          .mail (.clientEmitRest c p) ∈ (clientEmit σ.core c event form).push) ∨
        ∃ b s p ps, i = .mail (.flushPackets b s (p :: ps)) ∧ p.timedCallback = some r ∧
          σ.core.mail.isSettled p = false) := by
  obtain ⟨j, hj, p, hp, hr⟩ := hu
  have hmid : j.midway = true := by
    unfold Instr.sending at hp
    split at hp <;> [rfl; rfl; cases hp]
  rcases midway_pending hs hj hmid with hj | ⟨i, τ, ha, hn, hj⟩
  · exact Or.inl ⟨j, hj, p, hp, hr⟩
  · refine Or.inr ⟨i, τ, ha, hn, ?_⟩
    unfold Instr.sending at hp
    split at hp
    · obtain rfl := Option.some.inj hp
      obtain ⟨event, form, rfl, -, hpush, -⟩ := clientEmitRest_spawned hj
      exact Or.inl ⟨_, event, form, _, rfl, hr, hpush⟩
    · obtain rfl := Option.some.inj hp
      obtain ⟨rfl, hset⟩ := flushRest_spawned hj
      exact Or.inr ⟨_, _, _, _, rfl, hr, hset⟩
    · cases hp

/-- Where a packet is about to be sent, its wrapper is registered. -/
theorem underway_registers {i : Instr} {τ : State} (hn : (runtime P).next σ = some (i, τ))
    (h : (runtime P).Reach C newServer σ) (hC : ∀ τ a, C τ a → timersIdle τ a) {r : RequestId}
    {c : ClientId} (hcl : ((exec P i σ.core).core.mail.requests r).client = some c)
    (hi : (∃ d event form p, i = .mail (.clientEmit d event form) ∧ p.timedCallback = some r ∧
        .mail (.clientEmitRest d p) ∈ (clientEmit σ.core d event form).push) ∨
      ∃ b s p ps, i = .mail (.flushPackets b s (p :: ps)) ∧ p.timedCallback = some r ∧
        σ.core.mail.isSettled p = false) :
    .timed r ∈ ((exec P i σ.core).core.mail.outboxes c).pendingAcks := by
  rcases hi with ⟨d, event, form, p, rfl, hr, hpush⟩ | ⟨b, s, p, ps, rfl, hr, hset⟩
  · obtain ⟨hw, hf⟩ := (clientEmit_turns (T := fun _ _ => False) (B := fun _ _ => False) σ.core d
      event form).2 p hpush
    obtain ⟨hrep, htimed⟩ := timedOf_eq_some (hw ▸ hr)
    have hreg := clientEmit_registers σ.core d event form (hf r hrep)
    have hd : ((clientEmit σ.core d event form).part.requests r).client = some d := by
      rw [hreg.request]
      rfl
    obtain rfl := Option.some.inj (hd.symm.trans hcl)
    have hcon : (σ.core.conn.clients d).connected = true :=
      (clientEmitRest_spawned (P := P) (List.mem_append_left _ hpush :
        _ ∈ (exec P (.mail (.clientEmit d event form)) σ.core).spawned)).choose_spec.choose_spec.2.1
    obtain ⟨q, -, -, hq⟩ := hreg.packet hcon
    exact (hq htimed).2
  · have howns := (reach_executes h hC hn).known.placed p List.mem_cons_self
    obtain ⟨hlt, hcl', -⟩ := howns.timed hr
    have hmade := (exec_turns (P := P) (.mail (.flushPackets b s (p :: ps))) σ.core).old hlt
    obtain rfl := Option.some.inj ((hmade.client.trans hcl').symm.trans hcl)
    simp [exec, execMail, flushPackets, hset, hr, Mail.setOutbox]

theorem run_tracked (h : (runtime P).Run C newServer tr σ) (hC : ∀ τ a, C τ a → timersIdle τ a)
    (hR : ∀ τ a, C τ a → CallsReturn τ a) : Tracked tr σ := by
  induction h with
  | start =>
      refine ⟨fun r hr => absurd hr (Nat.not_lt_zero r), fun r hr => absurd hr (Nat.not_lt_zero r), ?_⟩
      rintro c r (hm | hj)
      · exact absurd hm (OSet.not_mem_empty _)
      · exact absurd hj List.not_mem_nil
  | @step tr σ σ' x hr hc hs ih =>
      have hold := run_recorded hr hC
      have hnext : ∀ {r c} {k : AckHandle}, k.request = r → r < σ.core.mail.requestCount →
          (σ.core.mail.requests r).client = some c → concludedIn tr r ∨ Held σ c k →
          concludedIn (tr ++ (runtime P).taken σ x) r ∨ Held σ' c k := by
        rintro r c k rfl hlt hcl (hcon | hk)
        · exact Or.inl (concludedIn_append.mpr (Or.inl hcon))
        · exact (held_or_concluded hr.reach hC hR hc hs hlt hcl hk).imp_left fun h =>
            concludedIn_append.mpr (Or.inr h)
      refine ⟨?_, ?_, ?_⟩
      · intro r hlt c hcl hprom
        rcases (similar_keeping P).step hs with ⟨i, τ, rfl, hn, ht, hsim⟩ | ⟨ht, hsim⟩
        · rw [hsim.mail.requestCount] at hlt
          rw [hsim.mail.requests] at hcl hprom
          by_cases hlt' : r < σ.core.mail.requestCount
          · have hmade := (exec_turns (P := P) i σ.core).old hlt'
            have hcl' := hmade.client.symm.trans hcl
            exact hnext rfl hlt' hcl' (ih.promise r hlt' c hcl' (hmade.promise.symm.trans hprom))
          · obtain ⟨event, form, rfl, hreg⟩ :=
              clientEmit_fresh (P := P) ⟨Nat.not_lt.mp hlt', hlt⟩ hcl
            have hform : ((clientEmit σ.core c event form).part.requests r).promise = true := hprom
            rw [hreg.request] at hform
            refine Or.inr (Or.inl ?_)
            rw [hsim.mail.outboxes]
            exact hreg.promise (of_decide_eq_true hform)
        · rw [hsim.mail.requestCount] at hlt
          rw [hsim.mail.requests] at hcl hprom
          exact hnext rfl hlt hcl (ih.promise r hlt c hcl hprom)
      · intro r hlt c hcl hprom hsent
        rcases (similar_keeping P).step hs with ⟨i, τ, rfl, hn, ht, hsim⟩ | ⟨ht, hsim⟩
        · rw [hsim.mail.requestCount] at hlt
          rw [hsim.mail.requests] at hcl hprom
          -- a packet about to be sent was so before, or has just been registered
          have hcase : requestSentIn tr r ∨ Underway σ r ∨
              .timed r ∈ (σ'.core.mail.outboxes c).pendingAcks := by
            rw [ht, requestSentIn_append] at hsent
            rcases hsent with (hsent | hsent) | hu
            · exact Or.inl hsent
            · exact Or.inr (Or.inl (underway_now hn hsent))
            · rcases underway_before hs hu with hu | ⟨i', τ', -, hn', hi⟩
              · exact Or.inr (Or.inl hu)
              · obtain ⟨rfl, -⟩ := Prod.mk.inj (Option.some.inj (hn.symm.trans hn'))
                rw [hsim.mail.outboxes]
                exact Or.inr (Or.inr (underway_registers hn hr.reach hC hcl hi))
          rcases or_assoc.mpr hcase with hsent | hm
          · have hlt' : r < σ.core.mail.requestCount := by
              rcases hsent with hsent | ⟨j, hj, p, hp, hpr⟩
              · exact hold.sent r hsent
              · have hpl := ((reach_handled hr.reach hC).ok j hj).placed
                unfold Instr.sending at hp
                split at hp
                · exact (Option.some.inj hp ▸ hpl.1 : σ.core.mail.Owns _ p).timed hpr |>.1
                · obtain rfl := Option.some.inj hp
                  exact ((hpl.1 _ List.mem_cons_self).timed hpr).1
                · cases hp
            have hmade := (exec_turns (P := P) i σ.core).old hlt'
            have hcl' := hmade.client.symm.trans hcl
            exact hnext rfl hlt' hcl'
              (ih.timed r hlt' c hcl' (hmade.promise.symm.trans hprom) hsent)
          · exact Or.inr (Or.inl hm)
        · rw [hsim.mail.requestCount] at hlt
          rw [hsim.mail.requests] at hcl hprom
          rw [ht, List.append_nil] at hsent
          refine hnext rfl hlt hcl (ih.timed r hlt c hcl hprom (hsent.imp_right fun hu => ?_))
          rcases underway_before hs hu with hu | ⟨i', τ', rfl, hn', -⟩
          · exact hu
          · simp [taken, hn'] at ht
      · intro c r hk
        have hgo : requestSentIn tr r ∨ Underway σ r →
            requestSentIn (tr ++ (runtime P).taken σ x) r ∨ Underway σ' r := by
          rintro (hsent | hu)
          · exact Or.inl (requestSentIn_append.mpr (Or.inl hsent))
          · rcases underway_step hr.reach hC hR hc hs hu with
              (hsent | hu) | ⟨b, s, p, ps, τ, rfl, hn, hpr, hcon⟩
            · exact Or.inl (requestSentIn_append.mpr (Or.inr hsent))
            · exact Or.inr hu
            · exact (gone_unheld hr.reach hC hR hs hn hpr hcon hk).elim
        rcases hk with hm | hj
        · rcases (similar_keeping P).step hs with ⟨i, τ, rfl, hn, -, hsim⟩ | ⟨-, hsim⟩
          · rw [hsim.mail.outboxes] at hm
            rcases timed_mem i hm with hm' | ⟨event, form, rfl, hf⟩ | ⟨b, s, p, ps, rfl, -, hp, hset⟩
            · exact hgo (ih.sent c r (Or.inl hm'))
            · have hreg := clientEmit_registers σ.core c event form hf
              have hcon : (σ.core.conn.clients c).connected = true := by
                rw [← Bool.not_eq_false]
                intro hoff
                exact absurd (((reach_handled hr.reach hC).inv.requested.handle c _
                  (hreg.unsent hoff hm)).lt) (Nat.not_lt.mpr hf.1)
              obtain ⟨p, hpush, -, hp⟩ := hreg.packet hcon
              have htimed : ((clientEmit σ.core c event form).part.requests r).timed = true := by
                rcases (exec_turns (P := P) (.mail (.clientEmit c event form)) σ.core).pendingAcks c
                  _ hm with hold' | ⟨-, -, hfit⟩ | ⟨_, _, _, _, _, he, -⟩
                · exact absurd (((reach_handled hr.reach hC).inv.requested.handle c _ hold').lt)
                    (Nat.not_lt.mpr hf.1)
                · exact hfit
                · cases he
              exact Or.inr ⟨_, spawned_waits hn hs (emits_run hreg.named)
                (List.mem_append_left _ hpush), p, rfl, (hp htimed).1⟩
            · refine Or.inr ⟨.mail (.flushRest b s p ps), spawned_waits hn hs ?_ ?_, p, rfl, hp⟩
              · have hsettled : σ.core.mail.isSettled p = false := by simp [Mail.isSettled, hp, hset]
                simp [runtime, exec, execMail, flushPackets, hsettled]
              · have hsettled : σ.core.mail.isSettled p = false := by simp [Mail.isSettled, hp, hset]
                simp [runtime, exec, execMail, flushPackets, hsettled, Effect.spawned]
          · exact hgo (ih.sent c r (Or.inl (hsim.mail.outboxes ▸ hm)))
        · rcases midway_pending hs hj rfl with hj | ⟨i, τ, -, hn, hj⟩
          · exact hgo (ih.sent c r (Or.inr hj))
          · rcases rejectAck_spawned hj with ⟨rfl, hm⟩ | ⟨_, _, -, he, -⟩
            · exact hgo (ih.sent c r (Or.inl hm))
            · cases he

end Step

/-! ## 11. The handles of a client are exact -/

/-- **An open request**, by its handle: an `emitWithAck` of `c`, or a `timeout(ms).emit` of it that
    has been sent or that a flush is sending, which nothing has concluded. -/
structure Open (tr : List (Core × Instr)) (σ : State) (c : ClientId) (k : AckHandle) : Prop where
  made : k.request < σ.core.mail.requestCount
  client : (σ.core.mail.requests k.request).client = some c
  unsettled : ¬ concludedIn tr k.request
  kind : match k with
    | .promise r => (σ.core.mail.requests r).promise = true
    | .timed r => (σ.core.mail.requests r).promise = false ∧ (requestSentIn tr r ∨ Underway σ r)

/-- **The bookkeeping of a client's acknowledgements**: what is open is held by the client, or taken
    out by a disconnect that has yet to reject it; nothing else is; nothing is rejected twice; and
    what a disconnect takes out it rejects. -/
structure RegistersExact (tr : List (Core × Instr)) (σ : State) (c : ClientId) : Prop where
  exact : ∀ k, k ∈ (σ.core.mail.outboxes c).pendingAcks ∨ .mail (.rejectAck c k) ∈ σ.pending ↔
    Open tr σ c k
  apart : ∀ k ∈ (σ.core.mail.outboxes c).pendingAcks, .mail (.rejectAck c k) ∉ σ.pending
  once : ∀ r, tr.countP (fun x => x.1.rejects r x.2) ≤ 1
  rejected : ∀ tr₁ τ tr₂, tr = tr₁ ++ (τ, .mail (.rejectPendingAcks c)) :: tr₂ →
    ∀ k ∈ (τ.mail.outboxes c).pendingAcks,
      .mail (.rejectAck c k) ∈ σ.pending ∨ rejectedIn tr₂ k.request

/-- The client is outside a running emit. -/
def OutsideEmit (σ : State) (c : ClientId) : Prop :=
  ∀ p, .mail (.clientEmitRest c p) ∉ σ.pending

section Step

variable {C : State → Action Instr → Prop} {σ σ' : State} {tr : List (Core × Instr)}

/-- What is held has not been concluded. -/
theorem held_unsettled (h : (runtime P).Run C newServer tr σ) (hC : ∀ τ a, C τ a → timersIdle τ a)
    (hR : ∀ τ a, C τ a → CallsReturn τ a) (hT : ∀ τ a, C τ a → TimedPromisesUnsent P τ a)
    {c : ClientId} {k : AckHandle} (hk : Held σ c k) : ¬ concludedIn tr k.request := by
  have hL := reach_handled h.reach hC
  have hU := reach_untimed h.reach hC hT
  have hrec := run_recorded h hC
  have htimed : ∀ r, (σ.core.mail.requests r).promise = false →
      r < σ.core.mail.requestCount → (σ.core.mail.requests r).settled = false →
      ¬ concludedIn tr r := by
    intro r hp hlt hset hcon
    have := (hrec.settled r hlt (hL.inv.requested.wrapped r hlt hp)).mpr hcon
    exact absurd (hset.symm.trans this) nofun
  cases k with
  | promise r =>
      intro hcon
      refine run_closed h hC hR hT r ?_ hcon c hk
      rcases hk with hm | hj | ⟨r', he, -, hp, -⟩
      · exact (hL.inv.requested.handle c _ hm).fits
      · exact (hL.ok _ hj).placed.1.fits
      · exact AckHandle.promise.inj he ▸ hp
  | timed r =>
      rcases hk with hm | hj | ⟨r', he, -⟩
      · have hp := hU.held c r hm
        exact htimed r hp (hL.inv.requested.handle c _ hm).lt (hL.inv.requested.tracked c r hm hp)
      · have hp := hU.rejected c r hj
        obtain ⟨hh, -, hr⟩ := (hL.ok _ hj).placed
        exact htimed r hp hh.lt ((hr r rfl).2 hp)
      · cases he

/-- Who rejects a request finds it open. -/
theorem rejects_unsettled (h : (runtime P).Run C newServer tr σ)
    (hC : ∀ τ a, C τ a → timersIdle τ a) (hR : ∀ τ a, C τ a → CallsReturn τ a)
    (hT : ∀ τ a, C τ a → TimedPromisesUnsent P τ a) {i : Instr} {τ : State}
    (hn : (runtime P).next σ = some (i, τ)) {r : RequestId} (hrej : σ.core.rejects r i = true) :
    ¬ concludedIn tr r := by
  have hj := (next_mem hn).1
  unfold Core.rejects at hrej
  split at hrej
  · obtain rfl := of_decide_eq_true hrej
    have he := reach_executes h.reach hC hn
    obtain ⟨hlt, ht, hset⟩ := he.handled.requested.timer _ he.due
    intro hcon
    exact absurd (hset.symm.trans (((run_recorded h hC).settled _ hlt ht).mpr hcon)) nofun
  · obtain rfl := of_decide_eq_true hrej
    exact held_unsettled h hC hR hT (k := .timed _) (Or.inr (Or.inl hj))
  · obtain ⟨he, -⟩ := Bool.and_eq_true_iff.mp hrej
    obtain rfl := of_decide_eq_true he
    exact held_unsettled h hC hR hT (k := .promise _) (Or.inr (Or.inl hj))
  · cases hrej

/-- No request is rejected twice. -/
theorem rejected_once (h : (runtime P).Run C newServer tr σ) (hC : ∀ τ a, C τ a → timersIdle τ a)
    (hR : ∀ τ a, C τ a → CallsReturn τ a) (hT : ∀ τ a, C τ a → TimedPromisesUnsent P τ a)
    (r : RequestId) : tr.countP (fun x => x.1.rejects r x.2) ≤ 1 := by
  induction h with
  | start => exact Nat.zero_le 1
  | @step tr σ σ' a hr hc hs ih =>
      rcases taken_cases (M := runtime P) σ a with ht | ⟨i, τ, rfl, hn, ht⟩
      · rwa [ht, List.append_nil]
      · rw [ht, List.countP_append, List.countP_singleton]
        split
        · rename_i hrej
          have hno := rejects_unsettled hr hC hR hT hn hrej
          have hzero : tr.countP (fun x => x.1.rejects r x.2) = 0 :=
            List.countP_eq_zero.mpr fun x hx hrej' => hno ⟨x, hx, rejects_concludes hrej'⟩
          rw [hzero]
        · exact ih

/-- Outside an emit no rejection is put off. -/
theorem outside_rejects (h : (runtime P).Reach C newServer σ) (hC : ∀ τ a, C τ a → timersIdle τ a)
    (hR : ∀ τ a, C τ a → CallsReturn τ a) {c : ClientId} (hout : OutsideEmit σ c) {k : AckHandle}
    (hlt : k.request < σ.core.mail.requestCount) (hk : Rejecting σ c k) :
    .mail (.rejectAck c k) ∈ σ.pending := by
  rcases hk with hj | ⟨r, rfl, hcl, -, hsend, -⟩
  · exact hj
  · obtain ⟨p, hp, -⟩ := reach_sending h hC hR r hlt c hcl hsend
    exact absurd hp (hout p)

/-- What a disconnect is rejecting it goes on rejecting until it is rejected. -/
theorem run_rejecting (h : (runtime P).Reach C newServer σ) (hC : ∀ τ a, C τ a → timersIdle τ a)
    (hR : ∀ τ a, C τ a → CallsReturn τ a) {c : ClientId} {k : AckHandle}
    (hlt : k.request < σ.core.mail.requestCount)
    (hcl : (σ.core.mail.requests k.request).client = some c) (hk : Rejecting σ c k)
    (hrun : (runtime P).Run C σ tr σ') : Rejecting σ' c k ∨ rejectedIn tr k.request := by
  induction hrun with
  | start => exact Or.inl hk
  | step hr hc hs ih =>
      obtain ⟨hlt', hcl', -⟩ := made_run hr hlt
      rw [rejectedIn_append]
      rcases ih with hk | hk
      · exact (rejecting_step (h.trans hr.reach) hC hR hc hs hlt' (hcl'.trans hcl) hk).imp_right
          Or.inr
      · exact Or.inr (Or.inl hk)

/-- **The handles of a client are exact outside its emits**, in a run that sends no
    `timeout(ms).emitWithAck`. -/
theorem registers_exact (h : (runtime P).Run C newServer tr σ)
    (hC : ∀ τ a, C τ a → timersIdle τ a ∧ CallsReturn τ a ∧ TimedPromisesUnsent P τ a)
    {c : ClientId} (hout : OutsideEmit σ c) : RegistersExact tr σ c := by
  have hI := fun τ a hc => (hC τ a hc).1
  have hR := fun τ a hc => (hC τ a hc).2.1
  have hT := fun τ a hc => (hC τ a hc).2.2
  have hL := reach_handled h.reach hI
  have hU := reach_untimed h.reach hI hT
  have htr := run_tracked h hI hR
  refine ⟨fun k => ⟨fun hk => ?_, fun hk => ?_⟩, fun k hm hj => ?_, rejected_once h hI hR hT,
    fun tr₁ τ tr₂ htr k hm => ?_⟩
  · have hh : σ.core.mail.Handle c k := by
      rcases hk with hm | hj
      · exact hL.inv.requested.handle c k hm
      · exact (hL.ok _ hj).placed.1
    refine ⟨hh.lt, hh.client, held_unsettled h hI hR hT (hk.imp_right Or.inl), ?_⟩
    cases k with
    | promise r => exact hh.fits
    | timed r => exact ⟨hk.elim (hU.held c r) (hU.rejected c r), htr.sent c r hk⟩
  · have hheld : Held σ c k := by
      cases k with
      | promise r => exact (htr.promise r hk.made c hk.client hk.kind).resolve_left hk.unsettled
      | timed r =>
          exact (htr.timed r hk.made c hk.client hk.kind.1 hk.kind.2).resolve_left hk.unsettled
    exact hheld.imp_right fun hj => outside_rejects h.reach hI hR hout hk.made hj
  · cases k with
    | promise r => exact ((reach_lone h.reach).ok _ hj).2.1 c hm
    | timed r => exact ((hL.ok _ hj).placed.2.2 r rfl).1 hm
  · obtain ⟨σ₁, τ₁, σ₂, hr₁, hc₁, hcore, hn, hs, hrun⟩ := (htr ▸ h).split
    dsimp only at hcore hn
    subst hcore
    have hh := (reach_handled hr₁.reach hI).inv.requested.handle c k hm
    have hk : Rejecting σ₂ c k := Or.inl (spawned_waits hn hs rfl
      (List.mem_append_left _ (List.mem_map_of_mem (OSet.mem_def.mp hm))))
    obtain ⟨hlt, hcl, -⟩ := made_step hs hh.lt
    exact (run_rejecting (hr₁.step hc₁ hs).reach hI hR hlt (hcl.trans hh.client) hk hrun).imp_left
      (outside_rejects h.reach hI hR hout (made_run hrun hlt).1)

end Step

/-- A client emits when it is connected, up to the observers of the packet. -/
def connectedEmits (as : List (Action Instr)) : List (Action Instr) :=
  [.call (.srv (.serverConnect "/" false false)), .run, .run, .ret, .ret, .ret,
    .call (.mail (.clientFlags 0 { timeout := some 5 }))] ++ as

/-- A `timeout(ms).emitWithAck` that the server answers leaves the handle of its timer behind. -/
theorem timed_promise_kept : ∃ tr σ,
    (runtime unary).Run (fun τ a => timersIdle τ a ∧ CallsReturn τ a) newServer tr σ ∧
      OutsideEmit σ 0 ∧ ¬ RegistersExact tr σ 0 := by
  obtain ⟨tr, σ, hr, hp⟩ := run_of_script (runtime unary)
    (fun τ a => timersIdle τ a ∧ CallsReturn τ a) newServer 60
    (connectedEmits [.call (.mail (.clientEmit 0 "a" .promise)), .ret, .run, .ret, .ret,
      .call (.mail (.invokeAck 0 true)), .run])
    (fun r => decide (.timed 0 ∈ (r.2.core.mail.outboxes 0).pendingAcks ∧
      (∃ x ∈ r.1, x.1.concludes 0 x.2 = true)) && r.2.pending.isEmpty) (by decide)
  obtain ⟨hp, hidle⟩ := Bool.and_eq_true_iff.mp hp
  obtain ⟨hm, hcon⟩ := of_decide_eq_true hp
  refine ⟨tr, σ, hr, fun p hj => ?_, fun h => ((h.exact _).mp (Or.inl hm)).unsettled hcon⟩
  rw [List.isEmpty_iff.mp hidle] at hj
  cases hj

/-- A sent `timeout(ms).emit` and an `emitWithAck` without a timeout are both held. -/
theorem registers_exact_two : ∃ tr σ,
    (runtime unary).Run (fun τ a => timersIdle τ a ∧ CallsReturn τ a ∧
      TimedPromisesUnsent unary τ a) newServer tr σ ∧
      (σ.core.mail.outboxes 0).pendingAcks.elems = [.timed 0, .promise 1] ∧
      RegistersExact tr σ 0 := by
  obtain ⟨tr, σ, hr, hp⟩ := run_of_script (runtime unary)
    (fun τ a => timersIdle τ a ∧ CallsReturn τ a ∧ TimedPromisesUnsent unary τ a) newServer 60
    (connectedEmits [.call (.mail (.clientEmit 0 "a" .callback)), .ret,
      .call (.mail (.clientEmit 0 "b" .promise)), .ret])
    (fun r => decide ((r.2.core.mail.outboxes 0).pendingAcks.elems = [.timed 0, .promise 1]) &&
      r.2.pending.all (fun j => !j.midway)) (by decide)
  obtain ⟨hk, hquiet⟩ := Bool.and_eq_true_iff.mp hp
  refine ⟨tr, σ, hr, of_decide_eq_true hk, registers_exact hr (fun _ _ h => h) fun p hj => ?_⟩
  cases List.all_eq_true.mp hquiet _ hj

end Smocket
