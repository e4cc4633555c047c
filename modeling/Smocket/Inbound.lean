import Smocket.Registers
import Smocket.Conduits
import Smocket.Log

/-
  File:      Smocket/Inbound.lean
  Subject:   FROM A CLIENT TO ITS SERVER. The packets that enter `dispatch` on server sockets, over
             any number of connections of a client, come in the order of its emits.

  A packet takes one of two ways to `send`: at once, or through the buffer and a flush. From there
  it is a task of the event loop. The second half keeps the order of what is sent; the first needs
  that a client which is connected does not emit while its own observers see another packet.

  * `inboundOf_sound` -- between `send` and `dispatch` nothing overtakes;
  * `run_sent` -- packets reach `send` in the order of their emits, where clients emit alone;
  * `inbound_fifo` -- what a server is sent arrives in emit order;
  * `nested_emit_overtakes` -- a packet emitted by an observer of another overtakes it.
-/

namespace Smocket

open Ordered EventLoop EventLoop.Machine

variable {P : Platform}

/-! ## 1. From `send` to `dispatch` -/

/-- The number and the event of a packet. -/
abbrev Stamp := Nat × String

def BufferedPacket.stamp (p : BufferedPacket) : Stamp := (p.serial, p.event)

def ServerDelivery.stamp (d : ServerDelivery) : Stamp := (d.serial, d.event)

/-- What an event says of the packets of `c`. -/
def Event.inbound (c : ClientId) : Event → List Stamp
  | .entered d => if d.client = c then [d.stamp] else []
  | _ => []

/-- **The packets of `c` that have entered `dispatch`**, oldest first. -/
def Core.enteredFrom (σ : Core) (c : ClientId) : List Stamp :=
  σ.log.reverse.flatMap (Event.inbound c)

/-- The packet of `c` in a pending delivery. -/
def Instr.inbound (c : ClientId) : Instr → List Stamp
  | .ctl (.deliverServer d) | .life (.dispatch d) => if d.client = c then [d.stamp] else []
  | _ => []

/-- What goes from a client to server sockets. -/
def inboundOf (c : ClientId) : Conduit Core Instr Stamp where
  sends σ i := (σ.sent c i).map BufferedPacket.stamp
  carries := Instr.inbound c
  received σ := σ.enteredFrom c

/-- What the events an instruction may record do not say stays the same. -/
theorem exec_logged {β : Type} {f : Event → List β} {i : Instr} (σ : Core)
    (hi : ∀ e, i.Records e → f e = []) :
    (exec P i σ).core.log.reverse.flatMap f = σ.log.reverse.flatMap f := by
  obtain ⟨es, hes, hrec⟩ := exec_log P i σ
  rw [hes, List.reverse_append, List.flatMap_append, List.flatMap_eq_nil_iff.mpr fun e he =>
    hi e (hrec e (List.mem_reverse.mp he)), List.append_nil]

/-- Only `dispatch` records that a packet entered. -/
theorem exec_enteredFrom (σ : Core) {i : Instr} {c : ClientId}
    (hi : ∀ d, i ≠ .life (.dispatch d)) : (exec P i σ).core.enteredFrom c = σ.enteredFrom c :=
  exec_logged σ fun e h => by
    unfold Event.inbound
    split
    · rename_i d
      unfold Instr.Records at h
      split at h <;> first | exact h.elim | (simp at h; done) | skip
      · exact absurd rfl (hi _)
    · rfl

theorem dispatch_enteredFrom (σ : Core) (d : ServerDelivery) (c : ClientId) :
    (exec P (.life (.dispatch d)) σ).core.enteredFrom c =
      σ.enteredFrom c ++ if d.client = c then [d.stamp] else [] := by
  simp [exec, execLife, dispatch, Core.enteredFrom, Event.inbound]

theorem sendToServer_inbound (μ : Mail) (s : SocketId) (d c : ClientId) (p : BufferedPacket) :
    (sendToServer μ s d p.serial p.event p.reply).2.flatMap (Instr.inbound c) =
      if d = c then [p.stamp] else [] := by
  unfold sendToServer
  split <;> simp [Instr.inbound, ServerDelivery.stamp, BufferedPacket.stamp]

/-- Two instructions post a delivery to a server socket; one pushes the packet on. -/
theorem inbound_spawned {i j : Instr} {σ : Core} {c : ClientId} (h : j ∈ (exec P i σ).spawned)
    (hj : j.inbound c ≠ []) : (∃ d p, i = .mail (.clientEmitRest d p)) ∨
      (∃ a s p ps, i = .mail (.flushRest a s p ps)) ∨ ∃ d, i = .ctl (.deliverServer d) := by
  have hs := spawnedBy h
  unfold Instr.inbound at hj
  split at hj
  · exact hs.imp id Or.inl
  · exact Or.inr (Or.inr ⟨_, hs⟩)
  · exact absurd rfl hj

/-- **Between `send` and `dispatch` nothing overtakes.** -/
theorem inboundOf_sound (P : Platform) (c : ClientId) :
    (inboundOf c).Sound (runtime P) fun _ _ => True where
  post σ i _ := by
    have hnil : ∀ {l : List Instr}, (∀ j ∈ l, j.inbound c = []) →
        (l.flatMap (Instr.inbound c)).Sublist ((σ.sent c i).map BufferedPacket.stamp) := fun h => by
      rw [List.flatMap_eq_nil_iff.mpr h]
      exact List.nil_sublist _
    by_cases hi : ∃ j ∈ (exec P i σ).post, j.inbound c ≠ []
    · obtain ⟨j, hj, hne⟩ := hi
      rcases inbound_spawned (List.mem_append_right _ hj) hne with
        ⟨d, p, rfl⟩ | ⟨a, s, p, ps, rfl⟩ | ⟨d, rfl⟩
      · change ((exec P _ σ).post.flatMap (Instr.inbound c)).Sublist _
        cases hserver : (σ.conn.clients d).serverSocket with
        | none => simp [exec, execMail, clientEmitRest, hserver]
        | some s =>
            have hpost : (exec P (.mail (.clientEmitRest d p)) σ).post =
                (sendToServer σ.mail s d p.serial p.event p.reply).2 := by
              simp only [exec, execMail, clientEmitRest, hserver]
              split <;> rfl
            rw [hpost, sendToServer_inbound]
            have hsent : σ.sent c (.mail (.clientEmitRest d p)) = if d = c then [p] else [] := by
              simp [Core.sent, hserver]
            change List.Sublist _ ((σ.sent c (.mail (.clientEmitRest d p))).map BufferedPacket.stamp)
            rw [hsent]
            split <;> exact List.Sublist.refl _
      · change ((exec P _ σ).post.flatMap (Instr.inbound c)).Sublist _
        cases hconn : σ.conn.isConnectionAttemptConnected a s with
        | false => simp [exec, execMail, flushRest, hconn]
        | true =>
            have hpost : (exec P (.mail (.flushRest a s p ps)) σ).post =
                (sendToServer σ.mail s (σ.conn.attempts a).client p.serial p.event p.reply).2 := by
              simp [exec, execMail, flushRest, hconn]
            rw [hpost, sendToServer_inbound]
            have hsent : σ.sent c (.mail (.flushRest a s p ps)) =
                if (σ.conn.attempts a).client = c then [p] else [] := by
              simp [Core.sent, Core.flushed, hconn]
            change List.Sublist _ ((σ.sent c (.mail (.flushRest a s p ps))).map BufferedPacket.stamp)
            rw [hsent]
            split <;> exact List.Sublist.refl _
      · cases hj
    · exact hnil fun j hj => by
        by_contra hne
        exact hi ⟨j, hj, hne⟩
  push σ i _ := by
    change ((exec P i σ).core.enteredFrom c ++
      (exec P i σ).push.flatMap (Instr.inbound c)).Sublist (σ.enteredFrom c ++ i.inbound c)
    by_cases hd : ∃ d, i = .life (.dispatch d)
    · obtain ⟨d, rfl⟩ := hd
      have hpush : (exec P (.life (.dispatch d)) σ).push.flatMap (Instr.inbound c) = [] := by
        refine List.flatMap_eq_nil_iff.mpr fun j hj => ?_
        by_contra hne
        rcases inbound_spawned (List.mem_append_left _ hj) hne with
          ⟨_, _, h⟩ | ⟨_, _, _, _, h⟩ | ⟨_, h⟩ <;> cases h
      rw [dispatch_enteredFrom, hpush, List.append_nil]
      exact List.Sublist.refl _
    · rw [exec_enteredFrom σ fun d h => hd ⟨d, h⟩]
      refine (List.Sublist.refl _).append ?_
      by_cases hs : ∃ d, i = .ctl (.deliverServer d)
      · obtain ⟨d, rfl⟩ := hs
        simp only [exec, execCtl, deliverServer]
        split <;> simp [Instr.inbound]
      · have hpush : (exec P i σ).push.flatMap (Instr.inbound c) = [] := by
          refine List.flatMap_eq_nil_iff.mpr fun j hj => ?_
          by_contra hne
          rcases inbound_spawned (List.mem_append_left _ hj) hne with
            ⟨d, p, rfl⟩ | ⟨a, s, p, ps, rfl⟩ | ⟨d, rfl⟩
          · simp only [exec, execMail, clientEmitRest] at hj
            split at hj
            · cases hj
            · split at hj
              · split at hj
                · obtain rfl := List.mem_singleton.mp hj
                  exact hne rfl
                · cases hj
              · cases hj
          · simp only [exec, execMail, flushRest] at hj
            split at hj
            · obtain rfl := List.mem_singleton.mp hj
              exact hne rfl
            · cases hj
          · exact hs ⟨d, rfl⟩
        rw [hpush]
        exact List.nil_sublist _
  handle σ i is his j hj := by
    rcases onThrow_handle his with rfl | ⟨a, err, rfl, -⟩
    · cases hj
    · rw [List.mem_singleton.mp hj]
      rfl
  run σ i hr := by
    refine exec_enteredFrom σ fun d hi => ?_
    subst hi
    cases hr

section Run

variable {C : State → Action Instr → Prop} {σ σ' : State} {tr : List (Core × Instr)} {c : ClientId}

/-- What has entered `dispatch`, then what is on its way there, is part of what was sent, in that
    order. -/
theorem run_inbound (h : (runtime P).Run C newServer tr σ) (c : ClientId) :
    (σ.core.enteredFrom c ++ σ.pending.flatMap (Instr.inbound c)).Sublist
      ((sentIn c tr).map BufferedPacket.stamp) := by
  have hline := h.conveys (inboundOf_sound P c) (fun _ _ _ _ _ _ => trivial)
    (fun τ i _ _ hc => ?_) rfl
  · have hsent : (sentIn c tr).map BufferedPacket.stamp = (inboundOf c).sent tr := by
      simp only [Conduit.sent, inboundOf, sentIn, List.map_flatMap]
    rw [hsent]
    exact hline
  · change i.inbound c = []
    unfold Instr.inbound
    split <;> [cases hc; cases hc; rfl]

end Run

/-! ## 2. From `emit` to `send` -/

/-- The packet an emit makes. -/
def Core.emitted (σ : Core) (c : ClientId) : Instr → List BufferedPacket
  | .mail (.clientEmit d event form) =>
      if d = c ∧ event ∉ RESERVED_EVENTS then [σ.bufferedPacket d event form] else []
  | _ => []

/-- **The packets a run has emitted on `c`**, in the order of the calls. -/
def emittedIn (c : ClientId) (tr : List (Core × Instr)) : List BufferedPacket :=
  tr.flatMap fun x => x.1.emitted c x.2

/-- The packet of `c` whose outgoing observers run, on its way to `send` at once. -/
def Instr.emitting (c : ClientId) : Instr → List BufferedPacket
  | .mail (.clientEmitRest d p) => if d = c then [p] else []
  | _ => []

/-- Packet `j` is not about to be sent on the connection on which `i` emits another. -/
abbrev Core.Alone (σ : Core) (i j : Instr) : Prop :=
  ∀ c ∈ i.requester, (σ.conn.clients c).connected = true → j.emitting c = [] ∧ j.unsent σ.conn c = []

/-- **The condition**: a connected client does not emit while its outgoing observers see another
    packet. -/
abbrev EmitsAlone (P : Platform) : State → Action Instr → Prop := (runtime P).Posts Core.Alone

theorem emitting_midway {j : Instr} {c : ClientId} (h : j.midway = false) : j.emitting c = [] := by
  unfold Instr.emitting
  split <;> [cases h; rfl]

theorem emitting_spawned {i j : Instr} {σ : Core} {c : ClientId} (h : j ∈ (exec P i σ).spawned)
    (hi : i.requester = none) : j.emitting c = [] := by
  unfold Instr.emitting
  split
  · obtain ⟨event, form, rfl, -⟩ := clientEmitRest_spawned h
    cases hi
  · rfl

theorem emitting_handle {σ : Core} {i : Instr} {is : List Instr} {c : ClientId}
    (h : onThrow σ i = .handle is) : ∀ j ∈ is, j.emitting c = [] := fun j hj => by
  rcases onThrow_handle h with rfl | ⟨a, err, rfl, -⟩
  · cases hj
  · rw [List.mem_singleton.mp hj]
    rfl

/-- What is sent at once comes from an emit whose observers have returned. -/
theorem sent_emitting {σ : Core} {c : ClientId} {i : Instr} (hf : i.flushes = false) :
    (σ.sent c i).Sublist (i.emitting c) := by
  by_cases hi : ∃ d p, i = .mail (.clientEmitRest d p)
  · obtain ⟨d, p, rfl⟩ := hi
    change List.Sublist (if _ then [p] else []) (if d = c then [p] else [])
    split
    · rename_i hd
      rw [if_pos hd.1]
    · exact List.nil_sublist _
  · have hnil : σ.sent c i = [] := by
      unfold Core.sent
      split
      · exact absurd ⟨_, _, rfl⟩ hi
      · unfold Core.flushed
        split <;> [cases hf; rfl]
    rw [hnil]
    exact List.nil_sublist _

/-- What is buffered has been emitted. -/
theorem buffered_emitted (σ : Core) (c : ClientId) (i : Instr) :
    (σ.buffered c i).Sublist (σ.emitted c i) := by
  unfold Core.buffered
  split
  · split
    · rename_i hd
      rw [Core.emitted, if_pos ⟨hd.1, hd.2.1⟩]
    · exact List.nil_sublist _
  · exact List.nil_sublist _

section Run

variable {C : State → Action Instr → Prop} {σ σ' : State} {tr : List (Core × Instr)} {c : ClientId}

/-- While a client is connected its buffer is empty, from the moment the flush has detached it. -/
def Detached (σ : State) : Prop :=
  ∀ c, (σ.core.conn.clients c).connected = true → (σ.core.mail.outboxes c).sendBuffer = [] ∨
    ∃ a s, .mail (.flush a s) ∈ σ.pending ∧ (σ.core.conn.attempts a).client = c

/-- An instruction of a flush leaves an empty buffer empty while its client is connected. -/
theorem flushes_sendBuffer (hF : Flushed σ) {i : Instr} (hi : i ∈ σ.pending) (hf : i.flushes = true)
    (hc : (σ.core.conn.clients c).connected = true)
    (hb : (σ.core.mail.outboxes c).sendBuffer = []) :
    ((exec P i σ.core).core.mail.outboxes c).sendBuffer = [] := by
  unfold Instr.flushes at hf
  split at hf
  · exact hb
  · simp only [exec, execMail, flush, Mail.setOutbox, modify_apply]
    split <;> [rfl; exact hb]
  · rename_i a s ps
    cases ps with
    | nil => exact hb
    | cons p ps =>
        simp only [exec, execMail, flushPackets]
        split
        · exact hb
        · split
          · exact hb
          · exact (setOutbox_sendBuffer (by intro b; rfl)).trans hb
  · rename_i a s p ps
    cases hconn : σ.core.conn.isConnectionAttemptConnected a s with
    | true => simp [exec, execMail, flushRest, hconn, (sendToServer_requests ..).outboxes, hb]
    | false =>
        simp only [exec, execMail, flushRest, hconn, Bool.false_eq_true, if_false, Mail.setOutbox,
          modify_apply]
        split
        · -- the remainder goes back to the buffer of a client that is not connected
          rename_i hcl
          rcases hF a s p ps hi with h | h
          · exact absurd (h.symm.trans hconn) (by intro h; cases h)
          · rw [← hcl] at h
            exact absurd (h.symm.trans hc) (by intro h; cases h)
        · exact hb
  · cases hf

theorem Detached.step (hD : Detached σ) (hR : Flushing σ) (hF : Flushed σ) {a : Action Instr}
    (hs : (runtime P).step σ a = some σ') : Detached σ' := by
  intro c hc'
  rcases (similar_keeping P).step hs with ⟨i, τ, rfl, hn, -, hsim⟩ | ⟨ht, hsim⟩
  · have hsim : (exec P i σ.core).core.Similar σ'.core := hsim
    rw [hsim.conn] at hc'
    rw [hsim.mail.outboxes, hsim.conn]
    have hi : i ∈ σ.pending := (next_mem hn).1
    by_cases hfl : ∃ a s, .mail (.flush a s) ∈ σ.pending ∧ (σ.core.conn.attempts a).client = c
    · -- the flush is alone on the stack
      obtain ⟨a, s, hj, hcl⟩ := hfl
      have hst := hR.sole _ ((List.mem_append.mp hj).resolve_right fun hq =>
        absurd rfl (hR.queue _ hq)) rfl
      obtain rfl : i = .mail (.flush a s) := by
        obtain ⟨-, ⟨-, hst', -⟩ | ⟨hst', -, -⟩⟩ := next_pending hn
        · rw [hst] at hst'
          exact (List.cons.inj hst').1.symm
        · rw [hst] at hst'
          cases hst'
      refine Or.inl ?_
      simp [exec, execMail, flush, Mail.setOutbox, hcl]
    · have hold : (σ.core.conn.clients c).connected = true →
          (σ.core.mail.outboxes c).sendBuffer = [] := fun h => (hD c h).resolve_right hfl
      have hsame : (σ.core.conn.clients c).connected = true →
          ((exec P i σ.core).core.mail.outboxes c).sendBuffer = [] := fun hc => by
        by_cases hf : i.flushes = true
        · exact flushes_sendBuffer hF hi hf hc (hold hc)
        · rw [Bool.not_eq_true] at hf
          by_cases he : ∃ d event form, i = .mail (.clientEmit d event form)
          · obtain ⟨d, event, form, rfl⟩ := he
            refine (clientEmit_sendBuffer σ.core d event form c).trans ?_
            rw [hold hc, List.nil_append, Core.buffered]
            split
            · rename_i hd
              rw [← hd.1, hd.2.2.1] at hc
              cases hc
            · rfl
          · rcases exec_sendBuffer (P := P) σ.core hf (fun d event form h => he ⟨d, event, form, h⟩) c
              with h | ⟨r, -, h⟩ <;> rw [h, hold hc]
            rfl
      cases i with
      | conn i =>
          rcases execConn_connected hc' with hc | ⟨a, s, rfl, hp, hcl⟩
          · exact Or.inl (hsame hc)
          · refine Or.inr ⟨a, s, spawned_waits hn hs ?_ ?_, ?_⟩
            · simp [runtime, exec, execConn, completeConnectionAttempt, hp]
            · simp [runtime, exec, execConn, completeConnectionAttempt, hp, Effect.spawned]
            · simp [exec, execConn, completeConnectionAttempt, hp, hcl, Conn.setManager,
                Conn.setClient, Conn.setAttempt]
      | _ => exact Or.inl (hsame hc')
  · rw [hsim.conn] at hc'
    rw [hsim.mail.outboxes, hsim.conn]
    refine (hD c hc').imp_right fun h => ?_
    obtain ⟨b, s, hj, hcl⟩ := h
    refine ⟨b, s, ?_, hcl⟩
    have hst := hR.sole _ ((List.mem_append.mp hj).resolve_right fun hq =>
      absurd rfl (hR.queue _ hq)) rfl
    rcases step_cases hs with ⟨i, τ, rfl, hn, -⟩ | ⟨i, rfl, happ, -, -⟩ | ⟨i, k, rfl, hk, happ, -⟩ |
      ⟨i, k, rfl, hk, happ, -⟩
    · simp [taken, hn] at ht
    · simp [inApp, hst, runtime, isApp] at happ
    · rw [hst] at hk
      obtain ⟨rfl, -⟩ := List.cons.inj hk
      cases happ
    · rw [hst] at hk
      obtain ⟨rfl, -⟩ := List.cons.inj hk
      cases happ

theorem reach_detached (h : (runtime P).Reach C newServer σ) (hC : ∀ τ a, C τ a → timersIdle τ a) :
    Detached σ := by
  induction h with
  | start => exact fun _ hc => absurd hc (by intro h; cases h)
  | step hr _ hs ih => exact ih.step (reach_flushing hr) (reach_flushed hr hC) hs

/-- On a client that emits, nothing else waits. -/
theorem alone_waiting (hR : Flushing σ) (hD : Detached σ) {event : String} {form : EmitForm}
    {τ : State}
    (hn : (runtime P).next σ = some (.mail (.clientEmit c event form), τ))
    (hc : (σ.core.conn.clients c).connected = true) (ha : EmitsAlone P σ .run) :
    τ.pending.flatMap (Instr.emitting c) = [] ∧ waiting σ c = [] := by
  have hcore := (next_pending hn).1
  have halone : ∀ j ∈ τ.pending, j.emitting c = [] ∧ j.unsent σ.core.conn c = [] := by
    rw [hcore]
    exact fun j hj => ha rfl _ τ hn j hj c rfl (hcore ▸ hc)
  refine ⟨List.flatMap_eq_nil_iff.mpr fun j hj => (halone j hj).1, ?_⟩
  have hun : σ.pending.flatMap (Instr.unsent σ.core.conn c) = [] := by
    rw [next_flatMap hn, List.flatMap_eq_nil_iff.mpr fun j hj => (halone j hj).2]
    rfl
  rw [waiting, hun, List.nil_append]
  refine (hD c hc).resolve_right ?_
  rintro ⟨a, s, hj, -⟩
  have hst := hR.sole _ ((List.mem_append.mp hj).resolve_right fun hq =>
    absurd rfl (hR.queue _ hq)) rfl
  obtain ⟨-, ⟨-, hst', -⟩ | ⟨hst', -, -⟩⟩ := next_pending hn
  · rw [hst] at hst'
    cases (List.cons.inj hst').1
  · rw [hst] at hst'
    cases hst'

/-- **What a step does to the packets on their way to `send`**: they keep their order, behind what
    it sends and before what it emits. -/
theorem emission_step (h : (runtime P).Reach C newServer σ) (hC : ∀ τ a, C τ a → timersIdle τ a)
    {a : Action Instr} (hc : C σ a) (ha : EmitsAlone P σ a) (hs : (runtime P).step σ a = some σ')
    (c : ClientId) : (sentIn c ((runtime P).taken σ a) ++
        (σ'.pending.flatMap (Instr.emitting c) ++ waiting σ' c)).Sublist
      ((σ.pending.flatMap (Instr.emitting c) ++ waiting σ c) ++
        emittedIn c ((runtime P).taken σ a)) := by
  have hw := (waiting_step h hc hs c).1
  rcases taken_cases (M := runtime P) σ a with ht | ⟨i, τ, rfl, hn, ht⟩
  · have hidle : ∀ i τ, a = .run → (runtime P).next σ ≠ some (i, τ) := fun i τ hr hn => by
      subst hr
      simp [taken, hn] at ht
    simp only [ht, sentIn, emittedIn, flushedIn, bufferedIn, List.flatMap_nil, List.nil_append,
      List.append_nil] at hw ⊢
    refine (pending_flatMap hs (fun i τ hr hn => absurd hn (hidle i τ hr)) (fun i hi => ?_)
      fun _ _ _ his => emitting_handle his).append hw
    unfold Instr.emitting
    split <;> [cases hi; rfl]
  · simp only [ht, sentIn, emittedIn, flushedIn, bufferedIn, List.flatMap_cons, List.flatMap_nil,
      List.append_nil] at hw ⊢
    have hσ : (runtime P).execute i τ = σ' := by
      simpa [Machine.step, hn] using hs
    have hcore : τ.core = σ.core := (next_pending hn).1.symm
    have hpost : ((runtime P).exec i τ.core).post.flatMap (Instr.emitting c) = [] :=
      List.flatMap_eq_nil_iff.mpr fun j hj => emitting_midway (midway_post hj)
    have hE' := execute_flatMap (M := runtime P) (f := Instr.emitting c) (τ := τ) (i := i)
      fun _ _ _ his => emitting_handle his
    rw [hσ, hpost, List.append_nil] at hE'
    rw [next_flatMap hn]
    cases hreq : i.requester with
    | some d =>
        obtain ⟨event, form, rfl⟩ : ∃ event form, i = .mail (.clientEmit d event form) := by
          unfold Instr.requester at hreq
          split at hreq
          · obtain rfl := Option.some.inj hreq
            exact ⟨_, _, rfl⟩
          · cases hreq
        change ((σ'.pending.flatMap (Instr.emitting c)) ++ waiting σ' c).Sublist
          (τ.pending.flatMap (Instr.emitting c) ++ waiting σ c ++ σ.core.emitted c _)
        change (waiting σ' c).Sublist (waiting σ c ++ σ.core.buffered c _) at hw
        by_cases hd : d = c ∧ (σ.core.conn.clients d).connected = true
        · -- the packet is sent at once, and nothing waits
          obtain ⟨rfl, hconn⟩ := hd
          obtain ⟨hE, hw₀⟩ := alone_waiting (reach_flushing h) (reach_detached h hC) hn hconn ha
          have hb : σ.core.buffered d (.mail (.clientEmit d event form)) = [] := by
            simp [Core.buffered, hconn]
          rw [hw₀, hb] at hw
          rw [hE, List.append_nil] at hE'
          rw [hE, hw₀, List.sublist_nil.mp hw, List.append_nil]
          refine hE'.trans ?_
          rw [hcore]
          by_cases hres : event ∈ RESERVED_EVENTS
          · simp [runtime, exec, execMail, clientEmit, hres]
          · have hpush : ((runtime P).exec (.mail (.clientEmit d event form)) σ.core).push =
                [.app (.clientOutgoing d),
                  .mail (.clientEmitRest d (σ.core.bufferedPacket d event form))] := by
              have hemit := (clientEmit_emitted σ.core d form hres).2.2
              simp only [runtime, exec, execMail, clientEmit, if_neg hres, hconn, Bool.not_true,
                Bool.false_eq_true, if_false] at hemit ⊢
              simp only [List.cons.injEq, true_and, and_true, Instr.mail.injEq,
                MailInstr.clientEmitRest.injEq]
              exact (hemit d _ (List.mem_cons_of_mem _ (List.mem_singleton_self _))).2
            rw [hpush]
            simp [Instr.emitting, Core.emitted, hres]
        · have hpush : ((runtime P).exec (.mail (.clientEmit d event form)) τ.core).push.flatMap
              (Instr.emitting c) = [] := by
            refine List.flatMap_eq_nil_iff.mpr fun j hj => ?_
            unfold Instr.emitting
            split
            · rename_i e p
              split
              · rename_i he
                subst he
                rw [hcore] at hj
                obtain ⟨_, _, hi, hconn, -⟩ := clientEmitRest_spawned (List.mem_append_left _ hj)
                cases hi
                exact absurd ⟨rfl, hconn⟩ hd
              · rfl
            · rfl
          rw [hpush, List.nil_append] at hE'
          rw [List.append_assoc]
          exact hE'.append (hw.trans ((List.Sublist.refl _).append (buffered_emitted ..)))
    | none =>
        have hpush : ((runtime P).exec i τ.core).push.flatMap (Instr.emitting c) = [] :=
          List.flatMap_eq_nil_iff.mpr fun j hj => emitting_spawned (List.mem_append_left _ hj) hreq
        rw [hpush, List.nil_append] at hE'
        have hb : σ.core.buffered c i = [] := by
          unfold Core.buffered
          split <;> [cases hreq; rfl]
        rw [hb, List.append_nil] at hw
        cases hf : i.flushes with
        | true =>
            -- a flush is at the bottom of the stack, where no emit is under way
            have hrel := (List.pairwise_cons.mp ((reach_handled h hC).next hn).rel).1
            have hE : τ.pending.flatMap (Instr.emitting c) = [] := List.flatMap_eq_nil_iff.mpr
              fun j hj => emitting_midway ((hrel j hj).task (Or.inl (flushes_isLast hf)))
            have hsent : σ.core.sent c i = σ.core.flushed c i := by
              unfold Core.sent
              split <;> [cases hf; rfl]
            rw [hE] at hE'
            rw [List.sublist_nil.mp hE', hE, hsent, List.append_nil, List.nil_append]
            exact hw.trans ((List.sublist_append_right _ _).trans (List.sublist_append_left _ _))
        | false =>
            have hfl : σ.core.flushed c i = [] := by
              unfold Core.flushed
              split <;> [cases hf; rfl]
            rw [hfl, List.nil_append] at hw
            rw [← List.append_assoc]
            exact (((sent_emitting hf).append hE').append hw).trans (List.sublist_append_left _ _)

/-- **Packets reach `send` in the order of their emits.** -/
theorem run_sent (h : (runtime P).Run C newServer tr σ) (hC : ∀ τ a, C τ a → timersIdle τ a)
    (hA : ∀ τ a, C τ a → EmitsAlone P τ a) (c : ClientId) :
    (sentIn c tr ++ (σ.pending.flatMap (Instr.emitting c) ++ waiting σ c)).Sublist
      (emittedIn c tr) :=
  h.flows (fun σ i => σ.emitted c i) (fun σ i => σ.sent c i)
    (fun σ => σ.pending.flatMap (Instr.emitting c) ++ waiting σ c)
    (fun _ _ _ hr hc hs => emission_step hr hC hc (hA _ _ hc) hs c) rfl

theorem serial_keeping (P : Platform) :
    Keeping (runtime P) fun σ σ' => σ.mail.serial ≤ σ'.mail.serial where
  refl _ := le_rfl
  trans := le_trans
  run _ _ hr := ((similar_keeping P).run _ _ hr).mail.serial.ge

/-- Emits are numbered in the order of the calls. -/
theorem run_numbered (h : (runtime P).Run C newServer tr σ) (c : ClientId) :
    (emittedIn c tr).Pairwise (fun p q => p.serial < q.serial) := by
  refine (h.ascending (fun σ i => σ.emitted c i) BufferedPacket.serial
    (fun σ => σ.mail.serial) (serial_keeping P)
    (fun σ i => (exec_turns (P := P) i σ).serial) (fun σ i p hp => ?_) fun σ i => ?_).1
  · unfold Core.emitted at hp
    split at hp
    · rename_i d event form
      split at hp
      · rename_i hd
        rw [List.mem_singleton.mp hp]
        exact ⟨rfl, (Nat.lt_succ_self _).trans_eq (clientEmit_emitted σ d form hd.2).1.symm⟩
      · cases hp
    · cases hp
  · unfold Core.emitted
    split
    · split <;> simp
    · exact Nat.zero_le _

/-- **What a server is sent arrives in emit order.** In a run whose timers fire between two tasks
    and in which a connected client does not emit from inside the observers of another of its
    packets, over any number of connections, flushes and interrupted flushes: what has entered
    `dispatch` on server sockets, then what is on its way there, is a part of what the client has
    emitted, in the order of the calls; and no packet is in it twice. -/
theorem inbound_fifo (h : (runtime P).Run C newServer tr σ)
    (hC : ∀ τ a, C τ a → timersIdle τ a ∧ EmitsAlone P τ a) (c : ClientId) :
    (σ.core.enteredFrom c ++ σ.pending.flatMap (Instr.inbound c)).Sublist
        ((emittedIn c tr).map BufferedPacket.stamp) ∧
      ((σ.core.enteredFrom c).map Prod.fst).Pairwise (· < ·) := by
  have hline : (σ.core.enteredFrom c ++ σ.pending.flatMap (Instr.inbound c)).Sublist
      ((emittedIn c tr).map BufferedPacket.stamp) := (run_inbound h c).trans
    (((List.sublist_append_left _ _).trans
      (run_sent h (fun τ a hc => (hC τ a hc).1) (fun τ a hc => (hC τ a hc).2) c)).map _)
  refine ⟨hline, List.Pairwise.sublist (((List.sublist_append_left _ _).trans hline).map _) ?_⟩
  rw [List.map_map, List.pairwise_map]
  exact run_numbered h c

end Run

/-- A packet from the buffer, one sent at once, and one from the buffer after the client has
    disconnected and connected again. -/
theorem inbound_fifo_three : ∃ tr σ,
    (runtime unary).Run (fun τ a => timersIdle τ a ∧ EmitsAlone unary τ a) newServer tr σ ∧
      σ.core.enteredFrom 0 = [(0, "a"), (1, "b"), (2, "c")] ∧
      (σ.core.enteredFrom 0 ++ σ.pending.flatMap (Instr.inbound 0)).Sublist
        ((emittedIn 0 tr).map BufferedPacket.stamp) := by
  obtain ⟨tr, σ, hr, hp⟩ := run_of_script (runtime unary)
    (fun τ a => timersIdle τ a ∧ EmitsAlone unary τ a) newServer 110
    [.call (.srv (.serverConnect "/" false false)), .call (.mail (.clientEmit 0 "a" .plain)),
      .run, .run, .ret, .ret, .ret, .ret, .call (.mail (.clientEmit 0 "b" .plain)), .ret,
      .run, .ret, .ret, .run, .ret, .ret, .call (.ctl (.clientDisconnect 0)), .ret,
      .call (.mail (.clientEmit 0 "c" .plain)), .call (.conn (.connect 0)), .run, .ret, .ret,
      .run, .run, .ret, .ret, .ret, .ret, .run]
    (fun r => decide (r.2.core.enteredFrom 0 = [(0, "a"), (1, "b"), (2, "c")])) (by decide)
  exact ⟨tr, σ, hr, of_decide_eq_true hp, (inbound_fifo hr (fun _ _ h => h) 0).1⟩

/-- An emit from inside the observers of another packet overtakes it. -/
theorem nested_emit_overtakes : ∃ tr σ, (runtime unary).Run timersIdle newServer tr σ ∧
    σ.core.enteredFrom 0 = [(1, "b"), (0, "a")] := by
  obtain ⟨tr, σ, hr, hp⟩ := run_of_script (runtime unary) timersIdle newServer 60
    [.call (.srv (.serverConnect "/" false false)), .run, .run, .ret, .ret, .ret,
      .call (.mail (.clientEmit 0 "a" .plain)), .call (.mail (.clientEmit 0 "b" .plain)), .ret,
      .ret, .run, .ret, .ret, .run]
    (fun r => decide (r.2.core.enteredFrom 0 = [(1, "b"), (0, "a")])) (by decide)
  exact ⟨tr, σ, hr, of_decide_eq_true hp⟩

end Smocket
