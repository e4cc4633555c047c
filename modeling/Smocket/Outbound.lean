import Smocket.Inbound
import Smocket.WellFormed

/-
  File:      Smocket/Outbound.lean
  Subject:   FROM THE SERVER TO A CLIENT. What a client is sent through built-in adapters reaches
             its listeners in the order of the emits, whichever of its server sockets emitted it.

  A `DelayingAdapter` or an application's own adapter may deliver the packets of one client late and
  those of another at once. So the condition speaks of one client: where its packets go through the
  built-in adapter, none of them is in a queue, in a timer or held.

  * `outboundTo_sound` -- between `send` and the listeners nothing overtakes;
  * `departure_step` -- what a step does to the packets on their way to `send`;
  * `outbound_fifo` -- what a client is sent arrives in emit order.
-/

namespace Smocket

open Ordered EventLoop EventLoop.Machine

variable {P : Platform}

/-! ## 1. From `send` to the client's listeners -/

def Delivery.stamp (d : Delivery) : Stamp := (d.serial, d.event)

/-- What an event says of the packets for `c`. -/
def Event.outbound (c : ClientId) : Event → List Stamp
  | .delivered d _ _ => if d.client = c then [d.stamp] else []
  | _ => []

/-- **The packets dispatched on client `c`**, oldest first. -/
def Core.deliveredTo (σ : Core) (c : ClientId) : List Stamp :=
  σ.log.reverse.flatMap (Event.outbound c)

/-- The packet for `c` in a pending delivery. -/
def Instr.outbound (c : ClientId) : Instr → List Stamp
  | .ctl (.deliverClient d) => if d.client = c then [d.stamp] else []
  | _ => []

/-- The packet for `c` an instruction hands over. -/
def Core.handedTo (σ : Core) (c : ClientId) (i : Instr) : List Stamp :=
  ((σ.handsOver i).filter fun d => decide (d.client = c)).toList.map Delivery.stamp

/-- What goes from server sockets to a client. -/
def outboundTo (c : ClientId) : Conduit Core Instr Stamp where
  sends σ i := σ.handedTo c i
  carries := Instr.outbound c
  received σ := σ.deliveredTo c

/-- A packet for `c` goes through the built-in adapter, or before the first pairing of `c`. -/
abbrev Core.Direct (c : ClientId) (σ : Core) (i : Instr) : Prop :=
  ∀ d ∈ σ.handsOver i, d.client = c → ∀ t ∈ (σ.conn.clients d.client).serverSocket,
    (σ.srv.namespaces (σ.conn.sockets t).nsp).base = .builtin

/-- No packet for `c` is in a queue, in a timer or held. -/
abbrev Mail.Clear (c : ClientId) (μ : Mail) : Prop :=
  μ.Carries (fun d => d.client ≠ c) fun d => d.client ≠ c

/-- The closure of `DelayingAdapter` an instruction is part of. -/
def Instr.pumps : Instr → Option PumpRun
  | .mail (.pumpRun r) | .mail (.pumpRest r) => some r
  | _ => none

/-- It delivers to other clients. -/
def Instr.PumpsOthers (c : ClientId) (i : Instr) : Prop :=
  ∀ r, i.pumps = some r → r.head.delivery.client ≠ c

/-- What an instruction leaves of a heap in which no packet for `c` waits. -/
structure Core.SendsOn (σ : Core) (c : ClientId) (i : Instr) (e : Effect Core Instr) : Prop where
  clear : e.core.mail.Clear c
  pumps : ∀ j ∈ e.spawned, j.PumpsOthers c
  push : e.push.flatMap (Instr.outbound c) = []
  post : (e.post.flatMap (Instr.outbound c)).Sublist (σ.handedTo c i)

theorem Instr.Carries.others {j : Instr} {c : ClientId} (h : j.Carries fun d => d.client ≠ c) :
    j.PumpsOthers c ∧ j.outbound c = [] := by
  refine ⟨fun r hr => ?_, ?_⟩
  · unfold Instr.pumps at hr
    split at hr
    · obtain rfl := Option.some.inj hr
      exact h.of_delivery rfl
    · obtain rfl := Option.some.inj hr
      exact h.of_delivery rfl
    · cases hr
  · unfold Instr.outbound
    split
    · rw [if_neg (h.of_delivery rfl)]
    · rfl

theorem Core.SendsOn.of_carries {σ : Core} {c : ClientId} {i : MailInstr}
    (h : (execMail σ i).Carries (fun d => d.client ≠ c) fun d => d.client ≠ c) :
    σ.SendsOn c (.mail i) (exec P (.mail i) σ) where
  clear := h.mail
  pumps j hj := (h.spawned j hj).others.1
  push := List.flatMap_eq_nil_iff.mpr fun j hj =>
    (h.spawned j (List.mem_append_left _ hj)).others.2
  post := by
    have hnil : (execMail σ i).post.flatMap (Instr.outbound c) = [] := List.flatMap_eq_nil_iff.mpr
      fun j hj => (h.spawned j (List.mem_append_right _ hj)).others.2
    change ((execMail σ i).post.flatMap (Instr.outbound c)).Sublist _
    rw [hnil]
    exact List.nil_sublist _

/-- The two instructions that hand packets over: directly, or for another client. -/
theorem sendToClient_on {σ : Core} {c : ClientId} {i : MailInstr} {s : SocketId} {serial : Nat}
    {event : String} {reply : Option Reply} {survived : Bool} (h : σ.mail.Clear c)
    (hi : execMail σ i = sendToClient σ s serial event reply survived)
    (hd : σ.handsOver (.mail i) = σ.packet s serial event reply survived)
    (hdirect : σ.Direct c (.mail i)) : σ.SendsOn c (.mail i) (exec P (.mail i) σ) := by
  rcases sendToClient_packet σ s serial event reply survived with ⟨-, he⟩ | ⟨d, μ, hp, hμ, he⟩
  · exact .of_carries (by rw [hi, he]; exact ⟨h, fun _ hj => absurd hj List.not_mem_nil⟩)
  · by_cases hc : d.client = c
    · have hdirect := hdirect d (hd.trans hp) hc
      have hsend : execMail σ i = { part := μ, post := [.ctl (.deliverClient d)] } := by
        rw [hi, he, scheduleReceive]
        split
        · rfl
        · rename_i t ht
          simp only [hdirect t ht]
      have hpush : (exec P (.mail i) σ).push = [] := by simp only [exec, hsend]
      have hpost : (exec P (.mail i) σ).post = [.ctl (.deliverClient d)] := by
        simp only [exec, hsend]
      refine ⟨?_, ?_, ?_, ?_⟩
      · simp only [exec, hsend]
        exact h.same hμ
      · simp only [Effect.spawned, hpush, hpost, List.nil_append]
        intro j hj r hr
        rw [List.mem_singleton.mp hj] at hr
        cases hr
      · rw [hpush]
        rfl
      · rw [hpost, Core.handedTo, hd, hp]
        simp [Instr.outbound, hc]
    · refine .of_carries ?_
      rw [hi]
      refine sendToClient_carries h (fun _ h => h) fun e hpe => ?_
      obtain rfl := Option.some.inj (hp.symm.trans hpe)
      exact ⟨hc, fun _ => hc⟩

/-- Deliveries are spawned by what sends, pumps or withdraws. -/
theorem outbound_spawned {i j : Instr} {σ : Core} {c : ClientId} (h : j ∈ (exec P i σ).spawned)
    (hj : j.outbound c ≠ [] ∨ j.pumps ≠ none) : ∃ k, i = .mail k ∧ k.schedules = true := by
  have hsends : ∀ {k : Instr}, k.SendsToClient → ∃ m, k = .mail m ∧ m.schedules = true := fun hk => by
    rcases hk with ⟨s, n, e, r, w, rfl⟩ | ⟨s, n, e, w, rfl⟩ <;> exact ⟨_, rfl, rfl⟩
  have hs := spawnedBy h
  rcases hj with hj | hj
  · unfold Instr.outbound at hj
    split at hj
    · rcases hs with hs | ⟨r, rfl, -⟩ | ⟨s, rfl⟩
      · exact hsends hs
      · exact ⟨_, rfl, rfl⟩
      · exact ⟨_, rfl, rfl⟩
    · exact absurd rfl hj
  · unfold Instr.pumps at hj
    split at hj
    · rcases hs with hs | ⟨r, rfl⟩
      · exact hsends hs
      · exact ⟨_, rfl, rfl⟩
    · obtain rfl : i = .mail (.pumpRun _) := hs
      exact ⟨_, rfl, rfl⟩
    · exact absurd rfl hj

/-- An instruction that does not schedule sends nothing on. -/
theorem Core.SendsOn.of_same {σ : Core} {c : ClientId} {i : Instr} (h : σ.mail.Clear c)
    (hm : σ.mail.SameDeliveries (exec P i σ).core.mail)
    (hi : ∀ k, i = .mail k → k.schedules = false) : σ.SendsOn c i (exec P i σ) := by
  have hnone : ∀ j ∈ (exec P i σ).spawned, j.outbound c = [] ∧ j.pumps = none := fun j hj => by
    by_contra hne
    obtain ⟨k, hk, hsch⟩ := outbound_spawned (c := c) hj (by tauto)
    exact absurd (hsch.symm.trans (hi k hk)) (by intro h; cases h)
  refine ⟨h.same hm, fun j hj r hr => ?_, ?_, ?_⟩
  · rw [(hnone j hj).2] at hr
    cases hr
  · exact List.flatMap_eq_nil_iff.mpr fun j hj => (hnone j (List.mem_append_left _ hj)).1
  · rw [List.flatMap_eq_nil_iff.mpr fun j hj => (hnone j (List.mem_append_right _ hj)).1]
    exact List.nil_sublist _

/-- **What one instruction does with the packets for `c`.** -/
theorem exec_on {σ : Core} {c : ClientId} {i : Instr} (h : σ.mail.Clear c) (hi : i.PumpsOthers c)
    (hd : σ.Direct c i) : σ.SendsOn c i (exec P i σ) := by
  cases i with
  | mail i =>
      cases hs : i.schedules with
      | false =>
          refine .of_same h (execMail_same σ hs) fun k hk => ?_
          obtain rfl := Instr.mail.inj hk
          exact hs
      | true =>
          cases i with
          | serverEmitRest s serial event reply was =>
              by_cases ha : (σ.life.sockets s).active = true
              · have he : execMail σ (.serverEmitRest s serial event reply was) = sendToClient σ s
                    serial event reply (was && !(σ.conn.peer s).connected) := by
                  simp [execMail, serverEmitRest, ha]
                have hp : σ.handsOver (.mail (.serverEmitRest s serial event reply was)) = σ.packet s
                    serial event reply (was && !(σ.conn.peer s).connected) := by
                  simp [Core.handsOver, ha]
                exact sendToClient_on h he hp hd
              · refine .of_carries ⟨?_, ?_⟩ <;> simp [execMail, serverEmitRest, ha, h]
          | sendBroadcastRest s serial event was =>
              have he : execMail σ (.sendBroadcastRest s serial event was) = sendToClient σ s serial
                  event none (was && !(σ.conn.peer s).connected) := rfl
              have hp : σ.handsOver (.mail (.sendBroadcastRest s serial event was)) = σ.packet s
                  serial event none (was && !(σ.conn.peer s).connected) := rfl
              exact sendToClient_on h he hp hd
          | pumpRun r => exact .of_carries (pumpRun_carries h (hi r rfl))
          | pumpRest r => exact .of_carries (pumpRest_carries h (fun _ h => h) r)
          | removeDeliveries s => exact .of_carries (removeDeliveries_carries h (fun _ h => h) s)
          | cancelTimer r =>
              refine .of_carries ⟨⟨h.held, fun x hx => ?_, h.queues⟩,
                fun _ hj => absurd hj List.not_mem_nil⟩
              cases r with
              | none => exact h.timers x hx
              | some r => exact h.timers x (List.mem_of_mem_erase hx)
          | setDelay n sid ms =>
              refine .of_carries ⟨h.setScheduler fun sid' q hq => h.queues n sid' q ?_,
                fun _ hj => absurd hj List.not_mem_nil⟩
              revert hq
              cases ms <;> exact id
          | _ => cases hs
  | _ => exact .of_same h (.refl _) fun _ hk => by cases hk

/-- Where the packets for `c` are handed over directly, none of them waits anywhere. -/
theorem clear_inductive (P : Platform) (c : ClientId) :
    Inductive (runtime P) (Core.Direct c) (fun σ => σ.mail.Clear c) (fun _ j => j.PumpsOthers c)
      fun _ => (none : Option Unit) := by
  refine .of_facts ?_ ?_ ?_ ?_ ?_ ?_
  · exact fun σ i h => (exec_on h.inv h.ok h.good).clear
  · exact fun σ i h => (exec_on h.inv h.ok h.good).pumps
  · exact fun _ _ _ _ hj => hj
  · intro σ i h hc r hr
    unfold Instr.pumps at hr
    split at hr
    · obtain rfl := Option.some.inj hr
      exact h.timers _ (List.contains_iff_mem.mp hc)
    · cases hc
    · cases hr
  · intro σ i is _ _ his j hj r hr
    rcases onThrow_handle his with rfl | ⟨a, err, rfl, -⟩
    · cases hj
    · rw [List.mem_singleton.mp hj] at hr
      cases hr
  · intro σ i hr
    rcases onThrow_run hr with ⟨s, rfl⟩ | ⟨s, rfl⟩ | ⟨r, rfl⟩ <;> exact fun _ hd => by cases hd

/-- Only a delivery records that a packet was dispatched on a client. -/
theorem exec_deliveredTo (σ : Core) {i : Instr} {c : ClientId}
    (hi : ∀ d, i ≠ .ctl (.deliverClient d)) : (exec P i σ).core.deliveredTo c = σ.deliveredTo c :=
  exec_logged σ fun e h => by
    unfold Event.outbound
    split
    · unfold Instr.Records at h
      split at h <;> first | exact h.elim | (simp at h; done) | skip
      · exact absurd rfl (hi _)
    · rfl

theorem deliverClient_deliveredTo (σ : Core) (d : Delivery) (c : ClientId) :
    ((exec P (.ctl (.deliverClient d)) σ).core.deliveredTo c).Sublist
      (σ.deliveredTo c ++ if d.client = c then [d.stamp] else []) := by
  simp only [exec, execCtl, deliverClient, Core.deliveredTo]
  split
  · exact List.sublist_append_left _ _
  · exact List.sublist_append_left _ _
  · simp [Event.outbound]

/-- **Between `send` and the listeners nothing overtakes.** -/
theorem outboundTo_sound (P : Platform) (c : ClientId) : (outboundTo c).Sound (runtime P)
    fun σ i => σ.mail.Clear c ∧ i.PumpsOthers c ∧ σ.Direct c i where
  post σ i hi := (exec_on hi.1 hi.2.1 hi.2.2).post
  push σ i hi := by
    have hpush := (exec_on (P := P) hi.1 hi.2.1 hi.2.2).push
    change ((exec P i σ).core.deliveredTo c ++
      (exec P i σ).push.flatMap (Instr.outbound c)).Sublist (σ.deliveredTo c ++ i.outbound c)
    rw [hpush, List.append_nil]
    by_cases hd : ∃ d, i = .ctl (.deliverClient d)
    · obtain ⟨d, rfl⟩ := hd
      exact deliverClient_deliveredTo σ d c
    · rw [exec_deliveredTo σ fun d h => hd ⟨d, h⟩]
      exact List.sublist_append_left _ _
  handle σ i is his j hj := by
    rcases onThrow_handle his with rfl | ⟨a, err, rfl, -⟩
    · cases hj
    · rw [List.mem_singleton.mp hj]
      rfl
  run σ i hr := by
    refine exec_deliveredTo σ fun d hi => ?_
    subst hi
    cases hr

/-- The packets for `c` a run has handed over. -/
def handedIn (c : ClientId) (tr : List (Core × Instr)) : List Stamp :=
  tr.flatMap fun x => x.1.handedTo c x.2

section Run

variable {C : State → Action Instr → Prop} {σ σ' : State} {tr : List (Core × Instr)}

/-- What was dispatched on `c`, then what is on its way there, is part of what was handed over, in
    that order. -/
theorem run_outbound (h : (runtime P).Run C newServer tr σ) (c : ClientId)
    (hD : ∀ τ a, C τ a → (runtime P).Obeys (Core.Direct c) τ a) :
    (σ.core.deliveredTo c ++ σ.pending.flatMap (Instr.outbound c)).Sublist (handedIn c tr) := by
  have hclear : ∀ {τ}, (runtime P).Reach C newServer τ → Keeps (fun σ => σ.mail.Clear c)
      (fun _ j => j.PumpsOthers c) (fun _ => (none : Option Unit)) τ.core τ.pending := fun hr =>
    hr.inv_ok (clear_inductive P c) hD
      ⟨⟨fun _ hd => absurd hd List.not_mem_nil, fun _ hr => absurd hr List.not_mem_nil,
        fun _ _ _ hk => by cases hk⟩, fun _ hj => absurd hj List.not_mem_nil, .nil⟩
  refine h.conveys (outboundTo_sound P c) (fun τ i τ' hr hc hn => ?_) (fun τ i hr _ hi => ?_) rfl
  · have hk := (hclear hr).next hn
    rw [(next_pending hn).1]
    exact ⟨hk.inv, hk.ok i List.mem_cons_self, hD τ .run hc rfl i τ' hn⟩
  · -- an application's adapter holds no packet for `c`
    change i.outbound c = []
    unfold Instr.outbound
    split
    · exact if_neg ((hclear hr).inv.held _ (List.contains_iff_mem.mp hi))
    · rfl

end Run

/-! ## 2. From `emit` to `send` -/

/-- The client a server socket emits to. -/
def Core.emitsTo (σ : Core) : Instr → Option ClientId
  | .mail (.serverEmit s event _) =>
      if event ∈ RESERVED_EVENTS then none else some (σ.conn.sockets s).peer
  | .mail (.sendBroadcast s _) => some (σ.conn.sockets s).peer
  | _ => none

/-- The event of an emit. -/
def Instr.event : Instr → String
  | .mail (.serverEmit _ event _) | .mail (.sendBroadcast _ event) => event
  | _ => ""

/-- The packet for `c` that an emit or one turn of a broadcast makes. -/
def Core.emittedTo (σ : Core) (c : ClientId) (i : Instr) : List Stamp :=
  if σ.emitsTo i = some c then [(σ.mail.serial, i.event)] else []

/-- **The packets a run has emitted to `c`**, on any of its server sockets, in the order of the
    calls. -/
def emittedToIn (c : ClientId) (tr : List (Core × Instr)) : List Stamp :=
  tr.flatMap fun x => x.1.emittedTo c x.2

/-- The packet for `c` whose outgoing observers run. -/
def Instr.leaving (κ : Conn) (c : ClientId) : Instr → List Stamp
  | .mail (.serverEmitRest s serial event ..) | .mail (.sendBroadcastRest s serial event _) =>
      if (κ.sockets s).peer = c then [(serial, event)] else []
  | _ => []

/-- No packet for a client is about to be sent where another is emitted to it. -/
abbrev Core.AloneTo (σ : Core) (i j : Instr) : Prop := ∀ c ∈ σ.emitsTo i, j.leaving σ.conn c = []

/-- **The condition**: nothing is emitted to a client while outgoing observers see another packet
    for it. -/
abbrev ServerEmitsAlone (P : Platform) : State → Action Instr → Prop :=
  (runtime P).Posts Core.AloneTo

/-- What is handed over has been emitted. -/
theorem handedTo_leaving (σ : Core) (c : ClientId) (i : Instr) :
    (σ.handedTo c i).Sublist (i.leaving σ.conn c) := by
  have hpacket : ∀ {s serial event reply survived}, ((σ.packet s serial event reply survived).filter
      fun d => decide (d.client = c)).toList.map Delivery.stamp = [] ∨
        ((σ.packet s serial event reply survived).filter
          fun d => decide (d.client = c)).toList.map Delivery.stamp =
            if (σ.conn.sockets s).peer = c then [(serial, event)] else [] := by
    intro s serial event reply survived
    cases hp : σ.packet s serial event reply survived with
    | none => exact Or.inl rfl
    | some d =>
        obtain ⟨hcl, hst⟩ : d.client = (σ.conn.sockets s).peer ∧ d.stamp = (serial, event) := by
          unfold Core.packet at hp
          dsimp only at hp
          split at hp
          · obtain rfl := Option.some.inj hp
            exact ⟨rfl, rfl⟩
          · obtain ⟨_, _, rfl⟩ := Option.map_eq_some_iff.mp hp
            exact ⟨rfl, rfl⟩
        refine Or.inr ?_
        rw [← hcl]
        by_cases hc : d.client = c <;> simp [hc, hst]
  unfold Core.handedTo Core.handsOver Instr.leaving
  split
  · split
    · rcases hpacket (s := _) with h | h <;> rw [h]
      exact List.nil_sublist _
    · exact List.nil_sublist _
  · rcases hpacket (s := _) with h | h <;> rw [h]
    exact List.nil_sublist _
  · exact List.nil_sublist _

/-- What an emit leaves on its way is the packet it made. -/
theorem leaving_push (σ : Core) (c : ClientId) (i : Instr) :
    ((exec P i σ).push.flatMap (Instr.leaving σ.conn c)).Sublist (σ.emittedTo c i) := by
  have hnil : (∀ j ∈ (exec P i σ).push, j.leaving σ.conn c = []) →
      ((exec P i σ).push.flatMap (Instr.leaving σ.conn c)).Sublist (σ.emittedTo c i) := fun h => by
    rw [List.flatMap_eq_nil_iff.mpr h]
    exact List.nil_sublist _
  by_cases hi : (∃ s event form, i = .mail (.serverEmit s event form)) ∨
      ∃ s event, i = .mail (.sendBroadcast s event)
  · rcases hi with ⟨s, event, form, rfl⟩ | ⟨s, event, rfl⟩
    · simp only [exec, execMail, serverEmit]
      split
      · exact List.nil_sublist _
      · rename_i hres
        split
        · exact List.nil_sublist _
        · by_cases hc : (σ.conn.sockets s).peer = c <;>
            simp [Instr.leaving, Core.emittedTo, Core.emitsTo, Instr.event, hres, hc]
    · by_cases hc : (σ.conn.sockets s).peer = c <;>
        simp [exec, execMail, sendBroadcast, Instr.leaving, Core.emittedTo, Core.emitsTo,
          Instr.event, hc]
  · refine hnil fun j hj => ?_
    have hs := spawnedBy (List.mem_append_left _ hj)
    unfold Instr.leaving
    split
    · obtain ⟨e, form, rfl⟩ : ∃ e form, i = .mail (.serverEmit _ e form) := hs
      exact absurd (Or.inl ⟨_, _, _, rfl⟩) hi
    · obtain rfl : i = .mail (.sendBroadcast _ _) := hs
      exact absurd (Or.inr ⟨_, _, rfl⟩) hi
    · rfl

theorem serverEmit_serial (σ : Core) (s : SocketId) {event : String} (form : EmitForm)
    (he : event ∉ RESERVED_EVENTS) :
    (serverEmit σ s event form).part.serial = σ.mail.serial + 1 := by
  unfold serverEmit
  rw [if_neg he]
  dsimp only
  split <;> simp [newRequest_serial]

theorem leaving_post (σ : Core) (c : ClientId) (i : Instr) (κ : Conn) :
    (exec P i σ).post.flatMap (Instr.leaving κ c) = [] := by
  refine List.flatMap_eq_nil_iff.mpr fun j hj => ?_
  have hs := spawnedBy (List.mem_append_right _ hj)
  unfold Instr.leaving
  split
  · obtain ⟨event, form, rfl⟩ : ∃ e form, i = .mail (.serverEmit _ e form) := hs
    simp only [exec, execMail, serverEmit] at hj
    split at hj
    · cases hj
    · split at hj <;> cases hj
  · obtain rfl : i = .mail (.sendBroadcast _ _) := hs
    cases hj
  · rfl

/-- Who a server socket belongs to does not change. -/
theorem leaving_stable {σ : Core} (hw : σ.Wf P) {i j : Instr} (hi : i.Valid σ) (hj : j.Valid σ)
    (c : ClientId) : j.leaving (exec P i σ).core.conn c = j.leaving σ.conn c := by
  have hpeer : ∀ {s}, .socket s ∈ j.refs → (exec P i σ).core.conn.sockets s = σ.conn.sockets s :=
    fun hs => (conn_extends hw hi).socketOf _ (hj _ hs)
  unfold Instr.leaving
  split
  · rw [hpeer (List.mem_singleton_self _)]
  · rw [hpeer (List.mem_singleton_self _)]
  · rfl

/-- Only traffic puts a packet on its way, and it leaves the connections alone. -/
theorem leaving_push_conn (σ : Core) (c : ClientId) (i : Instr) :
    ((exec P i σ).push.flatMap (Instr.leaving (exec P i σ).core.conn c)).Sublist
      (σ.emittedTo c i) := by
  cases i with
  | conn i =>
      have hnil : (exec P (.conn i) σ).push.flatMap
          (Instr.leaving (exec P (.conn i) σ).core.conn c) = [] := by
        refine List.flatMap_eq_nil_iff.mpr fun j hj => ?_
        have hs := spawnedBy (List.mem_append_left _ hj)
        unfold Instr.leaving
        split
        · obtain ⟨_, _, h⟩ : ∃ e form, Instr.conn i = .mail (.serverEmit _ e form) := hs
          cases h
        · cases (show Instr.conn i = .mail (.sendBroadcast _ _) from hs)
        · rfl
      rw [hnil]
      exact List.nil_sublist _
  | _ => exact leaving_push σ c _

section Run

variable {C : State → Action Instr → Prop} {σ σ' : State} {tr : List (Core × Instr)}

/-- **What a step does to the packets on their way to `send`.** -/
theorem departure_step (h : (runtime P).Reach C newServer σ) {a : Action Instr}
    (ha : ServerEmitsAlone P σ a) (hs : (runtime P).step σ a = some σ') (c : ClientId) :
    (handedIn c ((runtime P).taken σ a) ++
        σ'.pending.flatMap (Instr.leaving σ'.core.conn c)).Sublist
      (σ.pending.flatMap (Instr.leaving σ.core.conn c) ++
        emittedToIn c ((runtime P).taken σ a)) := by
  have hwf := reach_wf h
  have hhandle : ∀ (κ : Conn) (τ : Core) (i : Instr) (is : List Instr),
      (runtime P).onThrow τ i = .handle is → ∀ j ∈ is, j.leaving κ c = [] := by
    intro κ τ i is his j hj
    rcases onThrow_handle his with rfl | ⟨a, err, rfl, -⟩
    · cases hj
    · rw [List.mem_singleton.mp hj]
      rfl
  rcases (similar_keeping P).step hs with ⟨i, τ, rfl, hn, ht, hsim⟩ | ⟨ht, hsim⟩
  · have hsim : (exec P i σ.core).core.Similar σ'.core := hsim
    have hσ : (runtime P).execute i τ = σ' := by
      simpa [Machine.step, hn] using hs
    have hcore : τ.core = σ.core := (next_pending hn).1.symm
    have hi : i ∈ σ.pending := (next_mem hn).1
    have hE' := execute_flatMap (M := runtime P) (f := Instr.leaving σ'.core.conn c) (τ := τ) (i := i)
      (hhandle _)
    rw [hσ, hcore, hsim.conn] at hE'
    change List.Sublist _ ((exec P i σ.core).push.flatMap _ ++
      (_ ++ (exec P i σ.core).post.flatMap _)) at hE'
    rw [leaving_post, List.append_nil] at hE'
    have hstable : τ.pending.flatMap (Instr.leaving (exec P i σ.core).core.conn c) =
        τ.pending.flatMap (Instr.leaving σ.core.conn c) := by
      refine List.flatMap_congr fun j hj => leaving_stable hwf.1 (hwf.2 i hi) (hwf.2 j ?_) c
      obtain ⟨-, ⟨-, hst, hq⟩ | ⟨hst, hst', hq⟩⟩ := next_pending hn
      · simp only [Config.pending, hst, hq] at hj ⊢
        exact List.mem_cons_of_mem _ hj
      · simp only [Config.pending, hst, hst', hq] at hj ⊢
        exact List.mem_cons_of_mem _ hj
    rw [hstable] at hE'
    have hpush := leaving_push_conn (P := P) σ.core c i
    rw [hsim.conn, next_flatMap hn]
    simp only [ht, handedIn, emittedToIn, List.flatMap_cons, List.flatMap_nil, List.append_nil]
    by_cases he : σ.core.emitsTo i = some c
    · -- an emit hands nothing over, and nothing else is on its way to `c`
      have hrest : τ.pending.flatMap (Instr.leaving σ.core.conn c) = [] := by
        refine List.flatMap_eq_nil_iff.mpr fun j hj => ?_
        have := ha rfl i τ hn j hj c
        rw [hcore] at this
        exact this he
      have hhanded : σ.core.handedTo c i = [] := by
        unfold Core.handedTo Core.handsOver
        split <;> [cases he; cases he; rfl]
      rw [hrest, List.append_nil] at hE'
      rw [hhanded, List.nil_append]
      exact (hE'.trans hpush).trans (List.sublist_append_right _ _)
    · have hnone : σ.core.emittedTo c i = [] := if_neg he
      rw [hnone, List.sublist_nil] at hpush
      rw [hpush, List.nil_append] at hE'
      rw [hnone, List.append_nil]
      exact (handedTo_leaving σ.core c i).append hE'
  · simp only [ht, handedIn, emittedToIn, List.flatMap_nil, List.nil_append, List.append_nil]
    rw [hsim.conn]
    refine pending_flatMap hs (fun i τ hr hn => ?_) (fun i hi => ?_) (hhandle _)
    · subst hr
      simp [taken, hn] at ht
    · unfold Instr.leaving
      split <;> [cases hi; cases hi; rfl]

/-- **What a client is sent arrives in emit order.** In a run in which its packets go through
    built-in adapters, and in which nothing is emitted to it while outgoing observers see another
    packet for it: what was dispatched on the client, then what is on its way there, is a part of
    what the server has emitted to it, on any of its server sockets, in the order of the calls; and
    no packet is in it twice. -/
theorem outbound_fifo (h : (runtime P).Run C newServer tr σ) (c : ClientId)
    (hC : ∀ τ a, C τ a → (runtime P).Obeys (Core.Direct c) τ a ∧ ServerEmitsAlone P τ a) :
    (σ.core.deliveredTo c ++ σ.pending.flatMap (Instr.outbound c)).Sublist (emittedToIn c tr) ∧
      ((σ.core.deliveredTo c).map Prod.fst).Pairwise (· < ·) := by
  have hhanded : (handedIn c tr).Sublist (emittedToIn c tr) :=
    (List.sublist_append_left _ _).trans (h.flows (fun σ : Core => σ.emittedTo c)
      (fun σ : Core => σ.handedTo c)
      (fun σ : State => σ.pending.flatMap (Instr.leaving σ.core.conn c))
      (fun _ _ _ hr hc hs => departure_step hr (hC _ _ hc).2 hs c) rfl)
  have hline := (run_outbound h c fun τ a hc => (hC τ a hc).1).trans hhanded
  refine ⟨hline, List.Pairwise.sublist (((List.sublist_append_left _ _).trans hline).map _) ?_⟩
  rw [List.pairwise_map]
  refine (h.ascending (fun σ i => σ.emittedTo c i) Prod.fst
    (fun σ => σ.mail.serial) (serial_keeping P)
    (fun σ i => (exec_turns (P := P) i σ).serial) (fun σ i p hp => ?_) fun σ i => ?_).1
  · unfold Core.emittedTo at hp
    split at hp
    · rename_i he
      rw [List.mem_singleton.mp hp]
      refine ⟨rfl, ?_⟩
      unfold Core.emitsTo at he
      split at he
      · rename_i s event form
        split at he
        · cases he
        · rename_i hres
          exact (Nat.lt_succ_self _).trans_eq (serverEmit_serial σ s form hres).symm
      · exact Nat.lt_succ_self _
      · cases he
    · cases hp
  · unfold Core.emittedTo
    split <;> simp

end Run

/-- An emit from a connection listener, a broadcast, an emit, and one on the next server socket of
    the client. -/
theorem outbound_fifo_four : ∃ tr σ,
    (runtime unary).Run (fun τ a => (runtime unary).Obeys (Core.Direct 0) τ a ∧
      ServerEmitsAlone unary τ a) newServer tr σ ∧
      σ.core.deliveredTo 0 = [(0, "a"), (1, "b"), (2, "c"), (3, "d")] ∧
      (σ.core.deliveredTo 0 ++ σ.pending.flatMap (Instr.outbound 0)).Sublist (emittedToIn 0 tr) := by
  obtain ⟨tr, σ, hr, hp⟩ := run_of_script (runtime unary)
    (fun τ a => (runtime unary).Obeys (Core.Direct 0) τ a ∧ ServerEmitsAlone unary τ a) newServer 120
    [.call (.srv (.serverConnect "/" false false)), .run, .run,
      .call (.mail (.serverEmit 0 "a" .plain)), .ret, .ret, .ret, .ret, .run, .ret,
      .call (.srv (.broadcast ⟨0, 0, .empty, .empty, false, none⟩ "b")), .ret,
      .call (.mail (.serverEmit 0 "c" .plain)), .ret, .run, .ret, .run, .ret,
      .call (.ctl (.clientDisconnect 0)), .ret, .call (.conn (.connect 0)), .run, .ret, .ret,
      .run, .run, .call (.mail (.serverEmit 1 "d" .plain)), .ret, .ret, .ret, .ret, .run]
    (fun r => decide (r.2.core.deliveredTo 0 = [(0, "a"), (1, "b"), (2, "c"), (3, "d")]))
    (by decide)
  exact ⟨tr, σ, hr, of_decide_eq_true hp, (outbound_fifo hr 0 fun _ _ h => h).1⟩

end Smocket
