import Smocket.References
import Mathlib.Data.Option.Basic

/-
  File:      Smocket/Deliveries.lean
  Subject:   WHERE A PACKET FOR A CLIENT IS between the moment it is handed over and its dispatch:
             in a pending instruction, in a queue, in a timer, or held by an application's adapter.

  `Mail.Carries p q` says `p` of every packet on its way and `q` of those in a queue. Whatever
  schedules, delivers or withdraws keeps it, if the packet handed over meets both.

  * `scheduleReceive_carries` -- scheduling keeps what is said of every packet.
-/

namespace Smocket

open Ordered EventLoop EventLoop.Machine

variable {P : Platform}

/-! ## 1. Handing over -/

/-- The packet `sendEncoded` schedules; none where the acknowledgement cannot be made. -/
def Core.packet (σ : Core) (s : SocketId) (serial : Nat) (event : String) (reply : Option Reply)
    (survived : Bool) : Option Delivery :=
  let c := (σ.conn.sockets s).peer
  let captured := σ.conn.current c
  let guard := if survived then .survived s else .generation captured
  let d : Delivery := { client := c, sender := s, serial, event, ack := none, guard }
  match reply with
  | none => some d
  | some _ => captured.map fun _ => { d with ack := some σ.mail.ackCount }

/-- The packet an instruction hands over to be scheduled: the last part of `ServerSocket.emit` and
    of `sendBroadcast`. -/
def Core.handsOver (σ : Core) : Instr → Option Delivery
  | .mail (.serverEmitRest s serial event reply peerWasConnected) =>
      if (σ.life.sockets s).active then
        σ.packet s serial event reply (peerWasConnected && !(σ.conn.peer s).connected)
      else none
  | .mail (.sendBroadcastRest s serial event peerWasConnected) =>
      σ.packet s serial event none (peerWasConnected && !(σ.conn.peer s).connected)
  | _ => none

/-- Nothing was scheduled, delivered or withdrawn. -/
structure Mail.SameDeliveries (μ μ' : Mail) : Prop where
  held : μ'.held = μ.held
  timers : μ'.timers = μ.timers
  schedulers : μ'.schedulers = μ.schedulers
  queueCount : μ'.queueCount = μ.queueCount

theorem Mail.SameDeliveries.refl (μ : Mail) : μ.SameDeliveries μ := ⟨rfl, rfl, rfl, rfl⟩

theorem Mail.SameDeliveries.trans {μ μ' μ'' : Mail} (h : μ.SameDeliveries μ')
    (h' : μ'.SameDeliveries μ'') : μ.SameDeliveries μ'' :=
  ⟨h'.held.trans h.held, h'.timers.trans h.timers, h'.schedulers.trans h.schedulers,
    h'.queueCount.trans h.queueCount⟩

/-- `sendEncoded` fails or schedules its packet. -/
theorem sendToClient_packet (σ : Core) (s : SocketId) (serial : Nat) (event : String)
    (reply : Option Reply) (survived : Bool) :
    (σ.packet s serial event reply survived = none ∧
      sendToClient σ s serial event reply survived = { part := σ.mail, fails := true }) ∨
    ∃ d μ, σ.packet s serial event reply survived = some d ∧ σ.mail.SameDeliveries μ ∧
      sendToClient σ s serial event reply survived = scheduleReceive σ μ d := by
  unfold Core.packet sendToClient
  cases reply with
  | none => exact Or.inr ⟨_, _, rfl, .refl _, rfl⟩
  | some reply =>
      dsimp only
      cases σ.conn.current (σ.conn.sockets s).peer with
      | none => exact Or.inl ⟨rfl, rfl⟩
      | some t =>
          refine Or.inr ⟨_, _, rfl, ?_, rfl⟩
          exact ⟨rfl, rfl, rfl, rfl⟩

/-! ## 2. What is on its way -/

/-- The packet an instruction is about to dispatch, or dispatched last. -/
def Instr.delivery : Instr → Option Delivery
  | .ctl (.deliverClient d) => some d
  | .mail (.pumpRun r) | .mail (.pumpRest r) => some r.head.delivery
  | _ => none

/-- An instruction that meets `p` of its packet, or refers to nothing. -/
def Instr.Carries (p : Delivery → Prop) (j : Instr) : Prop :=
  (∃ d, j.delivery = some d ∧ p d) ∨ j.refs = []

/-- `p` holds of every packet on its way, `q` of those in a queue. -/
structure Mail.Carries (p q : Delivery → Prop) (μ : Mail) : Prop where
  held : ∀ d ∈ μ.held, p d
  timers : ∀ r ∈ μ.timers, p r.head.delivery
  queues : ∀ n sid k, (μ.schedulers n).queues.get? sid = some k → ∀ e ∈ k.entries, q e.delivery

/-- The same of what an instruction leaves behind. -/
structure Out.Carries (p q : Delivery → Prop) (o : Out Mail) : Prop where
  mail : o.part.Carries p q
  spawned : ∀ j ∈ o.push ++ o.post, j.Carries p

variable {p q : Delivery → Prop} {μ : Mail}

theorem Instr.Carries.of_delivery {j : Instr} (h : j.Carries p) {d : Delivery}
    (hd : j.delivery = some d) : p d := by
  rcases h with ⟨e, he, hp⟩ | hr
  · exact Option.some.inj (hd.symm.trans he) ▸ hp
  · unfold Instr.delivery at hd
    split at hd <;> simp_all

theorem Mail.Carries.same {μ' : Mail} (h : μ.Carries p q) (hs : μ.SameDeliveries μ') :
    μ'.Carries p q where
  held := hs.held ▸ h.held
  timers := hs.timers ▸ h.timers
  queues := hs.schedulers ▸ h.queues

theorem Mail.Carries.setScheduler (h : μ.Carries p q) {n : NspId} {g : Scheduler → Scheduler}
    (hg : ∀ sid k, (g (μ.schedulers n)).queues.get? sid = some k → ∀ e ∈ k.entries,
      q e.delivery) : (μ.setScheduler n g).Carries p q where
  held := h.held
  timers := h.timers
  queues m sid k hk := by
    simp only [Mail.setScheduler, modify_apply] at hk
    split at hk
    · exact hg sid k hk
    · exact h.queues m sid k hk

theorem Mail.Carries.pump (h : μ.Carries p q) (hqp : ∀ d, q d → p d) (n : NspId) (sid : String) :
    Out.Carries p q { part := (μ.pump n sid).1, post := (μ.pump n sid).2 } := by
  unfold Mail.pump
  split
  · exact ⟨h, nofun⟩
  · rename_i k hk
    split
    · refine ⟨h.setScheduler fun sid' k' hk' => ?_, nofun⟩
      simp only [OMap.get?_erase] at hk'
      split at hk'
      · cases hk'
      · exact h.queues n sid' k' hk'
    · rename_i head rest hentries
      have hhead : q head.delivery := h.queues n sid k hk head (by simp [hentries])
      dsimp only
      split
      · refine ⟨h, fun j hj => ?_⟩
        obtain rfl := List.mem_singleton.mp hj
        exact Or.inl ⟨_, rfl, hqp _ hhead⟩
      · refine ⟨⟨h.held, fun r hr => ?_, (h.setScheduler (h.queues n)).queues⟩, nofun⟩
        rcases List.mem_append.mp hr with hr | hr
        · exact h.timers r hr
        · obtain rfl := List.mem_singleton.mp hr
          exact hqp _ hhead

theorem Mail.Carries.newQueue (h : μ.Carries p q) (n : NspId) (sid : String) {entry : QueueEntry}
    (hd : q entry.delivery) : (μ.newQueue n sid entry).Carries p q where
  held := h.held
  timers := h.timers
  queues m sid' k hk e he := by
    simp only [Mail.newQueue, Mail.setScheduler, modify_apply] at hk
    split at hk
    · simp only [OMap.get?_set] at hk
      split at hk
      · obtain rfl := (Option.some.inj hk).symm
        obtain rfl := List.mem_singleton.mp he
        exact hd
      · exact h.queues n sid' k hk e he
    · exact h.queues m sid' k hk e he

theorem Mail.Carries.scheduleDelivery (h : μ.Carries p q) (hqp : ∀ d, q d → p d) (n : NspId)
    (sid : String) {d : Delivery} (hd : q d) :
    Out.Carries p q
      { part := (μ.scheduleDelivery n sid d).1, post := (μ.scheduleDelivery n sid d).2 } := by
  unfold Mail.scheduleDelivery
  dsimp only
  split
  · rename_i k hk
    refine ⟨h.setScheduler fun sid' k' hk' e he => ?_, nofun⟩
    simp only [OMap.get?_set] at hk'
    split at hk'
    · obtain rfl := (Option.some.inj hk').symm
      rcases List.mem_append.mp he with he | he
      · exact h.queues n sid k hk e he
      · obtain rfl := List.mem_singleton.mp he
        exact hd
    · exact h.queues n sid' k' hk' e he
  · exact Mail.Carries.pump (h.newQueue n sid hd) hqp n sid

theorem scheduleReceive_carries {σ : Core} (h : μ.Carries p q) (hqp : ∀ d, q d → p d) {d : Delivery}
    (hp : p d) (hq : (σ.conn.clients d.client).serverSocket ≠ none → q d) :
    (scheduleReceive σ μ d).Carries p q := by
  have hdirect : (Instr.ctl (.deliverClient d)).Carries p := Or.inl ⟨d, rfl, hp⟩
  unfold scheduleReceive
  split
  · exact ⟨h, fun j hj => List.mem_singleton.mp hj ▸ hdirect⟩
  · rename_i paired hpaired
    dsimp only
    split
    · exact ⟨h, fun j hj => List.mem_singleton.mp hj ▸ hdirect⟩
    · exact h.scheduleDelivery hqp _ _ (hq (by simp [hpaired]))
    · refine ⟨⟨fun e he => ?_, h.timers, h.queues⟩, fun j hj => ?_⟩
      · rcases List.mem_append.mp he with he | he
        · exact h.held e he
        · obtain rfl := List.mem_singleton.mp he
          exact hp
      · obtain rfl := List.mem_singleton.mp hj
        exact Or.inr rfl

theorem sendToClient_carries {σ : Core} (h : σ.mail.Carries p q) (hqp : ∀ d, q d → p d)
    {s : SocketId} {serial : Nat} {event : String} {reply : Option Reply} {survived : Bool}
    (hd : ∀ d, σ.packet s serial event reply survived = some d →
      p d ∧ ((σ.conn.clients d.client).serverSocket ≠ none → q d)) :
    (sendToClient σ s serial event reply survived).Carries p q := by
  rcases sendToClient_packet σ s serial event reply survived with ⟨-, he⟩ | ⟨d, μ, hp, hμ, he⟩
  · rw [he]
    exact ⟨h, nofun⟩
  · rw [he]
    exact scheduleReceive_carries (h.same hμ) hqp (hd d hp).1 (hd d hp).2

theorem pumpRun_carries {σ : Core} (h : σ.mail.Carries p q) {r : PumpRun}
    (hr : p r.head.delivery) : (pumpRun σ r).Carries p q := by
  have h' : ({ σ.mail with timers := σ.mail.timers.erase r } : Mail).Carries p q :=
    ⟨h.held, fun x hx => h.timers x (List.mem_of_mem_erase hx), h.queues⟩
  unfold pumpRun
  dsimp only
  split
  · refine ⟨h'.setScheduler fun sid k hk e he => ?_, fun j hj => ?_⟩
    · dsimp only at hk
      split at hk
      · exact h.queues r.nsp sid k hk e he
      · rename_i k' hk'
        simp only [OMap.get?_set] at hk
        split at hk
        · obtain rfl := (Option.some.inj hk).symm
          exact h.queues r.nsp r.sid k' hk' e (List.mem_of_mem_tail he)
        · exact h.queues r.nsp sid k hk e he
    · simp only [List.append_nil, List.mem_cons, List.not_mem_nil, or_false] at hj
      rcases hj with rfl | rfl
      · exact Or.inl ⟨_, rfl, hr⟩
      · exact Or.inl ⟨_, rfl, hr⟩
  · exact ⟨h', nofun⟩

theorem pumpRest_carries {σ : Core} (h : σ.mail.Carries p q) (hqp : ∀ d, q d → p d) (r : PumpRun) :
    (pumpRest σ r).Carries p q := by
  unfold pumpRest
  split
  · exact h.pump hqp r.nsp r.sid
  · exact ⟨h, nofun⟩

theorem removeDeliveries_carries {σ : Core} (h : σ.mail.Carries p q) (hqp : ∀ d, q d → p d)
    (s : SocketId) : (removeDeliveries σ s).Carries p q := by
  unfold removeDeliveries
  dsimp only
  split
  · exact ⟨h, nofun⟩
  · refine ⟨h, fun j hj => ?_⟩
    obtain rfl := List.mem_singleton.mp hj
    exact Or.inr rfl
  · split
    · exact ⟨h.setScheduler (h.queues _), nofun⟩
    · rename_i k hk
      refine ⟨?_, fun j hj => ?_⟩
      · refine (h.setScheduler (n := (σ.conn.sockets s).nsp)
          (g := fun S => { S with delays := S.delays.erase (σ.conn.sockets s).id })
          (h.queues _)).setScheduler fun sid k' hk' e he => ?_
        simp only [OMap.get?_erase] at hk'
        split at hk'
        · cases hk'
        · refine h.queues (σ.conn.sockets s).nsp sid k' ?_ e he
          simpa [Mail.setScheduler] using hk'
      · simp only [List.append_nil, List.mem_append, List.mem_map, List.mem_singleton] at hj
        rcases hj with ⟨e, he, rfl⟩ | rfl
        · exact Or.inl ⟨_, rfl, hqp _ (h.queues _ _ k hk e he)⟩
        · exact Or.inr rfl

end Smocket
