import Smocket.Handles
import Smocket.Sections
import Smocket.Traces

/-
  File:      Smocket/Timeouts.lean
  Subject:   A REQUEST IS SETTLED ONCE, AND BEFORE ITS CONNECTION IS FORGOTTEN. What the callback of
             an emit with a timeout, a buffered packet and an `emitWithAck` come to, whatever the
             answers, the timers, the disconnects and the reconnects do.

  A disconnect rejects the handles its client holds, one turn of a loop each. These turns and the
  emit they interrupt form a section: no exception passes them, so that they are all executed.

  * `run_once` -- the callback of an emit with a timeout is invoked when it is settled, and only
    then;
  * `never_sent` -- a packet that has waited is not sent once its callback is settled.
-/

namespace Smocket

open Ordered EventLoop EventLoop.Machine

variable {P : Platform}

/-! ## 1. Who invokes a callback -/

/-- The request whose answer, timer or rejection this is. -/
def Instr.request : Instr → Option RequestId
  | .mail (.ackReply (.request r)) | .mail (.ackTimeout r) => some r
  | .mail (.rejectAck _ h) => some h.request
  | _ => none

def Instr.isCallback : Instr → Bool
  | .app .ackCallback => true
  | _ => false

/-- The instruction invokes the callback of the request `r`. -/
def callsBack (P : Platform) (r : RequestId) (x : Core × Instr) : Bool :=
  decide (x.2.request = some r) && (exec P x.2 x.1).push.any Instr.isCallback

theorem settles_request {i : Instr} {σ : Core} {r : RequestId} (h : σ.settles r i = true) :
    i.request = some r := by
  unfold Core.settles at h
  split at h
  case h_5 => cases h
  all_goals
    simp only [Bool.and_eq_true, decide_eq_true_eq] at h
    simp [Instr.request, AckHandle.request, h]

theorem callback_push (μ : Mail) (r : RequestId) :
    (μ.callback r).push = if (μ.requests r).promise then [] else [.app .ackCallback] := by
  unfold Mail.callback
  split <;> rfl

theorem settle_promise (μ : Mail) (r r' : RequestId) :
    ((μ.settle r).requests r').promise = (μ.requests r').promise := by
  rw [settle_requests, modify_apply]
  split <;> simp_all

theorem callsBack_iff {σ : Core} {i : Instr} (hi : σ.Known i) {r : RequestId} :
    callsBack P r (σ, i) = true ↔ σ.settles r i = true ∧ (σ.mail.requests r).promise = false := by
  have hpush : σ.settles r i = true → (exec P i σ).push =
      if (σ.mail.requests r).promise then [] else [.app .ackCallback] := fun h => by
    rw [(exec_settles h).2, callback_push, settle_promise]
  constructor
  · intro h
    simp only [callsBack, Bool.and_eq_true, decide_eq_true_eq] at h
    obtain ⟨hreq, hany⟩ := h
    have hs : σ.settles r i = true := by
      unfold Instr.request at hreq
      split at hreq
      · obtain rfl := Option.some.inj hreq
        by_contra hs
        simp only [Core.settles, decide_true, Bool.true_and, Bool.and_eq_true, Bool.not_eq_true',
          not_and, Bool.not_eq_false] at hs
        simp only [exec, execMail, ackReply] at hany
        split at hany
        · rename_i ht
          rw [if_pos (hs ht)] at hany
          cases hany
        · cases hany
      · exact decide_eq_true (Option.some.inj hreq)
      · rename_i c k
        obtain rfl := Option.some.inj hreq
        cases k with
        | timed r => exact decide_eq_true rfl
        | promise r =>
            have hp : (σ.mail.requests r).promise = true := hi.placed.1.fits
            simp only [exec, execMail, rejectAck] at hany
            split at hany
            · cases hany
            · split at hany
              · rw [callback_push, settle_promise, hp] at hany
                cases hany
              · cases hany
      · cases hreq
    refine ⟨hs, ?_⟩
    rw [hpush hs] at hany
    split at hany
    · cases hany
    · exact Bool.eq_false_iff.mpr ‹_›
  · rintro ⟨hs, hp⟩
    simp [callsBack, settles_request hs, hpush hs, hp, Instr.isCallback]

/-! ## 2. Once -/

/-- Heaps that agree on requests and connections. -/
structure Core.Similar (σ σ' : Core) : Prop where
  mail : σ.mail.SameRequests σ'.mail
  conn : σ'.conn = σ.conn

theorem similar_keeping (P : Platform) : Keeping (runtime P) Core.Similar where
  refl _ := ⟨.refl _, rfl⟩
  trans h h' := ⟨h.mail.trans h'.mail, h'.conn.trans h.conn⟩
  run σ i hr := by
    rcases onThrow_run hr with ⟨s, rfl⟩ | ⟨s, rfl⟩ | ⟨r, rfl⟩
    · exact ⟨⟨rfl, rfl, rfl, rfl, rfl⟩, rfl⟩
    · exact ⟨⟨rfl, rfl, rfl, rfl, rfl⟩, rfl⟩
    · exact ⟨⟨rfl, rfl, rfl, rfl, rfl⟩, rfl⟩

/-- What is known of the instruction a step executes. -/
structure Executes (P : Platform) (σ : State) (i : Instr) : Prop where
  handled : σ.core.Handled P
  known : σ.core.Known i
  due : σ.core.Due i

section Run

variable {C : State → Action Instr → Prop} {σ σ' : State} {tr : List (Core × Instr)}

theorem reach_executes (h : (runtime P).Reach C newServer σ) (hC : ∀ τ a, C τ a → timersIdle τ a)
    {i : Instr} {τ : State} (hn : (runtime P).next σ = some (i, τ)) : Executes P σ i := by
  have hL := reach_handled h hC
  have hi : i ∈ σ.pending := by
    obtain ⟨-, ⟨-, hst, -⟩ | ⟨-, -, hq⟩⟩ := next_pending hn
    · simp [Config.pending, hst]
    · simp [Config.pending, hq]
  exact ⟨hL.inv, hL.ok i hi, (next_pending hn).1 ▸ reach_due h hC .run rfl i τ hn⟩

/-- What was settled before is not settled again. -/
theorem Executes.unsettled {i : Instr} (h : Executes P σ i) {r : RequestId}
    (hs : σ.core.settles r i = true) (hp : (σ.core.mail.requests r).promise = false) :
    r < σ.core.mail.requestCount ∧ (σ.core.mail.requests r).settled = false := by
  have hd := h.due
  have hpl := h.known.placed
  unfold Core.settles at hs
  split at hs
  case h_5 => cases hs
  all_goals simp only [Bool.and_eq_true, Bool.not_eq_true', decide_eq_true_eq] at hs
  · obtain ⟨⟨rfl, ht⟩, hset⟩ := hs
    refine ⟨?_, hset⟩
    by_contra hlt
    rw [h.handled.requested.blank _ (Nat.not_lt.mp hlt)] at ht
    cases ht
  · subst hs
    have := h.handled.requested.timer _ hd
    exact ⟨this.1, this.2.2⟩
  · subst hs
    exact ⟨hpl.1.lt, (hpl.2.2 _ rfl).2 hp⟩
  · obtain ⟨⟨rfl, -⟩, -⟩ := hs
    have hpr : (σ.core.mail.requests _).promise = true := hpl.1.fits
    rw [hp] at hpr
    cases hpr

/-- How often the callback of an emit with a timeout has been invoked. -/
def Once (P : Platform) (tr : List (Core × Instr)) (σ : Core) : Prop :=
  ∀ r, (σ.mail.requestCount ≤ r → tr.countP (callsBack P r) = 0) ∧
    (r < σ.mail.requestCount → (σ.mail.requests r).promise = false →
      tr.countP (callsBack P r) = if (σ.mail.requests r).settled then 1 else 0)

theorem Once.similar {σ σ' : Core} (h : Once P tr σ) (hs : σ.Similar σ') : Once P tr σ' := by
  intro r
  rw [hs.mail.requestCount, hs.mail.requests]
  exact h r

theorem Once.executes {i : Instr} (h : Once P tr σ.core) (hi : Executes P σ i) :
    Once P (tr ++ [(σ.core, i)]) (exec P i σ.core).core := by
  intro r
  have hT := exec_turns (P := P) i σ.core
  have hcount : (tr ++ [(σ.core, i)]).countP (callsBack P r) =
      tr.countP (callsBack P r) + if callsBack P r (σ.core, i) = true then 1 else 0 := by
    rw [List.countP_append, List.countP_singleton]
  have hnew : σ.core.mail.requestCount ≤ r → callsBack P r (σ.core, i) = false := fun hle => by
    rw [← Bool.not_eq_true]
    intro hc
    obtain ⟨hs, hp⟩ := (callsBack_iff hi.known).mp hc
    exact absurd (hi.unsettled hs hp).1 (Nat.not_lt.mpr hle)
  rw [hcount]
  refine ⟨fun hle => ?_, fun hlt hp => ?_⟩
  · have hle' := hT.count.trans hle
    simp [hnew hle', (h r).1 hle']
  · by_cases hold : r < σ.core.mail.requestCount
    · have hp' := (hT.old hold).promise.symm.trans hp
      have hset := (exec_answers (P := P) i hold).settled
      rw [(h r).2 hold hp']
      by_cases hc : callsBack P r (σ.core, i) = true
      · have hs := ((callsBack_iff hi.known).mp hc).1
        simp [hc, hset.mpr (Or.inr hs), (hi.unsettled hs hp').2]
      · have hs : ¬ σ.core.settles r i = true := fun hs => hc ((callsBack_iff hi.known).mpr ⟨hs, hp'⟩)
        have heq : ((exec P i σ.core).core.mail.requests r).settled =
            (σ.core.mail.requests r).settled := by
          rw [Bool.eq_iff_iff, hset]
          exact ⟨fun h => h.resolve_right hs, Or.inl⟩
        simp [hc, heq]
    · have hle := Nat.not_lt.mp hold
      simp [hnew hle, (h r).1 hle, (hT.asked r ⟨hle, hlt⟩).settled]

/-- **The callback of an emit with a timeout is invoked when it is settled, and only then.** -/
theorem run_once (h : (runtime P).Run C newServer tr σ) (hC : ∀ τ a, C τ a → timersIdle τ a) :
    Once P tr σ.core := by
  induction h with
  | start => exact fun r => ⟨fun _ => rfl, nofun⟩
  | @step tr σ σ' a hr hc hs ih =>
      rcases (similar_keeping P).step hs with ⟨i, τ, rfl, hn, ht, hsim⟩ | ⟨ht, hsim⟩
      · rw [ht]
        exact (ih.executes (reach_executes hr.reach hC hn)).similar hsim
      · rw [ht, List.append_nil]
        exact ih.similar hsim

end Run

/-! ## 3. What has waited -/

/-- The instruction sends `p` to a server socket. -/
def Core.sends (σ : Core) (p : BufferedPacket) : Instr → Prop
  | .mail (.clientEmitRest c q) => q = p ∧ (σ.conn.clients c).serverSocket.isSome = true
  | .mail (.flushRest a s q _) => q = p ∧ σ.conn.isConnectionAttemptConnected a s = true
  | _ => False

/-- The packet is in the rest of a flush. -/
def Instr.carries (p : BufferedPacket) : Instr → Prop
  | .mail (.flushPackets _ _ ps) => p ∈ ps
  | .mail (.flushRest _ _ q ps) => p ∈ q :: ps
  | _ => False

/-- **The packet waits**: in the send buffer, or in the part of a flush that has not been sent. -/
def Waits (σ : State) (p : BufferedPacket) : Prop :=
  (∃ c, p ∈ (σ.core.mail.outboxes c).sendBuffer) ∨ ∃ j ∈ σ.pending, j.carries p

/-- No emit of request `r` is under way, nor will one be. -/
structure Unemitted (r : RequestId) (σ : State) : Prop where
  lt : r < σ.core.mail.requestCount
  emit : ∀ c q, .mail (.clientEmitRest c q) ∈ σ.pending → q.timedCallback ≠ some r

theorem carries_last {j : Instr} {p : BufferedPacket} (h : j.carries p) :
    j.isLast = true ∧ (∀ r, p.timedCallback = some r → j.holds r) ∧
      ∀ σ : Core, σ.Placed j → ∃ c, σ.mail.Owns c p := by
  unfold Instr.carries at h
  split at h
  · exact ⟨rfl, fun r hr => ⟨p, h, hr⟩, fun σ hp => ⟨_, hp p h⟩⟩
  · exact ⟨rfl, fun r hr => ⟨p, h, hr⟩, fun σ hp => ⟨_, hp.1 p h⟩⟩
  · exact h.elim

section Waiting

variable {C : State → Action Instr → Prop} {σ σ' : State} {tr : List (Core × Instr)}
  {p : BufferedPacket} {r : RequestId}

theorem Waits.unemitted (hL : Lined (Core.Handled P) Core.Known Instr.Before σ.core σ.pending)
    (h : Waits σ p) (hr : p.timedCallback = some r) : Unemitted r σ := by
  rcases h with ⟨c, hp⟩ | ⟨j, hj, hp⟩
  · refine ⟨((hL.inv.requested.packet c p hp).timed hr).1, fun d q hq hqr => ?_⟩
    obtain ⟨howns, -, hq⟩ := (hL.ok _ hq).placed
    exact (hq r (timedOf_eq_some (howns.wraps ▸ hqr)).1).2 c p hp hr
  · obtain ⟨hlast, hholds, howns⟩ := carries_last hp
    obtain ⟨c, howns⟩ := howns _ (hL.ok j hj).placed
    refine ⟨(howns.timed hr).1, fun d q hq hqr => ?_⟩
    -- of the two pending instructions, one comes before the other
    have hboth := List.Pairwise.forall_of_forall_of_flip (l := σ.pending)
      (R := fun x y => x = y ∨ x.Before y ∨ y.Before x) (fun _ _ => Or.inl rfl)
      (hL.rel.imp fun h => Or.inr (Or.inl h)) (hL.rel.imp fun h => Or.inr (Or.inr h))
    rcases hboth hq hj with rfl | hB | hB
    · cases hlast
    · exact hB.emit d q r rfl hqr (hholds r hr)
    · cases hB.task (Or.inl hlast)

theorem Unemitted.step (h : Unemitted r σ) {a : Action Instr}
    (hs : (runtime P).step σ a = some σ') : Unemitted r σ' := by
  constructor
  · rcases (similar_keeping P).step hs with ⟨i, τ, rfl, -, -, hsim⟩ | ⟨-, hsim⟩
    · rw [hsim.mail.requestCount]
      exact h.lt.trans_le (exec_turns i σ.core).count
    · rw [hsim.mail.requestCount]
      exact h.lt
  · intro c q hq hqr
    rcases pending_cases hs hq with hq | ⟨i, τ, -, hn, hq⟩ | ⟨-, hc⟩ | ⟨c', i, is, his, hq⟩
    · exact h.emit c q hq hqr
    · obtain ⟨event, form, rfl, -, hpush, -⟩ := clientEmitRest_spawned hq
      obtain ⟨hw, hf⟩ := (clientEmit_turns (T := fun _ _ => False) (B := fun _ _ => False) τ.core c
        event form).2 q hpush
      have hfresh := (hf r (timedOf_eq_some (hw ▸ hqr)).1).1
      rw [← (next_pending hn).1] at hfresh
      exact absurd h.lt (Nat.not_lt.mpr hfresh)
    · cases hc
    · rcases onThrow_handle his with rfl | ⟨a, err, rfl, -⟩
      · cases hq
      · simp at hq

theorem Unemitted.run (h : Unemitted r σ) (hrun : (runtime P).Run C σ tr σ') : Unemitted r σ' := by
  induction hrun with
  | start => exact h
  | step _ _ hs ih => exact ih.step hs

/-- What has been settled stays settled. -/
theorem settled_step {a : Action Instr} (hlt : r < σ.core.mail.requestCount)
    (h : (σ.core.mail.requests r).settled = true) (hs : (runtime P).step σ a = some σ') :
    (σ'.core.mail.requests r).settled = true := by
  rcases (similar_keeping P).step hs with ⟨i, τ, rfl, -, -, hsim⟩ | ⟨-, hsim⟩
  · rw [hsim.mail.requests]
    exact ((exec_turns i σ.core).old hlt).settled h
  · rw [hsim.mail.requests]
    exact h

theorem not_sent {i : Instr} (he : Executes P σ i) (hu : Unemitted r σ)
    (hset : (σ.core.mail.requests r).settled = true) (hr : p.timedCallback = some r)
    (hi : i ∈ σ.pending) (hsend : σ.core.sends p i) : False := by
  have hpl := he.known.placed
  unfold Core.sends at hsend
  split at hsend
  · obtain ⟨rfl, -⟩ := hsend
    exact hu.emit _ _ hi hr
  · obtain ⟨rfl, hconn⟩ := hsend
    rcases hpl.2 with hs | hs
    · simp [Mail.isSettled, hr, hset] at hs
    · simp [Conn.isConnectionAttemptConnected, hs] at hconn
  · exact hsend

/-- **A packet that has waited is not sent once its callback is settled.** -/
theorem never_sent (h : (runtime P).Reach C newServer σ) (hC : ∀ τ a, C τ a → timersIdle τ a)
    (hu : Unemitted r σ) (hr : p.timedCallback = some r)
    (hset : (σ.core.mail.requests r).settled = true) (hrun : (runtime P).Run C σ tr σ') :
    Unemitted r σ' ∧ (σ'.core.mail.requests r).settled = true ∧ ∀ x ∈ tr, ¬ x.1.sends p x.2 := by
  induction hrun with
  | start => exact ⟨hu, hset, fun _ hx => absurd hx List.not_mem_nil⟩
  | @step tr τ τ' a hr' hc hs ih =>
      obtain ⟨hu, hset, hno⟩ := ih
      refine ⟨hu.step hs, settled_step hu.lt hset hs, fun x hx => ?_⟩
      rcases List.mem_append.mp hx with hx | hx
      · exact hno x hx
      · rcases taken_cases (M := runtime P) τ a with ht | ⟨i, ρ, rfl, hn, ht⟩
        · rw [ht] at hx
          cases hx
        · rw [ht] at hx
          obtain rfl := List.mem_singleton.mp hx
          have he := reach_executes (h.trans hr'.reach) hC hn
          have hi : i ∈ τ.pending := by
            obtain ⟨-, ⟨-, hst, -⟩ | ⟨-, -, hq⟩⟩ := next_pending hn
            · simp [Config.pending, hst]
            · simp [Config.pending, hq]
          exact fun hsend => not_sent he hu hset hr hi hsend

end Waiting

end Smocket
