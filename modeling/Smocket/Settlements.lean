import Smocket.Registers
import Smocket.Stale

/-
  File:      Smocket/Settlements.lean
  Subject:   AN ACKNOWLEDGEMENT WITH A TIMEOUT IS SETTLED ONCE, AND BY THE END OF ITS CONNECTION.

  The answer, the timer and the disconnect race for a request. Its callback is invoked by the one
  that comes first; a packet that waits while its callback is settled is not sent; and what a client
  holds when it is disconnected is rejected by the time the disconnect returns.

  * `Dismissing` -- a disconnect is on its way to reject a handle;
  * `marked_rejects` -- what is held at the disconnect is rejected when it has returned;
  * **`acks_settled`** -- the three facts of a run.
-/

namespace Smocket

open Ordered EventLoop EventLoop.Machine

variable {P : Platform} {C : State → Action Instr → Prop} {σ σ' : State}
  {tr : List (Core × Instr)}

/-! ## 1. What a disconnect is on its way to reject -/

/-- A disconnect of `c` is on its way to reject the handle `k`: before its loop, or in it. -/
def Dismissing (σ : State) (c : ClientId) (k : AckHandle) : Prop :=
  (k ∈ (σ.core.mail.outboxes c).pendingAcks ∧ .mail (.rejectPendingAcks c) ∈ σ.pending) ∨
    Rejecting σ c k

/-- **The disconnect of `c`, and the emits it interrupted, have returned.** -/
structure Returned (σ : State) (c : ClientId) : Prop where
  taken : .mail (.rejectPendingAcks c) ∉ σ.pending
  rejected : ∀ k, .mail (.rejectAck c k) ∉ σ.pending
  emitted : ∀ p, .mail (.clientEmitRest c p) ∉ σ.pending

/-- While a disconnect, a flush or an emit is under way, only rejections conclude a request. -/
theorem concludes_midway (h : (runtime P).Reach C newServer σ)
    (hC : ∀ τ a, C τ a → timersIdle τ a) {i j : Instr} {τ : State}
    (hn : (runtime P).next σ = some (i, τ)) (hj : j ∈ σ.pending) (hm : j.midway = true)
    (hne : j ≠ i) {r : RequestId} (hc : σ.core.concludes r i = true) :
    σ.core.rejects r i = true := by
  have halone : ¬ (i.isLast = true ∨ i.isTask = true) := fun ht =>
    (reach_alone h hC hn ht hj).elim hne (by simp [hm])
  unfold Core.concludes at hc
  split at hc
  · exact absurd (Or.inr rfl) halone
  · exact absurd (Or.inl rfl) halone
  · exact hc
  · exact hc
  · cases hc

theorem dismissing_step (h : (runtime P).Reach C newServer σ) (hC : ∀ τ a, C τ a → timersIdle τ a)
    (hR : ∀ τ a, C τ a → CallsReturn τ a) {a : Action Instr} (hc : C σ a)
    (hs : (runtime P).step σ a = some σ') {c : ClientId} {k : AckHandle}
    (hlt : k.request < σ.core.mail.requestCount)
    (hcl : (σ.core.mail.requests k.request).client = some c) (hk : Dismissing σ c k) :
    Dismissing σ' c k ∨ rejectedIn ((runtime P).taken σ a) k.request := by
  rcases hk with ⟨hm, hj⟩ | hk
  · rcases unskipped_stays h hR hc hs hj rfl with hj' | ⟨τ, rfl, hn⟩
    · rcases held_step hs hm with hm' | ⟨-, hr⟩ | hcon
      · exact Or.inl (Or.inl ⟨hm', hj'⟩)
      · exact Or.inl (Or.inr (Or.inl hr))
      · -- the loop is still due, so that this was another rejection
        rcases taken_cases (M := runtime P) σ a with ht | ⟨i, τ, rfl, hn, ht⟩
        · rw [ht] at hcon
          obtain ⟨_, hx, -⟩ := hcon
          cases hx
        · rw [ht, concludedIn_singleton] at hcon
          refine Or.inr ⟨_, ht ▸ List.mem_singleton_self _, ?_⟩
          refine concludes_midway h hC hn hj rfl (fun he => ?_) hcon
          subst he
          cases hcon
    · exact Or.inl (Or.inr (Or.inl (spawned_waits hn hs rfl
        (List.mem_append_left _ (List.mem_map_of_mem (OSet.mem_def.mp hm))))))
  · exact (rejecting_step h hC hR hc hs hlt hcl hk).imp_left Or.inr

theorem run_dismissing (h : (runtime P).Reach C newServer σ) (hC : ∀ τ a, C τ a → timersIdle τ a)
    (hR : ∀ τ a, C τ a → CallsReturn τ a) {c : ClientId} {k : AckHandle}
    (hlt : k.request < σ.core.mail.requestCount)
    (hcl : (σ.core.mail.requests k.request).client = some c) (hk : Dismissing σ c k)
    (hrun : (runtime P).Run C σ tr σ') : Dismissing σ' c k ∨ rejectedIn tr k.request := by
  induction hrun with
  | start => exact Or.inl hk
  | step hr hc hs ih =>
      obtain ⟨hlt', hcl', -⟩ := made_run hr hlt
      rw [rejectedIn_append]
      rcases ih with hk | hk
      · exact (dismissing_step (h.trans hr.reach) hC hR hc hs hlt' (hcl'.trans hcl) hk).imp_right
          Or.inr
      · exact Or.inr (Or.inl hk)

/-- **What a client holds when it is disconnected is rejected** when the disconnect has returned. -/
theorem marked_rejects (h : (runtime P).Reach C newServer σ) (hC : ∀ τ a, C τ a → timersIdle τ a)
    (hR : ∀ τ a, C τ a → CallsReturn τ a) {c : ClientId} {reason : String} {τ σ₁ : State}
    (hn : (runtime P).next σ = some (.conn (.markDisconnected c reason), τ))
    (hf : (markDisconnected σ.core c reason).fails = false) (hc : C σ .run)
    (hs : (runtime P).step σ .run = some σ₁) (hrun : (runtime P).Run C σ₁ tr σ')
    (hret : Returned σ' c) {k : AckHandle} (hlt : k.request < σ.core.mail.requestCount)
    (hcl : (σ.core.mail.requests k.request).client = some c) (hk : Held σ c k) :
    rejectedIn tr k.request := by
  have hno : ¬ concludedIn ((runtime P).taken σ .run) k.request := by
    rw [show (runtime P).taken σ .run = [(σ.core, .conn (.markDisconnected c reason))] by
      simp [taken, hn], concludedIn_singleton]
    intro h
    cases h
  have hk₁ : Dismissing σ₁ c k := by
    rcases hk with hm | hj
    · rcases held_step hs hm with hm' | ⟨⟨τ', -, hn'⟩, -⟩ | hcon
      · refine Or.inl ⟨hm', spawned_waits hn hs hf (List.mem_append_left _ ?_)⟩
        show _ ∈ (markDisconnected σ.core c reason).push
        simp only [markDisconnected] at hf ⊢
        split at hf
        · cases hf
        · simp
      · cases hn.symm.trans hn'
      · exact absurd hcon hno
    · refine Or.inr ((rejecting_step h hC hR hc hs hlt hcl hj).resolve_right fun hrej => ?_)
      exact hno (rejectedIn_concluded hrej)
  obtain ⟨hlt₁, hcl₁, -⟩ := made_step hs hlt
  have h₁ := h.step hc hs
  refine (run_dismissing h₁ hC hR hlt₁ (hcl₁.trans hcl) hk₁ hrun).resolve_left ?_
  rintro (⟨-, hj⟩ | hj)
  · exact hret.taken hj
  · exact hret.rejected k (outside_rejects (h₁.trans hrun.reach) hC hR hret.emitted
      (made_run hrun hlt₁).1 hj)

/-! ## 2. The three facts -/

/-- What is so of the acknowledgements of `c` in a state `σ'` after its disconnect has returned:
    `tr` is the history up to the disconnect, in the state `σ`, and `tr'` the history from there. -/
structure Dismissed (c : ClientId) (tr : List (Core × Instr)) (σ : State)
    (tr' : List (Core × Instr)) (σ' : State) : Prop where
  /-- what has a timeout and was sent, or being sent, has been settled and its timer cleared; an
      `emitWithAck` with a timeout also if it was in the buffer -/
  timed : ∀ r, (σ.core.mail.requests r).client = some c → (σ.core.mail.requests r).timed = true →
    r < σ.core.mail.requestCount →
    (σ.core.mail.requests r).promise = true ∨ requestSentIn tr r ∨ Underway σ r →
      (σ'.core.mail.requests r).settled = true ∧ r ∉ σ'.core.mail.ackTimers
  /-- every `emitWithAck` without an answer has been rejected -/
  promise : ∀ r, (σ.core.mail.requests r).client = some c → (σ.core.mail.requests r).promise = true →
    r < σ.core.mail.requestCount → ¬ concludedIn tr r → rejectedIn tr' r

/-- **The acknowledgements with a timeout**, in a state `σ` with the history `tr`. -/
structure AcksSettled (P : Platform) (C : State → Action Instr → Prop)
    (tr : List (Core × Instr)) (σ : State) : Prop where
  /-- no callback of a `timeout(ms).emit` has been invoked twice -/
  once : ∀ r, (σ.core.mail.requests r).promise = false → tr.countP (callsBack P r) ≤ 1
  /-- what waits is not sent once its callback has been settled -/
  unsent : ∀ p r, Waits σ p → p.timedCallback = some r → ∀ tr₁ σ₁, (runtime P).Run C σ tr₁ σ₁ →
    (σ₁.core.mail.requests r).settled = true → ∀ tr₂ σ₂, (runtime P).Run C σ₁ tr₂ σ₂ →
      ∀ x ∈ tr₂, ¬ x.1.sends p x.2
  /-- a disconnect that returns leaves nothing of its connection open -/
  dismissed : ∀ c reason τ, (runtime P).next σ = some (.conn (.markDisconnected c reason), τ) →
    (markDisconnected σ.core c reason).fails = false → C σ .run →
      ∀ σ₁ tr' σ', (runtime P).step σ .run = some σ₁ → (runtime P).Run C σ₁ tr' σ' →
        Returned σ' c → Dismissed c tr σ tr' σ'

/-- **An acknowledgement with a timeout settles at most once and does not outlive its connection**,
    in any run whose callbacks return and whose timers fire between tasks. -/
theorem acks_settled (h : (runtime P).Run C newServer tr σ)
    (hC : ∀ τ a, C τ a → timersIdle τ a ∧ CallsReturn τ a) : AcksSettled P C tr σ := by
  have hI := fun τ a hc => (hC τ a hc).1
  have hR := fun τ a hc => (hC τ a hc).2
  refine ⟨fun r hp => ?_, fun p r hw hr tr₁ σ₁ h₁ hset tr₂ σ₂ h₂ => ?_,
    fun c reason τ hn hf hc σ₁ tr' σ' hs h₁ hret => ?_⟩
  · obtain ⟨hnew, hold⟩ := run_once h hI r
    by_cases hlt : r < σ.core.mail.requestCount
    · rw [hold hlt hp]
      split <;> omega
    · rw [hnew (Nat.not_lt.mp hlt)]
      exact Nat.zero_le 1
  · exact (never_sent (h.reach.trans h₁.reach) hI
      ((hw.unemitted (reach_handled h.reach hI) hr).run h₁) hr hset h₂).2.2
  · have hrej := fun {k} => marked_rejects h.reach hI hR hn hf hc hs h₁ hret (k := k)
    have htr := run_tracked h hI hR
    refine ⟨fun r hcl ht hlt hsent => ?_, fun r hcl hp hlt hcon => ?_⟩
    · have hall := (h.step hc hs).append h₁
      have hcon : concludedIn (tr ++ (runtime P).taken σ .run ++ tr') r := by
        have hheld : concludedIn tr r ∨ ∃ k : AckHandle, k.request = r ∧ Held σ c k := by
          cases hp : (σ.core.mail.requests r).promise with
          | true => exact (htr.promise r hlt c hcl hp).imp_right fun hk => ⟨_, rfl, hk⟩
          | false =>
              refine (htr.timed r hlt c hcl hp (hsent.resolve_left fun h => ?_)).imp_right
                fun hk => ⟨_, rfl, hk⟩
              exact absurd (hp.symm.trans h) nofun
        rcases hheld with hcon | ⟨k, rfl, hk⟩
        · simp only [concludedIn_append, hcon, true_or]
        · exact concludedIn_append.mpr (Or.inr (rejectedIn_concluded (hrej hlt hcl hk)))
      have hreq := (reach_handled hall.reach hI).inv.requested
      obtain ⟨hlt₁, -, ht₁⟩ := made_step hs hlt
      obtain ⟨hlt', -, ht'⟩ := made_run h₁ hlt₁
      have hset := ((run_recorded hall hI).settled r hlt' (ht'.trans (ht₁.trans ht))).mpr hcon
      refine ⟨hset, fun hm => ?_⟩
      exact absurd ((hreq.timer r hm).2.2.symm.trans hset) nofun
    · exact hrej (k := .promise r) hlt hcl
        ((htr.promise r hlt c hcl hp).resolve_left hcon)

/-- A sent `timeout(ms).emit` and an `emitWithAck` wait when their client disconnects. -/
theorem acks_settled_two : ∃ C : State → Action Instr → Prop, ∃ tr σ tr' σ',
    (runtime unary).Run C newServer tr σ ∧
      (σ.core.mail.outboxes 0).pendingAcks.elems = [.timed 0, .promise 1] ∧
      Dismissed 0 tr σ tr' σ' ∧ AcksSettled unary C tr σ := by
  obtain ⟨tr₁, ⟨τ, i⟩, tr₂, σ', hr, hx, hp⟩ := cut_of_script (runtime unary)
    (fun τ a => timersIdle τ a ∧ CallsReturn τ a) newServer 80
    (connectedEmits [.call (.mail (.clientEmit 0 "a" .callback)), .ret,
      .call (.mail (.clientEmit 0 "b" .promise)), .ret, .call (.ctl (.clientDisconnect 0)), .ret,
      .ret])
    (fun x => decide (x.2.marks = some 0) && !(markDisconnected x.1 0 "").fails)
    (fun _ x _ σ => decide ((x.1.mail.outboxes 0).pendingAcks.elems = [.timed 0, .promise 1]) &&
      σ.pending.all (fun j => !j.midway)) (by decide)
  obtain ⟨σ, ρ, σ₁, h, hc, rfl, hn, hs, h₁⟩ := hr.split
  dsimp only at hx hp hn
  obtain ⟨hi, hf'⟩ := Bool.and_eq_true_iff.mp hx
  obtain ⟨reason, rfl⟩ := marks_eq_some (of_decide_eq_true hi)
  obtain ⟨hk, hquiet⟩ := Bool.and_eq_true_iff.mp hp
  have hall := acks_settled h (fun _ _ hc => hc)
  have hf : (markDisconnected σ.core 0 "").fails = false := by simpa using hf'
  have hno : ∀ j ∈ σ'.pending, j.midway = false := by simpa using hquiet
  refine ⟨_, tr₁, σ, tr₂, σ', h, of_decide_eq_true hk, ?_, hall⟩
  exact hall.dismissed 0 reason ρ hn hf hc σ₁ tr₂ σ' hs h₁
    ⟨fun hj => absurd (hno _ hj) (by simp [Instr.midway]),
      fun _ hj => absurd (hno _ hj) (by simp [Instr.midway]),
      fun _ hj => absurd (hno _ hj) (by simp [Instr.midway])⟩

end Smocket
