import Smocket.Acks
import Smocket.Stale
import Smocket.Conduits

/-
  File:      Smocket/Answers.lean
  Subject:   AN ACKNOWLEDGEMENT IS USED ONCE AND DIES WITH ITS PAIRING. The receiver of a packet may
             invoke its acknowledgement function any number of times and at any time; what the
             sender sees of it is counted here.

  The function is spent by its first invocation that counts: the pairing must be alive, or in its
  adapter's drain where the receiver is the client. A value that does not encode spends it where the
  receiver is the client only.

  * `run_spent` -- each acknowledgement is spent as often as its flag says;
  * `run_dead` -- after the end of a pairing it is spent in the drain, or not at all;
  * `acks_exact` -- both, with what reaches the sender, for every run.
-/

namespace Smocket

open Ordered EventLoop EventLoop.Machine

variable {P : Platform}

/-! ## 1. Invocations that count -/

/-- The guard of the acknowledgement function: `clientAcknowledgementState.active` or the drain
    where the receiver is the client, `serverAcknowledgementState.active` where it is the server
    socket. -/
def Core.ackActive (σ : Core) (A : Ack) : Bool :=
  if A.forClient then
    (σ.life.sockets A.socket).clientAck || (σ.memb.sockets A.socket).drainingAdapterDelivery
  else (σ.life.sockets A.socket).serverAck

/-- The instruction spends the acknowledgement `k`. -/
def Core.spends (σ : Core) (k : AckId) : Instr → Bool
  | .mail (.invokeAck k' encodable) =>
      decide (k' = k) && !(σ.mail.acks k).acked && σ.ackActive (σ.mail.acks k) &&
        (encodable || (σ.mail.acks k).forClient)
  | _ => false

/-- What the instruction answers to the sender. -/
def Core.repliesWith (σ : Core) : Instr → List Reply
  | .mail (.invokeAck k encodable) =>
      if (σ.mail.acks k).acked = false ∧ σ.ackActive (σ.mail.acks k) = true ∧ encodable = true then
        [(σ.mail.acks k).reply]
      else []
  | _ => []

/-- The answer a task brings. -/
def Instr.reaches : Instr → List Reply
  | .mail (.ackReply reply) => [reply]
  | _ => []

/-- The answers of a run, and those that have reached their senders. -/
def answeredIn (tr : List (Core × Instr)) : List Reply := tr.flatMap fun x => x.1.repliesWith x.2

def reachedIn (tr : List (Core × Instr)) : List Reply := tr.flatMap fun x => x.2.reaches

/-- An answer is posted by the invocation it belongs to, and by nothing else. -/
theorem reaches_post (σ : Core) (i : Instr) :
    (exec P i σ).push.flatMap Instr.reaches = [] ∧
      (exec P i σ).post.flatMap Instr.reaches = σ.repliesWith i := by
  by_cases hi : ∃ k encodable, i = .mail (.invokeAck k encodable)
  · obtain ⟨k, encodable, rfl⟩ := hi
    have he : exec P (.mail (.invokeAck k encodable)) σ =
        { core := { σ with mail := (invokeAck σ k encodable).part }
          push := (invokeAck σ k encodable).push, post := (invokeAck σ k encodable).post
          fails := (invokeAck σ k encodable).fails } := rfl
    rw [he]
    unfold invokeAck
    change _ ∧ _ = if (σ.mail.acks k).acked = false ∧ σ.ackActive (σ.mail.acks k) = true ∧
      encodable = true then [(σ.mail.acks k).reply] else []
    dsimp only
    rw [show (if (σ.mail.acks k).forClient = true then _ else _ : Bool) =
      σ.ackActive (σ.mail.acks k) from rfl]
    cases (σ.mail.acks k).acked <;> cases σ.ackActive (σ.mail.acks k) <;> cases encodable <;>
      simp [Instr.reaches]
  · have hnone : ∀ j ∈ (exec P i σ).spawned, j.reaches = [] := fun j hj => by
      have hs := spawnedBy hj
      unfold Instr.reaches
      split
      · exact absurd hs hi
      · rfl
    have hr : σ.repliesWith i = [] := by
      unfold Core.repliesWith
      split
      · exact absurd ⟨_, _, rfl⟩ hi
      · rfl
    rw [hr]
    exact ⟨List.flatMap_eq_nil_iff.mpr fun j hj => hnone j (List.mem_append_left _ hj),
      List.flatMap_eq_nil_iff.mpr fun j hj => hnone j (List.mem_append_right _ hj)⟩

/-- What the table says of an acknowledgement that was made, and of those that were not. -/
structure Mail.Unspent (μ : Mail) : Prop where
  fresh : ∀ k, μ.ackCount ≤ k → (μ.acks k).acked = false

/-- Only an acknowledgement that was made is invoked. -/
def Core.Invokable (σ : Core) (j : Instr) : Prop :=
  ∀ k encodable, j = .mail (.invokeAck k encodable) → k < σ.mail.ackCount

/-- **An acknowledgement is spent by what spends it, and stays so.** -/
theorem exec_spends (σ : Core) {i : Instr} (h : σ.mail.Unspent) (hi : σ.Invokable i) (k : AckId) :
    ((exec P i σ).core.mail.acks k).acked = ((σ.mail.acks k).acked || σ.spends k i) := by
  by_cases hk : ∃ k' encodable, i = .mail (.invokeAck k' encodable)
  · obtain ⟨k', encodable, rfl⟩ := hk
    have he : (exec P (.mail (.invokeAck k' encodable)) σ).core.mail =
        (invokeAck σ k' encodable).part := rfl
    rw [he]
    unfold invokeAck
    dsimp only
    rw [show (if (σ.mail.acks k').forClient = true then _ else _ : Bool) =
      σ.ackActive (σ.mail.acks k') from rfl]
    by_cases hkk : k' = k
    · subst hkk
      cases ha : (σ.mail.acks k').acked <;> cases hc : σ.ackActive (σ.mail.acks k') <;>
        cases encodable <;> cases hf : (σ.mail.acks k').forClient <;>
        simp [Core.spends, ha, hc, hf, Mail.setAck]
    · have hne : ¬ k = k' := fun h => hkk h.symm
      cases (σ.mail.acks k').acked <;> cases σ.ackActive (σ.mail.acks k') <;>
        cases encodable <;> cases (σ.mail.acks k').forClient <;>
        simp [Core.spends, Mail.setAck, hkk, hne]
  · have hno : σ.spends k i = false := by
      unfold Core.spends
      split
      · exact absurd ⟨_, _, rfl⟩ hk
      · rfl
    rw [hno, Bool.or_false]
    rcases exec_acks (P := P) i σ with (hsame | ⟨A, -, hA, hadd⟩) | ⟨k', e, rfl, -, -⟩
    · rw [hsame.acks]
    · rw [hadd.acks, Function.update_apply]
      split
      · rename_i hkc
        rw [hA, h.fresh k hkc.ge]
      · rfl
    · exact absurd ⟨_, _, rfl⟩ hk

theorem exec_ackCount (σ : Core) (i : Instr) :
    σ.mail.ackCount ≤ (exec P i σ).core.mail.ackCount := by
  rcases exec_acks (P := P) i σ with (hsame | ⟨A, -, -, hadd⟩) | ⟨k, e, -, hc, -⟩
  · exact hsame.ackCount.ge
  · exact hadd.ackCount.ge.trans' (Nat.le_succ _)
  · exact hc.ge

theorem unspent_inductive (P : Platform) : Inductive (runtime P) (fun _ _ => True)
    (fun σ => σ.mail.Unspent) Core.Invokable fun _ => (none : Option Unit) := by
  refine .of_facts (fun σ i h => ⟨fun k hk => ?_⟩) (fun σ i _ j hj k e hk => ?_)
    (fun σ i j _ hj k e hk => (hj k e hk).trans_le (exec_ackCount σ i)) (fun σ i _ hc k e hk => ?_)
    (fun σ i is _ _ his j hj k e hk => ?_) fun _ _ _ => trivial
  · have hk' := (exec_ackCount (P := P) σ i).trans hk
    have hspend : σ.spends k i = false := by
      unfold Core.spends
      split
      · rename_i k' e
        have hlt := h.ok k' e rfl
        have hne : k' ≠ k := fun he => absurd (he ▸ hlt) (Nat.not_lt.mpr hk')
        simp [hne]
      · rfl
    exact (exec_spends (P := P) σ h.inv h.ok k).trans (by rw [h.inv.fresh k hk', hspend]; rfl)
  · subst hk
    exact absurd (spawnedBy hj) (by intro h; cases h)
  · subst hk
    exact of_decide_eq_true hc
  · rcases onThrow_handle his with rfl | ⟨a, err, rfl, -⟩
    · cases hj
    · rw [List.mem_singleton.mp hj] at hk
      cases hk

/-- Heaps that agree on acknowledgements. -/
theorem acks_keeping (P : Platform) :
    Keeping (runtime P) fun σ σ' => σ'.mail.acks = σ.mail.acks where
  refl _ := rfl
  trans h h' := h'.trans h
  run σ i hr := by
    rcases onThrow_run hr with ⟨s, rfl⟩ | ⟨s, rfl⟩ | ⟨r, rfl⟩ <;> rfl

section Run

variable {C : State → Action Instr → Prop} {σ σ' : State} {tr : List (Core × Instr)}

theorem reach_unspent (h : (runtime P).Reach C newServer σ) : σ.core.mail.Unspent ∧
    ∀ j ∈ σ.pending, σ.core.Invokable j := by
  have hK := h.inv_ok (unspent_inductive P) (fun _ _ _ _ _ _ _ => trivial)
    ⟨⟨fun _ _ => rfl⟩, fun _ hj => absurd hj List.not_mem_nil, .nil⟩
  exact ⟨hK.inv, hK.ok⟩

/-- **Each acknowledgement is spent as often as its flag says**: once or not at all. -/
theorem run_spent (h : (runtime P).Run C newServer tr σ) (k : AckId) :
    tr.countP (fun x => x.1.spends k x.2) = ((σ.core.mail.acks k).acked).toNat := by
  induction h with
  | start => rfl
  | @step tr σ σ' a hr hc hs ih =>
      rw [List.countP_append, ih]
      rcases (acks_keeping P).step hs with ⟨i, τ, rfl, hn, ht, he⟩ | ⟨ht, he⟩
      · obtain ⟨hU, hI⟩ := reach_unspent hr.reach
        have hi := hI i (next_mem hn).1
        have hexec : ((exec P i σ.core).core.mail.acks k).acked =
            ((σ.core.mail.acks k).acked || σ.core.spends k i) := exec_spends σ.core hU hi k
        have he : σ'.core.mail.acks = (exec P i σ.core).core.mail.acks := he
        rw [ht, he, hexec]
        have hspent : σ.core.spends k i = true → (σ.core.mail.acks k).acked = false := fun hsp => by
          unfold Core.spends at hsp
          split at hsp
          · simp only [Bool.and_eq_true, Bool.not_eq_true'] at hsp
            exact hsp.1.1.2
          · cases hsp
        cases hsp : σ.core.spends k i with
        | true => simp [hsp, hspent hsp]
        | false => simp [hsp]
      · rw [ht, he]
        rfl

/-- Answers reach their senders in the order of the invocations, and each at most once. -/
theorem run_reached (h : (runtime P).Run C newServer tr σ) :
    (reachedIn tr ++ σ.pending.flatMap Instr.reaches).Sublist (answeredIn tr) := by
  refine h.flows (fun σ : Core => σ.repliesWith) (fun _ i => i.reaches)
    (fun σ : State => σ.pending.flatMap Instr.reaches) (fun σ a σ' _ _ hs => ?_) rfl
  have hhandle : ∀ (τ : Core) (i : Instr) (is : List Instr), (runtime P).onThrow τ i = .handle is →
      ∀ j ∈ is, j.reaches = [] := by
    intro τ i is his j hj
    rcases onThrow_handle his with rfl | ⟨a, err, rfl, -⟩
    · cases hj
    · rw [List.mem_singleton.mp hj]
      rfl
  rcases taken_cases (M := runtime P) σ a with ht | ⟨i, τ, rfl, hn, ht⟩
  · simp only [ht, List.flatMap_nil, List.nil_append, List.append_nil]
    refine pending_flatMap hs (fun i τ hr hn => ?_) (fun i hi => ?_) hhandle
    · subst hr
      simp [taken, hn] at ht
    · unfold Instr.reaches
      split <;> [cases hi; rfl]
  · have hσ : (runtime P).execute i τ = σ' := by
      simpa [Machine.step, hn] using hs
    have hp := execute_flatMap (M := runtime P) (f := Instr.reaches) (τ := τ) (i := i) hhandle
    obtain ⟨hpush, hpost⟩ := reaches_post (P := P) τ.core i
    have hpush : ((runtime P).exec i τ.core).push.flatMap Instr.reaches = [] := hpush
    have hpost : ((runtime P).exec i τ.core).post.flatMap Instr.reaches = τ.core.repliesWith i := hpost
    rw [hσ, hpush, hpost, List.nil_append] at hp
    simp only [ht, List.flatMap_cons, List.flatMap_nil, List.append_nil]
    rw [next_flatMap hn, (next_pending hn).1, List.append_assoc]
    exact (List.Sublist.refl _).append hp

end Run

/-! ## 2. The end of a pairing -/

/-- Both acknowledgement states of a server socket are inactive. -/
def Lifecycle.Mute (x : Lifecycle) : Prop := x.serverAck = false ∧ x.clientAck = false

/-- The instruction ends the pairing through `s`: the client is marked disconnected, or the teardown
    of the socket or the cleanup of its attempt is performed. -/
def Core.ends (σ : Core) (s : SocketId) : Instr → Bool
  | .conn (.markDisconnected c _) =>
      decide (σ.through c = some s) && (σ.conn.clients c).connectionAttempt.isSome
  | .life (.teardownTask t _ _) | .life (.cleanupConnectionAttempt t) => decide (t = s)
  | .life (.disconnectNamespaceFromServer t) =>
      decide (t = s) && decide ((σ.life.sockets s).teardownPromise = .none)
  | _ => false

/-- Nothing makes an acknowledgement state active again. -/
theorem exec_mute (σ : Core) (i : Instr) {s : SocketId} (h : (σ.life.sockets s).Mute) :
    ((exec P i σ).core.life.sockets s).Mute := by
  have hset : ∀ {t : SocketId} {g : Lifecycle → Lifecycle}, (∀ x : Lifecycle, x.Mute → (g x).Mute) →
      ((σ.life.setSocket t g).sockets s).Mute := by
    intro t g hg
    simp only [Life.setSocket, modify_apply]
    split
    · rename_i ht
      exact hg _ (ht ▸ h)
    · exact h
  cases i with
  | life i =>
      cases i with
      | runMiddleware t =>
          simp only [exec, execLife, runMiddleware, Life.advance]
          split <;> exact h
      | next t k err =>
          cases err with
          | some err => exact h
          | none =>
              simp only [exec, execLife, next, Life.advance]
              split <;> exact h
      | teardown t reason drain =>
          simp only [exec, execLife, teardown]
          split
          · exact h
          · refine hset fun x hx => ?_
            split
            · exact hx
            · exact ⟨hx.1, rfl⟩
      | teardownTask t reason drain => exact hset fun _ _ => ⟨rfl, rfl⟩
      | disconnectNamespaceFromServer t =>
          simp only [exec, execLife, disconnectNamespaceFromServer]
          split
          · exact h
          · exact hset fun _ _ => ⟨rfl, rfl⟩
      | teardownDone t sync =>
          simp only [exec, execLife, teardownDone]
          split
          · exact h
          · exact hset fun _ hx => hx
      | markConnected t | teardownCleanup t | teardownDisconnect t | dispatch d | endDispatch t =>
          exact hset fun _ hx => hx
      | cleanupConnectionAttempt t | invalidateAcknowledgements t =>
          exact hset fun _ _ => ⟨rfl, rfl⟩
      | setPacket r event args =>
          simp only [exec, execLife, setPacket]
          split <;> exact h
      | runPacket r index =>
          simp only [exec, execLife, runPacket]
          split
          · exact h
          · split <;> exact h
      | packetNext r k err =>
          simp only [exec, execLife, packetNext]
          split
          · exact h
          · split <;> exact h
      | dispatchNamed r =>
          simp only [exec, execLife, dispatchNamed]
          split
          · exact h
          · split
            · exact h
            · exact hset fun _ hx => hx
      | _ => exact h
  | _ => exact h

/-- Once a pairing has ended its acknowledgements are spent in the drain only, by the client. -/
theorem Lifecycle.Mute.spends {σ : Core} {s : SocketId} (h : (σ.life.sockets s).Mute) {k : AckId}
    {i : Instr} (hk : (σ.mail.acks k).socket = s) (hs : σ.spends k i = true) :
    (σ.mail.acks k).forClient = true ∧ (σ.memb.sockets s).drainingAdapterDelivery = true := by
  unfold Core.spends at hs
  split at hs
  · simp only [Bool.and_eq_true] at hs
    have hact := hs.1.2
    unfold Core.ackActive at hact
    rw [hk, h.1, h.2] at hact
    split at hact
    · rename_i hf
      exact ⟨hf, by simpa using hact⟩
    · cases hact
  · cases hs

section Run

variable {C : State → Action Instr → Prop} {σ σ' : State} {tr : List (Core × Instr)}

/-- The end of a pairing deactivates its acknowledgements before anything is called. -/
theorem ends_mute {σ₁ σ₂ τ : State} {i : Instr} {s : SocketId}
    (hn : (runtime P).next σ₁ = some (i, τ))
    (he : σ₁.core.ends s i = true) (hs : (runtime P).step σ₁ .run = some σ₂) :
    (σ₂.core.life.sockets s).Mute ∨ ∃ k, σ₂.stack = .life (.invalidateAcknowledgements s) :: k := by
  have hσ : (runtime P).execute i τ = σ₂ := by
    simpa [Machine.step, hn] using hs
  have hcore : τ.core = σ₁.core := (next_pending hn).1.symm
  have hrun : (exec P i σ₁.core).fails = false → σ₂.core = (exec P i σ₁.core).core ∧
      σ₂.stack = (exec P i σ₁.core).push ++ τ.stack := fun hf => by
    have hf' : ((runtime P).exec i τ.core).fails = false := by
      rw [hcore]
      exact hf
    rw [← hσ, Machine.execute, hf', if_neg Bool.false_ne_true, hcore]
    exact ⟨rfl, rfl⟩
  unfold Core.ends at he
  split at he
  · rename_i c reason
    simp only [Bool.and_eq_true, decide_eq_true_eq] at he
    obtain ⟨hthrough, hsome⟩ := he
    obtain ⟨a, ha⟩ := Option.isSome_iff_exists.mp hsome
    obtain ⟨-, hserver⟩ := through_eq_some.mp hthrough
    refine Or.inr ⟨.mail (.rejectPendingAcks c) :: .ctl (.dispatchClient c "disconnect") :: τ.stack, ?_⟩
    have hpush : (exec P (.conn (.markDisconnected c reason)) σ₁.core).push =
        [.life (.invalidateAcknowledgements s), .mail (.rejectPendingAcks c),
          .ctl (.dispatchClient c "disconnect")] := by
      simp [exec, execConn, markDisconnected, ha, hserver]
    rw [(hrun (by simp [exec, execConn, markDisconnected, ha])).2, hpush]
    rfl
  · obtain rfl := of_decide_eq_true he
    rw [(hrun rfl).1]
    exact Or.inl ⟨by simp [exec, execLife, teardownTask, Life.setSocket,
      Lifecycle.invalidateAcknowledgements, Lifecycle.enterDispatch], by
        simp [exec, execLife, teardownTask, Life.setSocket,
          Lifecycle.invalidateAcknowledgements, Lifecycle.enterDispatch]⟩
  · obtain rfl := of_decide_eq_true he
    rw [(hrun rfl).1]
    exact Or.inl ⟨by simp [exec, execLife, cleanupConnectionAttempt, Life.setSocket,
      Lifecycle.invalidateAcknowledgements], by
        simp [exec, execLife, cleanupConnectionAttempt, Life.setSocket,
          Lifecycle.invalidateAcknowledgements]⟩
  · rename_i t
    simp only [Bool.and_eq_true, decide_eq_true_eq] at he
    obtain ⟨rfl, hnone⟩ := he
    have hx : (exec P (.life (.disconnectNamespaceFromServer t)) σ₁.core).fails = false := by
      simp [exec, execLife, disconnectNamespaceFromServer, hnone]
    rw [(hrun hx).1]
    exact Or.inl ⟨by simp [exec, execLife, disconnectNamespaceFromServer, hnone, Life.setSocket,
      Lifecycle.invalidateAcknowledgements, Lifecycle.enterDispatch], by
        simp [exec, execLife, disconnectNamespaceFromServer, hnone, Life.setSocket,
          Lifecycle.invalidateAcknowledgements, Lifecycle.enterDispatch]⟩
  · cases he

/-- **After the end of a pairing** an acknowledgement of it is spent by the client in the drain, or
    not at all. -/
theorem run_dead {tr₁ tr₂ : List (Core × Instr)} {x : Core × Instr}
    (h : (runtime P).Run C newServer (tr₁ ++ x :: tr₂) σ) {s : SocketId}
    (he : x.1.ends s x.2 = true) {k : AckId} {y : Core × Instr} (hy : y ∈ tr₂)
    (hk : (y.1.mail.acks k).socket = s) (hs : y.1.spends k y.2 = true) :
    (y.1.mail.acks k).forClient = true ∧ (y.1.memb.sockets s).drainingAdapterDelivery = true := by
  obtain ⟨σ₁, τ, σ₂, -, -, hcore, hn, hstep, hr⟩ := h.split
  rw [← hcore] at he
  have hmute : ∀ {ρ : State} {tr : List (Core × Instr)}, (ρ.core.life.sockets s).Mute →
      (runtime P).Run C ρ tr σ → ∀ z ∈ tr, (z.1.life.sockets s).Mute := fun hm hr =>
    (hr.stays (p := fun c => (c.life.sockets s).Mute) (fun c i hc => exec_mute c i hc) hm).2
  rcases ends_mute hn he hstep with hm | ⟨l, hst⟩
  · exact (hmute hm hr y hy).spends hk hs
  · rcases hr.first hst rfl with ⟨rfl, -⟩ | ⟨tr₃, σ₃, rfl, hs₃, hr₃⟩
    · cases hy
    · rcases List.mem_cons.mp hy with rfl | hy
      · cases hs
      · refine (hmute ?_ hr₃ y hy).spends hk hs
        have hn₃ : (runtime P).next σ₂ =
            some (.life (.invalidateAcknowledgements s), { σ₂ with stack := l }) := by
          rw [Machine.next, hst]
          rfl
        have hσ₃ : (runtime P).execute (.life (.invalidateAcknowledgements s))
            { σ₂ with stack := l } = σ₃ := by
          simpa [Machine.step, hn₃] using hs₃
        rw [← hσ₃]
        exact ⟨by simp [Machine.execute, runtime, exec, execLife, Life.setSocket,
          Lifecycle.invalidateAcknowledgements], by
            simp [Machine.execute, runtime, exec, execLife, Life.setSocket,
              Lifecycle.invalidateAcknowledgements]⟩

/-- **The acknowledgements of a run.** -/
structure AcksExact (tr : List (Core × Instr)) (σ : State) : Prop where
  /-- each was spent once or not at all, as its flag says -/
  once : ∀ k, tr.countP (fun x => x.1.spends k x.2) = ((σ.core.mail.acks k).acked).toNat
  /-- what reached the senders, then what is on its way, is part of what was answered, in that
      order -/
  reached : (reachedIn tr ++ σ.pending.flatMap Instr.reaches).Sublist (answeredIn tr)
  /-- after the end of its pairing one is spent by the client in the drain, or not at all -/
  dead : ∀ tr₁ x tr₂ s, tr = tr₁ ++ x :: tr₂ → x.1.ends s x.2 = true → ∀ y ∈ tr₂, ∀ k,
    (y.1.mail.acks k).socket = s → y.1.spends k y.2 = true →
      (y.1.mail.acks k).forClient = true ∧ (y.1.memb.sockets s).drainingAdapterDelivery = true

/-- **Acknowledgements are one-shot and die with their pairing**: in every run, however often and
    whenever their receivers invoke them. -/
theorem acks_exact (h : (runtime P).Run C newServer tr σ) : AcksExact tr σ where
  once := run_spent h
  reached := run_reached h
  dead := by
    rintro tr₁ x tr₂ s rfl he y hy k hk hs
    exact run_dead h he hy hk hs

end Run

/-- The server answers twice, and once more after the client has disconnected: one answer counts. -/
theorem acks_exact_two : ∃ tr σ, (runtime unary).Run (fun _ _ => True) newServer tr σ ∧
    tr.countP (fun x => x.1.spends 0 x.2) = 1 ∧ reachedIn tr = [.callback] ∧ AcksExact tr σ := by
  obtain ⟨tr, σ, hr, hp⟩ := run_of_script (runtime unary) (fun _ _ => True) newServer 90
    [.call (.srv (.serverConnect "/" false false)), .run, .run, .ret, .ret, .ret,
      .call (.mail (.clientEmit 0 "a" .callback)), .ret, .run,
      .call (.mail (.invokeAck 0 true)), .call (.mail (.invokeAck 0 true)), .ret, .ret,
      .run, .ret, .call (.ctl (.clientDisconnect 0)), .ret, .call (.mail (.invokeAck 0 true))]
    (fun r => decide (r.1.countP (fun x => x.1.spends 0 x.2) = 1 ∧ reachedIn r.1 = [.callback]))
    (by decide)
  obtain ⟨hcount, hreached⟩ := of_decide_eq_true hp
  exact ⟨tr, σ, hr, hcount, hreached, acks_exact hr⟩

end Smocket
