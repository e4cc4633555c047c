import Smocket.Timeouts

/-
  File:      Smocket/Flushes.lean
  Subject:   THE SEND BUFFER AND ITS FLUSH. What becomes of a packet that was emitted before its
             client was connected, over any number of connections: which are sent, in which order,
             and which still wait.

  A flush empties the buffer before it starts. From then on its packets are in the rest of a loop,
  which lies at the bottom of the stack; an outgoing observer that ends the connection sends it back
  to the buffer.

  * `waiting_step` -- what a step does to the packets that wait;
  * `flush_exact` -- a flush whose observers return loses, duplicates and reorders nothing;
  * `failing_flush` -- one that throws keeps the packets behind exactly if there are none;
  * `rejected_unsent` -- a request that has been rejected is not sent later, in a run where no
    `emitWithAck` without a timeout waits when a client rejects its acknowledgements.
-/

namespace Smocket

open Ordered EventLoop EventLoop.Machine

variable {P : Platform}

/-! ## 1. A flush on the stack -/

/-- The instructions of a flush, from the completion of the attempt on. -/
def Instr.flushes : Instr → Bool
  | .conn (.completeConnectionAttempt ..) | .mail (.flush ..) | .mail (.flushPackets ..)
  | .mail (.flushRest ..) => true
  | _ => false

/-- Those that execute as soon as they are pending. -/
def Instr.detaches : Instr → Bool
  | .mail (.flush ..) | .mail (.flushPackets ..) => true
  | _ => false

/-- The task that starts them. -/
def Instr.completes : Instr → Bool
  | .ctl (.completion _ none) => true
  | _ => false

theorem flushes_isLast {i : Instr} (h : i.flushes = true) : i.isLast = true := by
  unfold Instr.flushes at h
  split at h <;> [rfl; rfl; rfl; rfl; cases h]

theorem detaches_isPrompt {i : Instr} (h : i.detaches = true) :
    i.isPrompt = true ∧ i.flushes = true ∧ isApp i = false := by
  unfold Instr.detaches at h
  split at h <;> [exact ⟨rfl, rfl, rfl⟩; exact ⟨rfl, rfl, rfl⟩; cases h]

theorem completes_isTask {i : Instr} (h : i.completes = true) : i.isTask = true := by
  unfold Instr.completes at h
  split at h <;> [rfl; cases h]

theorem flushes_spawned {i j : Instr} {σ : Core} (h : j ∈ (exec P i σ).spawned)
    (hj : j.flushes = true) : i.flushes = true ∨ i.completes = true := by
  have hs := spawnedBy h
  unfold Instr.flushes at hj
  split at hj
  · exact Or.inr (by simp only [Instr.SpawnedBy, ConnInstr.SpawnedBy] at hs; subst hs; rfl)
  · simp only [Instr.SpawnedBy, MailInstr.SpawnedBy] at hs
    subst hs
    exact Or.inl rfl
  · simp only [Instr.SpawnedBy, MailInstr.SpawnedBy] at hs
    rcases hs with rfl | ⟨_, rfl⟩ | ⟨_, _, rfl⟩ <;> exact Or.inl rfl
  · simp only [Instr.SpawnedBy, MailInstr.SpawnedBy] at hs
    subst hs
    exact Or.inl rfl
  · cases hj

theorem shaped_of_flushes {i : Instr} (σ : Core) (hi : i.flushes = true ∨ i.completes = true) :
    Shaped (exec P i σ) :=
  shaped_of_fromTask σ (hi.imp flushes_isLast completes_isTask)

/-- Whatever the timers do, only the completion of connection middleware starts a flush. -/
theorem flushes_grounded (P : Platform) : Grounded (runtime P) (fun i => i.completes = true)
    (fun i => i.flushes = true) (fun i => i.detaches = true) fun _ => False where
  subset _ h := (detaches_isPrompt h).2
  push _ _ _ h hj := flushes_spawned (List.mem_append_left _ h) hj
  last σ i pre j k hp hj := by
    have hp' : (exec P i σ).push = pre ++ j :: k := hp
    have hi := flushes_spawned (List.mem_append_left _ (show j ∈ (exec P i σ).push by simp [hp'])) hj
    by_contra hk
    have hmem : j ∈ (exec P i σ).push.dropLast := by
      obtain ⟨k, x, rfl⟩ := (List.eq_nil_or_concat k).resolve_left hk
      rw [hp', show pre ++ j :: k.concat x = (pre ++ j :: k) ++ [x] by simp, List.dropLast_concat]
      simp
    have hlast := (shaped_of_flushes (P := P) σ hi).last j hmem
    rw [flushes_isLast hj] at hlast
    cases hlast
  sole σ i j hj hS := (shaped_of_flushes σ (flushes_spawned (List.mem_append_left _ hj)
    (detaches_isPrompt hS).2.1)).sole j hj (detaches_isPrompt hS).1
  task σ i j hj h := by
    have hno := isTask_push (P := P) hj
    rw [completes_isTask h] at hno
    cases hno
  post σ i j hj hB := by
    have hi := flushes_spawned (List.mem_append_right _ hj) hB
    have hpost := (shaped_of_flushes σ hi).post j hj
    rw [flushes_isLast hB] at hpost
    cases hpost
  call σ i hc := by
    refine ⟨fun hT => ?_, fun hB => ?_⟩
    · unfold Instr.completes at hT
      split at hT <;> [cases hc; cases hT]
    · unfold Instr.flushes at hB
      split at hB <;> [cases hc; cases hc; cases hc; cases hc; cases hB]
  handle σ i is his j hj := by
    rcases onThrow_handle his with rfl | ⟨a, err, rfl, -⟩
    · cases hj
    · obtain rfl := List.mem_singleton.mp hj
      exact ⟨nofun, nofun⟩

/-- The rest of a turn of the loop. -/
def Instr.isFlushRest : Instr → Bool
  | .mail (.flushRest ..) => true
  | _ => false

/-- The outgoing observers of a client; a payload that does not encode throws where they end. -/
def Instr.isObserver : Instr → Bool
  | .app (.clientOutgoing _) => true
  | _ => false

section Run

variable {C : State → Action Instr → Prop} {σ σ' : State}

/-- A state whose flush, if one is under way, is at the bottom of the stack. -/
abbrev Flushing (σ : State) : Prop :=
  Rooted (fun i => i.completes = true) (fun i => i.flushes = true) (fun i => i.detaches = true) σ

theorem reach_flushing (h : (runtime P).Reach C newServer σ) : Flushing σ :=
  h.rooted (flushes_grounded P) (fun _ _ _ _ _ hf => hf.elim) newServer_rooted

/-- The rest of a turn, alone on the stack or directly under its outgoing observers. -/
def Watched (σ : State) : Prop :=
  ∀ j ∈ σ.stack, j.isFlushRest = true → σ.stack = [j] ∨
    ∃ l c, σ.stack = l ++ [.app (.clientOutgoing c), j]

/-- Outgoing observers return to the flush that called them. -/
abbrev ObserversReturn : State → Action Instr → Prop :=
  Returns (fun j => j.isFlushRest = true) fun i => i.isObserver = true

theorem flushes_fails {i : Instr} {σ : Core} (h : i.flushes = true) :
    (exec P i σ).fails = false := by
  unfold Instr.flushes at h
  split at h
  · simp only [exec, execConn, completeConnectionAttempt]
    split
    · rfl
    · split <;> rfl
  · rfl
  · rename_i a s ps
    cases ps with
    | nil => rfl
    | cons p ps =>
        simp only [exec, execMail, flushPackets]
        split <;> rfl
  · simp only [exec, execMail, flushRest]
    split <;> rfl
  · cases h

/-- Executing an instruction of a flush, on a stack that holds nothing else. -/
theorem flushes_step (hR : Flushing σ) {i : Instr} {τ : State}
    (hn : (runtime P).next σ = some (i, τ)) (hi : i.flushes = true) :
    (runtime P).execute i τ = ⟨(exec P i τ.core).core, (exec P i τ.core).push,
      τ.queue ++ (exec P i τ.core).post⟩ := by
  have hf : ((runtime P).exec i τ.core).fails = false := flushes_fails hi
  have hst : τ.stack = [] := hR.next hn (Or.inl hi)
  unfold Machine.execute
  dsimp only
  rw [hf, if_neg Bool.false_ne_true, hst, List.append_nil]
  rfl

theorem isFlushRest_flushes {j : Instr} (h : j.isFlushRest = true) :
    j.flushes = true ∧ isApp j = false := by
  unfold Instr.isFlushRest at h
  split at h <;> [exact ⟨rfl, rfl⟩; cases h]

theorem isFlushRest_spawned {i j : Instr} {σ : Core} (h : j ∈ (exec P i σ).spawned)
    (hj : j.isFlushRest = true) :
    i.flushes = true ∧ ∃ c, (exec P i σ).push = [.app (.clientOutgoing c), j] := by
  unfold Instr.isFlushRest at hj
  split at hj
  · rename_i a s p ps
    obtain ⟨rfl, hset⟩ := flushRest_spawned h
    refine ⟨rfl, (σ.conn.attempts a).client, ?_⟩
    simp [exec, execMail, flushPackets, hset]
  · cases hj

theorem watched_step (hR : Flushing σ) (hR' : Flushing σ') (hW : Watched σ) {a : Action Instr}
    (hs : (runtime P).step σ a = some σ') : Watched σ' ∧ (ObserversReturn σ a → ∀ j ∈ σ.stack,
      j.isFlushRest = true → j ∈ σ'.stack ∨ ∃ τ, a = .run ∧ (runtime P).next σ = some (j, τ)) := by
  by_cases hex : ∃ j ∈ σ.stack, j.isFlushRest = true
  · obtain ⟨j, hj, hjr⟩ := hex
    have honly : ∀ j' ∈ σ.stack, j'.isFlushRest = true → ∀ l, σ.stack = l ++ [j] → j' = j := by
      intro j' hj' hjr' l hl
      obtain ⟨pre, k, hst⟩ := List.append_of_mem hj'
      have hk := hR.bottom pre j' k hst (isFlushRest_flushes hjr').1
      rw [hk, hl] at hst
      exact (List.singleton_injective (List.append_inj' hst rfl).2).symm
    rcases hW j hj hjr with hst | ⟨l, c, hst⟩
    · -- alone on the stack it executes
      obtain ⟨i, τ, rfl, hn, rfl⟩ | ⟨i, rfl, happ, -, -⟩ | ⟨i, k, rfl, hk, happ, -⟩ |
        ⟨i, k, rfl, hk, happ, -⟩ := step_cases hs
      · obtain rfl : i = j := by
          obtain ⟨-, ⟨-, hst', -⟩ | ⟨hst', -, -⟩⟩ := next_pending hn
          · rw [hst] at hst'
            exact (List.cons.inj hst').1.symm
          · rw [hst] at hst'
            cases hst'
        refine ⟨fun j' hj' hjr' => ?_, fun _ j' hj' hjr' =>
          Or.inr ⟨τ, rfl, honly j' hj' hjr' [] hst ▸ hn⟩⟩
        rw [flushes_step hR hn (isFlushRest_flushes hjr).1] at hj'
        obtain ⟨-, d, hp⟩ := isFlushRest_spawned (List.mem_append_left _ hj') hjr'
        refine Or.inr ⟨[], d, ?_⟩
        rw [flushes_step hR hn (isFlushRest_flushes hjr).1]
        exact hp
      · have hja := (isFlushRest_flushes hjr).2
        simp only [inApp, hst] at happ
        exact absurd (happ.symm.trans hja) (by simp)
      all_goals
        obtain ⟨rfl, -⟩ := List.cons.inj (hst.symm.trans hk)
        exact absurd (happ.symm.trans (isFlushRest_flushes hjr).2) (by simp)
    · rcases step_above hst rfl hs with ⟨l', hst'⟩ | ⟨rfl, ⟨rfl, hst'⟩ | rfl⟩
      · have hmem : j ∈ σ'.stack := by simp [hst']
        refine ⟨fun j' hj' hjr' => ?_, fun _ j' hj' hjr' => Or.inl ?_⟩
        · obtain ⟨pre, k, hpre⟩ := List.append_of_mem hj'
          have hk := hR'.bottom pre j' k hpre (isFlushRest_flushes hjr').1
          rw [hk, hst', show l' ++ [Instr.app (.clientOutgoing c), j] =
            (l' ++ [.app (.clientOutgoing c)]) ++ [j] by simp] at hpre
          obtain rfl := List.singleton_injective (List.append_inj' hpre rfl).2
          exact Or.inr ⟨l', c, hst'⟩
        · rw [honly j' hj' hjr' (l ++ [.app (.clientOutgoing c)]) (by simp [hst])]
          exact hmem
      · refine ⟨fun j' hj' _ => Or.inl ?_, fun _ j' hj' hjr' => Or.inl ?_⟩
        · rw [hst'] at hj' ⊢
          rw [List.mem_singleton.mp hj']
        · rw [honly j' hj' hjr' [.app (.clientOutgoing c)] hst, hst']
          exact List.mem_singleton_self _
      · refine ⟨fun j' hj' hjr' => ?_, fun ho => ?_⟩
        · exfalso
          simp only [Machine.step, hst, List.nil_append] at hs
          obtain ⟨a₀, s₀, p, ps, rfl⟩ : ∃ a s p ps, j = .mail (.flushRest a s p ps) := by
            unfold Instr.isFlushRest at hjr
            split at hjr <;> [exact ⟨_, _, _, _, rfl⟩; cases hjr]
          obtain rfl := Option.some.inj hs
          simp [Machine.unwind, runtime, isApp, onThrow] at hj'
        · exact absurd hjr (ho rfl (.app (.clientOutgoing c)) [j] hst rfl j rfl)
  · refine ⟨fun j' hj' hjr' => ?_, fun _ j hj hjr => absurd ⟨j, hj, hjr⟩ hex⟩
    have hjf := (isFlushRest_flushes hjr').1
    rcases pending_cases hs (List.mem_append_left _ hj') with hp | ⟨i, τ, rfl, hn, hp⟩ | ⟨-, hc⟩ |
      ⟨c, i, is, his, hp⟩
    · rcases List.mem_append.mp hp with hp | hp
      · exact absurd ⟨j', hp, hjr'⟩ hex
      · exact absurd hjf (hR.queue j' hp)
    · obtain ⟨hi, d, hpush⟩ := isFlushRest_spawned hp hjr'
      obtain ⟨i', τ', -, hn', rfl⟩ | ⟨_, h, -⟩ | ⟨_, _, h, -⟩ | ⟨_, _, h, -⟩ := step_cases hs
      · obtain ⟨rfl, rfl⟩ : i' = i ∧ τ' = τ := by
          rw [hn] at hn'
          simpa using hn'.symm
        refine Or.inr ⟨[], d, ?_⟩
        rw [flushes_step hR hn hi]
        exact hpush
      all_goals cases h
    · exact absurd hjf ((flushes_grounded P).call _ _ hc).2
    · exact absurd hjf ((flushes_grounded P).handle c i is his j' hp).1

theorem reach_watched (h : (runtime P).Reach C newServer σ) : Watched σ := by
  induction h with
  | start => exact fun _ hj => absurd hj List.not_mem_nil
  | step hr hc hs ih =>
      exact (watched_step (reach_flushing hr) (reach_flushing (hr.step hc hs)) ih hs).1

end Run

/-! ## 2. The packets that wait -/

/-- The packets of client `c` in the rest of a flush. -/
def Instr.unsent (κ : Conn) (c : ClientId) : Instr → List BufferedPacket
  | .mail (.flushPackets a _ ps) => if (κ.attempts a).client = c then ps else []
  | .mail (.flushRest a _ p ps) => if (κ.attempts a).client = c then p :: ps else []
  | _ => []

/-- **The packets of `c` that wait**: first those in the rest of a flush, then the buffer. -/
def waiting (σ : State) (c : ClientId) : List BufferedPacket :=
  σ.pending.flatMap (Instr.unsent σ.core.conn c) ++ (σ.core.mail.outboxes c).sendBuffer

/-- The request an emit of `c` makes. -/
def Core.request (σ : Core) (c : ClientId) (form : EmitForm) : Request where
  client := some c
  promise := decide (form = .promise)
  timed := (σ.mail.outboxes c).flags.timeout.isSome && decide (form ≠ .plain)
  tracked := decide (form ≠ .promise)
  sending := (σ.conn.clients c).connected

/-- The packet of an emit. -/
def Core.bufferedPacket (σ : Core) (c : ClientId) (event : String) (form : EmitForm) :
    BufferedPacket where
  serial := σ.mail.serial
  event := event
  reply := (σ.mail.newRequest form (σ.request c form)).2
  timedCallback := (σ.mail.newRequest form (σ.request c form)).1.timedOf
    (σ.mail.newRequest form (σ.request c form)).2

/-- What the instruction adds to the buffer of `c`. -/
def Core.buffered (σ : Core) (c : ClientId) : Instr → List BufferedPacket
  | .mail (.clientEmit d event form) =>
      if d = c ∧ event ∉ RESERVED_EVENTS ∧ (σ.conn.clients d).connected = false ∧
          (σ.mail.outboxes d).flags.isVolatile = false then [σ.bufferedPacket d event form]
      else []
  | _ => []

/-- What the instruction hands to `send` from a flush of `c`. -/
def Core.flushed (σ : Core) (c : ClientId) : Instr → List BufferedPacket
  | .mail (.flushRest a s p _) =>
      if (σ.conn.attempts a).client = c ∧ σ.conn.isConnectionAttemptConnected a s = true then [p]
      else []
  | _ => []

theorem newRequest_serial (μ : Mail) (form : EmitForm) (q : Request) :
    (μ.newRequest form q).1.serial = μ.serial := by
  unfold Mail.newRequest
  split
  · rfl
  · split <;> rfl
  · rfl

/-- An emit appends its packet to the buffer or leaves the buffers alone. -/
theorem clientEmit_sendBuffer (σ : Core) (d : ClientId) (event : String) (form : EmitForm)
    (c : ClientId) : ((clientEmit σ d event form).part.outboxes c).sendBuffer =
      (σ.mail.outboxes c).sendBuffer ++ σ.buffered c (.mail (.clientEmit d event form)) := by
  have hser := newRequest_serial σ.mail form (σ.request d form)
  have hout := newRequest_outboxes σ.mail form (σ.request d form)
  unfold clientEmit Core.buffered Core.bufferedPacket
  dsimp only
  split
  · rename_i hres
    simp [hres]
  · rename_i hres
    change _ = _ ++ if d = c ∧ _ then _ else _
    have hq : Request.mk (some d) (decide (form = .promise))
        ((σ.mail.outboxes d).flags.timeout.isSome && decide (form ≠ .plain))
        (decide (form ≠ .promise)) false (σ.conn.clients d).connected false = σ.request d form := rfl
    rw [hq]
    generalize σ.mail.newRequest form (σ.request d form) = nr at hser hout ⊢
    obtain ⟨μ, reply⟩ := nr
    dsimp only at hser hout ⊢
    have hμ : (μ.outboxes c).sendBuffer = (σ.mail.outboxes c).sendBuffer := by rw [hout]
    cases hc : (σ.conn.clients d).connected with
    | true =>
        simp only [Bool.not_true, Bool.false_eq_true, if_false, Bool.true_eq_false, false_and,
          and_false, List.append_nil]
        split
        · split
          · exact (setOutbox_sendBuffer (by intro b; rfl)).trans hμ
          · exact hμ
        · refine (setOutbox_sendBuffer (by intro b; rfl)).trans ?_
          split
          · exact (setOutbox_sendBuffer (by intro b; rfl)).trans hμ
          · exact hμ
    | false =>
        simp only [Bool.not_false, if_true]
        by_cases hcd : c = d
        · subst hcd
          cases hv : (σ.mail.outboxes c).flags.isVolatile <;> split <;>
            simp [Mail.setOutbox, hres, hμ, hser]
        · have hdc : ¬ d = c := fun h => hcd h.symm
          split <;> simp [Mail.setOutbox, hcd, hdc, hμ]

/-- An emit takes a number, and sends the packet it has made or buffers it. -/
theorem clientEmit_emitted (σ : Core) (d : ClientId) {event : String} (form : EmitForm)
    (he : event ∉ RESERVED_EVENTS) :
    (clientEmit σ d event form).part.serial = σ.mail.serial + 1 ∧
      (clientEmit σ d event form).part.requestCount =
        (σ.mail.newRequest form (σ.request d form)).1.requestCount ∧
      ∀ c p, .mail (.clientEmitRest c p) ∈ (clientEmit σ d event form).push →
        c = d ∧ p = σ.bufferedPacket d event form := by
  have hser := newRequest_serial σ.mail form (σ.request d form)
  unfold clientEmit Core.bufferedPacket
  dsimp only
  rw [if_neg he]
  have hq : Request.mk (some d) (decide (form = .promise))
      ((σ.mail.outboxes d).flags.timeout.isSome && decide (form ≠ .plain))
      (decide (form ≠ .promise)) false (σ.conn.clients d).connected false = σ.request d form := rfl
  rw [hq]
  generalize σ.mail.newRequest form (σ.request d form) = nr at hser ⊢
  obtain ⟨μ, reply⟩ := nr
  dsimp only at hser ⊢
  cases hc : (σ.conn.clients d).connected with
  | true =>
      simp only [Bool.not_true, Bool.false_eq_true, if_false]
      refine ⟨?_, ?_, fun c p hp => ?_⟩
      · split <;> split <;> simp [Mail.setOutbox, hser]
      · split <;> split <;> simp [Mail.setOutbox]
      · simpa [hser] using hp
  | false =>
      simp only [Bool.not_false, if_true]
      refine ⟨?_, ?_, (by intro _ _ h; cases h)⟩
      · split <;> simp [Mail.setOutbox, hser]
      · split <;> simp [Mail.setOutbox]

/-- What an instruction buffers is new. -/
theorem buffered_new {σ : Core} {c : ClientId} {i : Instr} {p : BufferedPacket}
    (h : p ∈ σ.buffered c i) : p.serial = σ.mail.serial ∧
      (exec P i σ).core.mail.serial = σ.mail.serial + 1 ∧
      ∀ r, p.reply = some (.request r) ∨ p.timedCallback = some r →
        σ.mail.Fresh (exec P i σ).core.mail r := by
  unfold Core.buffered at h
  split at h
  · rename_i d event form
    split at h
    · rename_i hc
      obtain rfl := List.mem_singleton.mp h
      obtain ⟨hser, hcount, -⟩ := clientEmit_emitted σ d form hc.2.1
      refine ⟨rfl, hser, fun r hr => ?_⟩
      have hf := (newRequest_turns (T := fun _ _ => False) (B := fun _ _ => False)
        σ.mail form (q := σ.request d form) rfl rfl rfl (fun _ => by simp [Core.request]) rfl).2 r
          (hr.elim id fun hr => (timedOf_eq_some hr).1)
      exact ⟨hf.2.1.1, hf.2.1.2.trans_eq hcount.symm⟩
    · cases h
  · cases h

theorem dropHandle_sendBuffer (μ : Mail) (r : RequestId) (h : AckHandle) (c : ClientId) :
    ((μ.dropHandle r h).outboxes c).sendBuffer = (μ.outboxes c).sendBuffer := by
  unfold Mail.dropHandle
  split
  · rfl
  · exact setOutbox_sendBuffer (by intro b; rfl)

theorem onSettled_sendBuffer (μ : Mail) (r : RequestId) (c : ClientId) :
    ((μ.onSettled r).outboxes c).sendBuffer =
      if (μ.requests r).client = some c then
        (μ.outboxes c).sendBuffer.filter fun p => decide (p.timedCallback ≠ some r)
      else (μ.outboxes c).sendBuffer := by
  unfold Mail.onSettled
  dsimp only
  generalize hμ' : (if (μ.requests r).tracked then μ.dropHandle r (.timed r) else μ) = μ'
  have hbuf : (μ'.outboxes c).sendBuffer = (μ.outboxes c).sendBuffer := by
    subst hμ'
    split
    · exact dropHandle_sendBuffer ..
    · rfl
  have hcl : (μ'.requests r).client = (μ.requests r).client := by
    subst hμ'
    split
    · rw [dropHandle_requests]
    · rfl
  rw [← hcl, ← hbuf]
  split
  · rename_i hc
    rw [hc, if_neg (by simp)]
  · rename_i d hc
    rw [hc]
    simp only [Mail.setOutbox, modify_apply, Option.some.injEq]
    by_cases hcd : c = d
    · subst hcd
      simp
    · rw [if_neg hcd, if_neg fun h => hcd h.symm]

/-- Settling a request takes its packet out of the buffer, and no other. -/
theorem settled_sendBuffer (μ : Mail) (r : RequestId) (c : ClientId) :
    ((((μ.settle r).callback r).part).outboxes c).sendBuffer =
      if (μ.requests r).client = some c then
        (μ.outboxes c).sendBuffer.filter fun p => decide (p.timedCallback ≠ some r)
      else (μ.outboxes c).sendBuffer := by
  have hcb : ∀ μ' : Mail, (((μ'.callback r).part).outboxes c).sendBuffer =
      (μ'.outboxes c).sendBuffer := fun μ' => by
    unfold Mail.callback
    split
    · exact dropHandle_sendBuffer ..
    · rfl
  rw [hcb, Mail.settle, onSettled_sendBuffer]
  simp [Mail.setRequest]

/-- Apart from emits and flushes, only a request that is settled changes a buffer. -/
theorem exec_sendBuffer {i : Instr} (σ : Core) (hf : i.flushes = false)
    (he : ∀ c event form, i ≠ .mail (.clientEmit c event form)) (c : ClientId) :
    ((exec P i σ).core.mail.outboxes c).sendBuffer = (σ.mail.outboxes c).sendBuffer ∨
      ∃ r, σ.settles r i = true ∧ ((exec P i σ).core.mail.outboxes c).sendBuffer =
        (σ.mail.outboxes c).sendBuffer.filter fun p => decide (p.timedCallback ≠ some r) := by
  by_cases hs : ∃ r, σ.settles r i = true
  · obtain ⟨r, hs⟩ := hs
    rw [(exec_settles hs).1, settled_sendBuffer]
    split
    · exact Or.inr ⟨r, hs, rfl⟩
    · exact Or.inl rfl
  · refine Or.inl ?_
    have hno : ∀ r, σ.settles r i = false := fun r => by simpa using fun h => hs ⟨r, h⟩
    have hsame : ∀ {μ μ' : Mail}, μ.SameRequests μ' →
        (μ'.outboxes c).sendBuffer = (μ.outboxes c).sendBuffer := fun h => by rw [h.outboxes]
    cases i with
    | mail i =>
        cases i with
        | clientFlags d flags => exact setOutbox_sendBuffer (by intro b; rfl)
        | clientEmit d event form => exact absurd rfl (he d event form)
        | clientEmitRest d p =>
            simp only [exec, execMail, clientEmitRest]
            split
            · rfl
            · rename_i s _
              have h : (((sendToServer σ.mail s d p.serial p.event p.reply).1.setOutbox d
                  fun b => { b with flags := {} }).outboxes c).sendBuffer =
                    (σ.mail.outboxes c).sendBuffer :=
                (setOutbox_sendBuffer (by intro b; rfl)).trans (hsame (sendToServer_requests ..))
              split <;> exact h
        | flush a s => cases hf
        | flushPackets a s ps => cases hf
        | flushRest a s p ps => cases hf
        | rejectPendingAcks d => exact setOutbox_sendBuffer (by intro b; rfl)
        | rejectAck d h =>
            cases h with
            | timed r => exact absurd (hno r) (by simp [Core.settles])
            | promise r =>
                have hr := hno r
                simp only [Core.settles, decide_true, Bool.true_and, Bool.and_eq_false_iff,
                  Bool.not_eq_false'] at hr
                simp only [exec, execMail, rejectAck]
                rcases hr with hr | hr
                · rw [if_pos hr]
                  rfl
                · rw [hr]
                  split <;> rfl
        | serverEmit s event form =>
            simp only [exec, execMail, serverEmit]
            split
            · rfl
            · generalize Request.mk _ _ _ _ _ _ _ = q
              have hout := newRequest_outboxes σ.mail form q
              split <;> simp [hout]
        | serverEmitRest s serial event reply was =>
            simp only [exec, execMail, serverEmitRest]
            split
            · rfl
            · exact hsame (sendToClient_requests ..)
        | sendBroadcastRest s serial event was =>
            exact hsame (sendToClient_requests σ s serial event none _)
        | pumpRun q => exact hsame (pumpRun_requests σ q)
        | pumpRest q =>
            simp only [exec, execMail, pumpRest]
            split
            · exact hsame (pump_requests ..)
            · rfl
        | removeDeliveries s => exact hsame (removeDeliveries_requests σ s)
        | invokeAck k encodable => exact hsame (invokeAck_requests σ k encodable)
        | ackReply reply =>
            cases reply with
            | callback => rfl
            | request r =>
                have hr := hno r
                simp only [Core.settles, decide_true, Bool.true_and, Bool.and_eq_false_iff,
                  Bool.not_eq_false'] at hr
                simp only [exec, execMail, ackReply]
                rcases hr with hr | hr
                · rw [if_neg (by simp [hr])]
                  exact dropHandle_sendBuffer ..
                · split
                  · rfl
                  · exact dropHandle_sendBuffer ..
        | ackTimeout r => exact absurd (hno r) (by simp [Core.settles])
        | serverFlags s flags => rfl
        | sendBroadcast s event => rfl
        | cancelTimer r => rfl
        | setDelay n sid ms => rfl
        | setNow t => rfl
    | _ => rfl

theorem unsent_spawned {i j : Instr} {σ : Core} (h : j ∈ (exec P i σ).spawned)
    (hi : i.flushes = false) (κ : Conn) (c : ClientId) : j.unsent κ c = [] := by
  have hs := spawnedBy h
  unfold Instr.unsent
  split
  · simp only [Instr.SpawnedBy, MailInstr.SpawnedBy] at hs
    rcases hs with rfl | ⟨_, rfl⟩ | ⟨_, _, rfl⟩ <;> cases hi
  · simp only [Instr.SpawnedBy, MailInstr.SpawnedBy] at hs
    subst hs
    cases hi
  · rfl

theorem unsent_flushes {i : Instr} (hi : i.flushes = false) (κ : Conn) (c : ClientId) :
    i.unsent κ c = [] := by
  unfold Instr.unsent
  split <;> [cases hi; cases hi; rfl]

/-! ## 3. What one instruction does to them -/

/-- **The packets of `c` pass through an instruction in their order**: what it hands over, leaves
    in the loop and leaves in the buffer was in its loop or in the buffer, or is new. Only settled
    packets drop out. -/
structure Core.Passes (σ : Core) (i : Instr) (c : ClientId) (e : Effect Core Instr) : Prop where
  line : (σ.flushed c i ++ (e.push.flatMap (Instr.unsent e.core.conn c) ++
    (e.core.mail.outboxes c).sendBuffer)).Sublist
      ((i.unsent σ.conn c ++ (σ.mail.outboxes c).sendBuffer) ++ σ.buffered c i)
  kept : ∀ p ∈ i.unsent σ.conn c ++ (σ.mail.outboxes c).sendBuffer ++ σ.buffered c i,
    p ∈ σ.flushed c i ++ (e.push.flatMap (Instr.unsent e.core.conn c) ++
      (e.core.mail.outboxes c).sendBuffer) ∨ e.core.mail.isSettled p = true

theorem Core.Passes.of_eq {σ : Core} {i : Instr} {c : ClientId} {e : Effect Core Instr}
    (h : σ.flushed c i ++ (e.push.flatMap (Instr.unsent e.core.conn c) ++
      (e.core.mail.outboxes c).sendBuffer) =
        (i.unsent σ.conn c ++ (σ.mail.outboxes c).sendBuffer) ++ σ.buffered c i) : σ.Passes i c e :=
  ⟨h ▸ List.Sublist.refl _, fun _ hp => Or.inl (h ▸ hp)⟩

theorem flushPackets_passes (σ : Core) (a : AttemptId) (s : SocketId) (ps : List BufferedPacket)
    (c : ClientId) : σ.Passes (.mail (.flushPackets a s ps)) c
      (exec P (.mail (.flushPackets a s ps)) σ) := by
  cases ps with
  | nil =>
      exact .of_eq (by simp [exec, execMail, flushPackets, Instr.unsent, Core.flushed, Core.buffered])
  | cons p ps =>
      cases hset : σ.mail.isSettled p with
      | true =>
          have he : exec P (.mail (.flushPackets a s (p :: ps))) σ =
              { core := σ, push := [.mail (.flushPackets a s ps)] } := by
            simp [exec, execMail, flushPackets, hset]
          rw [he]
          by_cases hc : (σ.conn.attempts a).client = c
          · refine ⟨?_, fun q hq => ?_⟩
            · simp [Core.flushed, Core.buffered, Instr.unsent, hc]
            · simp only [Core.buffered, Instr.unsent, hc, if_true, List.append_nil,
                List.cons_append, List.mem_cons] at hq
              rcases hq with rfl | hq
              · exact Or.inr hset
              · exact Or.inl (by simpa [Core.flushed, Instr.unsent, hc] using hq)
          · exact .of_eq (by simp [Core.flushed, Core.buffered, Instr.unsent, hc])
      | false =>
          have hbuf : ∀ d, ((exec P (.mail (.flushPackets a s (p :: ps))) σ).core.mail.outboxes
              d).sendBuffer = (σ.mail.outboxes d).sendBuffer := fun d => by
            simp only [exec, execMail, flushPackets, hset, Bool.false_eq_true, if_false]
            split
            · rfl
            · exact setOutbox_sendBuffer (by intro b; rfl)
          have hpush : (exec P (.mail (.flushPackets a s (p :: ps))) σ).push =
              [.app (.clientOutgoing (σ.conn.attempts a).client), .mail (.flushRest a s p ps)] := by
            simp [exec, execMail, flushPackets, hset]
          refine .of_eq ?_
          rw [hbuf, hpush]
          simp [Core.flushed, Core.buffered, Instr.unsent, exec]

theorem flushRest_passes (σ : Core) (a : AttemptId) (s : SocketId) (p : BufferedPacket)
    (ps : List BufferedPacket) (c : ClientId) : σ.Passes (.mail (.flushRest a s p ps)) c
      (exec P (.mail (.flushRest a s p ps)) σ) := by
  by_cases hcl : (σ.conn.attempts a).client = c
  · cases hconn : σ.conn.isConnectionAttemptConnected a s with
    | true =>
        refine .of_eq ?_
        simp [exec, execMail, flushRest, hconn, Core.flushed, Core.buffered, Instr.unsent, hcl,
          (sendToServer_requests ..).outboxes]
    | false =>
        have hbuf : ((exec P (.mail (.flushRest a s p ps)) σ).core.mail.outboxes c).sendBuffer =
            (p :: ps).filter (fun p => !σ.mail.isSettled p) ++ (σ.mail.outboxes c).sendBuffer := by
          simp [exec, execMail, flushRest, hconn, Mail.setOutbox, hcl]
        have hpush : (exec P (.mail (.flushRest a s p ps)) σ).push = [] := by
          simp [exec, execMail, flushRest, hconn]
        have hreq : (exec P (.mail (.flushRest a s p ps)) σ).core.mail.requests =
            σ.mail.requests := by
          simp [exec, execMail, flushRest, hconn, Mail.setOutbox]
        refine ⟨?_, fun q hq => ?_⟩
        · rw [hbuf, hpush]
          simp only [Core.flushed, hconn, Bool.false_eq_true, and_false, if_false, List.nil_append,
            List.flatMap_nil, Core.buffered, List.append_nil, Instr.unsent, hcl, if_true]
          exact List.filter_sublist.append (List.Sublist.refl _)
        · rw [hbuf, hpush]
          simp only [Core.buffered, List.append_nil, Instr.unsent, hcl, if_true,
            List.mem_append] at hq
          cases hset : σ.mail.isSettled q with
          | true =>
              refine Or.inr ?_
              simpa only [Mail.isSettled, hreq] using hset
          | false =>
              refine Or.inl ?_
              simp only [List.mem_append, List.mem_filter, hset]
              tauto
  · refine .of_eq ?_
    have hcl' : ¬ c = (σ.conn.attempts a).client := fun h => hcl h.symm
    simp only [exec, execMail, flushRest]
    split
    · simp [Core.flushed, Core.buffered, Instr.unsent, hcl, (sendToServer_requests ..).outboxes]
    · simp [Core.flushed, Core.buffered, Instr.unsent, hcl, Mail.setOutbox, hcl']

theorem exec_passes (i : Instr) (σ : Core) (c : ClientId) : σ.Passes i c (exec P i σ) := by
  cases hf : i.flushes with
  | true =>
      unfold Instr.flushes at hf
      split at hf
      · rename_i a s
        refine .of_eq ?_
        have hpush : (exec P (.conn (.completeConnectionAttempt a s)) σ).push.flatMap
            (Instr.unsent (exec P (.conn (.completeConnectionAttempt a s)) σ).core.conn c) = [] := by
          simp only [exec, execConn, completeConnectionAttempt]
          split
          · rfl
          · split <;> rfl
        rw [hpush]
        simp [exec, Core.flushed, Core.buffered, Instr.unsent]
      · rename_i a s
        refine .of_eq ?_
        by_cases hc : (σ.conn.attempts a).client = c
        · subst hc
          simp [exec, execMail, flush, Core.flushed, Core.buffered, Instr.unsent, Mail.setOutbox]
        · have hc' : ¬ c = (σ.conn.attempts a).client := fun h => hc h.symm
          simp [exec, execMail, flush, Core.flushed, Core.buffered, Instr.unsent, Mail.setOutbox,
            hc, hc']
      · exact flushPackets_passes ..
      · exact flushRest_passes ..
      · cases hf
  | false =>
      have hpush : ∀ κ, (exec P i σ).push.flatMap (Instr.unsent κ c) = [] := fun κ =>
        List.flatMap_eq_nil_iff.mpr fun j hj => unsent_spawned (List.mem_append_left _ hj) hf κ c
      have hfl : σ.flushed c i = [] := by
        unfold Core.flushed
        split <;> [cases hf; rfl]
      have hun := unsent_flushes hf σ.conn c
      by_cases he : ∃ d event form, i = .mail (.clientEmit d event form)
      · obtain ⟨d, event, form, rfl⟩ := he
        refine .of_eq ?_
        rw [hpush, hfl, hun]
        exact clientEmit_sendBuffer σ d event form c
      · have hb : σ.buffered c i = [] := by
          unfold Core.buffered
          split <;> [exact absurd ⟨_, _, _, rfl⟩ he; rfl]
        rcases exec_sendBuffer (P := P) σ hf (fun d event form h => he ⟨d, event, form, h⟩) c with
          h | ⟨r, hs, h⟩
        · exact .of_eq (by rw [hpush, hfl, hun, hb, h]; simp)
        · refine ⟨?_, fun p hp => ?_⟩
          · rw [hpush, hfl, hun, hb, h]
            simp
          · rw [hun, hb, List.nil_append, List.append_nil] at hp
            rw [hpush, hfl, h]
            by_cases hr : p.timedCallback = some r
            · refine Or.inr ?_
              simp only [Mail.isSettled, hr, Option.any_some, (exec_settles hs).1]
              exact settle_settled.mpr (Or.inr rfl)
            · exact Or.inl (by simpa [hr] using hp)

/-! ## 4. What a run does to them -/

/-- The packets a run has put into the buffer of `c`, in emit order. -/
def bufferedIn (c : ClientId) (tr : List (Core × Instr)) : List BufferedPacket :=
  tr.flatMap fun x => x.1.buffered c x.2

/-- The packets its flushes have handed to `send`. -/
def flushedIn (c : ClientId) (tr : List (Core × Instr)) : List BufferedPacket :=
  tr.flatMap fun x => x.1.flushed c x.2

section Run

variable {C : State → Action Instr → Prop} {σ σ' : State} {tr : List (Core × Instr)} {c : ClientId}

/-- The client of a flush does not change. -/
theorem unsent_stable (hw : σ.core.Wf P) {i j : Instr} (hi : i.Valid σ.core) (hj : j.Valid σ.core) :
    j.unsent (exec P i σ.core).core.conn c = j.unsent σ.core.conn c := by
  have hclient : ∀ {a s}, .builtFor a s ∈ j.refs → ((exec P i σ.core).core.conn.attempts a).client =
      (σ.core.conn.attempts a).client := fun {a s} ha => by
    obtain ⟨hs, rfl⟩ : s < σ.core.conn.socketCount ∧ (σ.core.conn.sockets s).attempt = a := hj _ ha
    exact (conn_extends hw hi).clientOf _ (hw.conn.attempt_lt hs)
  unfold Instr.unsent
  split
  · rw [hclient (List.mem_singleton_self _)]
  · rw [hclient (List.mem_singleton_self _)]
  · rfl

theorem callable_unsent {i : Instr} (h : callable σ.core i = true) (κ : Conn) :
    i.unsent κ c = [] := by
  refine unsent_flushes ?_ κ c
  rw [← Bool.not_eq_true]
  exact fun hf => ((flushes_grounded unary).call σ.core i h).2 hf

theorem handle_unsent {σ₀ : Core} {i : Instr} {is : List Instr} (h : onThrow σ₀ i = .handle is)
    (κ : Conn) : ∀ j ∈ is, j.unsent κ c = [] := fun j hj => by
  refine unsent_flushes ?_ κ c
  rw [← Bool.not_eq_true]
  exact ((flushes_grounded unary).handle σ₀ i is h j hj).1

/-- The packets in a flush stay there while something else executes. -/
theorem unsent_stays (hR : Flushing σ) (hR' : Flushing σ') (hW : Watched σ) {a : Action Instr}
    (hs : (runtime P).step σ a = some σ') (ha : ObserversReturn σ a)
    (hno : ∀ i τ, a = .run → (runtime P).next σ = some (i, τ) → i.flushes = false) {j : Instr}
    (hj : j ∈ σ.pending) (hjf : j.flushes = true) (hun : ∃ κ c, j.unsent κ c ≠ []) :
    j ∈ σ'.pending := by
  have hjs : j ∈ σ.stack :=
    (List.mem_append.mp hj).elim id fun hq => absurd hjf (hR.queue j hq)
  have hrest : j.isFlushRest = true → j ∈ σ'.pending := fun hjr => by
    rcases (watched_step hR hR' hW hs).2 ha j hjs hjr with h | ⟨τ, rfl, hn⟩
    · exact List.mem_append_left _ h
    · rw [hno j τ rfl hn] at hjf
      cases hjf
  obtain ⟨κ, c, hun⟩ := hun
  unfold Instr.unsent at hun
  split at hun
  · -- it is alone on the stack, and not an application frame
    have hst := hR.sole _ hjs rfl
    rcases step_cases hs with ⟨i, τ, rfl, hn, -⟩ | ⟨i, -, happ, -⟩ | ⟨i, k, -, hk, happ, -⟩ |
      ⟨i, k, -, hk, happ, -⟩
    · have hi := hno i τ rfl hn
      obtain ⟨-, ⟨-, hst', -⟩ | ⟨hst', -, -⟩⟩ := next_pending hn
      · rw [hst] at hst'
        rw [← (List.cons.inj hst').1] at hi
        cases hi
      · rw [hst] at hst'
        cases hst'
    · simp [inApp, hst, runtime, isApp] at happ
    all_goals
      rw [hst] at hk
      rw [← (List.cons.inj hk).1] at happ
      cases happ
  · exact hrest rfl
  · exact absurd rfl hun

/-- **What a step does to the packets that wait**: they keep their order behind what it hands over
    and before what it adds, and none is lost whose callback is not settled. -/
theorem waiting_step (h : (runtime P).Reach C newServer σ) {a : Action Instr} (hc : C σ a)
    (hs : (runtime P).step σ a = some σ') (c : ClientId) :
    (flushedIn c ((runtime P).taken σ a) ++ waiting σ' c).Sublist
        (waiting σ c ++ bufferedIn c ((runtime P).taken σ a)) ∧
      (ObserversReturn σ a → ∀ p ∈ waiting σ c ++ bufferedIn c ((runtime P).taken σ a),
        p ∈ flushedIn c ((runtime P).taken σ a) ++ waiting σ' c ∨
          σ'.core.mail.isSettled p = true) := by
  have hR := reach_flushing h
  have hR' := reach_flushing (h.step hc hs)
  have hK := reach_wf h
  have hstays := unsent_stays (P := P) hR hR' (reach_watched h) hs
  have hmem : ∀ {p κ}, p ∈ σ.pending.flatMap (Instr.unsent κ c) → ∃ j ∈ σ.pending,
      p ∈ j.unsent κ c ∧ j.flushes = true := fun {p κ} hp => by
    obtain ⟨j, hj, hpj⟩ := List.mem_flatMap.mp hp
    refine ⟨j, hj, hpj, ?_⟩
    by_contra hf
    rw [unsent_flushes (Bool.eq_false_iff.mpr hf)] at hpj
    cases hpj
  rcases (similar_keeping P).step hs with ⟨i, τ, rfl, hn, ht, hsim⟩ | ⟨ht, hsim⟩
  · have hsim : (exec P i σ.core).core.Similar σ'.core := hsim
    have hcore : τ.core = σ.core := (next_pending hn).1.symm
    have hiσ : i ∈ σ.pending := by
      obtain ⟨-, ⟨-, hst, -⟩ | ⟨-, -, hq⟩⟩ := next_pending hn
      · simp [Config.pending, hst]
      · simp [Config.pending, hq]
    have hp := exec_passes (P := P) i σ.core c
    have hstable : σ.pending.flatMap (Instr.unsent σ'.core.conn c) =
        σ.pending.flatMap (Instr.unsent σ.core.conn c) := by
      rw [hsim.conn]
      exact List.flatMap_congr fun j hj => unsent_stable hK.1 (hK.2 i hiσ) (hK.2 j hj)
    have hset : ∀ p, (exec P i σ.core).core.mail.isSettled p = true →
        σ'.core.mail.isSettled p = true := fun p h => by
      simpa only [Mail.isSettled, hsim.mail.requests] using h
    simp only [ht, flushedIn, bufferedIn, List.flatMap_cons, List.flatMap_nil, List.append_nil]
    cases hi : i.flushes with
    | true =>
        have hst : τ.stack = [] := hR.next hn (Or.inl hi)
        have hσ' : σ'.pending = (exec P i σ.core).push ++
            (τ.queue ++ (exec P i σ.core).post) := by
          have hσ : (runtime P).execute i τ = σ' := by
            simpa [Machine.step, hn] using hs
          rw [← hσ, flushes_step hR hn hi, hcore]
          rfl
        have hq : ∀ κ, (τ.queue ++ (exec P i σ.core).post).flatMap (Instr.unsent κ c) = [] := by
          intro κ
          refine List.flatMap_eq_nil_iff.mpr fun j hj => unsent_flushes ?_ κ c
          rw [← Bool.not_eq_true]
          rcases List.mem_append.mp hj with hj | hj
          · refine hR.queue j ?_
            obtain ⟨-, ⟨-, -, hq⟩ | ⟨-, -, hq⟩⟩ := next_pending hn
            · rwa [hq]
            · rw [hq]
              exact List.mem_cons_of_mem _ hj
          · exact (flushes_grounded P).post σ.core i j hj
        have hw' : waiting σ' c = (exec P i σ.core).push.flatMap
            (Instr.unsent (exec P i σ.core).core.conn c) ++
              ((exec P i σ.core).core.mail.outboxes c).sendBuffer := by
          rw [waiting, hσ', List.flatMap_append, hq, List.append_nil, hsim.conn, hsim.mail.outboxes]
        have hw : waiting σ c = i.unsent σ.core.conn c ++ (σ.core.mail.outboxes c).sendBuffer := by
          have hτq : τ.queue.flatMap (Instr.unsent σ.core.conn c) = [] := by
            have := hq σ.core.conn
            rw [List.flatMap_append] at this
            exact (List.append_eq_nil_iff.mp this).1
          rw [waiting]
          obtain ⟨-, ⟨-, hst', hq'⟩ | ⟨hst', -, hq'⟩⟩ := next_pending hn
          · rw [Config.pending, hst', hst, hq', List.flatMap_append, hτq]
            simp
          · rw [Config.pending, hst', hq', List.nil_append, List.flatMap_cons, hτq, List.append_nil]
        rw [hw, hw']
        exact ⟨hp.line, fun _ q hq => (hp.kept q hq).imp_right (hset q)⟩
    | false =>
        have hfl : σ.core.flushed c i = [] := by
          unfold Core.flushed
          split <;> [cases hi; rfl]
        have hpush : ∀ κ, (exec P i σ.core).push.flatMap (Instr.unsent κ c) = [] := fun κ =>
          List.flatMap_eq_nil_iff.mpr fun j hj => unsent_spawned (List.mem_append_left _ hj) hi κ c
        have hline := hp.line
        have hkept := hp.kept
        rw [hfl, hpush, unsent_flushes hi, List.nil_append, List.nil_append, List.nil_append] at hline
        rw [hfl, hpush, unsent_flushes hi, List.nil_append, List.nil_append, List.nil_append] at hkept
        have hsub : (σ'.pending.flatMap (Instr.unsent σ'.core.conn c)).Sublist
            (σ.pending.flatMap (Instr.unsent σ.core.conn c)) := by
          rw [← hstable]
          refine pending_flatMap hs (fun i' τ' _ hn' j hj => ?_)
            (fun i hc => callable_unsent hc _)
            fun c₀ i₀ is his => handle_unsent his _
          obtain ⟨rfl, rfl⟩ : i = i' ∧ τ = τ' := by
            rw [hn] at hn'
            simpa using hn'
          exact unsent_spawned hj hi _ c
        rw [hfl, List.nil_append]
        refine ⟨?_, fun ha p hp => ?_⟩
        · rw [waiting, waiting, hsim.mail.outboxes, List.append_assoc]
          exact hsub.append hline
        · simp only [waiting, hsim.mail.outboxes, List.mem_append] at hp ⊢
          rw [or_assoc] at hp
          rcases hp with hp | hp
          · obtain ⟨j, hj, hpj, hjf⟩ := hmem hp
            refine Or.inl (Or.inl (List.mem_flatMap.mpr ⟨j, ?_, ?_⟩))
            · refine hstays ha (fun i' τ' _ hn' => ?_) hj hjf
                ⟨σ.core.conn, c, List.ne_nil_of_mem hpj⟩
              rw [hn] at hn'
              simp only [Option.some.injEq, Prod.mk.injEq] at hn'
              exact hn'.1 ▸ hi
            · rw [hsim.conn, unsent_stable hK.1 (hK.2 i hiσ) (hK.2 j hj)]
              exact hpj
          · rcases hkept p (List.mem_append.mpr hp) with h | h
            · exact Or.inl (Or.inr h)
            · exact Or.inr (hset p h)
  · have hidle : ∀ i τ, a = .run → (runtime P).next σ ≠ some (i, τ) := fun i τ ha hn => by
      subst ha
      simp [taken, hn] at ht
    simp only [ht, flushedIn, bufferedIn, List.flatMap_nil, List.append_nil, List.nil_append]
    refine ⟨?_, fun ha p hp => Or.inl ?_⟩
    · rw [waiting, waiting, hsim.mail.outboxes, hsim.conn]
      refine (pending_flatMap hs (fun i τ ha hn => absurd hn (hidle i τ ha))
        (fun i hc => callable_unsent hc _)
        fun c₀ i₀ is his => handle_unsent his _).append (List.Sublist.refl _)
    · simp only [waiting, hsim.mail.outboxes, hsim.conn, List.mem_append] at hp ⊢
      refine hp.imp_left fun hp => ?_
      obtain ⟨j, hj, hpj, hjf⟩ := hmem hp
      exact List.mem_flatMap.mpr ⟨j, hstays ha (fun i τ ha hn => absurd hn (hidle i τ ha)) hj hjf
        ⟨σ.core.conn, c, List.ne_nil_of_mem hpj⟩, hpj⟩

end Run

/-- What the instruction hands to `send` for `c`. -/
def Core.sent (σ : Core) (c : ClientId) : Instr → List BufferedPacket
  | .mail (.clientEmitRest d p) =>
      if d = c ∧ (σ.conn.clients d).serverSocket.isSome = true then [p] else []
  | i => σ.flushed c i

/-- What a run has handed to `send` for `c`. -/
def sentIn (c : ClientId) (tr : List (Core × Instr)) : List BufferedPacket :=
  tr.flatMap fun x => x.1.sent c x.2

/-- **The packets of `c` after a run**: what was sent by flushes and what waits, in emit order; no
    packet that was sent at once ever was in the buffer. -/
structure Tally (c : ClientId) (tr : List (Core × Instr)) (σ : State) : Prop where
  line : (flushedIn c tr ++ waiting σ c).Sublist (bufferedIn c tr)
  ascending : (bufferedIn c tr).Pairwise fun p q => p.serial < q.serial
  old : ∀ p ∈ bufferedIn c tr, p.serial < σ.core.mail.serial ∧
    ∀ r, p.reply = some (.request r) ∨ p.timedCallback = some r → r < σ.core.mail.requestCount
  emits : ∀ q, .mail (.clientEmitRest c q) ∈ σ.pending → q.serial < σ.core.mail.serial ∧
    ∀ p ∈ bufferedIn c tr, p.serial ≠ q.serial
  emitted : ∀ x ∈ tr, ∀ q, x.2 = .mail (.clientEmitRest c q) → q.serial < σ.core.mail.serial ∧
    ∀ p ∈ bufferedIn c tr, p.serial ≠ q.serial

section Tallies

variable {C : State → Action Instr → Prop} {σ σ' : State} {tr : List (Core × Instr)} {c : ClientId}

theorem Tally.step (h : (runtime P).Reach C newServer σ) (ht : Tally c tr σ) {a : Action Instr}
    (hc : C σ a) (hs : (runtime P).step σ a = some σ') :
    Tally c (tr ++ (runtime P).taken σ a) σ' := by
  have hw := (waiting_step h hc hs c).1
  have hflush : flushedIn c (tr ++ (runtime P).taken σ a) =
      flushedIn c tr ++ flushedIn c ((runtime P).taken σ a) := List.flatMap_append
  have hbuf : bufferedIn c (tr ++ (runtime P).taken σ a) =
      bufferedIn c tr ++ bufferedIn c ((runtime P).taken σ a) := List.flatMap_append
  -- the step's own packet is newer than all there are
  have hgrow : σ.core.mail.serial ≤ σ'.core.mail.serial ∧
      σ.core.mail.requestCount ≤ σ'.core.mail.requestCount := by
    rcases (similar_keeping P).step hs with ⟨i, τ, rfl, -, -, hsim⟩ | ⟨-, hsim⟩
    · rw [hsim.mail.serial, hsim.mail.requestCount]
      exact ⟨(exec_turns i σ.core).serial, (exec_turns i σ.core).count⟩
    · rw [hsim.mail.serial, hsim.mail.requestCount]
      exact ⟨le_rfl, le_rfl⟩
  have hnew : ∀ p ∈ bufferedIn c ((runtime P).taken σ a), p.serial = σ.core.mail.serial ∧
      σ'.core.mail.serial = σ.core.mail.serial + 1 ∧
      ∀ r, p.reply = some (.request r) ∨ p.timedCallback = some r →
        r < σ'.core.mail.requestCount := fun p hp => by
    rcases (similar_keeping P).step hs with ⟨i, τ, rfl, -, htk, hsim⟩ | ⟨htk, -⟩
    · rw [htk] at hp
      have hb := buffered_new (P := P) (show p ∈ σ.core.buffered c i by simpa [bufferedIn] using hp)
      rw [hsim.mail.serial, hsim.mail.requestCount]
      exact ⟨hb.1, hb.2.1, fun r hr => (hb.2.2 r hr).2⟩
    · rw [htk] at hp
      cases hp
  have hfresh : ∀ q : BufferedPacket, q.serial < σ.core.mail.serial →
      (∀ p ∈ bufferedIn c tr, p.serial ≠ q.serial) → q.serial < σ'.core.mail.serial ∧
        ∀ p ∈ bufferedIn c (tr ++ (runtime P).taken σ a), p.serial ≠ q.serial := fun q hlt hq => by
    refine ⟨hlt.trans_le hgrow.1, fun p hp => ?_⟩
    rw [hbuf] at hp
    rcases List.mem_append.mp hp with hp | hp
    · exact hq p hp
    · rw [(hnew p hp).1]
      exact hlt.ne'
  constructor
  · rw [hflush, hbuf, List.append_assoc]
    refine ((List.Sublist.refl _).append hw).trans ?_
    rw [← List.append_assoc]
    exact ht.line.append (List.Sublist.refl _)
  · rw [hbuf, List.pairwise_append]
    refine ⟨ht.ascending, ?_, fun p hp q hq => ?_⟩
    · rcases taken_cases (M := runtime P) σ a with htk | ⟨i, τ, -, -, htk⟩
      · rw [htk]
        exact .nil
      · rw [htk]
        simp only [bufferedIn, List.flatMap_cons, List.flatMap_nil, List.append_nil]
        unfold Core.buffered
        split
        · split
          · exact List.pairwise_singleton _ _
          · exact .nil
        · exact .nil
    · rw [(hnew q hq).1]
      exact (ht.old p hp).1
  · intro p hp
    rw [hbuf] at hp
    rcases List.mem_append.mp hp with hp | hp
    · exact ⟨(ht.old p hp).1.trans_le hgrow.1, fun r hr => ((ht.old p hp).2 r hr).trans_le hgrow.2⟩
    · obtain ⟨h₁, h₂, h₃⟩ := hnew p hp
      exact ⟨by rw [h₁, h₂]; exact Nat.lt_succ_self _, h₃⟩
  · intro q hq
    rcases pending_cases hs hq with hq | ⟨i, τ, rfl, hn, hq⟩ | ⟨-, hcall⟩ | ⟨c₀, i, is, his, hq⟩
    · exact hfresh q (ht.emits q hq).1 (ht.emits q hq).2
    · have hcore := (next_pending hn).1
      rw [← hcore] at hq
      obtain ⟨event, form, rfl, hconn, hpush, -⟩ := clientEmitRest_spawned hq
      have hres : event ∉ RESERVED_EVENTS := fun hr => by
        simp [clientEmit, hr] at hpush
      obtain ⟨hser, -, hp⟩ := clientEmit_emitted σ.core c form hres
      obtain ⟨-, rfl⟩ := hp c q hpush
      rcases (similar_keeping P).step hs with ⟨i', τ', -, hn', htk, hsim⟩ | ⟨htk, -⟩
      · obtain ⟨rfl, rfl⟩ : .mail (.clientEmit c event form) = i' ∧ τ = τ' := by
          rw [hn] at hn'
          simpa using hn'
        have hnone : bufferedIn c ((runtime P).taken σ .run) = [] := by
          rw [htk]
          simp [bufferedIn, Core.buffered, hconn]
        rw [hbuf, hnone, List.append_nil, hsim.mail.serial]
        refine ⟨?_, fun p hp => (ht.old p hp).1.ne⟩
        change σ.core.mail.serial < (clientEmit σ.core c event form).part.serial
        rw [hser]
        exact Nat.lt_succ_self _
      · simp [taken, hn] at htk
    · cases hcall
    · rcases onThrow_handle his with rfl | ⟨a, err, rfl, -⟩
      · cases hq
      · simp at hq
  · intro x hx q hxq
    rcases List.mem_append.mp hx with hx | hx
    · exact hfresh q (ht.emitted x hx q hxq).1 (ht.emitted x hx q hxq).2
    · rcases taken_cases (M := runtime P) σ a with htk | ⟨i, τ, -, hn, htk⟩
      · rw [htk] at hx
        cases hx
      · rw [htk] at hx
        obtain rfl := List.mem_singleton.mp hx
        have hq : i ∈ σ.pending := by
          obtain ⟨-, ⟨-, hst, -⟩ | ⟨-, -, hq⟩⟩ := next_pending hn
          · simp [Config.pending, hst]
          · simp [Config.pending, hq]
        obtain rfl : i = .mail (.clientEmitRest c q) := hxq
        exact hfresh q (ht.emits q hq).1 (ht.emits q hq).2

theorem run_tally (h : (runtime P).Run C newServer tr σ) (c : ClientId) : Tally c tr σ := by
  induction h with
  | start => exact ⟨List.Sublist.refl _, .nil, fun _ hp => absurd hp List.not_mem_nil,
      fun _ hq => absurd hq List.not_mem_nil, fun _ hx => absurd hx List.not_mem_nil⟩
  | step hr hc hs ih => exact ih.step hr.reach hc hs

end Tallies

/-! ## 5. Nothing is lost, duplicated or reordered -/

/-- **The packets that were buffered, after a run**: how often each was sent, and in which order. -/
structure FlushExact (c : ClientId) (tr : List (Core × Instr)) (σ : State) : Prop where
  /-- what is not settled was sent exactly once, or still waits -/
  once : ∀ p ∈ bufferedIn c tr, σ.core.mail.isSettled p = false →
    (sentIn c tr).count p + (waiting σ c).count p = 1
  atMostOnce : ∀ p ∈ bufferedIn c tr, (sentIn c tr).count p ≤ 1
  /-- flushes send in emit order -/
  flushed : (flushedIn c tr).Sublist (bufferedIn c tr)
  /-- what waits is in emit order -/
  waits : (waiting σ c).Sublist (bufferedIn c tr)

section Exact

variable {C : State → Action Instr → Prop} {σ σ' : State} {tr : List (Core × Instr)} {c : ClientId}

/-- A packet that was in the buffer is sent by flushes only. -/
theorem Tally.sent (h : Tally c tr σ) {p : BufferedPacket} (hp : p ∈ bufferedIn c tr) :
    (sentIn c tr).count p = (flushedIn c tr).count p := by
  have hx : ∀ x ∈ tr, (x.1.sent c x.2).count p = (x.1.flushed c x.2).count p := fun x hx => by
    obtain ⟨τ, i⟩ := x
    unfold Core.sent
    dsimp only
    split
    · rename_i d q
      split
      · rename_i hd
        have hne := (h.emitted _ hx q (by rw [hd.1])).2 p hp
        have hpq : q ≠ p := fun he => hne (by rw [he])
        simp [Core.flushed, hpq]
      · simp [Core.flushed]
    · rfl
  unfold sentIn flushedIn
  rw [List.count_flatMap, List.count_flatMap]
  exact congrArg List.sum (List.map_congr_left hx)

theorem Tally.nodup (h : Tally c tr σ) : (flushedIn c tr ++ waiting σ c).Nodup :=
  (h.ascending.imp fun hlt he => absurd (he ▸ hlt) (Nat.lt_irrefl _)).sublist h.line

/-- Every packet that was buffered has been sent, or waits, or its callback is settled. -/
def Accounted (c : ClientId) (tr : List (Core × Instr)) (σ : State) : Prop :=
  ∀ p ∈ bufferedIn c tr, p ∈ flushedIn c tr ++ waiting σ c ∨ σ.core.mail.isSettled p = true

theorem run_accounted (h : (runtime P).Run C newServer tr σ)
    (hC : ∀ τ a, C τ a → ObserversReturn τ a) (c : ClientId) : Accounted c tr σ := by
  induction h with
  | start => exact fun _ hp => absurd hp List.not_mem_nil
  | @step tr σ σ' a hr hc hs ih =>
      have hw := (waiting_step hr.reach hc hs c).2 (hC _ _ hc)
      have hsettled : ∀ p ∈ bufferedIn c tr, σ.core.mail.isSettled p = true →
          σ'.core.mail.isSettled p = true := fun p hp hset => by
        unfold Mail.isSettled at hset ⊢
        obtain ⟨r, hpr, hr'⟩ := (Option.any_eq_true _ _).mp hset
        rw [hpr, Option.any_some]
        exact settled_step (((run_tally hr c).old p hp).2 r (Or.inr hpr)) hr' hs
      have hbuf : bufferedIn c (tr ++ (runtime P).taken σ a) =
          bufferedIn c tr ++ bufferedIn c ((runtime P).taken σ a) := List.flatMap_append
      have hflush : flushedIn c (tr ++ (runtime P).taken σ a) =
          flushedIn c tr ++ flushedIn c ((runtime P).taken σ a) := List.flatMap_append
      intro p hp
      rw [hbuf] at hp
      rw [hflush]
      rcases List.mem_append.mp hp with hp | hp
      · rcases ih p hp with hp' | hset
        · rcases List.mem_append.mp hp' with hp' | hp'
          · exact Or.inl (List.mem_append_left _ (List.mem_append_left _ hp'))
          · refine (hw p (List.mem_append_left _ hp')).imp_left fun h => ?_
            rw [List.append_assoc]
            exact List.mem_append_right _ h
        · exact Or.inr (hsettled p hp hset)
      · refine (hw p (List.mem_append_right _ hp)).imp_left fun h => ?_
        rw [List.append_assoc]
        exact List.mem_append_right _ h

/-- An interrupted flush puts the packets it has not sent, the one under observation included, in
    front of those buffered meanwhile. -/
theorem interrupted (hR : Flushing σ) {a : AttemptId} {s : SocketId} {p : BufferedPacket}
    {ps : List BufferedPacket} {τ : State}
    (hn : (runtime P).next σ = some (.mail (.flushRest a s p ps), τ))
    (hconn : σ.core.conn.isConnectionAttemptConnected a s = false)
    (hs : (runtime P).step σ .run = some σ') :
    (σ'.core.mail.outboxes (σ.core.conn.attempts a).client).sendBuffer =
        (p :: ps).filter (fun q => !σ.core.mail.isSettled q) ++
          (σ.core.mail.outboxes (σ.core.conn.attempts a).client).sendBuffer ∧
      ∀ j ∈ σ'.pending, j.flushes = false := by
  have hσ' : (runtime P).execute (.mail (.flushRest a s p ps)) τ = σ' := by
    simpa [Machine.step, hn] using hs
  have hcore := (next_pending hn).1
  rw [flushes_step hR hn rfl, ← hcore] at hσ'
  subst hσ'
  refine ⟨by simp [exec, execMail, flushRest, hconn, Mail.setOutbox], fun j hj => ?_⟩
  have hpush : (exec P (.mail (.flushRest a s p ps)) σ.core).push = [] ∧
      (exec P (.mail (.flushRest a s p ps)) σ.core).post = [] := by
    simp [exec, execMail, flushRest, hconn]
  simp only [Config.pending, hpush, List.nil_append, List.append_nil] at hj
  rw [← Bool.not_eq_true]
  refine hR.queue j ?_
  obtain ⟨-, ⟨-, -, hq⟩ | ⟨-, -, hq⟩⟩ := next_pending hn
  · rwa [hq]
  · rw [hq]
    exact List.mem_cons_of_mem _ hj

/-- **A flush loses, duplicates and reorders nothing**, whatever its observers do, if they return:
    each packet that was buffered has been sent exactly once or still waits, unless its callback is
    settled; packets are sent in emit order; and a flush whose connection is gone leaves what it has
    not sent in the buffer, ahead of what was buffered later. -/
theorem flush_exact (h : (runtime P).Run C newServer tr σ)
    (hC : ∀ τ a, C τ a → ObserversReturn τ a) (c : ClientId) :
    FlushExact c tr σ ∧
      ∀ a s p ps τ σ', (runtime P).next σ = some (.mail (.flushRest a s p ps), τ) →
        σ.core.conn.isConnectionAttemptConnected a s = false →
        (runtime P).step σ .run = some σ' →
        (σ'.core.mail.outboxes (σ.core.conn.attempts a).client).sendBuffer =
            (p :: ps).filter (fun q => !σ.core.mail.isSettled q) ++
              (σ.core.mail.outboxes (σ.core.conn.attempts a).client).sendBuffer ∧
          ∀ j ∈ σ'.pending, j.flushes = false := by
  have hT := run_tally h c
  refine ⟨⟨fun p hp hset => ?_, fun p hp => ?_, ?_, ?_⟩,
    fun a s p ps τ σ' hn hconn hs => interrupted (reach_flushing h.reach) hn hconn hs⟩
  · rw [hT.sent hp, ← List.count_append]
    refine List.count_eq_one_of_mem hT.nodup ?_
    refine (run_accounted h hC c p hp).resolve_right fun hs => ?_
    rw [hset] at hs
    cases hs
  · rw [hT.sent hp]
    exact List.nodup_iff_count_le_one.mp (hT.nodup.sublist (List.sublist_append_left _ _)) p
  · exact (List.sublist_append_left _ _).trans hT.line
  · exact (List.sublist_append_right _ _).trans hT.line

/-- A client emits `a` and `b` before it is connected, then connects, up to the observers of `a`. -/
def flushing (form : EmitForm) : List (Action Instr) :=
  [.call (.srv (.serverConnect "/" false false)), .call (.mail (.clientEmit 0 "a" .plain)),
    .call (.mail (.clientEmit 0 "b" form)), .run, .run, .ret, .ret]

/-- The observers of `a` disconnect the client and emit `c`: all three packets wait. -/
theorem flush_exact_interrupted : ∃ tr σ, (runtime unary).Run ObserversReturn newServer tr σ ∧
    (bufferedIn 0 tr).map (·.event) = ["a", "b", "c"] ∧ waiting σ 0 = bufferedIn 0 tr ∧
    FlushExact 0 tr σ := by
  obtain ⟨tr, σ, hr, hp⟩ := run_of_script (runtime unary) ObserversReturn newServer 60
    (flushing .plain ++ [.call (.ctl (.clientDisconnect 0)), .ret,
      .call (.mail (.clientEmit 0 "c" .plain)), .ret])
    (fun r => decide ((bufferedIn 0 r.1).map (·.event) = ["a", "b", "c"] ∧
      waiting r.2 0 = bufferedIn 0 r.1)) (by decide)
  obtain ⟨hbuf, hwait⟩ := of_decide_eq_true hp
  exact ⟨tr, σ, hr, hbuf, hwait, (flush_exact hr (fun _ _ h => h) 0).1⟩

end Exact

/-! ## 6. A flush that fails -/

/-- What a flush that failed at a packet with `ps` behind it should leave: these packets in the
    buffer, and no client that is connected without them. -/
structure FlushKept (c : ClientId) (ps : List BufferedPacket) (σ : State) : Prop where
  rest : (ps.filter fun q => !σ.core.mail.isSettled q).Sublist (σ.core.mail.outboxes c).sendBuffer
  connected : (σ.core.conn.clients c).connected = true →
    ∀ q ∈ ps, σ.core.mail.isSettled q = false → q ∈ waiting σ c

section Failing

variable {C : State → Action Instr → Prop} {σ σ' : State} {tr : List (Core × Instr)}

/-- What stands behind the packet of a flush is not in the buffer. -/
theorem behind_unbuffered (h : (runtime P).Run C newServer tr σ) {x : AppCtx} {a : AttemptId}
    {s : SocketId} {p q : BufferedPacket} {ps : List BufferedPacket}
    (hst : σ.stack = [.app x, .mail (.flushRest a s p ps)]) (hq : q ∈ ps) :
    q ∉ (σ.core.mail.outboxes (σ.core.conn.attempts a).client).sendBuffer := by
  intro hbuf
  -- it would wait in the loop and in the buffer
  have hnd := (run_tally h (σ.core.conn.attempts a).client).nodup.sublist
    (List.sublist_append_right _ _)
  rw [waiting, List.nodup_append] at hnd
  refine hnd.2.2 q (List.mem_flatMap.mpr ⟨.mail (.flushRest a s p ps), ?_, ?_⟩) q hbuf rfl
  · simp [Config.pending, hst]
  · simp [Instr.unsent, hq]

/-- **A failing flush keeps the packets behind the failing one exactly if there are none**, settled
    ones aside; and no flush ever sends a packet twice. -/
theorem failing_flush (h : (runtime P).Run C newServer tr σ) {x : AppCtx} {a : AttemptId}
    {s : SocketId} {p : BufferedPacket} {ps k : List _}
    (hst : σ.stack = .app x :: .mail (.flushRest a s p ps) :: k)
    (hs : (runtime P).step σ .throw = some σ') :
    (FlushKept (σ.core.conn.attempts a).client ps σ' ↔ ∀ q ∈ ps, σ.core.mail.isSettled q = true) ∧
      ∀ c, ∀ q ∈ bufferedIn c tr, (sentIn c tr).count q ≤ 1 := by
  have hk : k = [] := (reach_flushing h.reach).bottom [.app x] _ k hst rfl
  subst hk
  have hσ' : σ' = { σ with stack := [] } := by
    simp only [Machine.step, hst] at hs
    exact (Option.some.inj hs).symm
  have hT := fun c => run_tally h c
  refine ⟨⟨fun hkept q hq => ?_, fun hset => ?_⟩, fun c q hq => ?_⟩
  · by_contra hset
    rw [Bool.not_eq_true] at hset
    have hbuf : q ∈ (σ.core.mail.outboxes (σ.core.conn.attempts a).client).sendBuffer := by
      have hmem := hkept.rest.subset (List.mem_filter.mpr ⟨hq, by simp [hσ', hset]⟩)
      rwa [hσ'] at hmem
    exact behind_unbuffered h hst hq hbuf
  · have hnone : ps.filter (fun q => !σ.core.mail.isSettled q) = [] := by
      simpa using hset
    refine ⟨?_, fun _ q hq hq' => ?_⟩
    · rw [hσ', hnone]
      exact List.nil_sublist _
    · rw [hσ', hset q hq] at hq'
      cases hq'
  · rw [(hT c).sent hq]
    exact List.nodup_iff_count_le_one.mp ((hT c).nodup.sublist (List.sublist_append_left _ _)) q

/-- The flush of client 0 that waits for its observers: its packet and those behind it. -/
def flushOf (σ : State) : Option (BufferedPacket × List BufferedPacket) :=
  match σ.stack with
  | [.app (.clientOutgoing 0), .mail (.flushRest 0 0 p ps)] => some (p, ps)
  | _ => none

theorem flushOf_eq_some {p : BufferedPacket} {ps : List BufferedPacket}
    (h : flushOf σ = some (p, ps)) :
    σ.stack = [.app (.clientOutgoing 0), .mail (.flushRest 0 0 p ps)] := by
  unfold flushOf at h
  split at h
  · rename_i hst
    obtain ⟨rfl, rfl⟩ := Prod.mk.inj (Option.some.inj h)
    exact hst
  · cases h

/-- A run that ends while the observers of `a` are called, with `ps` behind it. -/
theorem flushing_fails (as : List (Action Instr)) (n : Nat)
    (h : ((runtime unary).record (fun _ _ => decide True) 60 as [] newServer).any (fun r =>
      decide ((flushOf r.2).any (fun x => decide (x.2.length = n ∧
        x.2.all fun q => !r.2.core.mail.isSettled q))) &&
        decide ((r.2.core.conn.attempts 0).client = 0)) = true) :
    ∃ tr σ p ps, (runtime unary).Run (fun _ _ => True) newServer tr σ ∧
      σ.stack = [.app (.clientOutgoing 0), .mail (.flushRest 0 0 p ps)] ∧ ps.length = n ∧
      (∀ q ∈ ps, σ.core.mail.isSettled q = false) ∧ (σ.core.conn.attempts 0).client = 0 := by
  obtain ⟨tr, σ, hr, hp⟩ := run_of_script (runtime unary) (fun _ _ => True) newServer 60 as _ h
  obtain ⟨hp, hcl⟩ := Bool.and_eq_true_iff.mp hp
  obtain ⟨⟨p, ps⟩, hf, hps⟩ := (Option.any_eq_true _ _).mp (of_decide_eq_true hp)
  obtain ⟨hlen, hset⟩ := of_decide_eq_true hps
  refine ⟨tr, σ, p, ps, hr, flushOf_eq_some hf, hlen, ?_, of_decide_eq_true hcl⟩
  simpa using hset

/-- **A throwing observer loses the packet behind it.** -/
theorem flush_loses : ∃ tr σ σ' p ps, (runtime unary).Run (fun _ _ => True) newServer tr σ ∧
    σ.stack = [.app (.clientOutgoing 0), .mail (.flushRest 0 0 p ps)] ∧
    (runtime unary).step σ .throw = some σ' ∧ ¬ FlushKept 0 ps σ' := by
  obtain ⟨tr, σ, p, ps, hr, hst, hlen, hset, hcl⟩ := flushing_fails (flushing .plain) 1 (by decide)
  obtain ⟨q, rfl⟩ := List.length_eq_one_iff.mp hlen
  have hs : (runtime unary).step σ .throw = some { σ with stack := [] } := by
    simp only [Machine.step, hst]
    rfl
  refine ⟨tr, σ, _, p, [q], hr, hst, hs, fun hkept => ?_⟩
  have hq := List.mem_singleton_self q
  have hnot := behind_unbuffered hr hst hq
  rw [hcl] at hnot
  exact hnot (hkept.rest.subset (List.mem_filter.mpr ⟨hq, by simp [hset q hq]⟩))

/-- The observers of `b`, the last packet, throw: nothing is lost. -/
theorem failing_flush_last : ∃ tr σ σ' p, (runtime unary).Run (fun _ _ => True) newServer tr σ ∧
    σ.stack = [.app (.clientOutgoing 0), .mail (.flushRest 0 0 p [])] ∧
    (runtime unary).step σ .throw = some σ' ∧ FlushKept 0 [] σ' := by
  obtain ⟨tr, σ, p, ps, hr, hst, hlen, hset, hcl⟩ :=
    flushing_fails (flushing .plain ++ [.ret]) 0 (by decide)
  obtain rfl := List.length_eq_zero_iff.mp hlen
  have hs : (runtime unary).step σ .throw = some { σ with stack := [] } := by
    simp only [Machine.step, hst]
    rfl
  have hkept := (failing_flush hr hst hs).1.mpr fun _ hq => absurd hq List.not_mem_nil
  rw [hcl] at hkept
  exact ⟨tr, σ, _, p, hr, hst, hs, hkept⟩

end Failing

/-! ## 7. What has been rejected -/

/-- The packet of an `emitWithAck` without a timeout. -/
def Mail.promises (μ : Mail) (p : BufferedPacket) : Bool :=
  match p.reply with
  | some (.request r) => (μ.requests r).promise && !(μ.requests r).timed
  | _ => false

/-- The client whose acknowledgements the instruction rejects. -/
def Instr.rejected : Instr → Option ClientId
  | .mail (.rejectPendingAcks c) => some c
  | _ => none

/-- A client that rejects its acknowledgements has no `emitWithAck` without a timeout waiting. -/
def PromisesSent (P : Platform) (σ : State) (a : Action Instr) : Prop :=
  a = .run → ∀ x ∈ (runtime P).next σ, ∀ c ∈ x.1.rejected, ∀ p ∈ waiting σ c,
    σ.core.mail.promises p = false

instance (σ : State) (a : Action Instr) : Decidable (PromisesSent P σ a) :=
  match a with
  | .run => decidable_of_iff (∀ x ∈ (runtime P).next σ, ∀ c ∈ x.1.rejected, ∀ p ∈ waiting σ c,
      σ.core.mail.promises p = false) ⟨fun h _ => h, fun h => h rfl⟩
  | .call _ | .ret | .throw => isTrue nofun

/-- The instruction rejects request `r`, because of a disconnect or of its timeout. -/
def Core.rejects (σ : Core) (r : RequestId) : Instr → Bool
  | .mail (.ackTimeout r') | .mail (.rejectAck _ (.timed r')) => decide (r' = r)
  | .mail (.rejectAck _ (.promise r')) => decide (r' = r) && !(σ.mail.requests r).sending
  | _ => false

/-- **No packet of a request waits** once its rejection is under way, or its emit. -/
structure Spared (σ : State) : Prop where
  rejects : ∀ c r, .mail (.rejectAck c (.promise r)) ∈ σ.pending →
    (σ.core.mail.requests r).timed = false → ∀ p ∈ waiting σ c, p.reply ≠ some (.request r)
  emits : ∀ c q r, .mail (.clientEmitRest c q) ∈ σ.pending → q.reply = some (.request r) →
    ∀ p ∈ waiting σ c, p.reply ≠ some (.request r)

section Rejected

variable {C : State → Action Instr → Prop} {σ σ' : State} {tr : List (Core × Instr)} {c : ClientId}
  {p : BufferedPacket} {r : RequestId}

/-- What waits after a step waited before it, or is the packet of a new request. -/
theorem waiting_new (h : (runtime P).Reach C newServer σ) {a : Action Instr} (hc : C σ a)
    (hs : (runtime P).step σ a = some σ') (hp : p ∈ waiting σ' c) : p ∈ waiting σ c ∨
      (p.serial = σ.core.mail.serial ∧ (∃ event form, (runtime P).taken σ a =
          [(σ.core, .mail (.clientEmit c event form))] ∧
            (σ.core.conn.clients c).connected = false) ∧
        ∀ r, p.reply = some (.request r) → σ.core.mail.requestCount ≤ r) := by
  have hmem := (waiting_step h hc hs c).1.subset (List.mem_append_right _ hp)
  refine (List.mem_append.mp hmem).imp_right fun hb => ?_
  rcases taken_cases (M := runtime P) σ a with ht | ⟨i, τ, -, -, ht⟩
  · rw [ht] at hb
    cases hb
  · rw [ht] at hb ⊢
    have hb' : p ∈ σ.core.buffered c i := by simpa [bufferedIn] using hb
    obtain ⟨hser, -, hf⟩ := buffered_new (P := P) hb'
    refine ⟨hser, ?_, fun r hr => (hf r (Or.inl hr)).1⟩
    unfold Core.buffered at hb'
    split at hb'
    · rename_i d event form
      split at hb'
      · rename_i hd
        obtain ⟨rfl, -, hconn, -⟩ := hd
        exact ⟨event, form, rfl, hconn⟩
      · cases hb'
    · cases hb'

theorem waiting_lt (h : (runtime P).Run C newServer tr σ) (hp : p ∈ waiting σ c)
    (hr : p.reply = some (.request r)) : r < σ.core.mail.requestCount := by
  have hT := run_tally h c
  exact (hT.old p (hT.line.subset (List.mem_append_right _ hp))).2 r (Or.inl hr)

theorem Spared.step (h : (runtime P).Run C newServer tr σ) (hC : ∀ τ a, C τ a → timersIdle τ a)
    (hS : Spared σ) {a : Action Instr} (hc : C σ a) (hP : PromisesSent P σ a)
    (hs : (runtime P).step σ a = some σ') : Spared σ' := by
  have hL := reach_handled h.reach hC
  -- a packet that is new carries a new request
  have hold : ∀ {c r p}, r < σ.core.mail.requestCount → (p ∈ waiting σ c → p.reply ≠
      some (.request r)) → p ∈ waiting σ' c → p.reply ≠ some (.request r) := by
    intro c r p hlt hno hp hr
    rcases waiting_new h.reach hc hs hp with hp | ⟨-, -, hnew⟩
    · exact hno hp hr
    · exact absurd hlt (Nat.not_lt.mpr (hnew r hr))
  have hmade : ∀ {r}, r < σ.core.mail.requestCount →
      (σ'.core.mail.requests r).timed = (σ.core.mail.requests r).timed := fun {r} hlt => by
    rcases (similar_keeping P).step hs with ⟨i, τ, rfl, -, -, hsim⟩ | ⟨-, hsim⟩
    · rw [hsim.mail.requests]
      exact ((exec_turns (P := P) i σ.core).old hlt).timed
    · rw [hsim.mail.requests]
  constructor
  · intro c r hj ht p hp
    rcases pending_cases hs hj with hj | ⟨i, τ, rfl, hn, hj⟩ | ⟨-, hcall⟩ | ⟨_, i, is, his, hj⟩
    · have hlt : r < σ.core.mail.requestCount := (hL.ok _ hj).placed.1.lt
      exact hold hlt (hS.rejects c r hj ((hmade hlt).symm.trans ht) p) hp
    · have hcore := (next_pending hn).1
      rw [← hcore] at hj
      rcases rejectAck_spawned hj with ⟨rfl, hk⟩ | ⟨q, r', rfl, hrr, hrep, -, -⟩
      · have hh := hL.inv.requested.handle c _ hk
        have hlt : r < σ.core.mail.requestCount := hh.lt
        refine hold hlt (fun hp' hr => ?_) hp
        have hno := hP rfl _ hn c rfl p hp'
        have hprom : (σ.core.mail.requests r).promise = true := hh.fits
        rw [Mail.promises, hr] at hno
        simp [hprom, (hmade hlt).symm.trans ht] at hno
      · obtain rfl := AckHandle.promise.inj hrr
        have hq := (next_mem hn).1
        exact hold ((hL.ok _ hq).placed.1.lt r hrep) (hS.emits c q r hq hrep p) hp
    · cases hcall
    · rcases onThrow_handle his with rfl | ⟨a, err, rfl, -⟩
      · cases hj
      · simp at hj
  · intro c q r hj hrep p hp
    rcases pending_cases hs hj with hj | ⟨i, τ, rfl, hn, hj⟩ | ⟨-, hcall⟩ | ⟨_, i, is, his, hj⟩
    · exact hold ((hL.ok _ hj).placed.1.lt r hrep) (hS.emits c q r hj hrep p) hp
    · have hcore := (next_pending hn).1
      rw [← hcore] at hj
      obtain ⟨event, form, rfl, hconn, hpush, -⟩ := clientEmitRest_spawned hj
      obtain ⟨-, hf⟩ := (clientEmit_turns (T := fun _ _ => False) (B := fun _ _ => False) σ.core c
        event form).2 q hpush
      intro hr
      rcases waiting_new h.reach hc hs hp with hp | ⟨-, ⟨event', form', ht, hconn'⟩, -⟩
      · exact absurd (waiting_lt h hp hr) (Nat.not_lt.mpr (hf r hrep).1)
      · simp only [taken, hn, Option.toList_some, List.map_cons, List.map_nil,
          List.cons.injEq, Prod.mk.injEq, Instr.mail.injEq, MailInstr.clientEmit.injEq, true_and,
          and_true] at ht
        rw [hconn] at hconn'
        cases hconn'
    · cases hcall
    · rcases onThrow_handle his with rfl | ⟨a, err, rfl, -⟩
      · cases hj
      · simp at hj

theorem run_spared (h : (runtime P).Run C newServer tr σ) (hC : ∀ τ a, C τ a → timersIdle τ a)
    (hP : ∀ τ a, C τ a → PromisesSent P τ a) : Spared σ := by
  induction h with
  | start => exact ⟨fun _ _ hj => absurd hj List.not_mem_nil, fun _ _ _ hj => absurd hj List.not_mem_nil⟩
  | step hr hc hs ih => exact ih.step hr hC hc (hP _ _ hc) hs

/-- A packet that no longer waits is never sent. -/
theorem gone_unsent (h : (runtime P).Run C newServer tr σ) (hp : p ∈ bufferedIn c tr)
    (hno : p ∉ waiting σ c) {tr' : List (Core × Instr)} (hrun : (runtime P).Run C σ tr' σ') :
    p ∉ waiting σ' c ∧ ∀ x ∈ tr', p ∉ x.1.sent c x.2 := by
  induction hrun with
  | start => exact ⟨hno, fun _ hx => absurd hx List.not_mem_nil⟩
  | @step tr' τ τ' a hr' hc hs ih =>
      obtain ⟨hno, hsent⟩ := ih
      have hrun := h.append hr'
      have hp' : p ∈ bufferedIn c (tr ++ tr') := by
        rw [bufferedIn, List.flatMap_append]
        exact List.mem_append_left _ hp
      have hlt := ((run_tally hrun c).old p hp').1
      have hback : p ∉ flushedIn c ((runtime P).taken τ a) ++ waiting τ' c := fun hmem => by
        rcases List.mem_append.mp ((waiting_step hrun.reach hc hs c).1.subset hmem) with hw | hb
        · exact hno hw
        · rcases taken_cases (M := runtime P) τ a with ht | ⟨i, ρ, -, -, ht⟩
          · rw [ht] at hb
            cases hb
          · rw [ht] at hb
            have hb' : p ∈ τ.core.buffered c i := by simpa [bufferedIn] using hb
            exact hlt.ne (buffered_new (P := P) hb').1
      refine ⟨fun hw => hback (List.mem_append_right _ hw), fun x hx => ?_⟩
      rcases List.mem_append.mp hx with hx | hx
      · exact hsent x hx
      · intro hps
        have hflush : p ∉ x.1.flushed c x.2 := fun hf =>
          hback (List.mem_append_left _ (List.mem_flatMap.mpr ⟨x, hx, hf⟩))
        unfold Core.sent at hps
        split at hps
        · rename_i d q hi
          split at hps
          · rename_i hd
            have hpq := List.mem_singleton.mp hps
            have hT := run_tally (hrun.step hc hs) c
            have hne := (hT.emitted x (List.mem_append_right _ hx) q (by rw [hi, hd.1])).2 p (by
              rw [bufferedIn, List.flatMap_append]
              exact List.mem_append_left _ hp')
            exact hne (by rw [hpq])
          · cases hps
        · exact hflush hps

theorem sent_sends {σ : Core} {i : Instr} (h : p ∈ σ.sent c i) : σ.sends p i := by
  unfold Core.sent at h
  split at h
  · split at h
    · rename_i hd
      exact ⟨(List.mem_singleton.mp h).symm, hd.2⟩
    · cases h
  · unfold Core.flushed at h
    split at h
    · split at h
      · rename_i hc
        exact ⟨(List.mem_singleton.mp h).symm, hc.2⟩
      · cases h
    · cases h

/-- A packet in a waiting place belongs to its client. -/
theorem waiting_owned (h : (runtime P).Reach C newServer σ) (hC : ∀ τ a, C τ a → timersIdle τ a)
    (hp : p ∈ waiting σ c) : Waits σ p ∧ σ.core.mail.Owns c p := by
  have hL := reach_handled h hC
  rcases List.mem_append.mp hp with hp | hp
  · obtain ⟨j, hj, hpj⟩ := List.mem_flatMap.mp hp
    have hpl := (hL.ok j hj).placed
    unfold Instr.unsent at hpj
    split at hpj
    · split at hpj
      · rename_i hc
        exact ⟨Or.inr ⟨_, hj, hpj⟩, hc ▸ hpl p hpj⟩
      · cases hpj
    · split at hpj
      · rename_i hc
        exact ⟨Or.inr ⟨_, hj, hpj⟩, hc ▸ hpl.1 p hpj⟩
      · cases hpj
    · cases hpj
  · exact ⟨Or.inl ⟨c, hp⟩, hL.inv.requested.packet c p hp⟩

theorem Executes.rejects {i : Instr} (h : Executes P σ i) (hr : σ.core.rejects r i = true) :
    σ.core.settles r i = true ∨
      ((σ.core.mail.requests r).timed = false ∧ ∃ d, i = .mail (.rejectAck d (.promise r))) := by
  unfold Core.rejects at hr
  split at hr
  · exact Or.inl hr
  · exact Or.inl hr
  · rename_i d r'
    simp only [Bool.and_eq_true, decide_eq_true_eq, Bool.not_eq_true'] at hr
    obtain ⟨rfl, hsend⟩ := hr
    cases ht : (σ.core.mail.requests r').timed with
    | true => exact Or.inl (by simp [Core.settles, hsend, ht])
    | false => exact Or.inr ⟨rfl, d, rfl⟩
  · cases hr

theorem Executes.settles_timed {i : Instr} (h : Executes P σ i) (hs : σ.core.settles r i = true) :
    (σ.core.mail.requests r).timed = true := by
  have hd := h.due
  have hpl := h.known.placed
  unfold Core.settles at hs
  split at hs
  case h_5 => cases hs
  all_goals simp only [Bool.and_eq_true, Bool.not_eq_true', decide_eq_true_eq] at hs
  · exact hs.1.2
  · subst hs
    exact (h.handled.requested.timer _ hd).2.1
  · subst hs
    exact hpl.1.fits
  · exact hs.2

/-- **A request that has been rejected is not sent later**, in a run that has no `emitWithAck`
    without a timeout waiting when a client rejects its acknowledgements. -/
theorem rejected_unsent {tr₁ tr₂ : List (Core × Instr)} {τ : Core} {i : Instr}
    (h : (runtime P).Run C newServer (tr₁ ++ (τ, i) :: tr₂) σ)
    (hC : ∀ τ a, C τ a → timersIdle τ a ∧ PromisesSent P τ a)
    (hp : p ∈ bufferedIn c tr₁) (hr : p.reply = some (.request r)) (hrej : τ.rejects r i = true) :
    ∀ x ∈ tr₂, p ∉ x.1.sent c x.2 := by
  have hT := fun τ a hc => (hC τ a hc).1
  obtain ⟨σ₁, τ₁, σ₂, hr₁, hc₁, hcore, hn, hs, hrun⟩ := h.split
  dsimp only at hcore hn
  subst hcore
  have hE := reach_executes hr₁.reach hT hn
  have hrun₁ := hr₁.step hc₁ hs
  have hp₂ : p ∈ bufferedIn c (tr₁ ++ (runtime P).taken σ₁ .run) := by
    rw [bufferedIn, List.flatMap_append]
    exact List.mem_append_left _ hp
  by_cases hw : p ∈ waiting σ₁ c
  · obtain ⟨hwaits, howns⟩ := waiting_owned hr₁.reach hT hw
    rcases hE.rejects hrej with hset | ⟨ht, d, rfl⟩
    · have ht : p.timedCallback = some r := by
        rw [howns.wraps, hr]
        simp [Mail.timedOf, hE.settles_timed hset]
      have hu := (hwaits.unemitted (reach_handled hr₁.reach hT) ht).step hs
      have hset₂ : (σ₂.core.mail.requests r).settled = true := by
        rcases (similar_keeping P).step hs with ⟨i', τ', -, hn', -, hsim⟩ | ⟨htk, -⟩
        · obtain ⟨rfl, rfl⟩ : i = i' ∧ τ₁ = τ' := by
            rw [hn] at hn'
            simpa using hn'
          rw [hsim.mail.requests]
          exact (exec_answers (P := P) i (howns.lt r hr)).settled.mpr (Or.inr hset)
        · simp [taken, hn] at htk
      exact fun x hx hps =>
        (never_sent hrun₁.reach hT hu ht hset₂ hrun).2.2 x hx (sent_sends hps)
    · have hcl : (σ₁.core.mail.requests r).client = some d := hE.known.placed.1.client
      obtain rfl := Option.some.inj (hcl.symm.trans (howns.client r hr))
      have hspared := run_spared hr₁ hT fun τ a hc => (hC τ a hc).2
      exact absurd hr (hspared.rejects d r (next_mem hn).1 ht p hw)
  · have hw₂ : p ∉ waiting σ₂ c := fun hw₂ => by
      rcases waiting_new hr₁.reach hc₁ hs hw₂ with h' | ⟨hser, -⟩
      · exact hw h'
      · exact ((run_tally hr₁ c).old p hp).1.ne hser
    exact (gone_unsent hrun₁ hp₂ hw₂ hrun).2

/-- The observers of `a` disconnect the client, which then connects again and sends what waits. -/
def resending (form : EmitForm) (timed : List (Action Instr)) : List (Action Instr) :=
  [.call (.srv (.serverConnect "/" false false)), .call (.mail (.clientEmit 0 "a" .plain))] ++
    timed ++ [.call (.mail (.clientEmit 0 "b" form)), .run, .run, .ret, .ret,
    .call (.ctl (.clientDisconnect 0)), .ret, .ret, .call (.conn (.connect 0)), .run, .ret, .ret,
    .run, .run, .ret, .ret, .ret]

/-- An `emitWithAck` that the disconnect has rejected is sent by the next connection. -/
theorem rejected_sent : ∃ tr₁ τ i tr₂ σ p,
    (runtime unary).Run timersIdle newServer (tr₁ ++ (τ, i) :: tr₂) σ ∧ p ∈ bufferedIn 0 tr₁ ∧
      p.reply = some (.request 0) ∧ p ∉ sentIn 0 tr₁ ∧ τ.rejects 0 i = true ∧
      ∃ x ∈ tr₂, p ∈ x.1.sent 0 x.2 := by
  obtain ⟨tr₁, ⟨τ, i⟩, tr₂, σ, hr, hx, hp⟩ := cut_of_script (runtime unary) timersIdle newServer 80
    (resending .promise [] ++ [.ret]) (fun x => x.1.rejects 0 x.2)
    (fun tr₁ _ tr₂ _ => (bufferedIn 0 tr₁).any fun p =>
      decide (p.reply = some (.request 0) ∧ p ∉ sentIn 0 tr₁ ∧ ∃ x ∈ tr₂, p ∈ x.1.sent 0 x.2))
    (by decide)
  obtain ⟨p, hp, hd⟩ := List.any_eq_true.mp hp
  obtain ⟨hrep, hno, hsent⟩ := of_decide_eq_true hd
  exact ⟨tr₁, τ, i, tr₂, σ, p, hr, hp, hrep, hno, hx, hsent⟩

/-- With a timeout it is left out. -/
theorem rejected_unsent_timed : ∃ tr₁ τ i tr₂ σ p,
    (runtime unary).Run (fun τ a => timersIdle τ a ∧ PromisesSent unary τ a) newServer
      (tr₁ ++ (τ, i) :: tr₂) σ ∧ p ∈ bufferedIn 0 tr₁ ∧ p.reply = some (.request 0) ∧
      τ.rejects 0 i = true ∧ ∀ x ∈ tr₂, p ∉ x.1.sent 0 x.2 := by
  obtain ⟨tr₁, ⟨τ, i⟩, tr₂, σ, hr, hx, hp⟩ := cut_of_script (runtime unary)
    (fun τ a => timersIdle τ a ∧ PromisesSent unary τ a) newServer 80
    (resending .promise [.call (.mail (.clientFlags 0 { timeout := some 5 }))])
    (fun x => x.1.rejects 0 x.2)
    (fun tr₁ _ _ _ => (bufferedIn 0 tr₁).any fun p => decide (p.reply = some (.request 0)))
    (by decide)
  obtain ⟨p, hp, hd⟩ := List.any_eq_true.mp hp
  have hrep := of_decide_eq_true hd
  exact ⟨tr₁, τ, i, tr₂, σ, p, hr, hp, hrep, hx,
    rejected_unsent hr (fun _ _ h => h) hp hrep hx⟩

end Rejected

end Smocket
