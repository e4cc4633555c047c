import Smocket.Requests
import Smocket.Spawns
import Smocket.Generations

/-
  File:      Smocket/Handles.lean
  Subject:   WHERE THE HANDLE OF A REQUEST IS: with its client, in the buffer, in the rest of a
             flush, or in the list of those being rejected. It is in one of these places at a time,
             and what has been settled is in none.

  What a task starts finds the stack empty (`Instr.fromTask`), so it never comes between a
  disconnect and the rejections that disconnect still has to make (`Instr.midway`).

  * `reach_rooted` -- tasks, last instructions and prompt ones stay in their places;
  * `handled_exec` -- one step keeps the requests and their handles in order;
  * `handles_line` -- the pending instructions stand in the order of `Instr.Before`;
  * `reach_handled` -- both, in every run.
-/

namespace Smocket

open Ordered EventLoop EventLoop.Machine

variable {P : Platform}

/-! ## 1. Tasks -/

/-- What is only ever posted, of the instructions that matter here. -/
def Instr.isTask : Instr → Bool
  | .ctl (.completion _ none) | .mail (.ackReply _) => true
  | _ => false

/-- What is the last on the stack whenever it is pending there. -/
def Instr.isLast : Instr → Bool
  | .conn (.completeConnectionAttempt ..) | .mail (.flush ..) | .mail (.flushPackets ..)
  | .mail (.flushRest ..) | .mail (.ackTimeout _) => true
  | _ => false

/-- What executes as soon as it is pending. -/
def Instr.isPrompt : Instr → Bool
  | .mail (.flush ..) | .mail (.flushPackets ..) | .mail (.ackTimeout _) => true
  | _ => false

/-- The callback of a timer, which the host calls between two tasks. -/
def Instr.isTimer : Instr → Bool
  | .mail (.ackTimeout _) => true
  | _ => false

/-- What is last on its stack was spawned by a task or by what was last. -/
theorem isLast_spawned {i j : Instr} {σ : Core} (h : j ∈ (exec P i σ).spawned)
    (hj : j.isLast = true) : i.isLast = true ∨ i.isTask = true := by
  have hs := spawnedBy h
  unfold Instr.isLast at hj
  split at hj
  · exact Or.inr (by simp only [Instr.SpawnedBy, ConnInstr.SpawnedBy] at hs; subst hs; rfl)
  · simp only [Instr.SpawnedBy, MailInstr.SpawnedBy] at hs
    subst hs
    exact Or.inl rfl
  · simp only [Instr.SpawnedBy, MailInstr.SpawnedBy] at hs
    rcases hs with rfl | ⟨_, rfl⟩ | ⟨_, _, rfl⟩ <;> exact Or.inl rfl
  · simp only [Instr.SpawnedBy, MailInstr.SpawnedBy] at hs
    subst hs
    exact Or.inl rfl
  · exact hs.elim
  · cases hj

/-- A task is never pushed. -/
theorem isTask_push {i j : Instr} {σ : Core} (h : j ∈ (exec P i σ).push) : j.isTask = false := by
  have hs := spawnedBy (List.mem_append_left _ h)
  unfold Instr.isTask
  split
  · rename_i s
    have happ : ∀ ℓ : Life, Instr.ctl (.completion s none) ∉ (ℓ.advance s).push := by
      intro ℓ
      unfold Life.advance
      dsimp only
      split <;> simp
    simp only [Instr.SpawnedBy, CtlInstr.SpawnedBy] at hs
    rcases hs with rfl | ⟨k, rfl⟩
    · exact absurd h (happ _)
    · exact absurd h (happ _)
  · obtain ⟨k, b, rfl⟩ : ∃ k b, i = .mail (.invokeAck k b) := hs
    simp only [exec, execMail, invokeAck] at h
    generalize (if (σ.mail.acks k).forClient then _ else _ : Bool) = active at h
    split at h
    · cases h
    · split at h <;> cases h
  · rfl

/-- The shape of what such an instruction leaves behind. -/
structure Shaped (e : Effect Core Instr) : Prop where
  last : ∀ j ∈ e.push.dropLast, j.isLast = false
  sole : ∀ j ∈ e.push, j.isPrompt = true → e.push = [j]
  post : ∀ j ∈ e.post, j.isLast = false

/-- **Each of them leaves the stack as it found it**, or with one such instruction at its end. -/
theorem shaped_of_fromTask {i : Instr} (σ : Core) (hi : i.isLast = true ∨ i.isTask = true) :
    Shaped (exec P i σ) := by
  have hcallback : ∀ (σ' : Core) (μ : Mail) (r : RequestId), Shaped
      { core := σ', push := (μ.callback r).push, post := (μ.callback r).post
        fails := (μ.callback r).fails } := fun σ' μ r => by
    unfold Mail.callback
    split <;> exact ⟨by simp, by simp [Instr.isPrompt], by simp⟩
  rcases hi with hi | hi
  · unfold Instr.isLast at hi
    split at hi
    · simp only [exec, execConn, completeConnectionAttempt]
      split
      · exact ⟨by simp, by simp, by simp⟩
      · split <;> exact ⟨by simp, by simp [Instr.isPrompt], by simp⟩
    · exact ⟨by simp [exec, execMail, flush], by simp [exec, execMail, flush],
        by simp [exec, execMail, flush]⟩
    · rename_i a s ps
      cases ps with
      | nil => exact ⟨by simp [exec, execMail, flushPackets],
          by simp [exec, execMail, flushPackets, Instr.isPrompt], by simp [exec, execMail, flushPackets]⟩
      | cons p ps =>
          simp only [exec, execMail, flushPackets]
          split
          · exact ⟨by simp, by simp, by simp⟩
          · exact ⟨by simp [Instr.isLast], by simp [Instr.isPrompt], by simp⟩
    · simp only [exec, execMail, flushRest]
      split
      · refine ⟨by simp, by simp, ?_⟩
        unfold sendToServer
        split <;> simp [Instr.isLast]
      · exact ⟨by simp, by simp, by simp⟩
    · exact hcallback ..
    · cases hi
  · unfold Instr.isTask at hi
    split at hi
    · simp only [exec, execCtl, completion]
      split
      · split <;> exact ⟨by simp [admission, Instr.isLast], by simp [admission, Instr.isPrompt], by simp⟩
      · split
        · split <;> exact ⟨by simp, by simp [Instr.isPrompt], by simp⟩
        · split <;>
            exact ⟨by simp [admission, Instr.isLast], by simp [admission, Instr.isPrompt], by simp⟩
    · rename_i reply
      cases reply with
      | callback => exact ⟨by simp [exec, execMail, ackReply],
          by simp [exec, execMail, ackReply, Instr.isPrompt], by simp [exec, execMail, ackReply]⟩
      | request r =>
          simp only [exec, execMail, ackReply]
          split
          · split
            · exact ⟨by simp, by simp, by simp⟩
            · exact hcallback ..
          · exact ⟨by simp, by simp, by simp⟩
    · cases hi

/-- What executes at once is last, and is not the application's. -/
theorem isPrompt_isLast {i : Instr} (h : i.isPrompt = true) :
    i.isLast = true ∧ isApp i = false := by
  unfold Instr.isPrompt at h
  split at h <;> [exact ⟨rfl, rfl⟩; exact ⟨rfl, rfl⟩; exact ⟨rfl, rfl⟩; cases h]

/-- Timers aside, only tasks start what is the last on the stack. -/
theorem tasks_grounded (P : Platform) : Grounded (runtime P) (fun i => i.isTask = true)
    (fun i => i.isLast = true) (fun i => i.isPrompt = true) fun i => i.isTimer = true where
  subset _ := isPrompt_isLast
  push _ _ _ h hj := isLast_spawned (List.mem_append_left _ h) hj
  last σ i pre j k hp hj := by
    have hp' : (exec P i σ).push = pre ++ j :: k := hp
    have hi := isLast_spawned (List.mem_append_left _ (show j ∈ (exec P i σ).push by simp [hp'])) hj
    have hs := (shaped_of_fromTask (P := P) σ hi).last
    by_contra hk
    have hmem : j ∈ (exec P i σ).push.dropLast := by
      obtain ⟨k, x, rfl⟩ := (List.eq_nil_or_concat k).resolve_left hk
      rw [hp', show pre ++ j :: k.concat x = (pre ++ j :: k) ++ [x] by simp, List.dropLast_concat]
      simp
    rw [hs j hmem] at hj
    cases hj
  sole σ i j hj hS :=
    (shaped_of_fromTask σ (isLast_spawned (List.mem_append_left _ hj) (isPrompt_isLast hS).1)).sole
      j hj hS
  task σ i j hj h := by
    rw [isTask_push hj] at h
    cases h
  post σ i j hj hB := by
    have hi := isLast_spawned (List.mem_append_right _ hj) hB
    rw [(shaped_of_fromTask σ hi).post j hj] at hB
    cases hB
  call σ i hc := by
    refine ⟨fun hT => ?_, fun hB => ?_⟩
    · unfold Instr.isTask at hT
      split at hT <;> [cases hc; cases hc; cases hT]
    · unfold Instr.isLast at hB
      split at hB <;> [cases hc; cases hc; cases hc; cases hc; rfl; cases hB]
  handle σ i is his j hj := by
    rcases onThrow_handle his with rfl | ⟨a, err, rfl, -⟩
    · cases hj
    · obtain rfl := List.mem_singleton.mp hj
      exact ⟨nofun, nofun⟩

/-! ## 2. What executes at once -/

/-- What is true of an instruction that executes as soon as it is pending. -/
def Core.Due (σ : Core) : Instr → Prop
  | .mail (.flush a s) | .mail (.flushPackets a s _) =>
    σ.conn.isConnectionAttemptConnected a s = true
  | .mail (.ackTimeout r) => r ∈ σ.mail.ackTimers
  | _ => True

theorem due_of_not_prompt {σ : Core} {i : Instr} (h : i.isPrompt = false) : σ.Due i := by
  unfold Core.Due
  split <;> [cases h; cases h; cases h; trivial]

/-- What is pushed to execute at once finds what pushed it. -/
theorem due_push {σ : Core} {i j : Instr} (hi : i.isPrompt = true → σ.Due i)
    (hj : j ∈ (exec P i σ).push) (hjS : j.isPrompt = true) : (exec P i σ).core.Due j := by
  have hs := spawnedBy (List.mem_append_left _ hj)
  unfold Instr.isPrompt at hjS
  split at hjS
  · simp only [Instr.SpawnedBy, MailInstr.SpawnedBy] at hs
    subst hs
    rename_i a s
    simp only [exec, execConn, completeConnectionAttempt] at hj ⊢
    split at hj
    · rename_i hp
      simp only [Conn.isConnectionAttemptPending, Bool.and_eq_true, decide_eq_true_eq] at hp
      simp [Core.Due, Conn.isConnectionAttemptPending, Conn.isConnectionAttemptConnected,
        Conn.setManager, Conn.setClient, Conn.setAttempt, hp.1, hp.2]
    · split at hj <;> simp at hj
  · simp only [Instr.SpawnedBy, MailInstr.SpawnedBy] at hs
    rcases hs with rfl | ⟨ps, rfl⟩ | ⟨p, ps, rfl⟩
    · exact hi rfl
    · exact hi rfl
    · simp only [exec, execMail, flushRest] at hj
      split at hj
      · assumption
      · cases hj
  · exact hs.elim
  · cases hjS

/-- A timer is called while it is set. -/
theorem due_call {σ : Core} {i : Instr} (hc : callable σ i = true) (hi : i.isPrompt = true) :
    σ.Due i := by
  unfold Instr.isPrompt at hi
  split at hi
  · cases hc
  · cases hc
  · exact List.contains_iff_mem.mp hc
  · cases hi

/-- Timers are called between two tasks. -/
abbrev timersIdle : State → Action Instr → Prop := Idles fun i => i.isTimer = true

/-- Nothing is pending at the start. -/
theorem newServer_rooted {T B S : Instr → Prop} : Rooted T B S newServer :=
  ⟨fun pre j k h => by simp [newServer] at h, fun _ h => absurd h List.not_mem_nil,
    fun _ h => absurd h List.not_mem_nil, fun _ h => absurd h List.not_mem_nil⟩

section Run

variable {C : State → Action Instr → Prop} {σ : State}

/-- In a run whose timers are called between two tasks, the three kinds stay in their places. -/
theorem reach_rooted (h : (runtime P).Reach C newServer σ) (hC : ∀ τ a, C τ a → timersIdle τ a) :
    Rooted (fun i => i.isTask = true) (fun i => i.isLast = true) (fun i => i.isPrompt = true) σ :=
  h.rooted (tasks_grounded P) hC newServer_rooted

/-- A run whose timers are called between two tasks executes only what is due. -/
theorem reach_due (h : (runtime P).Reach C newServer σ) (hC : ∀ τ a, C τ a → timersIdle τ a)
    (a : Action Instr) : (runtime P).Obeys Core.Due σ a := by
  intro _ i τ hn
  by_cases hi : i.isPrompt = true
  · obtain ⟨hcore, ⟨-, hst, -⟩ | ⟨-, -, hq⟩⟩ := next_pending hn
    · rw [← hcore]
      exact h.prompt (tasks_grounded P) hC newServer_rooted
        (fun _ _ _ hi hj hS => due_push hi hj hS) (fun _ _ hc hS => due_call hc hS)
        (fun _ h => absurd h List.not_mem_nil) i (hst ▸ List.mem_cons_self) hi
    · exact absurd (isPrompt_isLast hi).1
        ((reach_rooted h hC).queue i (hq ▸ List.mem_cons_self))
  · exact due_of_not_prompt (Bool.eq_false_iff.mpr hi)

end Run

/-! ## 3. Who puts what on the stack -/

/-- What belongs to a disconnect, an emit, a flush or a given up attempt that application code has
    interrupted. -/
def Instr.midway : Instr → Bool
  | .mail (.rejectPendingAcks _) | .mail (.rejectAck ..) | .mail (.clientEmitRest ..)
  | .mail (.flushPackets ..) | .mail (.flushRest ..) | .conn (.rejectConnectionAttemptRest ..)
  | .conn (.cancelConnectionAttemptRest _) => true
  | _ => false

/-- A packet to the server is a task of its own. -/
theorem sendToServer_posts {μ : Mail} {s : SocketId} {c : ClientId} {serial : Nat} {event : String}
    {reply : Option Reply} : ∀ j ∈ (sendToServer μ s c serial event reply).2,
      j.isLast = false ∧ j.midway = false := by
  unfold sendToServer
  split <;> simp [Instr.isLast, Instr.midway]

/-- A handle is rejected by its client's disconnect, or by an emit whose client has gone
    meanwhile. -/
theorem rejectAck_spawned {i : Instr} {σ : Core} {c : ClientId} {h : AckHandle}
    (hj : .mail (.rejectAck c h) ∈ (exec P i σ).spawned) :
    (i = .mail (.rejectPendingAcks c) ∧ h ∈ (σ.mail.outboxes c).pendingAcks) ∨
      ∃ p r, i = .mail (.clientEmitRest c p) ∧ h = .promise r ∧ p.reply = some (.request r) ∧
        (σ.mail.requests r).promise = true ∧ (σ.mail.requests r).reason = true := by
  have hs : i = .mail (.rejectPendingAcks c) ∨ ∃ p, i = .mail (.clientEmitRest c p) := spawnedBy hj
  rcases hs with rfl | ⟨p, rfl⟩
  · exact Or.inl ⟨rfl, by simpa [exec, execMail, Effect.spawned, OSet.mem_def] using hj⟩
  · refine Or.inr ⟨p, ?_⟩
    simp only [exec, execMail, clientEmitRest] at hj
    split at hj
    · cases hj
    · rename_i s _
      have hreq := (sendToServer_requests σ.mail s c p.serial p.event p.reply).requests
      have hpost : ∀ k, Instr.mail (.rejectAck c k) ∉
          (sendToServer σ.mail s c p.serial p.event p.reply).2 := fun k hk => by
        cases (sendToServer_posts _ hk).2
      split at hj
      · rename_i r hr
        simp only [Effect.spawned, List.mem_append] at hj
        rcases hj with hj | hj
        · split at hj
          · rename_i hq
            simp only [Mail.setOutbox, hreq, Bool.and_eq_true] at hq
            simp only [List.mem_singleton, Instr.mail.injEq, MailInstr.rejectAck.injEq,
              true_and] at hj
            exact ⟨r, rfl, hj, hr, hq⟩
          · cases hj
        · exact absurd hj (hpost h)
      · simp only [Effect.spawned, List.nil_append] at hj
        exact absurd hj (hpost h)

theorem setOutbox_sendBuffer {μ : Mail} {c d : ClientId} {g : Outbox → Outbox}
    (hg : ∀ b, (g b).sendBuffer = b.sendBuffer) :
    ((μ.setOutbox c g).outboxes d).sendBuffer = (μ.outboxes d).sendBuffer := by
  simp only [Mail.setOutbox, modify_apply]
  split
  · rename_i hd
    rw [hg, hd]
  · rfl

/-- An emit goes on only while its client is connected, and leaves the buffers alone. -/
theorem clientEmitRest_spawned {i : Instr} {σ : Core} {c : ClientId} {p : BufferedPacket}
    (hj : .mail (.clientEmitRest c p) ∈ (exec P i σ).spawned) :
    ∃ event form, i = .mail (.clientEmit c event form) ∧ (σ.conn.clients c).connected = true ∧
      .mail (.clientEmitRest c p) ∈ (clientEmit σ c event form).push ∧
      ∀ d, ((exec P i σ).core.mail.outboxes d).sendBuffer = (σ.mail.outboxes d).sendBuffer := by
  obtain ⟨event, form, rfl⟩ : ∃ event form, i = .mail (.clientEmit c event form) := spawnedBy hj
  refine ⟨event, form, rfl, ?_⟩
  simp only [exec, execMail, clientEmit] at hj ⊢
  split at hj
  · cases hj
  · rename_i hres
    rw [if_neg hres]
    generalize Request.mk _ _ _ _ _ _ _ = q at hj ⊢
    have hout := newRequest_outboxes σ.mail form q
    generalize σ.mail.newRequest form q = nr at hj hout ⊢
    obtain ⟨μ, reply⟩ := nr
    dsimp only at hj hout ⊢
    cases hc : (σ.conn.clients c).connected with
    | false => simp [hc, Effect.spawned] at hj
    | true =>
        simp only [hc, Bool.not_true, Bool.false_eq_true, if_false, Effect.spawned,
          List.append_nil] at hj ⊢
        refine ⟨trivial, hj, fun d => ?_⟩
        have hd : (μ.outboxes d).sendBuffer = (σ.mail.outboxes d).sendBuffer := by rw [hout]
        split
        · split
          · exact (setOutbox_sendBuffer (by intro b; rfl)).trans hd
          · exact hd
        · refine (setOutbox_sendBuffer (by intro b; rfl)).trans ?_
          split
          · exact (setOutbox_sendBuffer (by intro b; rfl)).trans hd
          · exact hd

/-- A flush starts with the whole buffer and goes on with what is left of it. -/
theorem flushPackets_spawned {i : Instr} {σ : Core} {a : AttemptId} {s : SocketId}
    {ps : List BufferedPacket} (hj : .mail (.flushPackets a s ps) ∈ (exec P i σ).spawned) :
    (i = .mail (.flush a s) ∧ ps = (σ.mail.outboxes (σ.conn.attempts a).client).sendBuffer) ∨
      ∃ p, i = .mail (.flushPackets a s (p :: ps)) ∨ i = .mail (.flushRest a s p ps) := by
  have hs : i = .mail (.flush a s) ∨ (∃ qs, i = .mail (.flushPackets a s qs)) ∨
    ∃ p qs, i = .mail (.flushRest a s p qs) := spawnedBy hj
  rcases hs with rfl | ⟨qs, rfl⟩ | ⟨p, qs, rfl⟩
  · refine Or.inl ⟨rfl, ?_⟩
    simpa [exec, execMail, flush, Effect.spawned] using hj
  · cases qs with
    | nil => simp [exec, execMail, flushPackets, Effect.spawned] at hj
    | cons p qs =>
        simp only [exec, execMail, flushPackets] at hj
        split at hj
        · obtain rfl : ps = qs := by simpa [Effect.spawned] using hj
          exact Or.inr ⟨p, Or.inl rfl⟩
        · simp [Effect.spawned] at hj
  · simp only [exec, execMail, flushRest] at hj
    split at hj
    · simp only [Effect.spawned, List.mem_append, List.mem_singleton] at hj
      rcases hj with hj | hj
      · obtain rfl : ps = qs := by simpa using hj
        exact Or.inr ⟨p, Or.inr rfl⟩
      · cases (sendToServer_posts _ hj).2
    · cases hj

/-- A packet whose request has been settled is skipped. -/
theorem flushRest_spawned {i : Instr} {σ : Core} {a : AttemptId} {s : SocketId}
    {p : BufferedPacket} {ps : List BufferedPacket}
    (hj : .mail (.flushRest a s p ps) ∈ (exec P i σ).spawned) :
    i = .mail (.flushPackets a s (p :: ps)) ∧ σ.mail.isSettled p = false := by
  have hs : i = .mail (.flushPackets a s (p :: ps)) := spawnedBy hj
  subst hs
  refine ⟨rfl, ?_⟩
  simp only [exec, execMail, flushPackets] at hj
  split at hj
  · simp [Effect.spawned] at hj
  · rename_i hset
    exact Bool.eq_false_iff.mpr hset

/-- Who leaves such an instruction pending, on the stack. -/
theorem midway_spawned {i j : Instr} {σ : Core} (h : j ∈ (exec P i σ).spawned)
    (hj : j.midway = true) : (∃ a err, i = .conn (.rejectConnectionAttempt a err)) ∨
      (∃ c, i = .conn (.cancelConnectionAttempt c)) ∨ (∃ c r, i = .conn (.markDisconnected c r)) ∨
      (∃ c, i = .mail (.rejectPendingAcks c)) ∨ (∃ c p, i = .mail (.clientEmitRest c p)) ∨
      (∃ c e f, i = .mail (.clientEmit c e f)) ∨ (∃ a s, i = .mail (.flush a s)) ∨
      (∃ a s ps, i = .mail (.flushPackets a s ps)) ∨ ∃ a s p ps, i = .mail (.flushRest a s p ps) := by
  have hs := spawnedBy h
  unfold Instr.midway at hj
  split at hj
  case h_8 => cases hj
  all_goals
    simp only [Instr.SpawnedBy, MailInstr.SpawnedBy, ConnInstr.SpawnedBy] at hs
    grind

/-- None of these is a task. -/
theorem midway_post {i j : Instr} {σ : Core} (h : j ∈ (exec P i σ).post) : j.midway = false := by
  by_contra hj
  rw [Bool.not_eq_false] at hj
  rcases midway_spawned (List.mem_append_right _ h) hj with ⟨a, err, rfl⟩ | ⟨c, rfl⟩ | ⟨c, r, rfl⟩ |
    ⟨c, rfl⟩ | ⟨c, p, rfl⟩ | ⟨c, e, f, rfl⟩ | ⟨a, s, rfl⟩ | ⟨a, s, ps, rfl⟩ | ⟨a, s, p, ps, rfl⟩
  · simp only [exec, execConn, rejectConnectionAttempt] at h
    split at h <;> cases h
  · simp only [exec, execConn, cancelConnectionAttempt] at h
    split at h
    · cases h
    · split at h <;> cases h
  · simp only [exec, execConn, markDisconnected] at h
    split at h <;> cases h
  · cases h
  · simp only [exec, execMail, clientEmitRest] at h
    split at h
    · cases h
    · split at h <;> rw [(sendToServer_posts _ h).2] at hj <;> cases hj
  · simp only [exec, execMail, clientEmit] at h
    split at h
    · cases h
    · split at h <;> cases h
  · cases h
  · cases ps with
    | nil => cases h
    | cons p ps =>
        simp only [exec, execMail, flushPackets] at h
        split at h <;> cases h
  · simp only [exec, execMail, flushRest] at h
    split at h
    · rw [(sendToServer_posts _ h).2] at hj
      cases hj
    · cases h

/-! ## 4. The handles of the heap -/

/-- A handle of a request of `c`. -/
structure Mail.Handle (μ : Mail) (c : ClientId) (h : AckHandle) : Prop where
  lt : h.request < μ.requestCount
  client : (μ.requests h.request).client = some c
  fits : μ.Fits h

/-- A packet of `c` with the wrapper of its request. -/
structure Mail.Owns (μ : Mail) (c : ClientId) (p : BufferedPacket) : Prop where
  wraps : μ.Wraps p
  lt : ∀ r, p.reply = some (.request r) → r < μ.requestCount
  client : ∀ r, p.reply = some (.request r) → (μ.requests r).client = some c

/-- **The requests, handles and buffers of the heap.** Only what has not been settled can still be
    rejected, sent from a buffer or timed out; an `emitWithAck` may leave the handle of its timer
    behind. -/
structure Mail.Requested (μ : Mail) : Prop where
  handle : ∀ c h, h ∈ (μ.outboxes c).pendingAcks → μ.Handle c h
  tracked : ∀ c r, .timed r ∈ (μ.outboxes c).pendingAcks → (μ.requests r).promise = false →
    (μ.requests r).settled = false
  packet : ∀ c p, p ∈ (μ.outboxes c).sendBuffer → μ.Owns c p
  buffered : ∀ c p r, p ∈ (μ.outboxes c).sendBuffer → p.timedCallback = some r →
    (μ.requests r).settled = false
  timer : ∀ r ∈ μ.ackTimers, r < μ.requestCount ∧ (μ.requests r).timed = true ∧
    (μ.requests r).settled = false
  nodup : μ.ackTimers.Nodup
  asked : ∀ r < μ.requestCount, ∀ c, (μ.requests r).client = some c →
    (μ.requests r).tracked = !(μ.requests r).promise
  wrapped : ∀ r < μ.requestCount, (μ.requests r).promise = false → (μ.requests r).timed = true
  blank : ∀ r, μ.requestCount ≤ r → (μ.requests r).timed = false

section Turn

variable {asker : Option ClientId} {T : ClientId → AckHandle → Prop}
  {B : ClientId → BufferedPacket → Prop} {μ μ' : Mail}

theorem Mail.Turns.old (h : μ.Turns asker T B μ') {r : RequestId} (hr : r < μ.requestCount) :
    (μ.requests r).Made (μ'.requests r) :=
  h.made r fun hf => absurd hr (Nat.not_lt.mpr hf.1)

/-- A handle stays that of its client. -/
theorem Mail.Handle.mono {c : ClientId} {k : AckHandle} (hk : μ.Handle c k)
    (h : μ.Turns asker T B μ') : μ'.Handle c k where
  lt := hk.lt.trans_le h.count
  client := (h.old hk.lt).client.trans hk.client
  fits := by
    have hf := hk.fits
    cases k with
    | timed r => exact (h.old hk.lt).timed.trans hf
    | promise r => exact (h.old hk.lt).promise.trans hf

/-- A packet stays its client's. -/
theorem Mail.Owns.mono {c : ClientId} {p : BufferedPacket} (hp : μ.Owns c p)
    (h : μ.Turns asker T B μ') : μ'.Owns c p where
  wraps := by
    refine hp.wraps.trans ?_
    cases hrep : p.reply with
    | none => rfl
    | some reply =>
        cases reply with
        | callback => rfl
        | request r => simp only [Mail.timedOf, (h.old (hp.lt r hrep)).timed]
  lt r hr := (hp.lt r hr).trans_le h.count
  client r hr := (h.old (hp.lt r hr)).client.trans (hp.client r hr)

/-- The request a packet wraps. -/
theorem Mail.Owns.timed {c : ClientId} {p : BufferedPacket} {r : RequestId} (hp : μ.Owns c p)
    (hr : p.timedCallback = some r) :
    r < μ.requestCount ∧ (μ.requests r).client = some c ∧ (μ.requests r).timed = true := by
  obtain ⟨hrep, ht⟩ := timedOf_eq_some (hp.wraps ▸ hr)
  exact ⟨hp.lt r hrep, hp.client r hrep, ht⟩

end Turn

/-- **What is true of a pending instruction** that has a request, a packet or a handle in hand. -/
def Core.Placed (σ : Core) : Instr → Prop
  | .mail (.rejectPendingAcks c) => (σ.conn.clients c).connected = false
  | .mail (.rejectAck c h) => σ.mail.Handle c h ∧ (σ.conn.clients c).connected = false ∧
      ∀ r, h = .timed r → h ∉ (σ.mail.outboxes c).pendingAcks ∧
        ((σ.mail.requests r).promise = false → (σ.mail.requests r).settled = false)
  | .mail (.clientEmitRest c p) => σ.mail.Owns c p ∧
      (σ.conn.clients c).serverSocket.isSome = true ∧ ∀ r, p.reply = some (.request r) →
        ((σ.mail.requests r).reason = true → (σ.conn.clients c).connected = false) ∧
        ∀ d, ∀ q ∈ (σ.mail.outboxes d).sendBuffer, q.timedCallback ≠ some r
  | .mail (.flushPackets a _ ps) => ∀ p ∈ ps, σ.mail.Owns (σ.conn.attempts a).client p
  | .mail (.flushRest a _ p ps) => (∀ q ∈ p :: ps, σ.mail.Owns (σ.conn.attempts a).client q) ∧
      (σ.mail.isSettled p = false ∨
        (σ.conn.clients (σ.conn.attempts a).client).connected = false)
  | .conn (.rejectConnectionAttemptRest a _) =>
      (σ.conn.clients (σ.conn.attempts a).client).connected = false
  | .conn (.cancelConnectionAttemptRest c) => (σ.conn.clients c).connected = false
  | _ => True

/-- A client that is connected has a server socket and its attempt. -/
structure Conn.Paired (κ : Conn) : Prop where
  serverSocket : ∀ c, (κ.clients c).connected = true → (κ.clients c).serverSocket.isSome = true
  attempt : ∀ c, (κ.clients c).connected = true → (κ.clients c).connectionAttempt.isSome = true

/-- What is known of every state and of every pending instruction. -/
structure Core.Handled (P : Platform) (σ : Core) : Prop where
  wf : σ.Wf P
  steady : σ.conn.Steady
  paired : σ.conn.Paired
  requested : σ.mail.Requested

/-- What a pending instruction brings with it. -/
structure Core.Known (σ : Core) (i : Instr) : Prop where
  valid : i.Valid σ
  placed : σ.Placed i

/-- The request an instruction settles, its handle and the packets that carry it are nowhere in the
    heap afterwards. -/
theorem requested_exec {σ : Core} {i : Instr} (h : σ.Handled P) (hi : σ.Known i) :
    (exec P i σ).core.mail.Requested := by
  have hT := exec_turns (P := P) i σ
  have hA : ∀ {r}, r < σ.mail.requestCount → ((exec P i σ).core.mail.requests r).settled = true →
      (σ.mail.requests r).settled = true ∨ σ.settles r i = true := fun hr =>
    (exec_answers (P := P) i hr).settled.mp
  have hC : ∀ {r}, σ.settles r i = true → (exec P i σ).core.mail.Cleared r := fun hs =>
    settles_cleared hs h.requested.nodup
  have hmade := fun {r} hr => hT.old (r := r) hr
  refine ⟨?_, ?_, ?_, ?_, ?_, hT.nodup h.requested.nodup fun r hr => (h.requested.timer r hr).1, ?_,
    ?_, ?_⟩
  · intro c k hk
    rcases hT.pendingAcks c k hk with hk | ⟨hc, hf, hfit⟩ | ⟨a, s, p, ps, r, rfl, rfl, hp, rfl, -⟩
    · exact (h.requested.handle c k hk).mono hT
    · exact ⟨hf.2, (hT.asked _ hf).client.trans hc, hfit⟩
    · obtain ⟨hlt, hcl, ht⟩ := (hi.placed p List.mem_cons_self).timed hp
      exact Mail.Handle.mono ⟨hlt, hcl, ht⟩ hT
  · intro c r hk hprom
    rw [← Bool.not_eq_true]
    intro hset
    rcases hT.pendingAcks c _ hk with hk' | ⟨-, hf, -⟩ | ⟨a, s, p, ps, r', rfl, rfl, hp, hr, hopen⟩
    · have hh := h.requested.handle c _ hk'
      have hlt : r < σ.mail.requestCount := hh.lt
      have hcl : (σ.mail.requests r).client = some c := hh.client
      have hprom' := (hmade hlt).promise.symm.trans hprom
      rcases hA hlt hset with hs | hs
      · rw [h.requested.tracked c r hk' hprom'] at hs
        cases hs
      · refine (hC hs).pendingAcks ?_ c ((hmade hlt).client.trans hcl) hk
        rw [(hmade hlt).tracked, h.requested.asked r hlt c hcl, hprom']
        rfl
    · have hf' : σ.mail.Fresh (exec P i σ).core.mail r := hf
      rw [(hT.asked r hf').settled] at hset
      cases hset
    · obtain rfl := AckHandle.timed.inj hr
      rcases hA ((hi.placed p List.mem_cons_self).timed hp).1 hset with hs | hs
      · rw [hopen] at hs
        cases hs
      · cases hs
  · intro c p hp
    rcases hT.sendBuffer c p hp with hp | ⟨hc, hw, hf⟩ | ⟨a, s, p₀, ps, rfl, rfl, hp, -⟩
    · exact (h.requested.packet c p hp).mono hT
    · exact ⟨hw, fun r hr => (hf r hr).2, fun r hr => (hT.asked r (hf r hr)).client.trans hc⟩
    · exact (hi.placed.1 p hp).mono hT
  · intro c p r hp hr
    rw [← Bool.not_eq_true]
    intro hset
    rcases hT.sendBuffer c p hp with hp' | ⟨-, hw, hf⟩ | ⟨a, s, p₀, ps, rfl, rfl, hp', hopen, -⟩
    · obtain ⟨hlt, hcl, -⟩ := (h.requested.packet c p hp').timed hr
      rcases hA hlt hset with hs | hs
      · rw [h.requested.buffered c p r hp' hr] at hs
        cases hs
      · exact (hC hs).sendBuffer c ((hmade hlt).client.trans hcl) p hp hr
    · obtain ⟨hrep, -⟩ := timedOf_eq_some (hw ▸ hr)
      rw [(hT.asked r (hf r hrep)).settled] at hset
      cases hset
    · obtain ⟨hlt, -, -⟩ := (hi.placed.1 p hp').timed hr
      rcases hA hlt hset with hs | hs
      · simp [Mail.isSettled, hr, hs] at hopen
      · cases hs
  · intro r hr
    rcases hT.ackTimers r hr with hr' | ⟨hf, ht⟩
    · obtain ⟨hlt, ht, hset⟩ := h.requested.timer r hr'
      refine ⟨hlt.trans_le hT.count, (hmade hlt).timed.trans ht, ?_⟩
      rw [← Bool.not_eq_true]
      intro hset'
      rcases hA hlt hset' with hs | hs
      · rw [hset] at hs
        cases hs
      · exact (hC hs).ackTimers hr
    · exact ⟨hf.2, ht, (hT.asked r hf).settled⟩
  · intro r hr c hc
    by_cases hlt : r < σ.mail.requestCount
    · rw [(hmade hlt).tracked, (hmade hlt).promise]
      exact h.requested.asked r hlt c ((hmade hlt).client.symm.trans hc)
    · have hf := hT.asked r ⟨Nat.not_lt.mp hlt, hr⟩
      exact hf.tracked fun hn => by rw [hf.client.symm.trans hc] at hn; cases hn
  · intro r hr hprom
    by_cases hlt : r < σ.mail.requestCount
    · exact (hmade hlt).timed.trans
        (h.requested.wrapped r hlt ((hmade hlt).promise.symm.trans hprom))
    · exact (hT.asked r ⟨Nat.not_lt.mp hlt, hr⟩).wrapped hprom
  · intro r hr
    exact (hT.made r fun hf => absurd hf.2 (Nat.not_lt.mpr hr)).timed.trans
      (h.requested.blank r (hT.count.trans hr))

/-- Whoever is connected has a socket. -/
theorem serverSocket_exec {σ : Core} (hS : σ.conn.Steady) {c : ClientId}
    (h : (σ.conn.clients c).connected = true → (σ.conn.clients c).serverSocket.isSome = true)
    (i : Instr) (hc : ((exec P i σ).core.conn.clients c).connected = true) :
    ((exec P i σ).core.conn.clients c).serverSocket.isSome = true := by
  cases i with
  | conn i =>
      have hcomplete : ∀ a s, i = .completeConnectionAttempt a s →
          σ.conn.isConnectionAttemptPending a = true → (σ.conn.attempts a).client = c →
          (((execConn P σ i).part.clients c).serverSocket).isSome = true := by
        rintro a s rfl hp rfl
        simp [execConn, completeConnectionAttempt, hp, Conn.setManager, Conn.setClient]
      rcases execConn_connected hc with hc' | ⟨a, s, hi, hp, hcl⟩
      · rcases execConn_serverSocket (hS.born c hc') with hs | ⟨a, s, hi, hp, hcl⟩
        · exact hs ▸ h hc'
        · exact hcomplete a s hi hp hcl
      · exact hcomplete a s hi hp hcl
  | _ => exact h hc

theorem begin_attempt {κ : Conn} {c d : ClientId}
    (h : (κ.clients d).connectionAttempt.isSome = true) :
    ((κ.beginConnectionAttempt c).1.clients d).connectionAttempt.isSome = true := by
  unfold Conn.beginConnectionAttempt
  split
  · exact h
  · simp only [Conn.setManager, Conn.setClient, Conn.newAttempt, modify_apply]
    split
    · rfl
    · exact h

/-- It also has the attempt that connected it. -/
theorem attempt_exec {σ : Core} {i : Instr} (h : σ.Handled P) (hi : σ.Known i) {c : ClientId}
    (hc : ((exec P i σ).core.conn.clients c).connected = true) :
    ((exec P i σ).core.conn.clients c).connectionAttempt.isSome = true := by
  cases i with
  | conn i =>
      have hset : ∀ {κ : Conn} {d : ClientId} {g : ClientSocket → ClientSocket},
          (κ.clients c).connectionAttempt.isSome = true →
          (∀ x, (g x).connectionAttempt = x.connectionAttempt) →
          ((κ.setClient d g).clients c).connectionAttempt.isSome = true := fun hs hg => by
        rw [Conn.setClient_same ClientSocket.connectionAttempt hg]
        exact hs
      rcases execConn_connected hc with hc' | ⟨a, s, rfl, hp, rfl⟩
      · have ha := h.paired.attempt c hc'
        cases i with
        | openClient name b f =>
            have hnew : ∀ io nsp, (((σ.conn.managerFor name f).1.newClient io name nsp b).clients
                c).connectionAttempt.isSome = true := fun io nsp => by
              have hne : c ≠ (σ.conn.managerFor name f).1.clientCount :=
                ((h.steady.born c hc').trans_le (Conn.Extends.managerFor σ.conn name f).clients).ne
              simp [Conn.newClient, hne, managerFor_clients, ha]
            simp only [exec, execConn, openClient]
            split
            · exact begin_attempt (hnew _ _)
            · split <;> exact hnew _ _
        | connect d =>
            simp only [exec, execConn, connect]
            split
            · exact ha
            · split
              · exact ha
              · exact begin_attempt (hset ha fun _ => rfl)
        | setAuth d b => exact hset ha fun _ => rfl
        | admitDynamic d => exact begin_attempt ha
        | attachNamespace d n => exact hset ha fun _ => rfl
        | newServerSocket a n =>
            simp only [exec, execConn, newServerSocket]
            split <;> exact ha
        | rejectConnectionAttempt a err =>
            simp only [exec, execConn, rejectConnectionAttempt]
            split <;> exact ha
        | rejectConnectionAttemptRest a err =>
            have hpl : (σ.conn.clients (σ.conn.attempts a).client).connected = false := hi.placed
            have hne : c ≠ (σ.conn.attempts a).client := fun hca => by
              rw [hca, hpl] at hc'
              cases hc'
            simp only [exec, execConn, rejectConnectionAttemptRest]
            split <;> simpa [Conn.setManager, Conn.setClient, hne] using ha
        | cancelConnectionAttempt d =>
            simp only [exec, execConn, cancelConnectionAttempt]
            split
            · exact ha
            · split <;> exact ha
        | cancelConnectionAttemptRest d =>
            have hpl : (σ.conn.clients d).connected = false := hi.placed
            have hne : c ≠ d := fun hcd => by
              rw [hcd, hpl] at hc'
              cases hc'
            simpa [exec, execConn, cancelConnectionAttemptRest, Conn.setManager, Conn.setClient,
              hne] using ha
        | completeConnectionAttempt a s =>
            simp only [exec, execConn, completeConnectionAttempt]
            split
            · exact hset ha fun _ => rfl
            · split <;> exact ha
        | markDisconnected d reason =>
            simp only [exec, execConn, markDisconnected] at hc ⊢
            split
            · exact ha
            · rename_i a' ha'
              simp only [ha', Conn.setManager, Conn.setClient, modify_apply] at hc ⊢
              split
              · rename_i hcd
                simp [hcd] at hc
              · exact ha
      · simp only [Conn.isConnectionAttemptPending, Bool.and_eq_true, decide_eq_true_eq] at hp
        simp [exec, execConn, completeConnectionAttempt, Conn.isConnectionAttemptPending, hp.1, hp.2,
          Conn.setManager, Conn.setClient, Conn.setAttempt]
  | _ => exact h.paired.attempt c hc

/-- **One step keeps the requests and their handles in order.** -/
theorem handled_exec {σ : Core} {i : Instr} (h : σ.Handled P) (hi : σ.Known i) :
    (exec P i σ).core.Handled P where
  wf := wf_exec h.wf hi.valid
  steady := steady_exec h.wf h.steady hi.valid
  paired :=
    ⟨fun _ hc => serverSocket_exec h.steady (h.paired.serverSocket _) i hc,
      fun _ hc => attempt_exec h hi hc⟩
  requested := requested_exec h hi

/-! ## 5. The order of what is pending -/

/-- The rest of a flush carries a packet with the wrapper of `r`. -/
def Instr.holds (r : RequestId) : Instr → Prop
  | .mail (.flushPackets _ _ ps) => ∃ p ∈ ps, p.timedCallback = some r
  | .mail (.flushRest _ _ p ps) => ∃ q ∈ p :: ps, q.timedCallback = some r
  | _ => False

/-- **`i` may execute before `j`.** -/
structure Instr.Before (i j : Instr) : Prop where
  task : i.isLast = true ∨ i.isTask = true → j.midway = false
  once : ∀ c r, i = .mail (.rejectAck c (.timed r)) → ∀ d, j ≠ .mail (.rejectAck d (.timed r))
  emit : ∀ c p r, i = .mail (.clientEmitRest c p) → p.timedCallback = some r → ¬ j.holds r

/-- What does not belong to one of these may come after anything. -/
theorem Instr.Before.of_not_midway {i j : Instr} (h : j.midway = false) : i.Before j where
  task _ := h
  once _ _ _ d hj := by
    subst hj
    cases h
  emit _ _ _ _ _ hr := by
    unfold Instr.holds at hr
    split at hr <;> [cases h; cases h; exact hr]

/-- What is not one of these may come before anything. -/
theorem Instr.Before.of_other {i j : Instr} (h₁ : i.isLast = false) (h₂ : i.isTask = false)
    (h₃ : i.midway = false) : i.Before j where
  task h := by simp [h₁, h₂] at h
  once _ _ hi := by
    subst hi
    cases h₃
  emit _ _ _ hi := by
    subst hi
    cases h₃

section Order

variable {σ : Core} {i j : Instr}

/-- While such an instruction is pending, only what is below it on the stack connects a client. -/
theorem connected_stable (hB : i.Before j) (hj : j.midway = true) {c : ClientId}
    (hc : (σ.conn.clients c).connected = false) :
    ((exec P i σ).core.conn.clients c).connected = false := by
  rw [← Bool.not_eq_true]
  intro hc'
  cases i with
  | conn i =>
      rcases execConn_connected hc' with h | ⟨a, s, rfl, -, -⟩
      · rw [hc] at h
        cases h
      · rw [hB.task (Or.inl rfl)] at hj
        cases hj
  | _ => exact Bool.false_ne_true (hc.symm.trans hc')

/-- Meanwhile a request is settled by its rejection only. -/
theorem settles_midway (hi : σ.Known i) (hB : i.Before j) (hj : j.midway = true) {r : RequestId}
    (h : σ.settles r i = true) : ∃ c k, i = .mail (.rejectAck c k) ∧ k.request = r ∧
      (σ.mail.requests r).client = some c ∧ (σ.conn.clients c).connected = false ∧
      (k = .promise r → (σ.mail.requests r).promise = true) := by
  unfold Core.settles at h
  split at h
  · rw [hB.task (Or.inr rfl)] at hj
    cases hj
  · rw [hB.task (Or.inl rfl)] at hj
    cases hj
  · rename_i c r'
    obtain rfl : r' = r := by simpa using h
    exact ⟨c, _, rfl, rfl, hi.placed.1.client, hi.placed.2.1, nofun⟩
  · rename_i c r'
    simp only [Bool.and_eq_true, decide_eq_true_eq] at h
    obtain ⟨⟨rfl, -⟩, -⟩ := h
    exact ⟨c, _, rfl, rfl, hi.placed.1.client, hi.placed.2.1, fun _ => hi.placed.1.fits⟩
  · cases h

/-- A packet counts as settled once its request has been settled. -/
theorem isSettled_exec {c : ClientId} {p : BufferedPacket} (hp : σ.mail.Owns c p)
    (h : (exec P i σ).core.mail.isSettled p = true) :
    σ.mail.isSettled p = true ∨ ∃ r, p.timedCallback = some r ∧ σ.settles r i = true := by
  unfold Mail.isSettled at h ⊢
  cases hr : p.timedCallback with
  | none => simp [hr] at h
  | some r =>
      simp only [hr, Option.any_some] at h ⊢
      exact ((exec_answers i (hp.timed hr).1).settled.mp h).imp id fun hs => ⟨r, rfl, hs⟩

/-- What an instruction spawns is placed. -/
theorem placed_spawned (h : σ.Handled P) (hi : σ.Known i)
    (hj : j ∈ (exec P i σ).spawned) : (exec P i σ).core.Placed j := by
  have hT := exec_turns (P := P) i σ
  have h' := handled_exec h hi
  unfold Core.Placed
  split
  · rename_i c
    obtain ⟨r, rfl⟩ : ∃ r, i = .conn (.markDisconnected c r) := spawnedBy hj
    simp only [exec, execConn, markDisconnected] at hj ⊢
    split at hj
    · cases hj
    · rename_i a ha
      simp [Conn.setManager, Conn.setClient]
  · rename_i c k
    rcases rejectAck_spawned hj with ⟨rfl, hk⟩ | ⟨p, r, rfl, rfl, hrep, hprom, hreason⟩
    · refine ⟨(h.requested.handle c k hk).mono hT, hi.placed, fun r hr => ⟨?_, ?_⟩⟩
      · simp [exec, execMail, Mail.setOutbox]
      · subst hr
        exact h.requested.tracked c r hk
    · obtain ⟨howns, -, hp⟩ := hi.placed
      exact ⟨Mail.Handle.mono ⟨howns.lt r hrep, howns.client r hrep, hprom⟩ hT,
        (hp r hrep).1 hreason, (by intro _ h; cases h)⟩
  · rename_i c p
    obtain ⟨event, form, rfl, hc, hpush, hbuf⟩ := clientEmitRest_spawned hj
    obtain ⟨-, hp⟩ :=
      clientEmit_turns (T := fun _ _ => False) (B := fun _ _ => False) σ c event form
    obtain ⟨hw, hf⟩ := hp p hpush
    refine ⟨⟨hw, fun r hr => (hf r hr).2, fun r hr => (hT.asked r (hf r hr)).client⟩,
      h.paired.serverSocket c hc, fun r hr => ⟨fun hre => ?_, fun d q hq hqr => ?_⟩⟩
    · rw [(hT.asked r (hf r hr)).reason] at hre
      cases hre
    · rw [hbuf d] at hq
      exact absurd ((h.requested.packet d q hq).timed hqr).1 (Nat.not_lt.mpr (hf r hr).1)
  · rename_i a s ps
    rcases flushPackets_spawned hj with ⟨rfl, rfl⟩ | ⟨p, rfl | rfl⟩
    · exact fun p hp => (h.requested.packet _ p hp).mono hT
    · exact fun q hq => (hi.placed q (List.mem_cons_of_mem _ hq)).mono hT
    · exact fun q hq => (hi.placed.1 q (List.mem_cons_of_mem _ hq)).mono hT
  · rename_i a s p ps
    obtain ⟨rfl, hset⟩ := flushRest_spawned hj
    refine ⟨fun q hq => (hi.placed q hq).mono hT, Or.inl ?_⟩
    rw [← Bool.not_eq_true]
    intro hset'
    rcases isSettled_exec (hi.placed p List.mem_cons_self) hset' with hs | ⟨r, -, hs⟩
    · rw [hset] at hs
      cases hs
    · cases hs
  · rename_i a err
    obtain rfl : i = .conn (.rejectConnectionAttempt a err) := spawnedBy hj
    simp only [exec, execConn, rejectConnectionAttempt] at hj ⊢
    split at hj
    · rename_i hp
      simp only [Conn.isConnectionAttemptPending, Bool.and_eq_true, decide_eq_true_eq] at hp
      simp only [Conn.isConnectionAttemptPending, hp.1, hp.2, Conn.setAttempt, modify_apply,
        if_true, decide_true, Bool.and_self, ← Bool.not_eq_true]
      exact fun hc => h.steady.settled _ a hc hp.1 hp.2
    · cases hj
  · rename_i c
    obtain rfl : i = .conn (.cancelConnectionAttempt c) := spawnedBy hj
    simp only [exec, execConn, cancelConnectionAttempt] at hj ⊢
    split at hj
    · cases hj
    · rename_i a ha
      split at hj
      · rename_i hp
        simp only [hp, Conn.setAttempt, if_true, ← Bool.not_eq_true]
        exact fun hc => h.steady.settled c a hc ha hp
      · cases hj
  · trivial

/-- It stays placed while what may execute before it executes. -/
theorem placed_stable (h : σ.Handled P) (hi : σ.Known i) (hj : σ.Known j) (hB : i.Before j) :
    (exec P i σ).core.Placed j := by
  have hT := exec_turns (P := P) i σ
  have hpl := hj.placed
  have hclient : ∀ {a s}, .builtFor a s ∈ j.refs →
      ((exec P i σ).core.conn.attempts a).client = (σ.conn.attempts a).client := fun {a s} ha => by
    obtain ⟨hs, rfl⟩ : s < σ.conn.socketCount ∧ (σ.conn.sockets s).attempt = a := hj.valid _ ha
    exact (conn_extends h.wf hi.valid).clientOf _ (h.wf.conn.attempt_lt hs)
  unfold Core.Placed at hpl ⊢
  split
  · exact connected_stable hB rfl hpl
  · rename_i c k
    obtain ⟨hk, hc, hnot⟩ := hpl
    refine ⟨hk.mono hT, connected_stable hB rfl hc, fun r hr => ?_⟩
    subst hr
    obtain ⟨hmem, hopen⟩ := hnot r rfl
    have hlt : r < σ.mail.requestCount := hk.lt
    refine ⟨fun hmem' => ?_, fun hprom => ?_⟩
    · rcases hT.pendingAcks c _ hmem' with h | ⟨-, hf, -⟩ | ⟨a, s, p, ps, r', rfl, -⟩
      · exact hmem h
      · exact absurd hlt (Nat.not_lt.mpr hf.1)
      · cases hB.task (Or.inl rfl)
    · have hprom' := (hT.old hlt).promise.symm.trans hprom
      rw [← Bool.not_eq_true]
      intro hset
      rcases (exec_answers i hlt).settled.mp hset with hs | hs
      · rw [hopen hprom'] at hs
        cases hs
      · obtain ⟨d, k, rfl, hk', -, -, hkp⟩ := settles_midway hi hB rfl hs
        cases k with
        | timed r' => exact hB.once d r' rfl c (by rw [← hk']; rfl)
        | promise r' =>
            rw [hkp (by rw [← hk']; rfl)] at hprom'
            cases hprom'
  · rename_i c p
    obtain ⟨howns, hsock, hp⟩ := hpl
    refine ⟨howns.mono hT, ?_, fun r hr => ⟨fun hre => ?_, fun d q hq hqr => ?_⟩⟩
    · cases i with
      | conn i =>
          rcases execConn_serverSocket (P := P) (i := i)
            (hj.valid (.client c) (List.mem_singleton_self _)) with hs | ⟨a, s, rfl, -, -⟩
          · exact hs ▸ hsock
          · cases hB.task (Or.inl rfl)
      | _ => exact hsock
    · refine connected_stable hB rfl ?_
      rcases (exec_answers i (howns.lt r hr)).reason.mp hre with hre | ⟨-, d, rfl⟩
      · exact (hp r hr).1 hre
      · obtain ⟨hk, hc, -⟩ := hi.placed
        have hd : some d = some c := hk.client.symm.trans (howns.client r hr)
        exact Option.some.inj hd ▸ hc
    · rcases hT.sendBuffer d q hq with hq | ⟨-, hw, hf⟩ | ⟨a, s, p₀, ps, rfl, -⟩
      · exact (hp r hr).2 d q hq hqr
      · have hf' := hf r (timedOf_eq_some (hw ▸ hqr)).1
        exact absurd (howns.lt r hr) (Nat.not_lt.mpr hf'.1)
      · cases hB.task (Or.inl rfl)
  · rename_i a s ps
    rw [hclient (s := s) (List.mem_singleton_self _)]
    exact fun p hp => (hpl p hp).mono hT
  · rename_i a s p ps
    rw [hclient (s := s) (List.mem_singleton_self _)]
    obtain ⟨howns, hset⟩ := hpl
    refine ⟨fun q hq => (howns q hq).mono hT, ?_⟩
    rcases hset with hset | hc
    · refine or_iff_not_imp_left.mpr fun hset' => ?_
      rw [Bool.not_eq_false] at hset'
      rcases isSettled_exec (howns p List.mem_cons_self) hset' with hs | ⟨r, hr, hs⟩
      · rw [hset] at hs
        cases hs
      · obtain ⟨c, k, rfl, -, hcl, hc, -⟩ := settles_midway hi hB rfl hs
        have hca := Option.some.inj (hcl.symm.trans ((howns p List.mem_cons_self).timed hr).2.1)
        exact connected_stable hB rfl (hca ▸ hc)
    · exact Or.inr (connected_stable hB rfl hc)
  · rename_i a err
    rw [(conn_extends h.wf hi.valid).clientOf a (hj.valid (.attempt a) (List.mem_singleton_self _))]
    exact connected_stable hB rfl hpl
  · exact connected_stable hB rfl hpl
  · trivial

/-- What is pushed may execute before whatever waited. -/
theorem before_push (h : σ.Handled P) (hj : σ.Known j) (hB : i.Before j) {p : Instr}
    (hp : p ∈ (exec P i σ).push) : p.Before j where
  task hp' := by
    rcases hp' with hp' | hp'
    · exact hB.task (isLast_spawned (List.mem_append_left _ hp) hp')
    · rw [isTask_push hp] at hp'
      cases hp'
  once c r hpr d hjr := by
    subst hpr hjr
    rcases rejectAck_spawned (List.mem_append_left _ hp) with ⟨rfl, hmem⟩ | ⟨_, _, -, hk, -⟩
    · obtain ⟨hk, -, hnot⟩ := hj.placed
      have hcd := (h.requested.handle c _ hmem).client.symm.trans hk.client
      exact (hnot r rfl).1 (Option.some.inj hcd ▸ hmem)
    · cases hk
  emit c q r hpr hq hr := by
    subst hpr
    obtain ⟨event, form, rfl, -, hpush, -⟩ := clientEmitRest_spawned (List.mem_append_left _ hp)
    obtain ⟨-, hfresh⟩ :=
      clientEmit_turns (T := fun _ _ => False) (B := fun _ _ => False) σ c event form
    obtain ⟨hw, hf⟩ := hfresh q hpush
    have hnew := (hf r (timedOf_eq_some (hw ▸ hq)).1).1
    have hpl := hj.placed
    unfold Instr.holds at hr
    split at hr
    · obtain ⟨x, hx, hxr⟩ := hr
      exact absurd ((hpl x hx).timed hxr).1 (Nat.not_lt.mpr hnew)
    · obtain ⟨x, hx, hxr⟩ := hr
      exact absurd ((hpl.1 x hx).timed hxr).1 (Nat.not_lt.mpr hnew)
    · exact hr

/-- What is spawned may execute in the order it is spawned in. -/
theorem before_inner (σ : Core) (i : Instr) : (exec P i σ).spawned.Pairwise Instr.Before := by
  have hpost : ∀ j ∈ (exec P i σ).post, j.midway = false := fun j hj => midway_post hj
  rw [Effect.spawned, List.pairwise_append]
  refine ⟨?_, List.pairwise_of_forall_mem_list fun a _ b hb => .of_not_midway (hpost b hb),
    fun a _ b hb => .of_not_midway (hpost b hb)⟩
  by_cases hm : ∃ j ∈ (exec P i σ).push, j.midway = true
  · obtain ⟨j, hj, hmid⟩ := hm
    have hcleanup : ∀ (o : Option SocketId) (k : Instr), (cleanupOf o ++ [k]).Pairwise
        Instr.Before := fun o k => by
      cases o with
      | none => exact List.pairwise_singleton _ _
      | some s => exact .cons (fun b _ => .of_other rfl rfl rfl) (List.pairwise_singleton _ _)
    rcases midway_spawned (List.mem_append_left _ hj) hmid with ⟨a, err, rfl⟩ | ⟨c, rfl⟩ |
      ⟨c, r, rfl⟩ | ⟨c, rfl⟩ | ⟨c, p, rfl⟩ | ⟨c, e, f, rfl⟩ | ⟨a, s, rfl⟩ | ⟨a, s, ps, rfl⟩ |
      ⟨a, s, p, ps, rfl⟩
    · simp only [exec, execConn, rejectConnectionAttempt]
      split
      · exact hcleanup _ _
      · exact .nil
    · simp only [exec, execConn, cancelConnectionAttempt]
      split
      · exact .nil
      · split
        · exact hcleanup _ _
        · exact .nil
    · simp only [exec, execConn, markDisconnected]
      split
      · exact .nil
      · cases (σ.conn.clients c).serverSocket with
        | none =>
            exact .cons (fun b hb => by
              obtain rfl := List.mem_singleton.mp hb
              exact .of_not_midway rfl) (List.pairwise_singleton _ _)
        | some s =>
            refine .cons (fun b _ => .of_other rfl rfl rfl) (.cons (fun b hb => ?_)
              (List.pairwise_singleton _ _))
            obtain rfl := List.mem_singleton.mp hb
            exact .of_not_midway rfl
    · simp only [exec, execMail]
      rw [List.pairwise_map]
      refine (σ.mail.outboxes c).pendingAcks.nodup.imp fun {h k} hne => ⟨?_, ?_, ?_⟩
      · simp [Instr.isLast, Instr.isTask]
      · simp only [Instr.mail.injEq, MailInstr.rejectAck.injEq]
        rintro d r ⟨rfl, rfl⟩ d' ⟨-, rfl⟩
        exact hne rfl
      · simp
    · simp only [exec, execMail, clientEmitRest]
      split
      · exact .nil
      · split
        · split
          · exact List.pairwise_singleton _ _
          · exact .nil
        · exact .nil
    · simp only [exec, execMail, clientEmit]
      split
      · exact .nil
      · split
        · exact .nil
        · exact .cons (fun b _ => .of_other rfl rfl rfl) (List.pairwise_singleton _ _)
    · exact List.pairwise_singleton _ _
    · cases ps with
      | nil => exact List.pairwise_singleton _ _
      | cons p ps =>
          simp only [exec, execMail, flushPackets]
          split
          · exact List.pairwise_singleton _ _
          · exact .cons (fun b _ => .of_other rfl rfl rfl) (List.pairwise_singleton _ _)
    · simp only [exec, execMail, flushRest]
      split
      · exact List.pairwise_singleton _ _
      · exact .nil
  · refine List.pairwise_of_forall_mem_list fun a _ b hb => .of_not_midway ?_
    rw [← Bool.not_eq_true]
    exact fun h => hm ⟨b, hb, h⟩

end Order

theorem callable_other {σ : Core} {i : Instr} (hc : callable σ i = true) (ht : i.isTimer = false) :
    i.isLast = false ∧ i.isTask = false ∧ i.midway = false := by
  have hg := (tasks_grounded unary).call σ i hc
  refine ⟨?_, ?_, ?_⟩ <;> rw [← Bool.not_eq_true] <;> intro h
  · rw [hg.2 h] at ht
    cases ht
  · exact hg.1 h
  · unfold Instr.midway at h
    split at h <;> [cases hc; cases hc; cases hc; cases hc; cases hc; cases hc; cases hc; cases h]

/-- **Handles, packets and rejections in their order.** -/
theorem handles_line (P : Platform) :
    Line ((runtime P).restrict fun i => ¬ i.isTimer = true) (fun _ _ => True) (Core.Handled P)
      Core.Known Instr.Before where
  core _ _ h := handled_exec h.inv h.ok
  spawn _ _ h j hj := ⟨valid_spawned h.inv.wf h.ok.valid j hj, placed_spawned h.inv h.ok hj⟩
  stable _ _ _ h hj hB := ⟨fun r hr => (hj.valid r hr).mono (conn_extends h.inv.wf h.ok.valid),
    placed_stable h.inv h.ok hj hB⟩
  call σ i h hc := by
    simp only [restrict, Bool.and_eq_true, decide_eq_true_eq, Bool.not_eq_true] at hc
    have ho := (callable_other hc.1 hc.2).2.2
    refine ⟨valid_callable h.wf hc.1, ?_⟩
    unfold Core.Placed
    split <;> [cases ho; cases ho; cases ho; cases ho; cases ho; cases ho; cases ho; trivial]
  handle σ i is _ hi his j hj := by
    rcases onThrow_handle his with rfl | ⟨a, err, rfl, ha⟩
    · cases hj
    · obtain rfl := List.mem_singleton.mp hj
      exact ⟨fun r hr => hi.valid r (ha ▸ hr), trivial⟩
  push _ _ _ _ h hj hB hp := before_push h.inv hj hB hp
  post _ _ _ _ hp := .of_not_midway (midway_post hp)
  inner σ i _ := before_inner σ i
  callRel σ i j hc := by
    simp only [restrict, Bool.and_eq_true, decide_eq_true_eq, Bool.not_eq_true] at hc
    obtain ⟨h₁, h₂, h₃⟩ := callable_other hc.1 hc.2
    exact .of_other h₁ h₂ h₃
  handleRel σ i is his := by
    rcases onThrow_handle his with rfl | ⟨a, err, rfl, -⟩
    · exact ⟨.nil, (by intro _ h; cases h)⟩
    · refine ⟨List.pairwise_singleton _ _, fun p hp j => ?_⟩
      obtain rfl := List.mem_singleton.mp hp
      exact .of_other rfl rfl rfl
  free _ _ _ := trivial

/-- A server that has just been made has no request. -/
theorem newServer_handled (P : Platform) : newServer.core.Handled P where
  wf := newServer_wf P
  steady := ⟨fun _ _ hc => (by cases hc), fun _ hc => (by cases hc)⟩
  paired := ⟨fun _ hc => (by cases hc), fun _ hc => (by cases hc)⟩
  requested := ⟨nofun, nofun, nofun, nofun, nofun, List.nodup_nil, nofun, nofun, fun _ _ => rfl⟩

/-- **In every reachable state.** -/
theorem reach_handled {C : State → Action Instr → Prop} {σ : State}
    (h : (runtime P).Reach C newServer σ) (hC : ∀ τ a, C τ a → timersIdle τ a) :
    Lined (Core.Handled P) Core.Known Instr.Before σ.core σ.pending := by
  refine (h.line_idle (handles_line P) (fun σ i hh hc hi => ⟨valid_callable hh.wf hc, ?_⟩)
    (fun _ _ _ _ _ _ _ => trivial) hC ⟨newServer_handled P, nofun, .nil⟩ nofun).1
  unfold Instr.isTimer at hi
  split at hi
  · trivial
  · cases hi

end Smocket
