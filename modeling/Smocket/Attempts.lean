import Smocket.Admission

/-
  File:      Smocket/Attempts.lean
  Subject:   THE ATTACHED SOCKET. An attempt keeps the one server socket attached to it, only that
             socket reaches the middleware and the roster, and nothing is sent through it before
             the attempt has been settled (`Attachment`).

  * `execConn_follows` -- an attempt keeps its socket and does not become pending again;
  * `execMail_opensPaired` -- queues are opened under sids of paired sockets;
  * `attachment_inductive` -- `Attachment` in every run.
-/

namespace Smocket

open Ordered EventLoop EventLoop.Machine

variable {P : Platform}

/-! ## 1. What stays -/

/-- Server socket `s` is the one attached to its attempt. -/
def Conn.Attached (κ : Conn) (s : SocketId) : Prop :=
  (κ.attempts (κ.sockets s).attempt).serverSocket = some s

/-- An attempt keeps its server socket and does not become pending again. -/
structure Conn.Follows (κ κ' : Conn) : Prop where
  attached : ∀ a < κ.attemptCount, ∀ s, (κ.attempts a).serverSocket = some s →
    (κ'.attempts a).serverSocket = some s
  settled : ∀ a < κ.attemptCount, (κ.attempts a).state ≠ .pending → (κ'.attempts a).state ≠ .pending

theorem Conn.Follows.refl (κ : Conn) : κ.Follows κ := ⟨fun _ _ _ h => h, fun _ _ h => h⟩

/-- Two steps that only move attempts on are one, where the first makes no attempt vanish. -/
theorem Conn.Follows.trans {κ κ' κ'' : Conn} (h : κ.Follows κ') (h' : κ'.Follows κ'')
    (hE : κ.attemptCount ≤ κ'.attemptCount) : κ.Follows κ'' where
  attached a ha s hs := h'.attached a (ha.trans_le hE) s (h.attached a ha s hs)
  settled a ha hs := h'.settled a (ha.trans_le hE) (h.settled a ha hs)

/-- Writing to an attempt moves it on where its socket stays and it is not pending again. -/
theorem Conn.Follows.setAttempt (κ : Conn) (a : AttemptId)
    {g : ConnectionAttempt → ConnectionAttempt}
    (h1 : ∀ s, (κ.attempts a).serverSocket = some s → (g (κ.attempts a)).serverSocket = some s)
    (h2 : (κ.attempts a).state ≠ .pending → (g (κ.attempts a)).state ≠ .pending) :
    κ.Follows (κ.setAttempt a g) where
  attached b _ s hs := by
    simp only [Conn.setAttempt, modify_apply]
    split
    · rename_i hb
      exact h1 s (hb ▸ hs)
    · exact hs
  settled b _ hs := by
    simp only [Conn.setAttempt, modify_apply]
    split
    · rename_i hb
      exact h2 (hb ▸ hs)
    · exact hs

/-- What the attempts of two heaps of equal attempts say is the same. -/
theorem Conn.Follows.of_eq {κ κ' : Conn} (h : κ'.attempts = κ.attempts) : κ.Follows κ' :=
  ⟨fun a _ s hs => by rwa [h], fun a _ hs => by rwa [h]⟩

/-- A new attempt is none of those before. -/
theorem Conn.Follows.begin (κ : Conn) (c : ClientId) :
    κ.Follows (κ.beginConnectionAttempt c).1 := by
  unfold Conn.beginConnectionAttempt
  split
  · exact .refl κ
  · have hne : ∀ a < κ.attemptCount, (((κ.newAttempt c).setClient c fun cl =>
        { cl with connectionAttempt := some κ.attemptCount }).setManager c
        fun m => m.registerPending c).attempts a = κ.attempts a := fun a ha =>
      Function.update_of_ne ha.ne ..
    exact ⟨fun a ha s hs => by rw [hne a ha]; exact hs, fun a ha hs => by rw [hne a ha]; exact hs⟩

theorem managerFor_attempts (κ : Conn) (name : String) (forceNew : Bool) :
    (κ.managerFor name forceNew).1.attempts = κ.attempts := by
  unfold Conn.managerFor
  split
  · rfl
  · split
    · rfl
    · split <;> rfl

/-- **An attempt that is settled stays settled**, and one that has its socket keeps it, whatever a
    client's side executes. -/
theorem execConn_follows {σ : Core} {i : ConnInstr}
    (hi : ∀ r ∈ i.refs, r.Valid σ.conn) : σ.conn.Follows (execConn P σ i).part := by
  cases i with
  | openClient name b f =>
      have hnew : σ.conn.Follows ((σ.conn.managerFor name f).1.newClient
          (σ.conn.managerFor name f).2 name (σ.srv.table.get? name) b) :=
        .of_eq (managerFor_attempts ..)
      have hE : σ.conn.attemptCount ≤ (σ.conn.managerFor name f).1.attemptCount :=
        (Conn.Extends.managerFor σ.conn name f).attempts
      simp only [execConn, openClient]
      split
      · exact hnew.trans (.begin _ _) hE
      · split <;> exact hnew
  | connect c =>
      simp only [execConn, connect]
      split
      · exact .refl _
      · split
        · exact .refl _
        · rename_i n _
          have hnsp : σ.conn.Follows (σ.conn.setClient c fun cl => { cl with nsp := some n }) :=
            .of_eq rfl
          exact hnsp.trans (.begin _ c) le_rfl
  | setAuth c b => exact .of_eq rfl
  | admitDynamic c => exact .begin σ.conn c
  | attachNamespace c n => exact .of_eq rfl
  | newServerSocket a n =>
      simp only [execConn, newServerSocket]
      split
      · rename_i hp
        simp only [Bool.and_eq_true, Option.isNone_iff_eq_none] at hp
        have hnew : σ.conn.Follows (σ.conn.newSocket P a n) := .of_eq rfl
        refine hnew.trans (.setAttempt _ a (fun s hs => ?_) id) le_rfl
        exact absurd (hp.2.symm.trans hs) (by intro h; cases h)
      · exact .of_eq rfl
  | rejectConnectionAttempt a err =>
      simp only [execConn, rejectConnectionAttempt]
      split
      · refine Conn.Follows.setAttempt σ.conn a ?_ ?_
        · exact fun _ hs => hs
        · intro _ h
          cases h
      · exact .refl _
  | rejectConnectionAttemptRest a err =>
      simp only [execConn, rejectConnectionAttemptRest]
      split <;> exact .of_eq rfl
  | cancelConnectionAttempt c =>
      simp only [execConn, cancelConnectionAttempt]
      split
      · exact .refl _
      · split
        · rename_i a _ _
          refine Conn.Follows.setAttempt σ.conn a ?_ ?_
          · exact fun _ hs => hs
          · intro _ h
            cases h
        · exact .refl _
  | cancelConnectionAttemptRest c => exact .of_eq rfl
  | completeConnectionAttempt a s =>
      simp only [execConn, completeConnectionAttempt]
      split
      · have hset : σ.conn.Follows (σ.conn.setAttempt a fun x => { x with state := .connected }) :=
          .setAttempt σ.conn a (fun _ hs => hs) (by intro _ h; cases h)
        exact hset.trans (.of_eq rfl) le_rfl
      · split <;> exact .refl _
  | markDisconnected c reason =>
      simp only [execConn, markDisconnected]
      split
      · exact .refl _
      · rename_i a _
        have hset : σ.conn.Follows (σ.conn.setAttempt a fun x => { x with state := .cancelled }) :=
          .setAttempt σ.conn a (fun _ hs => hs) (by intro _ h; cases h)
        exact hset.trans (.of_eq rfl) le_rfl

/-! ## 2. The attached socket -/

/-- **Who reaches the middleware and the roster**: only a socket attached to its attempt. A client
    is paired, and packets wait for a socket, once an attempt has been settled. -/
structure Attachment (σ : Core) : Prop where
  paired : ∀ c s, (σ.conn.clients c).serverSocket = some s →
    (σ.conn.attempts (σ.conn.sockets s).attempt).state ≠ .pending
  queued : ∀ n sid q, (σ.mail.schedulers n).queues.get? sid = some q → ∃ s < σ.conn.socketCount,
    (σ.conn.sockets s).id = sid ∧ (σ.conn.attempts (σ.conn.sockets s).attempt).state ≠ .pending
  started : ∀ s, (σ.life.middleware s).index ≠ 0 → σ.conn.Attached s
  reached : ∀ s, ∀ e ∈ σ.log, e.ofAdmission = some s → σ.conn.Attached s
  roster : ∀ n sid s, (σ.memb.rosters n).get? sid = some s → σ.conn.Attached s

/-- The instructions of an admission are those of an attached socket. -/
def AttachmentOk (σ : Core) : Instr → Prop
  | .life (.runMiddleware s) | .life (.next s _ _) | .ctl (.completion s _) | .memb (.enter s)
  | .ctl (.emitConnection s) | .conn (.completeConnectionAttempt _ s) => σ.conn.Attached s
  | _ => True

/-- An attached socket exists. -/
theorem Conn.Attached.valid {κ : Conn} (h : κ.Wf P) {s : SocketId} (hs : κ.Attached s) :
    s < κ.socketCount := (h.serverSocket _ s hs).1

/-- The other groups do not touch attempts. -/
theorem conn_follows {σ : Core} {i : Instr} (hi : i.Valid σ) :
    σ.conn.Follows (exec P i σ).core.conn := by
  cases i with
  | conn i => exact execConn_follows hi
  | _ => exact .refl _

/-- A socket that is attached stays attached. -/
theorem attached_exec {σ : Core} (h : σ.Wf P) {i : Instr} (hi : i.Valid σ) {s : SocketId}
    (hs : σ.conn.Attached s) : (exec P i σ).core.conn.Attached s := by
  have hlt := hs.valid h.conn
  unfold Conn.Attached
  rw [(conn_extends h hi).socketOf s hlt]
  exact (conn_follows hi).attached _ (h.conn.attempt_lt hlt) s hs

/-- The attempt a socket was built for, once settled, stays settled. -/
theorem settled_exec {σ : Core} (h : σ.Wf P) {i : Instr} (hi : i.Valid σ) {s : SocketId}
    (hlt : s < σ.conn.socketCount)
    (hs : (σ.conn.attempts (σ.conn.sockets s).attempt).state ≠ .pending) :
    ((exec P i σ).core.conn.attempts ((exec P i σ).core.conn.sockets s).attempt).state ≠
      .pending := by
  rw [(conn_extends h hi).socketOf s hlt]
  exact (conn_follows hi).settled _ (h.conn.attempt_lt hlt) hs

/-- Beginning an attempt pairs nobody. -/
theorem begin_serverSocket (κ : Conn) (c d : ClientId) :
    ((κ.beginConnectionAttempt c).1.clients d).serverSocket = (κ.clients d).serverSocket := by
  unfold Conn.beginConnectionAttempt
  split
  · rfl
  · simp only [Conn.setManager, Conn.setClient, Conn.newAttempt, modify_apply]
    split <;> simp_all

theorem managerFor_clients (κ : Conn) (name : String) (forceNew : Bool) :
    (κ.managerFor name forceNew).1.clients = κ.clients := by
  unfold Conn.managerFor
  split
  · rfl
  · split
    · rfl
    · split <;> rfl

/-- The only way a client is paired. -/
theorem execConn_paired {σ : Core} {i : ConnInstr} {c : ClientId} {s : SocketId}
    (h : ((execConn P σ i).part.clients c).serverSocket = some s) :
    (σ.conn.clients c).serverSocket = some s ∨
      ∃ a, i = .completeConnectionAttempt a s ∧ σ.conn.isConnectionAttemptPending a = true ∧
        (σ.conn.attempts a).client = c := by
  have hset : ∀ {κ : Conn} {d : ClientId} {g : ClientSocket → ClientSocket},
      ((κ.setClient d g).clients c).serverSocket = some s →
      (∀ x, (g x).serverSocket = x.serverSocket) → (κ.clients c).serverSocket = some s := by
    intro κ d g hs hg
    simp only [Conn.setClient, modify_apply] at hs
    split at hs
    · rename_i hd
      rw [hg] at hs
      rw [hd, hs]
    · exact hs
  cases i with
  | openClient name b f =>
      have hnew : ∀ io nsp, (((σ.conn.managerFor name f).1.newClient io name nsp b).clients
          c).serverSocket = some s → (σ.conn.clients c).serverSocket = some s := fun io nsp hs => by
        simp only [Conn.newClient, Function.update_apply, managerFor_clients] at hs
        split at hs
        · cases hs
        · exact hs
      simp only [execConn, openClient] at h
      split at h
      · rw [begin_serverSocket] at h
        exact Or.inl (hnew _ _ h)
      · split at h <;> exact Or.inl (hnew _ _ h)
  | connect d =>
      simp only [execConn, connect] at h
      split at h
      · exact Or.inl h
      · split at h
        · exact Or.inl h
        · rw [begin_serverSocket] at h
          exact Or.inl (hset h fun _ => rfl)
  | setAuth d b => exact Or.inl (hset h fun _ => rfl)
  | admitDynamic d =>
      simp only [execConn, admitDynamic, begin_serverSocket] at h
      exact Or.inl h
  | attachNamespace d n => exact Or.inl (hset h fun _ => rfl)
  | newServerSocket a n =>
      simp only [execConn, newServerSocket] at h
      split at h <;> exact Or.inl h
  | rejectConnectionAttempt a err =>
      simp only [execConn, rejectConnectionAttempt] at h
      split at h <;> exact Or.inl h
  | rejectConnectionAttemptRest a err =>
      simp only [execConn, rejectConnectionAttemptRest] at h
      split at h <;> exact Or.inl (hset h fun _ => rfl)
  | cancelConnectionAttempt d =>
      simp only [execConn, cancelConnectionAttempt] at h
      split at h
      · exact Or.inl h
      · split at h <;> exact Or.inl h
  | cancelConnectionAttemptRest d => exact Or.inl (hset h fun _ => rfl)
  | completeConnectionAttempt a t =>
      simp only [execConn, completeConnectionAttempt] at h
      split at h
      · rename_i hp
        by_cases hc : c = (σ.conn.attempts a).client
        · simp [Conn.setManager, Conn.setClient, hc] at h
          exact Or.inr ⟨a, by rw [h], hp, hc.symm⟩
        · simp [Conn.setManager, Conn.setClient, Conn.setAttempt, hc] at h
          exact Or.inl h
      · split at h <;> exact Or.inl h
  | markDisconnected d reason =>
      simp only [execConn, markDisconnected] at h
      split at h
      · exact Or.inl h
      · exact Or.inl (hset h fun _ => rfl)

/-- Queues are only opened under the id of a socket some client is paired with. -/
def Mail.OpensPaired (κ : Conn) (μ μ' : Mail) : Prop :=
  ∀ n sid, (μ'.schedulers n).queues.get? sid ≠ none → (μ.schedulers n).queues.get? sid ≠ none ∨
    ∃ c s, (κ.clients c).serverSocket = some s ∧ (κ.sockets s).id = sid

/-- Where no scheduler changes, no queue is opened. -/
theorem Mail.OpensPaired.of_eq {κ : Conn} {μ μ' : Mail} (h : μ'.schedulers = μ.schedulers) :
    μ.OpensPaired κ μ' := fun n sid hs => Or.inl (by rwa [h] at hs)

theorem Mail.OpensPaired.trans {κ : Conn} {μ μ' μ'' : Mail} (h : μ.OpensPaired κ μ')
    (h' : μ'.OpensPaired κ μ'') : μ.OpensPaired κ μ'' := fun n sid hs =>
  (h' n sid hs).elim (h n sid) Or.inr

/-- A change of one scheduler is judged by the queues it opens. -/
theorem Mail.OpensPaired.setScheduler (κ : Conn) (μ : Mail) {n : NspId} {g : Scheduler → Scheduler}
    (hg : ∀ sid, (g (μ.schedulers n)).queues.get? sid ≠ none →
      (μ.schedulers n).queues.get? sid ≠ none ∨
        ∃ c s, (κ.clients c).serverSocket = some s ∧ (κ.sockets s).id = sid) :
    μ.OpensPaired κ (μ.setScheduler n g) := by
  intro m sid hs
  simp only [Mail.setScheduler, modify_apply] at hs
  split at hs
  · rename_i hm
    exact hm ▸ hg sid hs
  · exact Or.inl hs

/-- Dropping a queue opens none. -/
theorem Mail.OpensPaired.erase (κ : Conn) (μ : Mail) (n : NspId) (sid : String) :
    μ.OpensPaired κ (μ.setScheduler n fun S => { S with queues := S.queues.erase sid }) := by
  refine .setScheduler κ μ fun sid' hs => Or.inl ?_
  simp only [OMap.get?_erase] at hs
  split at hs
  · exact absurd rfl hs
  · exact hs

theorem Mail.OpensPaired.pump (κ : Conn) (μ : Mail) (n : NspId) (sid : String) :
    μ.OpensPaired κ (μ.pump n sid).1 := by
  unfold Mail.pump
  split
  · exact .of_eq rfl
  · split
    · exact .erase κ μ n sid
    · dsimp only
      split
      · exact .of_eq rfl
      · exact .setScheduler κ μ fun sid' hs => Or.inl hs

/-- The one place that opens a queue: `scheduleDelivery` is called with the sid of the socket the
    client is paired with. -/
theorem Mail.OpensPaired.scheduleReceive {σ : Core} {μ : Mail} (d : Delivery) :
    μ.OpensPaired σ.conn (scheduleReceive σ μ d).part := by
  unfold Smocket.scheduleReceive
  split
  · exact .of_eq rfl
  · rename_i paired hp
    dsimp only
    split
    · exact .of_eq rfl
    · have hset : ∀ q, μ.OpensPaired σ.conn (μ.setScheduler (σ.conn.sockets paired).nsp fun S =>
          { S with queues := S.queues.set (σ.conn.sockets paired).id q }) := fun q =>
        .setScheduler σ.conn μ fun sid hs => by
          simp only [OMap.get?_set] at hs
          split at hs
          · rename_i hsid
            exact Or.inr ⟨_, _, hp, hsid.symm⟩
          · exact Or.inl hs
      unfold Mail.scheduleDelivery
      dsimp only
      split
      · exact hset _
      · exact Mail.OpensPaired.trans (hset _) (Mail.OpensPaired.pump σ.conn (μ.newQueue _ _ _) _ _)
    · exact .of_eq rfl

theorem Mail.OpensPaired.sendToClient (σ : Core) (s : SocketId) (serial : Nat) (event : String)
    (reply : Option Reply) (survived : Bool) :
    σ.mail.OpensPaired σ.conn (sendToClient σ s serial event reply survived).part := by
  unfold Smocket.sendToClient
  dsimp only
  split
  · exact .scheduleReceive _
  · split
    · exact .of_eq rfl
    · exact Mail.OpensPaired.trans (.of_eq rfl) (.scheduleReceive _)

/-- **A queue is only ever opened under the sid of a socket a client is paired with.** -/
theorem execMail_opensPaired (σ : Core) (i : MailInstr) :
    σ.mail.OpensPaired σ.conn (execMail σ i).part := by
  by_cases hi : i.schedules = false
  · exact .of_eq (execMail_same σ hi).schedulers
  · cases i with
    | serverEmitRest s serial event reply was =>
        simp only [execMail, serverEmitRest]
        split
        · exact .of_eq rfl
        · exact .sendToClient σ s serial event reply _
    | sendBroadcastRest s serial event was => exact .sendToClient σ s serial event none _
    | pumpRun r =>
        simp only [execMail, pumpRun]
        split
        · refine Mail.OpensPaired.setScheduler σ.conn σ.mail fun sid hs => Or.inl ?_
          dsimp only at hs
          split at hs
          · exact hs
          · rename_i q hq
            simp only [OMap.get?_set] at hs
            split at hs
            · rename_i hsid
              rw [hsid, hq]
              exact Option.some_ne_none _
            · exact hs
        · exact .of_eq rfl
    | pumpRest r =>
        simp only [execMail, pumpRest]
        split
        · exact .pump σ.conn σ.mail r.nsp r.sid
        · exact .of_eq rfl
    | removeDeliveries s =>
        simp only [execMail, removeDeliveries]
        split
        · exact .of_eq rfl
        · exact .of_eq rfl
        · have hdel : σ.mail.OpensPaired σ.conn (σ.mail.setScheduler (σ.conn.sockets s).nsp fun S =>
              { S with delays := S.delays.erase (σ.conn.sockets s).id }) :=
            .setScheduler σ.conn σ.mail fun sid hs => Or.inl hs
          split
          · exact hdel
          · refine hdel.trans (.setScheduler σ.conn _ fun sid hs => Or.inl ?_)
            simp only [OMap.get?_erase] at hs
            split at hs
            · exact absurd rfl hs
            · exact hs
    | cancelTimer r => exact .of_eq rfl
    | setDelay n sid ms =>
        refine .setScheduler σ.conn σ.mail fun sid' hs => Or.inl ?_
        cases ms <;> exact hs
    | _ => exact absurd rfl hi

/-- One step lets nobody else reach the middleware and the roster. -/
theorem attachment_exec {σ : Core} (hw : σ.Wf P) {i : Instr} (hv : i.Valid σ) (h : Attachment σ)
    (hok : AttachmentOk σ i) : Attachment (exec P i σ).core := by
  have hat : ∀ s, σ.conn.Attached s → (exec P i σ).core.conn.Attached s := fun s =>
    attached_exec hw hv
  have hadmits : ∀ s, i.admits = some s → σ.conn.Attached s := fun s hs => by
    unfold Instr.admits at hs
    split at hs <;> cases hs <;> exact hok
  constructor
  · intro c s hs
    by_cases hold : (σ.conn.clients c).serverSocket = some s
    · exact settled_exec hw hv (hw.conn.paired c s hold).1 (h.paired c s hold)
    · cases i with
      | conn i =>
          obtain ⟨a, rfl, hp, -⟩ := (execConn_paired hs).resolve_left hold
          obtain ⟨hlt, ha⟩ := hv (.builtFor a s) (List.mem_singleton_self _)
          simp [exec, execConn, completeConnectionAttempt, hp, Conn.setManager, Conn.setClient,
            Conn.setAttempt, ha]
      | _ => exact absurd hs hold
  · intro n sid q hq
    have hcase : (σ.mail.schedulers n).queues.get? sid ≠ none ∨
        ∃ c s, (σ.conn.clients c).serverSocket = some s ∧ (σ.conn.sockets s).id = sid := by
      have hne := Option.ne_none_iff_exists'.mpr ⟨q, hq⟩
      cases i with
      | mail i => exact execMail_opensPaired σ i n sid hne
      | _ => exact Or.inl hne
    have hex : ∃ s < σ.conn.socketCount, (σ.conn.sockets s).id = sid ∧
        (σ.conn.attempts (σ.conn.sockets s).attempt).state ≠ .pending := by
      rcases hcase with hne | ⟨c, s, hs, hid⟩
      · obtain ⟨q', hq'⟩ := Option.ne_none_iff_exists'.mp hne
        exact h.queued n sid q' hq'
      · exact ⟨s, (hw.conn.paired c s hs).1, hid, h.paired c s hs⟩
    obtain ⟨s, hlt, hid, hst⟩ := hex
    exact ⟨s, hlt.trans_le (conn_extends hw hv).sockets,
      by rw [(conn_extends hw hv).socketOf s hlt, hid], settled_exec hw hv hlt hst⟩
  · intro s hs
    by_cases ha : i.admits = some s
    · exact hat s (hadmits s ha)
    · rw [(admission_frame (P := P) ha σ).2] at hs
      exact hat s (h.started s hs)
  · intro s e he hof
    by_cases ha : i.admits = some s
    · exact hat s (hadmits s ha)
    · obtain ⟨⟨es, hes, hno⟩, -⟩ := admission_frame (P := P) ha σ
      rw [hes] at he
      rcases List.mem_append.mp he with he | he
      · exact absurd hof (hno e he)
      · exact hat s (h.reached s e he hof)
  · intro n sid s hs
    cases i with
    | memb i =>
        rcases execMemb_roster hs with hs | ⟨rfl, -⟩
        · exact h.roster n sid s hs
        · exact hok
    | _ => exact hat s (h.roster n sid s hs)

/-- What an instruction leaves pending names attached sockets, too. -/
theorem attachment_spawned {σ : Core} (hw : σ.Wf P) {i j : Instr} (hv : i.Valid σ)
    (hok : AttachmentOk σ i) (hj : j ∈ (exec P i σ).spawned) :
    AttachmentOk (exec P i σ).core j := by
  have hby := spawnedBy hj
  unfold AttachmentOk
  split
  case h_1 s =>
    obtain ⟨a, n, rfl⟩ : ∃ a n, i = .conn (.newServerSocket a n) := by simpa using hby
    simp only [exec, execConn, newServerSocket, Effect.spawned] at hj ⊢
    split at hj
    · rename_i hp
      obtain rfl : s = σ.conn.socketCount := by simpa using hj
      rw [if_pos hp]
      simp [Conn.Attached, Conn.setAttempt, Conn.newSocket]
    · simp at hj
  case h_2 => exact hby.elim
  case h_3 s err =>
    refine attached_exec hw hv ?_
    cases err with
    | none =>
        rcases hby with rfl | ⟨k, rfl⟩
        · exact hok
        · exact hok
    | some err =>
        obtain ⟨k, rfl⟩ := hby
        exact hok
  case h_4 s =>
    obtain rfl : i = .ctl (.completion s none) := by simpa using hby
    exact attached_exec hw hv hok
  case h_5 s =>
    obtain rfl : i = .ctl (.completion s none) := by simpa using hby
    exact attached_exec hw hv hok
  case h_6 a s =>
    obtain rfl : i = .ctl (.completion s none) := by simpa using hby
    exact attached_exec hw hv hok
  case h_7 => trivial

/-- So does a run. -/
theorem attachment_inductive (P : Platform) :
    Inductive (runtime P) (fun _ _ => True) (fun σ => σ.Wf P ∧ Attachment σ)
      (fun σ i => i.Valid σ ∧ AttachmentOk σ i) fun _ => (none : Option Unit) := by
  refine Machine.Layer.inductive (valid_inductive P) (fun _ _ _ => trivial)
    (Machine.Layer.of_facts ?_ ?_ ?_ ?_ ?_ ?_)
  · exact fun σ i hw hv h => attachment_exec hw hv h.inv h.ok
  · exact fun σ i hw hv h j hj => attachment_spawned hw hv h.ok hj
  · intro σ i j hw hv _ _ hj
    unfold AttachmentOk at hj ⊢
    split <;> first | exact attached_exec hw hv hj | trivial
  · intro σ i _ h hc
    unfold AttachmentOk
    split
    case h_2 =>
      simp only [runtime, callable, Bool.and_eq_true, decide_eq_true_eq] at hc
      exact h.started _ (Nat.ne_of_gt (Nat.zero_lt_of_lt hc.1.2))
    case h_7 => trivial
    all_goals simp [runtime, callable] at hc
  · intro σ i is _ _ his j hj
    rcases onThrow_handle his with rfl | ⟨a, err, rfl, -⟩
    · cases hj
    · obtain rfl := List.mem_singleton.mp hj
      trivial
  · exact fun _ _ _ => trivial

/-- Nobody is paired at the start. -/
theorem newServer_attachment : Attachment newServer.core where
  paired _ _ h := by cases h
  queued _ _ _ h := by cases h
  started _ h := absurd rfl h
  reached _ _ h := by cases h
  roster _ _ _ h := by cases h

end Smocket
