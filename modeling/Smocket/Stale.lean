import Smocket.Attempts
import Smocket.Orders

/-
  File:      Smocket/Stale.lean
  Subject:   A STALE SERVER SOCKET CANNOT TOUCH A NEWER PAIRING, as long as the client's part of its
             disconnect is not deferred past a newer one.

  Disconnecting a server socket and closing it leave work for the client to a later task
  (`Instr.defers`), which asks only whether the client is connected. What can connect the client
  through another socket before that task runs stands before it (`Instr.connects`): the order of the
  pending instructions carries the invariant.

  * `defers_order` -- the order of deferred work;
  * `stale_socket_harmless` -- in a run that defers in time a stale socket changes no newer
    pairing;
  * `stale_socket_harms` -- a disconnect deferred past a reconnect ends the new pairing.
-/

namespace Smocket

open Ordered EventLoop EventLoop.Machine

variable {P : Platform}

/-! ## 1. Who connects a client -/

theorem through_eq_some {σ : Core} {c : ClientId} {s : SocketId} : σ.through c = some s ↔
    (σ.conn.clients c).connected = true ∧ (σ.conn.clients c).serverSocket = some s := by
  unfold Core.through
  split <;> simp_all

theorem begin_connected (κ : Conn) (c d : ClientId) :
    ((κ.beginConnectionAttempt c).1.clients d).connected = (κ.clients d).connected := by
  unfold Conn.beginConnectionAttempt
  split
  · rfl
  · simp only [Conn.setManager, Conn.setClient, Conn.newAttempt, modify_apply]
    split <;> simp_all

/-- A connected client does not begin an attempt. -/
theorem begin_current {κ : Conn} {c d : ClientId} {a : AttemptId}
    (hc : (κ.clients d).connected = true)
    (h : ((κ.beginConnectionAttempt c).1.clients d).connectionAttempt = some a) :
    (κ.clients d).connectionAttempt = some a := by
  unfold Conn.beginConnectionAttempt at h
  split at h
  · exact h
  · rename_i hfree
    have hdc : d ≠ c := fun e => by
      rw [Bool.or_eq_true, not_or] at hfree
      exact hfree.1 (e ▸ hc)
    simpa [Conn.setManager, Conn.setClient, Conn.newAttempt, hdc] using h

/-- The only way a client is connected. -/
theorem execConn_connected {σ : Core} {i : ConnInstr} {c : ClientId}
    (h : ((execConn P σ i).part.clients c).connected = true) :
    (σ.conn.clients c).connected = true ∨ ∃ a s, i = .completeConnectionAttempt a s ∧
      σ.conn.isConnectionAttemptPending a = true ∧ (σ.conn.attempts a).client = c := by
  have hset : ∀ {κ : Conn} {d : ClientId} {g : ClientSocket → ClientSocket},
      ((κ.setClient d g).clients c).connected = true →
      (∀ x, (g x).connected = true → x.connected = true) → (κ.clients c).connected = true := by
    intro κ d g hs hg
    simp only [Conn.setClient, modify_apply] at hs
    split at hs
    · rename_i hd
      exact hd ▸ hg _ hs
    · exact hs
  cases i with
  | openClient name b f =>
      have hnew : ∀ io nsp, (((σ.conn.managerFor name f).1.newClient io name nsp b).clients
          c).connected = true → (σ.conn.clients c).connected = true := fun io nsp hs => by
        simp only [Conn.newClient, Function.update_apply, managerFor_clients] at hs
        split at hs
        · cases hs
        · exact hs
      simp only [execConn, openClient] at h
      split at h
      · rw [begin_connected] at h
        exact Or.inl (hnew _ _ h)
      · split at h <;> exact Or.inl (hnew _ _ h)
  | connect d =>
      simp only [execConn, connect] at h
      split at h
      · exact Or.inl h
      · split at h
        · exact Or.inl h
        · rw [begin_connected] at h
          exact Or.inl (hset h fun _ h => h)
  | setAuth d b => exact Or.inl (hset h fun _ h => h)
  | admitDynamic d =>
      simp only [execConn, admitDynamic, begin_connected] at h
      exact Or.inl h
  | attachNamespace d n => exact Or.inl (hset h fun _ h => h)
  | newServerSocket a n =>
      simp only [execConn, newServerSocket] at h
      split at h <;> exact Or.inl h
  | rejectConnectionAttempt a err =>
      simp only [execConn, rejectConnectionAttempt] at h
      split at h <;> exact Or.inl h
  | rejectConnectionAttemptRest a err =>
      simp only [execConn, rejectConnectionAttemptRest] at h
      split at h <;> exact Or.inl (hset h fun _ h => h)
  | cancelConnectionAttempt d =>
      simp only [execConn, cancelConnectionAttempt] at h
      split at h
      · exact Or.inl h
      · split at h <;> exact Or.inl h
  | cancelConnectionAttemptRest d => exact Or.inl (hset h fun _ h => h)
  | completeConnectionAttempt a s =>
      simp only [execConn, completeConnectionAttempt] at h
      split at h
      · rename_i hp
        by_cases hc : (σ.conn.attempts a).client = c
        · exact Or.inr ⟨a, s, rfl, hp, hc⟩
        · refine Or.inl ?_
          simpa [Conn.setManager, Conn.setClient, Conn.setAttempt, Ne.symm hc] using h
      · split at h <;> exact Or.inl h
  | markDisconnected d reason =>
      simp only [execConn, markDisconnected] at h
      split at h
      · exact Or.inl h
      · exact Or.inl (hset h (by intro _ h; cases h))

theorem execConn_through {σ : Core} {i : ConnInstr} {c : ClientId} {t : SocketId}
    (hc : ((execConn P σ i).part.clients c).connected = true)
    (ht : ((execConn P σ i).part.clients c).serverSocket = some t) :
    σ.through c = some t ∨ ∃ a, i = .completeConnectionAttempt a t ∧
      σ.conn.isConnectionAttemptPending a = true ∧ (σ.conn.attempts a).client = c := by
  rcases execConn_connected hc with hc | ⟨a, s, rfl, hp, hcl⟩
  · rcases execConn_paired ht with ht | h
    · exact Or.inl (through_eq_some.mpr ⟨hc, ht⟩)
    · exact Or.inr h
  · refine Or.inr ⟨a, ?_, hp, hcl⟩
    simp [execConn, completeConnectionAttempt, hp, hcl, Conn.setManager, Conn.setClient] at ht
    rw [ht]

/-- A connected client keeps its attempt or loses it. -/
theorem execConn_current {σ : Core} {i : ConnInstr} {c : ClientId} {a : AttemptId}
    (hc : (σ.conn.clients c).connected = true)
    (h : ((execConn P σ i).part.clients c).connectionAttempt = some a)
    (hn : c < σ.conn.clientCount) : (σ.conn.clients c).connectionAttempt = some a := by
  have hset : ∀ {κ : Conn} {d : ClientId} {g : ClientSocket → ClientSocket},
      ((κ.setClient d g).clients c).connectionAttempt = some a →
      (∀ x, (g x).connectionAttempt = some a → x.connectionAttempt = some a) →
      (κ.clients c).connectionAttempt = some a := by
    intro κ d g hs hg
    simp only [Conn.setClient, modify_apply] at hs
    split at hs
    · rename_i hd
      exact hd ▸ hg _ hs
    · exact hs
  cases i with
  | openClient name b f =>
      have hne : c ≠ (σ.conn.managerFor name f).1.clientCount :=
        (hn.trans_le (Conn.Extends.managerFor σ.conn name f).clients).ne
      have hnew : ∀ io nsp, ((σ.conn.managerFor name f).1.newClient io name nsp b).clients c =
          σ.conn.clients c := fun io nsp => by
        simp [Conn.newClient, hne, managerFor_clients]
      simp only [execConn, openClient] at h
      split at h
      · have hcur := begin_current (by rw [hnew]; exact hc) h
        rwa [hnew] at hcur
      · split at h <;> exact (congrArg ClientSocket.connectionAttempt (hnew _ _)).symm.trans h
  | connect d =>
      simp only [execConn, connect] at h
      split at h
      · exact h
      · split at h
        · exact h
        · refine hset (begin_current ?_ h) fun _ h => h
          simp only [Conn.setClient, modify_apply]
          split
          · rename_i hd
            exact hd ▸ hc
          · exact hc
  | setAuth d b => exact hset h fun _ h => h
  | admitDynamic d => exact begin_current hc h
  | attachNamespace d n => exact hset h fun _ h => h
  | newServerSocket b n =>
      simp only [execConn, newServerSocket] at h
      split at h <;> exact h
  | rejectConnectionAttempt b err =>
      simp only [execConn, rejectConnectionAttempt] at h
      split at h <;> exact h
  | rejectConnectionAttemptRest b err =>
      simp only [execConn, rejectConnectionAttemptRest] at h
      split at h <;> exact hset h (by intro _ h; cases h)
  | cancelConnectionAttempt d =>
      simp only [execConn, cancelConnectionAttempt] at h
      split at h
      · exact h
      · split at h <;> exact h
  | cancelConnectionAttemptRest d => exact hset h (by intro _ h; cases h)
  | completeConnectionAttempt b s =>
      simp only [execConn, completeConnectionAttempt] at h
      split at h
      · exact hset h fun _ h => h
      · split at h <;> exact h
  | markDisconnected d reason =>
      simp only [execConn, markDisconnected] at h
      split at h
      · exact h
      · exact hset h (by intro _ h; cases h)

/-- The attempt of a connected client is no longer pending; a client past the last one is not
    connected. -/
structure Conn.Steady (κ : Conn) : Prop where
  settled : ∀ c a, (κ.clients c).connected = true → (κ.clients c).connectionAttempt = some a →
    (κ.attempts a).state ≠ .pending
  born : ∀ c, (κ.clients c).connected = true → c < κ.clientCount

theorem steady_exec {σ : Core} (hw : σ.Wf P) (h : σ.conn.Steady) {i : Instr} (hv : i.Valid σ) :
    (exec P i σ).core.conn.Steady := by
  have hE := conn_extends hw hv
  cases i with
  | conn i =>
      constructor
      · intro c a hc ha
        rcases execConn_connected hc with hc' | ⟨b, s, rfl, hp, hcl⟩
        · have ha' := execConn_current hc' ha (h.born c hc')
          exact (conn_follows hv).settled a (hw.conn.connectionAttempt c a ha').1
            (h.settled c a hc' ha')
        · have hcur := hp
          simp only [Conn.isConnectionAttemptPending, Bool.and_eq_true, decide_eq_true_eq,
            hcl] at hcur
          simp [exec, execConn, completeConnectionAttempt, hp, hcl, Conn.setManager,
            Conn.setClient, Conn.setAttempt, hcur.1] at ha ⊢
          simp [ha]
      · intro c hc
        rcases execConn_connected hc with hc' | ⟨b, s, rfl, hp, hcl⟩
        · exact (h.born c hc').trans_le hE.clients
        · obtain ⟨hs, hb⟩ := hv (.builtFor b s) (List.mem_singleton_self _)
          have hlt := hw.conn.attempt b (hb ▸ hw.conn.attempt_lt hs)
          exact hcl ▸ hlt.trans_le hE.clients
  | _ => exact h

theorem steady_inductive (P : Platform) :
    Inductive (runtime P) (fun _ _ => True) (fun σ => σ.Wf P ∧ σ.conn.Steady)
      (fun σ i => i.Valid σ ∧ True) fun _ => (none : Option Unit) := by
  refine Machine.Layer.inductive (valid_inductive P) (fun _ _ _ => trivial) (.of_facts ?_
    (fun _ _ _ _ _ _ _ => trivial) (fun _ _ _ _ _ _ _ _ => trivial) (fun _ _ _ _ _ => trivial)
    (fun _ _ _ _ _ _ _ _ => trivial) fun _ _ _ => trivial)
  exact fun _ _ hw hv h => steady_exec hw h.inv hv

theorem reach_steady {C : State → Action Instr → Prop} {σ : State}
    (h : (runtime P).Reach C newServer σ) : σ.core.conn.Steady :=
  (h.inv_ok (steady_inductive P) (fun _ _ _ _ _ _ _ => trivial)
    ⟨⟨newServer_wf P, fun _ _ hc => (by cases hc), fun _ hc => (by cases hc)⟩, nofun, .nil⟩).inv.2

/-- The mark of a disconnect. -/
def Instr.marks : Instr → Option ClientId
  | .conn (.markDisconnected c _) => some c
  | _ => none

theorem marks_eq_some {i : Instr} {c : ClientId} (h : i.marks = some c) :
    ∃ reason, i = .conn (.markDisconnected c reason) := by
  unfold Instr.marks at h
  split at h
  · rename_i d reason
    exact ⟨reason, congrArg (fun d => Instr.conn (.markDisconnected d reason)) (Option.some.inj h)⟩
  · cases h

/-- A client is marked disconnected as soon as it has been found connected. -/
theorem marks_headed (P : Platform) :
    Headed (runtime P) (fun i => i.marks.isSome = true) fun σ i =>
      ∀ c, i.marks = some c → (σ.conn.clients c).connected = true where
  app i hi := by
    cases i with
    | app x => cases hi
    | _ => rfl
  head σ i j hj hm c hc := by
    have hby := spawnedBy (List.mem_append_left _ (List.mem_of_mem_head? hj))
    unfold Instr.marks at hc
    split at hc
    · obtain rfl := Option.some.inj hc
      rcases hby with rfl | ⟨s, rfl⟩ | ⟨s, rfl⟩
      · simp only [runtime, exec, execCtl, clientDisconnect] at hj
        split at hj
        · assumption
        · cases hj
      · simp only [runtime, exec, execCtl, markFromServer] at hj
        split at hj
        · rename_i hcon
          obtain ⟨rfl, -⟩ := ConnInstr.markDisconnected.inj (Instr.conn.inj (Option.some.inj hj))
          exact hcon
        · cases hj
      · simp only [runtime, exec, execSrv, closeRest] at hj
        split at hj
        · rename_i hcon
          obtain ⟨rfl, -⟩ := ConnInstr.markDisconnected.inj (Instr.conn.inj (Option.some.inj hj))
          exact hcon
        · cases hj
    · cases hc
  tail σ i j hj hm := by
    have hby := spawnedBy (List.mem_append_left _ (List.mem_of_mem_tail hj))
    unfold Instr.marks at hm
    split at hm
    · rcases hby with rfl | ⟨s, rfl⟩ | ⟨s, rfl⟩
      · simp only [runtime, exec, execCtl, clientDisconnect] at hj
        split at hj <;> simp at hj
      · simp only [runtime, exec, execCtl, markFromServer] at hj
        split at hj <;> cases hj
      · simp only [runtime, exec, execSrv, closeRest] at hj
        split at hj <;> simp at hj
    · cases hm
  post σ i j hj hm := by
    have hby := spawnedBy (List.mem_append_right _ hj)
    unfold Instr.marks at hm
    split at hm
    · rcases hby with rfl | ⟨s, rfl⟩ | ⟨s, rfl⟩ <;> cases hj
    · cases hm
  call σ i hc hm := by
    unfold Instr.marks at hm
    split at hm <;> [cases hc; cases hm]
  handle σ i is his j hj hm := by
    rcases onThrow_handle his with rfl | ⟨a, err, rfl, -⟩
    · cases hj
    · rw [List.mem_singleton.mp hj] at hm
      cases hm

/-- So it is connected, and its attempt is no longer pending. -/
theorem reach_marks {C : State → Action Instr → Prop} {σ τ : State} {c : ClientId} {r : String}
    (h : (runtime P).Reach C newServer σ)
    (hn : (runtime P).next σ = some (.conn (.markDisconnected c r), τ)) :
    (σ.core.conn.clients c).connected = true ∧
      ∀ a, (σ.core.conn.clients c).connectionAttempt = some a →
        (σ.core.conn.attempts a).state ≠ .pending := by
  obtain ⟨hhead, htail⟩ := h.headed (marks_headed P) fun _ hj => absurd hj List.not_mem_nil
  have hcon : (σ.core.conn.clients c).connected = true := by
    obtain ⟨-, ⟨-, hst, -⟩ | ⟨hst, -, hq⟩⟩ := next_pending hn
    · exact hhead _ (by rw [hst]; rfl) rfl c rfl
    · exact absurd rfl (htail _ (by rw [hst, hq]; exact List.mem_cons_self))
  exact ⟨hcon, fun a ha => (reach_steady h).settled c a hcon ha⟩

/-! ## 2. Deferred work -/

/-- The socket whose disconnect or close an instruction passes on to its client, or to its client's
    Manager. -/
def Instr.defers : Instr → Option SocketId
  | .ctl (.markFromServer s) | .srv (.closeRest s) | .ctl (.managerDisconnect _ s) => some s
  | _ => none

/-- The socket whose client an instruction marks. -/
def Instr.marksPeer : Instr → Option SocketId
  | .ctl (.markFromServer s) => some s
  | _ => none

theorem marksPeer_eq_some {i : Instr} {s : SocketId} (h : i.marksPeer = some s) :
    i = .ctl (.markFromServer s) := by
  unfold Instr.marksPeer at h
  split at h
  · exact congrArg (fun s => Instr.ctl (.markFromServer s)) (Option.some.inj h)
  · cases h

/-- The socket an instruction may connect its client through. -/
def Instr.connects : Instr → Option SocketId
  | .ctl (.completion s none) | .conn (.completeConnectionAttempt _ s) => some s
  | _ => none

/-- `s` is the only socket its client may be connected through. -/
def Core.Unrivalled (σ : Core) (s : SocketId) : Prop :=
  ∀ t, σ.through (σ.conn.sockets s).peer = some t → t = s

/-- `i` does not connect the client of `s` through another socket. -/
def Core.Leaves (σ : Core) (s : SocketId) (i : Instr) : Prop :=
  ∀ t, i.connects = some t → t ≠ s → (σ.conn.sockets t).peer = (σ.conn.sockets s).peer →
    (σ.conn.attempts (σ.conn.sockets t).attempt).state ≠ .pending

/-- Whether the end of a teardown passes the disconnect on to the client. -/
def Core.passesOn (σ : Core) : Instr → Option SocketId
  | .life (.teardownDone s sync) =>
    if sync || (σ.life.waiting s).contains .resume then some s else none
  | _ => none

/-- **The condition**: where the end of a teardown leaves the client's part to a later task, the
    client is not connected through another socket, and nothing pending will connect it so. -/
structure DefersInTime (P : Platform) (σ : State) (a : Action Instr) : Prop where
  unrivalled : (runtime P).Obeys (fun σ i => ∀ s, σ.passesOn i = some s → σ.Unrivalled s) σ a
  leaves : (runtime P).Posts (fun σ i j => ∀ s, σ.passesOn i = some s → σ.Leaves s j) σ a

instance (σ : Core) (s : SocketId) : Decidable (σ.Unrivalled s) :=
  inferInstanceAs (Decidable (∀ t ∈ σ.through (σ.conn.sockets s).peer, t = s))

instance (σ : Core) (s : SocketId) (i : Instr) : Decidable (σ.Leaves s i) :=
  inferInstanceAs (Decidable (∀ t ∈ i.connects, t ≠ s →
    (σ.conn.sockets t).peer = (σ.conn.sockets s).peer →
      (σ.conn.attempts (σ.conn.sockets t).attempt).state ≠ .pending))

instance (σ : State) (a : Action Instr) : Decidable (DefersInTime P σ a) :=
  have (σ : Core) (i : Instr) : Decidable (∀ s, σ.passesOn i = some s → σ.Unrivalled s) :=
    inferInstanceAs (Decidable (∀ s ∈ σ.passesOn i, σ.Unrivalled s))
  have (σ : Core) (i j : Instr) : Decidable (∀ s, σ.passesOn i = some s → σ.Leaves s j) :=
    inferInstanceAs (Decidable (∀ s ∈ σ.passesOn i, σ.Leaves s j))
  decidable_of_iff (_ ∧ _) ⟨fun h => ⟨h.1, h.2⟩, fun h => ⟨h.unrivalled, h.leaves⟩⟩

/-- Deferred work finds its client unrivalled. -/
def DefersOk (σ : Core) (j : Instr) : Prop := ∀ s, j.defers = some s → σ.Unrivalled s

/-- What may connect a client through another socket stands behind the work deferred for it. -/
def DefersFirst (σ : Core) (i j : Instr) : Prop := ∀ s, j.defers = some s → σ.Leaves s i

theorem defers_valid {σ : Core} {j : Instr} {s : SocketId} (hv : j.Valid σ)
    (hj : j.defers = some s) : s < σ.conn.socketCount := by
  unfold Instr.defers at hj
  split at hj <;> cases hj <;> exact hv (.socket s) (List.mem_singleton_self _)

theorem connects_valid {σ : Core} {i : Instr} {t : SocketId} (hv : i.Valid σ)
    (hi : i.connects = some t) : t < σ.conn.socketCount := by
  unfold Instr.connects at hi
  split at hi <;> cases hi
  · exact hv (.socket t) (List.mem_singleton_self _)
  · exact (hv (.builtFor _ t) (List.mem_singleton_self _)).1

/-- Who spawns deferred work. -/
theorem spawns_defers {σ : Core} {i j : Instr} (hj : j ∈ (exec P i σ).spawned) {s : SocketId}
    (hs : j.defers = some s) : σ.passesOn i = some s ∨ i = .ctl (.disconnect s true) := by
  have hby := spawnedBy hj
  unfold Instr.defers at hs
  split at hs <;> cases hs
  · obtain rfl : i = .life (.teardownDone s true) := by simpa using hby
    exact Or.inl (by simp [Core.passesOn])
  · obtain rfl : i = .life (.teardownDone s false) := by simpa using hby
    refine Or.inl ?_
    simp only [exec, execLife, teardownDone, Effect.spawned, Bool.false_eq_true, if_false,
      List.nil_append, List.mem_map] at hj
    obtain ⟨w, hw, he⟩ := hj
    cases w with
    | resume => simp [Core.passesOn, hw]
    | closed => cases he
  · exact Or.inr (by simpa using hby)

/-- Who spawns what connects, and on which side. -/
theorem spawns_connects {σ : Core} {i j : Instr} {t : SocketId} (ht : j.connects = some t) :
    (j ∈ (exec P i σ).push → i = .ctl (.completion t none)) ∧
      (j ∈ (exec P i σ).post → i = .life (.runMiddleware t) ∨ ∃ k, i = .life (.next t k none)) := by
  constructor
  · intro hj
    have hby := spawnedBy (List.mem_append_left _ hj)
    unfold Instr.connects at ht
    split at ht <;> cases ht
    · rcases hby with rfl | ⟨k, rfl⟩
      · simp only [exec, execLife, runMiddleware, Life.advance] at hj
        split at hj <;> simp at hj
      · simp only [exec, execLife, next, Life.advance] at hj
        split at hj <;> simp at hj
    · simpa using hby
  · intro hj
    have hby := spawnedBy (List.mem_append_right _ hj)
    unfold Instr.connects at ht
    split at ht <;> cases ht
    · exact hby
    · obtain rfl : i = .ctl (.completion t none) := by simpa using hby
      simp [exec, execCtl, completion] at hj

/-- Being in order is kept while the socket's client gets no other server socket. -/
theorem Core.Unrivalled.exec {σ : Core} (hw : σ.Wf P) {i : Instr} (hv : i.Valid σ) {s : SocketId}
    (hs : s < σ.conn.socketCount) (h : σ.Unrivalled s) (hl : σ.Leaves s i) :
    (exec P i σ).core.Unrivalled s := by
  intro t ht
  rw [(conn_extends hw hv).socketOf s hs] at ht
  obtain ⟨hc, hp⟩ := through_eq_some.mp ht
  cases i with
  | conn i =>
      rcases execConn_through hc hp with h' | ⟨a, rfl, hpend, hcl⟩
      · exact h t h'
      · by_contra hts
        obtain ⟨htlt, hta⟩ := hv (.builtFor a t) (List.mem_singleton_self _)
        refine hl t rfl hts ?_ ?_
        · rw [(hw.conn.socket t htlt).2.2, hta]
          exact hcl
        · simp only [Conn.isConnectionAttemptPending, Bool.and_eq_true, decide_eq_true_eq] at hpend
          rw [hta]
          exact hpend.2
  | _ => exact h t ht

theorem Core.Leaves.exec {σ : Core} (hw : σ.Wf P) {i j : Instr} (hv : i.Valid σ) (hvj : j.Valid σ)
    {s : SocketId} (hs : s < σ.conn.socketCount) (h : σ.Leaves s j) :
    (exec P i σ).core.Leaves s j := by
  intro t ht hts hpeer
  have htlt := connects_valid hvj ht
  have hE := conn_extends hw hv
  rw [hE.socketOf t htlt, hE.socketOf s hs] at hpeer
  exact settled_exec hw hv htlt (h t ht hts hpeer)

theorem passesOn_eq {σ : Core} {i : Instr} {s : SocketId} (h : σ.passesOn i = some s) :
    ∃ sync, i = .life (.teardownDone s sync) := by
  unfold Core.passesOn at h
  split at h
  · split at h <;> cases h
    exact ⟨_, rfl⟩
  · cases h

/-- The socket that owns its client's connection has no rival. -/
theorem Conn.Steady.owner {σ : Core} (h : σ.conn.Steady) {s : SocketId}
    (ho : σ.ownsConnection (σ.conn.sockets s).peer s = true) : σ.Unrivalled s := by
  intro t ht
  obtain ⟨hc, hp⟩ := through_eq_some.mp ht
  simp only [Core.ownsConnection, Bool.and_eq_true, Bool.or_eq_true, decide_eq_true_eq,
    Option.any_eq_true] at ho
  rcases ho.2 with ⟨-, hs⟩ | ⟨a, ha, hpend, -⟩
  · exact Option.some.inj (hp.symm.trans hs)
  · exact absurd hpend (h.settled _ a hc ha)

/-- **The order of deferred work.** -/
theorem defers_order (P : Platform) :
    Order (runtime P) (fun σ i => ∀ s, σ.passesOn i = some s → σ.Unrivalled s)
      (fun σ => σ.Wf P ∧ σ.conn.Steady) (fun σ i => i.Valid σ ∧ True)
      (fun σ i j => ∀ s, σ.passesOn i = some s → σ.Leaves s j) DefersOk DefersFirst where
  spawn σ i h _ j hj s hs := by
    rcases spawns_defers hj hs with hp | rfl
    · have hu := h.good s hp
      obtain ⟨sync, rfl⟩ := passesOn_eq hp
      exact hu
    · simp only [runtime, exec, execCtl, disconnect, Effect.spawned, if_true, List.append_nil] at hj
      split at hj
      · rename_i ho
        exact h.inv.2.owner ho
      · cases hj
  keep σ i j h hj _ hok hr s hs :=
    (hok s hs).exec h.inv.1 h.ok.1 (defers_valid hj.1 hs) (hr s hs)
  stable σ i j k h hj hk _ _ hjk s hs := (hjk s hs).exec h.inv.1 h.ok.1 hj.1 (defers_valid hk.1 hs)
  push σ i j p h hj _ _ hr hp s hs t ht hts hpeer := by
    obtain rfl := (spawns_connects ht).1 hp
    exact hr s hs t rfl hts hpeer
  post σ i j p h hj _ _ _ hf hp s hs := by
    rcases spawns_defers (List.mem_append_right _ hp) hs with hp | rfl
    · have hl := hf s hp
      obtain ⟨sync, rfl⟩ := passesOn_eq hp
      exact hl
    · cases hp
  inner σ i h _ := by
    refine List.pairwise_of_forall_mem_list fun p hp q hq s hs t ht => ?_
    have hi : i = .ctl (.completion t none) ∨ i = .life (.runMiddleware t) ∨
        ∃ k, i = .life (.next t k none) :=
      (List.mem_append.mp hp).imp (spawns_connects ht).1 (spawns_connects ht).2
    rcases spawns_defers hq hs with hq | rfl
    · obtain ⟨sync, rfl⟩ := passesOn_eq hq
      rcases hi with hi | hi | ⟨k, hi⟩ <;> cases hi
    · rcases hi with hi | hi | ⟨k, hi⟩ <;> cases hi
  call σ i _ hc s hs := by
    unfold Instr.defers at hs
    split at hs <;> simp [runtime, callable] at hc
    cases hs
  callRel σ i j _ hc _ _ s hs t ht := by
    unfold Instr.connects at ht
    split at ht <;> simp [runtime, callable] at hc
    cases ht
  handle σ i is _ _ his := by
    rcases onThrow_handle his with rfl | ⟨a, err, rfl, -⟩
    · exact ⟨(by intro _ h; cases h), .nil, (by intro _ h; cases h)⟩
    · refine ⟨?_, List.pairwise_singleton _ _, ?_⟩
      · intro p hp
        obtain rfl := List.mem_singleton.mp hp
        intro _ h
        cases h
      · intro p hp j _ _ s _ t ht
        obtain rfl := List.mem_singleton.mp hp
        cases ht

/-! ## 3. What is done on behalf of a socket -/

/-- The calls on a server socket, and the work they and its teardown leave behind. -/
def Instr.onBehalf : Instr → Option SocketId
  | .ctl (.disconnect s _) | .ctl (.managerDisconnect _ s) | .ctl (.managerPending _ s)
  | .ctl (.markFromServer s) | .life (.teardown s ..) | .life (.teardownTask s ..)
  | .life (.disconnectNamespaceFromServer s) | .life (.teardownCleanup s ..)
  | .life (.teardownDisconnect s ..) | .life (.teardownDone s _)
  | .life (.cleanupConnectionAttempt s) | .life (.invalidateAcknowledgements s)
  | .life (.awaitTeardown s _) | .life (.endDispatch s) | .memb (.join s _) | .memb (.leave s _)
  | .memb (.cleanupMembership s) | .memb (.drainEnd s) | .memb (.cleanupMembershipRest s)
  | .mail (.serverEmit s ..) | .mail (.serverEmitRest s ..) | .mail (.sendBroadcast s _)
  | .mail (.sendBroadcastRest s ..) | .mail (.removeDeliveries s) | .srv (.removeSocket s)
  | .srv (.closeFromServer s) | .srv (.awaitClosed s) | .srv (.closeRest s)
  | .srv (.closeResolved s) => some s
  | _ => none

/-- What touches no client on its own: application code, deliveries, the bookkeeping of `close`, and
    the check before the attempt of another client is cancelled. -/
def Instr.neutral : Instr → Bool
  | .app _ | .ctl (.deliverClient _) | .mail (.pumpRun _) | .mail (.cancelTimer _)
  | .srv (.socketClosed _) | .ctl (.cancelUnlessOwner ..) => true
  | _ => false

/-- All of a list is done on behalf of `s`, or neutral. -/
def AllOnBehalf (s : SocketId) (l : List Instr) : Prop :=
  ∀ j ∈ l, j.onBehalf = some s ∨ j.neutral = true

@[simp] theorem allOnBehalf_nil (s : SocketId) : AllOnBehalf s [] := nofun

@[simp] theorem allOnBehalf_cons {s : SocketId} {j : Instr} {l : List Instr} :
    AllOnBehalf s (j :: l) ↔ (j.onBehalf = some s ∨ j.neutral = true) ∧ AllOnBehalf s l :=
  List.forall_mem_cons

@[simp] theorem allOnBehalf_append {s : SocketId} {l l' : List Instr} :
    AllOnBehalf s (l ++ l') ↔ AllOnBehalf s l ∧ AllOnBehalf s l' := List.forall_mem_append

theorem allOnBehalf_map {α : Type} {s : SocketId} {l : List α} {f : α → Instr}
    (h : ∀ x ∈ l, (f x).onBehalf = some s ∨ (f x).neutral = true) : AllOnBehalf s (l.map f) := by
  intro j hj
  obtain ⟨x, hx, rfl⟩ := List.mem_map.mp hj
  exact h x hx

/-- A packet on its way to a client leaves its outbox alone. -/
structure Out.Sends (μ : Mail) (s : SocketId) (o : Out Mail) : Prop where
  outboxes : o.part.outboxes = μ.outboxes
  spawned : AllOnBehalf s (o.push ++ o.post)

theorem pump_sends (μ : Mail) (s : SocketId) (n : NspId) (sid : String) :
    (μ.pump n sid).1.outboxes = μ.outboxes ∧ AllOnBehalf s (μ.pump n sid).2 := by
  unfold Mail.pump
  split
  · exact ⟨rfl, by simp⟩
  · split
    · exact ⟨rfl, by simp⟩
    · dsimp only
      split
      · exact ⟨rfl, by simp [Instr.neutral]⟩
      · exact ⟨rfl, by simp⟩

theorem scheduleReceive_sends (σ : Core) (μ : Mail) (s : SocketId) (d : Delivery) :
    (scheduleReceive σ μ d).Sends μ s := by
  unfold scheduleReceive
  split
  · exact ⟨rfl, by simp [Instr.neutral]⟩
  · dsimp only
    split
    · exact ⟨rfl, by simp [Instr.neutral]⟩
    · unfold Mail.scheduleDelivery
      dsimp only
      split
      · exact ⟨rfl, by simp⟩
      · obtain ⟨h1, h2⟩ := pump_sends (μ.newQueue _ _ _) s _ _
        exact ⟨h1, by simpa using h2⟩
    · exact ⟨rfl, by simp [Instr.neutral]⟩

theorem sendToClient_sends (σ : Core) (s : SocketId) (serial : Nat) (event : String)
    (reply : Option Reply) (survived : Bool) :
    (sendToClient σ s serial event reply survived).Sends σ.mail s := by
  unfold sendToClient
  dsimp only
  split
  · exact scheduleReceive_sends ..
  · split
    · exact ⟨rfl, by simp⟩
    · exact ⟨(scheduleReceive_sends _ _ s _).outboxes, (scheduleReceive_sends _ _ s _).spawned⟩

theorem newRequest_outboxes (μ : Mail) (form : EmitForm) (q : Request) :
    (μ.newRequest form q).1.outboxes = μ.outboxes := by
  unfold Mail.newRequest
  split
  · rfl
  · split <;> rfl
  · rfl

/-- The traffic of a server socket. -/
theorem execMail_onBehalf {σ : Core} {i : MailInstr} {s : SocketId}
    (hi : (Instr.mail i).onBehalf = some s) : (execMail σ i).Sends σ.mail s := by
  cases i <;> simp [Instr.onBehalf] at hi <;> subst hi
  case serverEmit event form =>
    simp only [execMail, serverEmit]
    split
    · exact ⟨rfl, by simp⟩
    · split
      · exact ⟨newRequest_outboxes .., by simp⟩
      · exact ⟨newRequest_outboxes .., by simp [Instr.onBehalf, Instr.neutral]⟩
  case serverEmitRest serial event reply was =>
    simp only [execMail, serverEmitRest]
    split
    · exact ⟨rfl, by simp⟩
    · exact sendToClient_sends ..
  case sendBroadcast event =>
    exact ⟨rfl, by simp [execMail, sendBroadcast, Instr.onBehalf, Instr.neutral]⟩
  case sendBroadcastRest serial event was => exact sendToClient_sends σ _ serial event none _
  case removeDeliveries =>
    simp only [execMail, removeDeliveries]
    split
    · exact ⟨rfl, by simp⟩
    · exact ⟨rfl, by simp [Instr.neutral]⟩
    · split
      · exact ⟨rfl, by simp⟩
      · refine ⟨rfl, ?_⟩
        simp only [List.append_nil, allOnBehalf_append]
        exact ⟨allOnBehalf_map fun _ _ => Or.inr rfl, by simp [Instr.neutral]⟩

/-- The lifecycle of a server socket. -/
theorem execLife_onBehalf {σ : Core} {i : LifeInstr} {s : SocketId}
    (hi : (Instr.life i).onBehalf = some s) :
    AllOnBehalf s ((execLife σ i).push ++ (execLife σ i).post) ∧
      ∀ t ≠ s, (execLife σ i).part.sockets t = σ.life.sockets t := by
  have hset : ∀ (g : Lifecycle → Lifecycle), ∀ t ≠ s,
      (σ.life.setSocket s g).sockets t = σ.life.sockets t := fun g t ht => by
    simp [Life.setSocket, ht]
  cases i <;> simp [Instr.onBehalf] at hi <;> subst hi
  case teardown r d =>
    simp only [execLife, teardown]
    split
    · exact ⟨by simp, fun _ _ => rfl⟩
    · exact ⟨by simp [Instr.onBehalf], hset _⟩
  case disconnectNamespaceFromServer =>
    simp only [execLife, disconnectNamespaceFromServer]
    split
    · exact ⟨by simp, fun _ _ => rfl⟩
    · exact ⟨by simp [ownedDispatch, Instr.onBehalf, Instr.neutral], hset _⟩
  case teardownDone sync =>
    simp only [execLife, teardownDone]
    split
    · exact ⟨by simp [Instr.onBehalf], fun _ _ => rfl⟩
    · refine ⟨?_, fun t ht => by simp [Life.setWaiting, Life.setSocket, ht]⟩
      simp only [List.nil_append]
      exact allOnBehalf_map fun w _ => Or.inl (by cases w <;> rfl)
  case awaitTeardown w => exact ⟨by simp [execLife], fun _ _ => rfl⟩
  all_goals
    refine ⟨?_, hset _⟩
    simp [execLife, teardownTask, teardownCleanup, teardownDisconnect, cleanupConnectionAttempt,
      ownedDispatch, Instr.onBehalf, Instr.neutral]

/-- Membership, server and control work of a server socket: only what is deferred for its client
    may reach further. -/
theorem exec_onBehalf {σ : Core} {i : Instr} {s : SocketId} (hi : i.onBehalf = some s)
    (hd : i.defers ≠ some s) : (exec P i σ).core.conn = σ.conn ∧
      (exec P i σ).core.mail.outboxes = σ.mail.outboxes ∧
      (∀ t ≠ s, (exec P i σ).core.life.sockets t = σ.life.sockets t) ∧
      AllOnBehalf s (exec P i σ).spawned := by
  cases i with
  | app x => cases hi
  | conn i => cases hi
  | life i =>
      obtain ⟨h1, h2⟩ := execLife_onBehalf (σ := σ) hi
      exact ⟨rfl, rfl, h2, h1⟩
  | mail i =>
      have h := execMail_onBehalf (σ := σ) hi
      exact ⟨rfl, h.outboxes, fun _ _ => rfl, h.spawned⟩
  | memb i =>
      refine ⟨rfl, rfl, fun _ _ => rfl, ?_⟩
      cases i <;> simp [Instr.onBehalf] at hi <;> subst hi
      case cleanupMembership =>
        simp only [exec, execMemb, cleanupMembership]
        split <;> simp [Effect.spawned, Instr.onBehalf]
      all_goals simp [exec, execMemb, Effect.spawned]
  | srv i =>
      refine ⟨rfl, rfl, fun _ _ => rfl, ?_⟩
      cases i <;> simp [Instr.onBehalf] at hi <;> subst hi
      case closeRest => exact absurd rfl hd
      case closeFromServer =>
        simp only [exec, execSrv, closeFromServer]
        split <;> simp [Effect.spawned, Instr.onBehalf]
      case awaitClosed =>
        simp only [exec, execSrv, awaitClosed]
        split <;> simp [Effect.spawned, Instr.onBehalf]
      all_goals simp [exec, execSrv, removeSocket, Effect.spawned, Instr.onBehalf, Instr.neutral]
  | ctl i =>
      refine ⟨rfl, rfl, fun _ _ => rfl, ?_⟩
      cases i <;> simp [Instr.onBehalf] at hi <;> subst hi
      case disconnect close =>
        simp only [exec, execCtl, disconnect]
        split
        · split <;> simp [Effect.spawned, Instr.onBehalf]
        · simp [Effect.spawned, Instr.onBehalf]
      case managerPending m =>
        simp only [exec, execCtl, managerPending, Effect.spawned, List.append_nil,
          allOnBehalf_append]
        exact ⟨allOnBehalf_map fun _ _ => Or.inr rfl, by simp [Instr.onBehalf]⟩
      all_goals exact absurd rfl hd

/-! ## 4. Every run -/

theorem reach_defers {σ : State} (h : (runtime P).Reach (DefersInTime P) newServer σ) :
    ∀ i ∈ σ.pending, DefersOk σ.core i := by
  have hS : Inductive (runtime P) (fun σ i => ∀ s, σ.passesOn i = some s → σ.Unrivalled s)
      (fun σ => σ.Wf P ∧ σ.conn.Steady) (fun σ i => i.Valid σ ∧ True)
      fun _ => (none : Option Unit) :=
    (steady_inductive P).restrict (fun _ _ _ => trivial) fun σ i hr s hs => by
      obtain ⟨sync, rfl⟩ := passesOn_eq hs
      cases hr
  have hR := h.order (defers_order P) hS (fun _ _ hC => hC.unrivalled) (fun _ _ hC => hC.leaves)
    ⟨⟨newServer_wf P, fun _ _ hc => (by cases hc), fun _ hc => (by cases hc)⟩, nofun, .nil⟩
    ⟨nofun, .nil⟩
  exact hR.ok

/-- **A stale socket is harmless.** In every run in which no teardown leaves the client's part to a
    later task while the client is, or is about to be, connected through another socket: while a
    client is connected through `t`, no call on another server socket `s` of it and no work left
    behind by `s` changes the connection of any client, its pending acknowledgements or the
    lifecycle of `t`, and all it leaves behind is again work of `s`, or neutral. -/
theorem stale_socket_harmless {σ : State} (h : (runtime P).Reach (DefersInTime P) newServer σ)
    {i : Instr} (hi : (∃ τ, (runtime P).next σ = some (i, τ)) ∨ callable σ.core i = true)
    {s t : SocketId} (hs : i.onBehalf = some s) (hts : t ≠ s)
    (ht : σ.core.through (σ.core.conn.sockets s).peer = some t) :
    (exec P i σ.core).core.conn = σ.core.conn ∧
      (exec P i σ.core).core.mail.outboxes = σ.core.mail.outboxes ∧
      (exec P i σ.core).core.life.sockets t = σ.core.life.sockets t ∧
      ∀ j ∈ (exec P i σ.core).spawned, j.onBehalf = some s ∨ j.neutral = true := by
  have hd : i.defers ≠ some s := fun hd => by
    have hok : DefersOk σ.core i := by
      rcases hi with ⟨τ, hn⟩ | hc
      · refine reach_defers h i ?_
        obtain ⟨-, ⟨-, hst, -⟩ | ⟨-, -, hq⟩⟩ := next_pending hn
        · simp [Config.pending, hst]
        · simp [Config.pending, hq]
      · exact (defers_order P).call σ.core i
          ⟨(reach_wf h).1, reach_steady h⟩ hc
    exact hts (hok s hd t ht)
  obtain ⟨h1, h2, h3, h4⟩ := exec_onBehalf (P := P) (σ := σ.core) hs hd
  exact ⟨h1, h2, h3 t hts, h4⟩

/-- A client is disconnected by its server socket and connects again; then the old socket is
    disconnected once more. -/
theorem stale_socket_harmless_reconnect :
    ∃ σ, (runtime unary).Reach (DefersInTime unary) newServer σ ∧ σ.core.through 0 = some 1 ∧
      (exec unary (.ctl (.disconnect 0 false)) σ.core).core.conn = σ.core.conn := by
  obtain ⟨σ, hσ, hp⟩ := reach_of_script (runtime unary) (DefersInTime unary) newServer 100
    [.call (.srv (.serverConnect "/" false false)), .run, .run, .ret, .ret, .ret,
      .call (.ctl (.disconnect 0 false)), .ret, .ret, .run, .ret, .call (.conn (.connect 0)), .run,
      .run, .ret, .ret, .ret]
    (fun σ => decide (σ.core.through 0 = some 1 ∧ (σ.core.conn.sockets 0).peer = 0 ∧
      0 < σ.core.conn.socketCount))
    (by decide)
  rw [decide_eq_true_iff] at hp
  obtain ⟨ht, hpeer, hlt⟩ := hp
  have hc : callable σ.core (.ctl (.disconnect 0 false)) = true := decide_eq_true hlt
  refine ⟨σ, hσ, ht, ?_⟩
  exact (stale_socket_harmless hσ (Or.inr hc) rfl
    (show (1 : SocketId) ≠ 0 by decide) (hpeer.symm ▸ ht)).1

/-- The first attempt of a client is rejected by the middleware, its second one succeeds. Then the
    server socket of the first is disconnected: two steps of the runtime later the client has lost
    its connection through the second. -/
theorem stale_socket_harms :
    ∃ σ, (runtime unary).Reach (fun _ _ => True) newServer σ ∧ σ.core.through 0 = some 1 ∧
      (runtime unary).next σ = some (.ctl (.markFromServer 0), { σ with queue := [] }) ∧
      (((runtime unary).step σ .run).bind fun σ => (runtime unary).step σ .run).any
        (fun σ => decide (σ.core.through 0 = none)) = true := by
  obtain ⟨σ, hσ, hp⟩ := reach_of_script (runtime unary) (fun _ _ => True) newServer 100
    [.call (.srv (.use 0 0)), .call (.srv (.serverConnect "/" false false)), .run,
      .call (.life (.next 0 0 (some { message := "no" }))), .ret, .run, .run, .ret,
      .call (.conn (.connect 0)), .run, .call (.life (.next 1 0 none)), .ret, .run, .ret, .ret, .ret,
      .call (.ctl (.disconnect 0 false)), .ret, .ret]
    (fun σ => decide (σ.core.through 0 = some 1) && σ.stack.isEmpty &&
      decide (σ.queue.map Instr.marksPeer = [some 0]) &&
      (((runtime unary).step σ .run).bind fun σ => (runtime unary).step σ .run).any
        fun (σ : State) => decide (σ.core.through 0 = none))
    (by decide)
  simp only [Bool.and_eq_true, decide_eq_true_iff, List.isEmpty_iff] at hp
  obtain ⟨⟨⟨ht, hst⟩, hq⟩, hend⟩ := hp
  refine ⟨σ, hσ, ht, ?_, hend⟩
  obtain ⟨i, hi, hm⟩ := List.map_eq_singleton_iff.mp hq
  rw [marksPeer_eq_some hm] at hi
  simp [Machine.next, hst, hi]

end Smocket
