import Smocket.Rosters
import Smocket.Grounds
import Smocket.Dues

/-
  File:      Smocket/Teardowns.lean
  Subject:   A TEARDOWN THAT IS NOT CUT SHORT FINISHES. What an exception skips of a teardown no
             later call makes up for; where it skips nothing that is left to do, every socket whose
             teardown is over is out of the roster, the rooms and the indexes, is not connected, and
             nobody waits for it.

  * `cleanup_dues` -- who is promised a teardown is cleaned up in the course of it;
  * `promise_dues` -- a promise that is pending is going to be resolved;
  * `reach_waiting` -- nobody waits for a teardown that is over;
  * `teardown_survives` -- a teardown that is not cut short finishes, for everybody;
  * `teardown_cut_short` -- a throwing `disconnecting` listener cuts one short.
-/

namespace Smocket

open Ordered EventLoop EventLoop.Machine

variable {P : Platform}

/-! ## 1. The condition -/

/-- The instruction belongs to a teardown or a cleanup of `s`. -/
def Instr.tearsDown (s : SocketId) : Instr → Bool
  | .life (.teardown t ..) | .life (.teardownTask t ..) | .life (.teardownCleanup t ..)
  | .life (.teardownDisconnect t ..) | .life (.teardownDone t _) | .life (.cleanupConnectionAttempt t)
  | .memb (.cleanupMembership t) | .memb (.cleanupMembershipRest t) => decide (t = s)
  | _ => false

/-- Whether skipping the instruction leaves something of a teardown undone. -/
def Core.leaves (σ : Core) : Instr → Bool
  | .life (.teardown s ..) =>
      (σ.life.sockets s).connected && decide ((σ.life.sockets s).teardownPromise = .none)
  | .life (.teardownTask ..) => true
  | .life (.teardownCleanup s _ sync) =>
      !sync || !(σ.memb.sockets s).membershipCleaned || (σ.life.sockets s).connected
  | .life (.teardownDisconnect _ _ sync) | .life (.teardownDone _ sync) => !sync
  | .memb (.cleanupMembership s) => !(σ.memb.sockets s).membershipCleaned
  | .memb (.cleanupMembershipRest s) =>
      decide ((σ.memb.rosters (σ.conn.sockets s).nsp).get? (σ.conn.sockets s).id = some s) ||
        !(σ.memb.sockets s).rooms.elems.isEmpty
  | _ => false

/-- The instruction is a call of `teardown` on `s`. -/
def Instr.teardownOf (s : SocketId) : Instr → Bool
  | .life (.teardown t ..) => decide (t = s)
  | _ => false

/-- The socket whose membership the instruction cleans up. -/
def Instr.cleans : Instr → Option SocketId
  | .memb (.cleanupMembership s) => some s
  | _ => none

/-- The membership of a connected socket is cleaned up by a teardown only. -/
def CleansTornDown (P : Platform) (σ : State) (a : Action Instr) : Prop :=
  a = .run → ∀ x ∈ (runtime P).next σ, ∀ s ∈ x.1.cleans, (σ.core.life.sockets s).connected = true →
    (σ.core.life.sockets s).teardownPromise ≠ .none ∨ ∃ j ∈ x.2.stack, j.teardownOf s = true

/-- **The condition**: an exception passes no instruction of a teardown that still has something to
    do, the membership of a connected socket is cleaned up by a teardown only, and completions are
    live. -/
def TeardownsFinish (P : Platform) (σ : State) (a : Action Instr) : Prop :=
  (∀ j ∈ (runtime P).dropped σ a, σ.core.leaves j = false) ∧ CleansTornDown P σ a ∧
    (runtime P).Obeys (fun σ i => completionLive σ i = true) σ a

instance (σ : State) (a : Action Instr) : Decidable (CleansTornDown P σ a) :=
  match a with
  | .run => decidable_of_iff (∀ x ∈ (runtime P).next σ, ∀ s ∈ x.1.cleans,
      (σ.core.life.sockets s).connected = true → (σ.core.life.sockets s).teardownPromise ≠ .none ∨
        ∃ j ∈ x.2.stack, j.teardownOf s = true) ⟨fun h _ => h, fun h => h rfl⟩
  | .call _ | .ret | .throw => isTrue nofun

instance (σ : State) (a : Action Instr) : Decidable (TeardownsFinish P σ a) :=
  inferInstanceAs (Decidable (_ ∧ _ ∧ _))

/-- What a finished teardown leaves. -/
structure Core.TornDown (σ : Core) (s : SocketId) : Prop where
  unlisted : ∀ n sid, (σ.memb.rosters n).get? sid ≠ some s
  rooms : ∀ room, room ∉ (σ.memb.sockets s).rooms
  sids : ∀ n, (σ.memb.adapters n).sids.get? (σ.conn.sockets s).id = none
  indexes : ∀ n room, ¬ (σ.memb.adapters n).rooms.Has room (σ.conn.sockets s).id
  disconnected : (σ.life.sockets s).connected = false
  promise : (σ.life.sockets s).teardownPromise ≠ .pending
  /-- nobody waits for the promise any more -/
  woken : σ.life.waiting s = []

/-! ## 2. The promise -/

/-- What one instruction does to a `teardownPromise`. -/
theorem execLife_promise (σ : Core) (i : LifeInstr) (s : SocketId) :
    ((execLife σ i).part.sockets s).teardownPromise = (σ.life.sockets s).teardownPromise ∨
      ((σ.life.sockets s).teardownPromise = .none ∧
        (((execLife σ i).part.sockets s).teardownPromise = .pending ∧ (∃ r d, i = .teardown s r d) ∨
          ((execLife σ i).part.sockets s).teardownPromise = .resolved ∧
            i = .disconnectNamespaceFromServer s)) ∨
      ((execLife σ i).part.sockets s).teardownPromise = .resolved ∧ i = .teardownDone s false := by
  have hset : ∀ {t : SocketId} {g : Lifecycle → Lifecycle},
      (∀ x, (g x).teardownPromise = x.teardownPromise) →
      ((σ.life.setSocket t g).sockets s).teardownPromise = (σ.life.sockets s).teardownPromise := by
    intro t g hg
    simp only [Life.setSocket, modify_apply]
    split
    · rename_i ht
      rw [hg, ht]
    · rfl
  cases i with
  | teardown t r d =>
      simp only [execLife, teardown]
      split
      · exact Or.inl rfl
      · rename_i hnone
        by_cases hts : t = s
        · subst hts
          exact Or.inr (Or.inl ⟨by simpa using hnone,
            Or.inl ⟨by simp [Life.setSocket], r, d, rfl⟩⟩)
        · exact Or.inl (by simp [Life.setSocket, Ne.symm hts])
  | disconnectNamespaceFromServer t =>
      simp only [execLife, disconnectNamespaceFromServer]
      split
      · exact Or.inl rfl
      · rename_i hnone
        by_cases hts : t = s
        · subst hts
          exact Or.inr (Or.inl ⟨by simpa using hnone, Or.inr ⟨by simp [Life.setSocket], rfl⟩⟩)
        · exact Or.inl (by simp [Life.setSocket, Ne.symm hts])
  | teardownDone t sync =>
      cases sync with
      | true => exact Or.inl rfl
      | false =>
          by_cases hts : t = s
          · subst hts
            exact Or.inr (Or.inr ⟨by simp [execLife, teardownDone, Life.setWaiting, Life.setSocket],
              rfl⟩)
          · exact Or.inl (by
              simp [execLife, teardownDone, Life.setWaiting, Life.setSocket, Ne.symm hts])
  | runMiddleware t =>
      simp only [execLife, runMiddleware, Life.advance]
      split <;> exact Or.inl rfl
  | next t i err =>
      cases err with
      | some err => exact Or.inl rfl
      | none =>
          simp only [execLife, next, Life.advance]
          split <;> exact Or.inl rfl
  | awaitTeardown t w => exact Or.inl rfl
  | use t f => exact Or.inl rfl
  | dispatchEvent t e k => exact Or.inl rfl
  | startPacket d b => exact Or.inl rfl
  | setPacket r e k =>
      simp only [execLife, setPacket]
      split <;> exact Or.inl rfl
  | runPacket r i =>
      simp only [execLife, runPacket]
      split
      · exact Or.inl rfl
      · split <;> exact Or.inl rfl
  | packetNext r i err =>
      simp only [execLife, packetNext]
      split
      · exact Or.inl rfl
      · split <;> exact Or.inl rfl
  | dispatchNamed r =>
      simp only [execLife, dispatchNamed]
      split
      · exact Or.inl rfl
      · split
        · exact Or.inl rfl
        · exact Or.inl (hset fun _ => rfl)
  | markConnected t | teardownTask t r d | teardownCleanup t r sync | teardownDisconnect t r sync
  | cleanupConnectionAttempt t | invalidateAcknowledgements t | endDispatch t =>
      exact Or.inl (hset fun _ => rfl)
  | dispatch d => exact Or.inl (hset fun _ => rfl)

theorem exec_promised (σ : Core) (i : Instr) (s : SocketId) :
    ((exec P i σ).core.life.sockets s).teardownPromise = (σ.life.sockets s).teardownPromise ∨
      ((σ.life.sockets s).teardownPromise = .none ∧
        (((exec P i σ).core.life.sockets s).teardownPromise = .pending ∧
            (∃ r d, i = .life (.teardown s r d)) ∨
          ((exec P i σ).core.life.sockets s).teardownPromise = .resolved ∧
            i = .life (.disconnectNamespaceFromServer s))) ∨
      ((exec P i σ).core.life.sockets s).teardownPromise = .resolved ∧
        i = .life (.teardownDone s false) := by
  cases i with
  | life i =>
      rcases execLife_promise σ i s with h | ⟨h, ⟨h', r, d, rfl⟩ | ⟨h', rfl⟩⟩ | ⟨h, rfl⟩
      · exact Or.inl h
      · exact Or.inr (Or.inl ⟨h, Or.inl ⟨h', r, d, rfl⟩⟩)
      · exact Or.inr (Or.inl ⟨h, Or.inr ⟨h', rfl⟩⟩)
      · exact Or.inr (Or.inr ⟨h, rfl⟩)
  | _ => exact Or.inl rfl

/-- A promise is not taken back. -/
theorem promised_exec {σ : Core} {i : Instr} {s : SocketId}
    (h : (σ.life.sockets s).teardownPromise ≠ .none) :
    ((exec P i σ).core.life.sockets s).teardownPromise ≠ .none := by
  rcases exec_promised (P := P) σ i s with he | ⟨he, -⟩ | ⟨he, -⟩
  · exact he ▸ h
  · exact absurd he h
  · simp [he]

/-- Both ways to begin a teardown make the promise. -/
theorem begin_promises (σ : Core) (s : SocketId) :
    (∀ r d, ((exec P (.life (.teardown s r d)) σ).core.life.sockets s).teardownPromise ≠ .none) ∧
      ((exec P (.life (.disconnectNamespaceFromServer s)) σ).core.life.sockets s).teardownPromise ≠
        .none := by
  refine ⟨fun r d => ?_, ?_⟩
  · simp only [exec, execLife, teardown]
    split
    · assumption
    · simp [Life.setSocket]
  · simp only [exec, execLife, disconnectNamespaceFromServer]
    split
    · assumption
    · simp [Life.setSocket]

/-- The instruction follows a promise to tear `s` down. -/
def Instr.promised : Instr → Option SocketId
  | .life (.teardownTask s ..) | .life (.teardownCleanup s ..) | .life (.teardownDisconnect s ..)
  | .life (.teardownDone s _) | .srv (.awaitClosed s) => some s
  | _ => none

/-- What goes on with a teardown was promised. -/
theorem promised_inductive (P : Platform) : Inductive (runtime P) (fun _ _ => True)
    (fun _ => True) (fun σ i => ∀ s, i.promised = some s →
      (σ.life.sockets s).teardownPromise ≠ .none) fun _ => (none : Option Unit) := by
  refine .of_facts (fun _ _ _ => trivial) ?_ (fun σ i j _ hj s he => promised_exec (hj s he)) ?_ ?_
    fun _ _ _ => trivial
  · intro σ i h j hj s he
    have hby := spawnedBy hj
    by_cases hp : i.promised = some s
    · exact promised_exec (h.ok s hp)
    · unfold Instr.promised at he
      split at he
      case h_6 => cases he
      all_goals
        obtain rfl := Option.some.inj he
        simp only [Instr.SpawnedBy, LifeInstr.SpawnedBy, SrvInstr.SpawnedBy] at hby
      · obtain ⟨d, rfl⟩ := hby
        exact (begin_promises (P := P) σ _).1 _ _
      · rename_i r sync
        cases sync with
        | true =>
            obtain rfl := hby
            exact (begin_promises (P := P) σ _).2
        | false =>
            obtain ⟨d, rfl⟩ := hby
            exact absurd rfl hp
      · subst hby
        exact absurd rfl hp
      · obtain ⟨r, rfl⟩ := hby
        exact absurd rfl hp
      · subst hby
        have hnone : ∀ t, .srv (.awaitClosed t) ∈ (exec P (.srv (.closeFromServer t)) σ).spawned →
            (σ.life.sockets t).teardownPromise ≠ .none := fun t ht => by
          simp only [exec, execSrv, closeFromServer] at ht
          split at ht
          · assumption
          · simp [Effect.spawned] at ht
        exact hnone _ hj
  · intro σ i _ hc s he
    unfold Instr.promised at he
    split at he <;> cases he <;> cases hc
  · intro σ i is _ _ his j hj s he
    rcases onThrow_handle his with rfl | ⟨a, err, rfl, -⟩
    · cases hj
    · rw [List.mem_singleton.mp hj] at he
      cases he

/-! ## 3. What is due -/

theorem exec_connected {σ : Core} {i : Instr} {s : SocketId}
    (h : ((exec P i σ).core.life.sockets s).connected = true) :
    (σ.life.sockets s).connected = true ∨ i = .life (.markConnected s) := by
  cases i with
  | life i => exact (execLife_connected h).imp_right fun h => by rw [h]
  | _ => exact Or.inl h

/-- A promise that is made leaves its teardown to do. -/
theorem promise_begun {σ : Core} {i : Instr} {s : SocketId}
    (hi : ∀ s, i.promised = some s → (σ.life.sockets s).teardownPromise ≠ .none)
    (h : (σ.life.sockets s).teardownPromise = .none)
    (h' : ((exec P i σ).core.life.sockets s).teardownPromise ≠ .none) :
    (∃ r d, .life (.teardownTask s r d) ∈ (exec P i σ).spawned ∧
        ((exec P i σ).core.life.sockets s).teardownPromise = .pending) ∨
      ∃ r, .life (.teardownCleanup s r true) ∈ (exec P i σ).spawned := by
  rcases exec_promised (P := P) σ i s with he | ⟨-, ⟨hp, r, d, rfl⟩ | ⟨-, rfl⟩⟩ | ⟨-, rfl⟩
  · exact absurd (he.trans h) h'
  · exact Or.inl ⟨r, _, by simp [exec, execLife, teardown, h, Effect.spawned]; rfl, hp⟩
  · exact Or.inr ⟨_, by
      simp [exec, execLife, disconnectNamespaceFromServer, h, ownedDispatch, Effect.spawned]; rfl⟩
  · exact absurd h (hi s rfl)

/-- A cleanup is executed as soon as it is pushed. -/
theorem cleans_headed (P : Platform) :
    Headed (runtime P) (fun i => i.cleans.isSome = true) fun _ _ => True where
  app i hi := by
    cases i with
    | app x => cases hi
    | _ => rfl
  head _ _ _ _ _ := trivial
  tail σ i j hj hc := by
    have hby := spawnedBy (List.mem_append_left _ (List.mem_of_mem_tail hj))
    unfold Instr.cleans at hc
    split at hc
    · simp only [Instr.SpawnedBy, MembInstr.SpawnedBy] at hby
      rcases hby with rfl | ⟨r, sync, rfl⟩
      · cases hj
      · obtain hj := List.mem_singleton.mp hj
        cases hj
    · cases hc
  post σ i j hj hc := by
    have hby := spawnedBy (List.mem_append_right _ hj)
    unfold Instr.cleans at hc
    split at hc
    · simp only [Instr.SpawnedBy, MembInstr.SpawnedBy] at hby
      rcases hby with rfl | ⟨r, sync, rfl⟩ <;> cases hj
    · cases hc
  call σ i hc h := by
    unfold Instr.cleans at h
    split at h
    · cases hc
    · cases h
  handle σ i is his j hj hc := by
    rcases onThrow_handle his with rfl | ⟨a, err, rfl, -⟩
    · cases hj
    · rw [List.mem_singleton.mp hj] at hc
      cases hc

/-- What is known of a state about to execute an instruction. -/
structure Torn (P : Platform) (σ : State) : Prop where
  wf : σ.core.Wf P
  memb : MembInv σ.core.conn σ.core.memb
  valid : ∀ j ∈ σ.pending, j.Valid σ.core
  promised : ∀ j ∈ σ.pending, ∀ s, j.promised = some s →
    (σ.core.life.sockets s).teardownPromise ≠ .none
  cleans : ∀ j ∈ σ.stack.tail ++ σ.queue, j.cleans = none
  live : ∀ i τ, (runtime P).next σ = some (i, τ) → entersLive σ.core i

theorem reach_torn {C : State → Action Instr → Prop} {σ : State}
    (h : (runtime P).Reach C newServer σ) (hC : ∀ τ a, C τ a → TeardownsFinish P τ a) :
    Torn P σ := by
  have hk := h.inv_ok (membership_inductive P) (fun _ _ _ _ _ _ _ => trivial) (newServer_keeps P)
  have hp := h.inv_ok (promised_inductive P) (fun _ _ _ _ _ _ _ => trivial)
    ⟨trivial, fun _ hj => absurd hj List.not_mem_nil, .nil⟩
  refine ⟨hk.inv.1, hk.inv.2, fun j hj => (hk.ok j hj).1, fun j hj => hp.ok j hj, fun j hj => ?_,
    fun i τ hn => ?_⟩
  · have := (h.headed (cleans_headed P) fun _ hj => absurd hj List.not_mem_nil).2 j hj
    simpa using this
  · rw [(next_pending hn).1]
    exact between_entersLive (reach_passage h fun τ a hc => (hC τ a hc).2.2) hn

/-- The instruction cleans up the membership of `s`, now or after the `disconnecting` listeners. -/
def Instr.cleansLater (s : SocketId) : Instr → Bool
  | .life (.teardownTask t ..) | .life (.teardownCleanup t ..) | .memb (.cleanupMembership t) =>
      decide (t = s)
  | _ => false

/-- The instruction makes `s` unconnected, now or after the `disconnecting` listeners. -/
def Instr.unconnects (s : SocketId) : Instr → Bool
  | .life (.teardownTask t ..) | .life (.teardownCleanup t ..) => decide (t = s)
  | _ => false

/-- The instruction resolves the promise of `s`, now or at the end of the teardown. -/
def Instr.resolves (s : SocketId) : Instr → Bool
  | .life (.teardownTask t ..) | .life (.teardownCleanup t _ false)
  | .life (.teardownDisconnect t _ false) | .life (.teardownDone t false) => decide (t = s)
  | _ => false

/-- An instruction that throws is none of a teardown and changes nothing of one. -/
theorem fails_outside {σ : Core} {i : Instr} (hf : (exec P i σ).fails = true) :
    (exec P i σ).core.life = σ.life ∧ (exec P i σ).core.memb = σ.memb ∧
      (∀ j, i ≠ .life j) ∧ ∀ j, i ≠ .memb j := by
  cases i with
  | life i => cases (execLife_fails σ i).symm.trans hf
  | memb i => cases (execMemb_fails σ i).symm.trans hf
  | _ => exact ⟨rfl, rfl, nofun, nofun⟩

/-- What an exception runs on its way changes no promise, no flag and no membership. -/
theorem run_outside {σ : Core} {i : Instr} (hr : onThrow σ i = .run) (s : SocketId) :
    ((exec P i σ).core.life.sockets s).teardownPromise = (σ.life.sockets s).teardownPromise ∧
      ((exec P i σ).core.life.sockets s).connected = (σ.life.sockets s).connected ∧
      ((exec P i σ).core.memb.sockets s).membershipCleaned =
        (σ.memb.sockets s).membershipCleaned := by
  rcases onThrow_run hr with ⟨t, rfl⟩ | ⟨t, rfl⟩ | ⟨r, rfl⟩
  · by_cases ht : s = t <;> simp [exec, execLife, Life.setSocket, ht]
  · by_cases ht : s = t <;> simp [exec, execMemb, Memb.setSocket, ht]
  · exact ⟨rfl, rfl, rfl⟩

theorem cleanup_due {σ : Core} {i : Instr} {s : SocketId}
    (hi : ∀ s, i.promised = some s → (σ.life.sockets s).teardownPromise ≠ .none)
    (hp : ((exec P i σ).core.life.sockets s).teardownPromise ≠ .none)
    (hc : ((exec P i σ).core.memb.sockets s).membershipCleaned = false) :
    (∃ j ∈ (exec P i σ).spawned, j.cleansLater s = true) ∨
      (((σ.life.sockets s).teardownPromise ≠ .none ∧
        (σ.memb.sockets s).membershipCleaned = false) ∧ ¬ i.cleansLater s = true) := by
  have hc₀ : (σ.memb.sockets s).membershipCleaned = false := by
    by_contra h
    rw [Bool.not_eq_false] at h
    rw [cleaned_exec h] at hc
    cases hc
  by_cases hnone : (σ.life.sockets s).teardownPromise = .none
  · refine Or.inl ?_
    rcases promise_begun hi hnone hp with ⟨r, d, hj, -⟩ | ⟨r, hj⟩
    · exact ⟨_, hj, by simp [Instr.cleansLater]⟩
    · exact ⟨_, hj, by simp [Instr.cleansLater]⟩
  · by_cases hpay : i.cleansLater s = true
    · unfold Instr.cleansLater at hpay
      split at hpay
      case h_4 => cases hpay
      · rename_i t r d
        obtain rfl := of_decide_eq_true hpay
        exact Or.inl ⟨.life (.teardownCleanup t r false),
          by simp [exec, execLife, teardownTask, ownedDispatch, Effect.spawned],
          by simp [Instr.cleansLater]⟩
      · rename_i t r sync
        obtain rfl := of_decide_eq_true hpay
        exact Or.inl ⟨.memb (.cleanupMembership t),
          by simp [exec, execLife, teardownCleanup, Effect.spawned], by simp [Instr.cleansLater]⟩
      · rename_i t
        obtain rfl := of_decide_eq_true hpay
        simp [exec, execMemb, cleanupMembership, hc₀, Memb.startCleanup, Memb.setSocket] at hc
    · exact Or.inr ⟨⟨hnone, hc₀⟩, hpay⟩

/-- **Who is promised a teardown is cleaned up** in the course of it. -/
theorem cleanup_dues (P : Platform) : Dues (runtime P) (Torn P)
    (fun (σ : Core) s => (σ.life.sockets s).teardownPromise ≠ .none ∧
      (σ.memb.sockets s).membershipCleaned = false)
    fun i s => i.cleansLater s = true where
  frame i s hi := by
    cases i with
    | app x => cases hi
    | _ => rfl
  exec σ τ i s hK hn _ := by
    rintro ⟨hp, hc⟩
    refine (cleanup_due (P := P) (hK.promised i (next_mem hn).1) hp hc).imp_left ?_
    exact fun ⟨j, hj, hpay⟩ => ⟨j, List.mem_append_left _ hj, hpay⟩
  fails σ τ i s hK hn hf := by
    obtain ⟨hl, hm, hnl, hnm⟩ := fails_outside (P := P) hf
    intro ho
    refine ⟨⟨?_, ?_⟩, fun hpay => ?_⟩
    · exact fun h => ho.1 ((congrArg (fun ℓ => (ℓ.sockets s).teardownPromise) hl).trans h)
    · exact (congrArg (fun μ => (μ.sockets s).membershipCleaned) hm).symm.trans ho.2
    · unfold Instr.cleansLater at hpay
      split at hpay
      · exact hnl _ rfl
      · exact hnl _ rfl
      · exact hnm _ rfl
      · cases hpay
  run σ i s hr := by
    obtain ⟨h₁, -, h₃⟩ := run_outside (P := P) hr s
    exact fun ho => ⟨fun h => ho.1 (h₁.trans h), h₃.symm.trans ho.2⟩

theorem promise_due {σ : Core} {i : Instr} {s : SocketId}
    (hi : ∀ s, i.promised = some s → (σ.life.sockets s).teardownPromise ≠ .none)
    (hp : ((exec P i σ).core.life.sockets s).teardownPromise = .pending) :
    (∃ j ∈ (exec P i σ).spawned, j.resolves s = true) ∨
      ((σ.life.sockets s).teardownPromise = .pending ∧ ¬ i.resolves s = true) := by
  rcases exec_promised (P := P) σ i s with he | ⟨hnone, -⟩ | ⟨he, -⟩
  · by_cases hpay : i.resolves s = true
    · unfold Instr.resolves at hpay
      split at hpay
      case h_5 => cases hpay
      · rename_i t r d
        obtain rfl := of_decide_eq_true hpay
        exact Or.inl ⟨.life (.teardownCleanup t r false),
          by simp [exec, execLife, teardownTask, ownedDispatch, Effect.spawned],
          by simp [Instr.resolves]⟩
      · rename_i t r
        obtain rfl := of_decide_eq_true hpay
        exact Or.inl ⟨.life (.teardownDisconnect t r false),
          by simp [exec, execLife, teardownCleanup, Effect.spawned], by simp [Instr.resolves]⟩
      · rename_i t r
        obtain rfl := of_decide_eq_true hpay
        exact Or.inl ⟨.life (.teardownDone t false),
          by simp [exec, execLife, teardownDisconnect, ownedDispatch, Effect.spawned],
          by simp [Instr.resolves]⟩
      · rename_i t
        obtain rfl := of_decide_eq_true hpay
        simp [exec, execLife, teardownDone, Life.setWaiting, Life.setSocket] at hp
    · exact Or.inr ⟨he.symm.trans hp, hpay⟩
  · rcases promise_begun (P := P) hi hnone (by simp [hp]) with ⟨r, d, hj, -⟩ | ⟨r, hj⟩
    · exact Or.inl ⟨_, hj, by simp [Instr.resolves]⟩
    · exact absurd (spawnedBy hj) fun hby => by
        simp only [Instr.SpawnedBy, LifeInstr.SpawnedBy] at hby
        subst hby
        simp [exec, execLife, disconnectNamespaceFromServer, hnone, Life.setSocket] at hp
  · rw [he] at hp
    cases hp

/-- **A promise that is pending is going to be resolved.** -/
theorem promise_dues (P : Platform) : Dues (runtime P) (Torn P)
    (fun (σ : Core) s => (σ.life.sockets s).teardownPromise = .pending)
    fun i s => i.resolves s = true where
  frame i s hi := by
    cases i with
    | app x => cases hi
    | _ => rfl
  exec σ τ i s hK hn _ hp := by
    refine (promise_due (P := P) (hK.promised i (next_mem hn).1) hp).imp_left ?_
    exact fun ⟨j, hj, hpay⟩ => ⟨j, List.mem_append_left _ hj, hpay⟩
  fails σ τ i s hK hn hf ho := by
    obtain ⟨hl, -, hnl, -⟩ := fails_outside (P := P) hf
    refine ⟨(congrArg (fun ℓ => (ℓ.sockets s).teardownPromise) hl).symm.trans ho, fun hpay => ?_⟩
    unfold Instr.resolves at hpay
    split at hpay
    case h_5 => cases hpay
    all_goals exact hnl _ rfl
  run σ i s hr ho := (run_outside (P := P) hr s).1.symm.trans ho

/-- What a socket that is still connected, though its teardown is promised, waits for. -/
theorem connection_due {σ τ : State} {i : Instr} {s : SocketId} (hK : Torn P σ)
    (hclean : (σ.core.life.sockets s).teardownPromise ≠ .none →
      (σ.core.memb.sockets s).membershipCleaned = false → ∃ j ∈ σ.pending, j.cleansLater s = true)
    (hn : (runtime P).next σ = some (i, τ))
    (hp : ((exec P i σ.core).core.life.sockets s).teardownPromise ≠ .none)
    (hc : ((exec P i σ.core).core.life.sockets s).connected = true) :
    (∃ j ∈ (exec P i σ.core).spawned ++ τ.pending, j.unconnects s = true) ∨
      (((σ.core.life.sockets s).teardownPromise ≠ .none ∧
        (σ.core.life.sockets s).connected = true) ∧ ¬ i.unconnects s = true) := by
  have hi := hK.promised i (next_mem hn).1
  by_cases hnone : (σ.core.life.sockets s).teardownPromise = .none
  · refine Or.inl ?_
    rcases promise_begun hi hnone hp with ⟨r, d, hj, -⟩ | ⟨r, hj⟩
    · exact ⟨_, List.mem_append_left _ hj, by simp [Instr.unconnects]⟩
    · exact ⟨_, List.mem_append_left _ hj, by simp [Instr.unconnects]⟩
  · rcases exec_connected hc with hc₀ | rfl
    · by_cases hpay : i.unconnects s = true
      · unfold Instr.unconnects at hpay
        split at hpay
        case h_3 => cases hpay
        · rename_i t r d
          obtain rfl := of_decide_eq_true hpay
          exact Or.inl ⟨.life (.teardownCleanup t r false),
            by simp [exec, execLife, teardownTask, ownedDispatch, Effect.spawned],
            by simp [Instr.unconnects]⟩
        · rename_i t r sync
          obtain rfl := of_decide_eq_true hpay
          simp [exec, execLife, teardownCleanup, Life.setSocket] at hc
      · exact Or.inr ⟨⟨hnone, hc₀⟩, hpay⟩
    · -- an admission: the cleanup that is due is not the next instruction, so it is a later one
      obtain ⟨j, hj, hjs⟩ := hclean hnone (hK.live _ τ hn s rfl)
      have hτ : j ∈ τ.pending ∧ j.cleans = none := by
        obtain ⟨-, ⟨-, hst, hq⟩ | ⟨hst, hst', hq⟩⟩ := next_pending hn
        · rw [Config.pending, hst] at hj
          have hj : j ∈ τ.stack ++ σ.queue := by
            refine (List.mem_cons.mp hj).resolve_left fun h => ?_
            subst h
            cases hjs
          exact ⟨by rwa [Config.pending, ← hq], hK.cleans j (by rwa [hst])⟩
        · rw [Config.pending, hst, hq] at hj
          have hj : j ∈ τ.queue := by
            refine (List.mem_cons.mp hj).resolve_left fun h => ?_
            subst h
            cases hjs
          exact ⟨by rwa [Config.pending, hst'], hK.cleans j (by
            rw [hst, hq]
            exact List.mem_cons_of_mem _ hj)⟩
      refine Or.inl ⟨j, List.mem_append_right _ hτ.1, ?_⟩
      unfold Instr.cleansLater at hjs
      split at hjs
      · exact hjs
      · exact hjs
      · cases hτ.2
      · cases hjs

/-- **A connected socket whose teardown is promised is going to be disconnected.** -/
theorem connection_dues (P : Platform) : Dues (runtime P)
    (fun σ => Torn P σ ∧ ∀ s, (σ.core.life.sockets s).teardownPromise ≠ .none ∧
      (σ.core.memb.sockets s).membershipCleaned = false → ∃ j ∈ σ.pending, j.cleansLater s = true)
    (fun (σ : Core) s => (σ.life.sockets s).teardownPromise ≠ .none ∧
      (σ.life.sockets s).connected = true)
    fun i s => i.unconnects s = true where
  frame i s hi := by
    cases i with
    | app x => cases hi
    | _ => rfl
  exec σ τ i s hK hn _ ho := connection_due hK.1 (fun hp hc => hK.2 s ⟨hp, hc⟩) hn ho.1 ho.2
  fails σ τ i s hK hn hf ho := by
    obtain ⟨hl, -, hnl, -⟩ := fails_outside (P := P) hf
    refine ⟨⟨fun h => ho.1 ?_, ?_⟩, fun hpay => ?_⟩
    · exact (congrArg (fun ℓ => (ℓ.sockets s).teardownPromise) hl).trans h
    · exact (congrArg (fun ℓ => (ℓ.sockets s).connected) hl).symm.trans ho.2
    · unfold Instr.unconnects at hpay
      split at hpay
      case h_3 => cases hpay
      all_goals exact hnl _ rfl
  run σ i s hr := by
    obtain ⟨h₁, h₂, -⟩ := run_outside (P := P) hr s
    exact fun ho => ⟨fun h => ho.1 (h₁.trans h), h₂.symm.trans ho.2⟩

/-- **A connected socket that has been cleaned up is going to be torn down.** -/
theorem teardown_dues (P : Platform) : Dues (runtime P)
    (fun σ => Torn P σ ∧ CleansTornDown P σ .run)
    (fun (σ : Core) s => (σ.memb.sockets s).membershipCleaned = true ∧
      (σ.life.sockets s).connected = true ∧ (σ.life.sockets s).teardownPromise = .none)
    fun i s => i.teardownOf s = true where
  frame i s hi := by
    cases i with
    | app x => cases hi
    | _ => rfl
  exec σ τ i s hK hn _ := by
    rintro ⟨hc, hcon, hnone⟩
    have hnone₀ : (σ.core.life.sockets s).teardownPromise = .none := by
      by_contra h
      exact promised_exec h hnone
    have hcon₀ : i ≠ .life (.markConnected s) → (σ.core.life.sockets s).connected = true :=
      fun hi => (exec_connected hcon).resolve_right hi
    have hpay : ¬ i.teardownOf s = true := fun hpay => by
      unfold Instr.teardownOf at hpay
      split at hpay
      · obtain rfl := of_decide_eq_true hpay
        exact (begin_promises (P := P) σ.core _).1 _ _ hnone
      · cases hpay
    by_cases hc₀ : (σ.core.memb.sockets s).membershipCleaned = true
    · refine Or.inr ⟨⟨hc₀, hcon₀ fun hi => ?_, hnone₀⟩, hpay⟩
      cases hc₀.symm.trans (hK.1.live i τ hn s (hi ▸ rfl))
    · refine Or.inl ?_
      obtain rfl := (cleaned_exec_iff.mp hc).resolve_left hc₀
      obtain h | ⟨j, hj, hjs⟩ := hK.2 rfl _ hn s rfl (hcon₀ nofun)
      · exact absurd hnone₀ h
      · exact ⟨j, List.mem_append_right _ (List.mem_append_left _ hj), hjs⟩
  fails σ τ i s hK hn hf ho := by
    obtain ⟨hl, hm, hnl, -⟩ := fails_outside (P := P) hf
    refine ⟨⟨?_, ?_, ?_⟩, fun hpay => ?_⟩
    · exact (congrArg (fun μ => (μ.sockets s).membershipCleaned) hm).symm.trans ho.1
    · exact (congrArg (fun ℓ => (ℓ.sockets s).connected) hl).symm.trans ho.2.1
    · exact (congrArg (fun ℓ => (ℓ.sockets s).teardownPromise) hl).symm.trans ho.2.2
    · unfold Instr.teardownOf at hpay
      split at hpay
      · exact hnl _ rfl
      · cases hpay
  run σ i s hr := by
    obtain ⟨h₁, h₂, h₃⟩ := run_outside (P := P) hr s
    exact fun ho => ⟨h₃.symm.trans ho.1, h₂.symm.trans ho.2.1, h₁.symm.trans ho.2.2⟩

/-! ## 4. Who waits for a teardown -/

theorem execLife_waiting (σ : Core) (i : LifeInstr) (s : SocketId) :
    (execLife σ i).part.waiting s = σ.life.waiting s ∨ (∃ w, i = .awaitTeardown s w) ∨
      (execLife σ i).part.waiting s = [] := by
  cases i with
  | awaitTeardown t w =>
      by_cases hts : t = s
      · exact Or.inr (Or.inl ⟨w, hts ▸ rfl⟩)
      · exact Or.inl (by simp [execLife, Life.setWaiting, Ne.symm hts])
  | teardownDone t sync =>
      cases sync with
      | true => exact Or.inl rfl
      | false =>
          by_cases hts : t = s
          · exact Or.inr (Or.inr (by simp [execLife, teardownDone, Life.setWaiting, hts]))
          · exact Or.inl (by
              simp [execLife, teardownDone, Life.setWaiting, Life.setSocket, Ne.symm hts])
  | runMiddleware t =>
      simp only [execLife, runMiddleware, Life.advance]
      split <;> exact Or.inl rfl
  | next t i err =>
      cases err with
      | some err => exact Or.inl rfl
      | none =>
          simp only [execLife, next, Life.advance]
          split <;> exact Or.inl rfl
  | teardown t r d =>
      simp only [execLife, teardown]
      split <;> exact Or.inl rfl
  | disconnectNamespaceFromServer t =>
      simp only [execLife, disconnectNamespaceFromServer]
      split <;> exact Or.inl rfl
  | setPacket r e k =>
      simp only [execLife, setPacket]
      split <;> exact Or.inl rfl
  | runPacket r i =>
      simp only [execLife, runPacket]
      split
      · exact Or.inl rfl
      · split <;> exact Or.inl rfl
  | packetNext r i err =>
      simp only [execLife, packetNext]
      split
      · exact Or.inl rfl
      · split <;> exact Or.inl rfl
  | dispatchNamed r =>
      simp only [execLife, dispatchNamed]
      split
      · exact Or.inl rfl
      · split <;> exact Or.inl rfl
  | _ => exact Or.inl rfl

/-- Whoever waits for a teardown waits for a promise that is pending. -/
def WaitsPending (σ : Core) : Prop :=
  ∀ s, σ.life.waiting s ≠ [] → (σ.life.sockets s).teardownPromise = .pending

def Instr.awaits : Instr → Bool
  | .life (.awaitTeardown ..) => true
  | _ => false

/-- A teardown with the wait for it, or the wait alone. -/
inductive Core.Waiting (σ : Core) : List Instr → Prop where
  | tearing (s : SocketId) (r : String) (d : Bool) (w : Wake) (hI : WaitsPending σ)
      (hs : (σ.life.sockets s).teardownPromise = .none) :
      σ.Waiting [.life (.teardown s r d), .life (.awaitTeardown s w)]
  | awaiting (s : SocketId) (w : Wake) (hI : WaitsPending σ)
      (hs : (σ.life.sockets s).teardownPromise = .pending) :
      σ.Waiting [.life (.awaitTeardown s w)]

theorem waitsPending_exec {σ : Core} {i : Instr} (h : WaitsPending σ)
    (hi : ∀ s w, i = .life (.awaitTeardown s w) → (σ.life.sockets s).teardownPromise = .pending) :
    WaitsPending (exec P i σ).core := by
  intro s hs
  have hp : (σ.life.sockets s).teardownPromise = .pending := by
    cases i with
    | life i =>
        rcases execLife_waiting σ i s with he | ⟨w, rfl⟩ | he
        · exact h s (he ▸ hs)
        · exact hi s w rfl
        · exact absurd he hs
    | _ => exact h s hs
  rcases exec_promised (P := P) σ i s with he | ⟨he, -⟩ | ⟨-, rfl⟩
  · exact he.trans hp
  · rw [hp] at he
    cases he
  · exact absurd (by simp [exec, execLife, teardownDone, Life.setWaiting]) hs

theorem waiting_app {σ : Core} {i : Instr} {pre : List Instr} (h : σ.Waiting (i :: pre)) :
    isApp i = false := by
  generalize hl : i :: pre = stack at h
  cases h with
  | tearing | awaiting =>
      obtain ⟨rfl, -⟩ := List.cons.inj hl
      rfl

theorem waiting_atomic (P : Platform) :
    Atomic (runtime P) (fun _ _ => True) (fun _ => True) (fun σ i => ∀ s, i.promised = some s →
      (σ.life.sockets s).teardownPromise ≠ .none) WaitsPending (fun _ i => i.awaits = false)
      Core.Waiting where
  exec σ i hr hI hi := by
    have hI' : WaitsPending (exec P i σ).core :=
      waitsPending_exec hI fun s w e => by
        subst e
        cases hi
    by_cases hw : ∃ j ∈ (exec P i σ).spawned, j.awaits = true
    · refine Or.inr ?_
      obtain ⟨j, hj, hjw⟩ := hw
      have hby := spawnedBy hj
      unfold Instr.awaits at hjw
      split at hjw
      case h_2 => cases hjw
      rename_i s w
      rcases (show i = .srv (.closeFromServer s) ∨ i = .srv (.awaitClosed s) from hby) with
        rfl | rfl
      · simp only [exec, execSrv, closeFromServer] at hj
        split at hj
        · simp [Effect.spawned] at hj
        · rename_i hnone
          refine ⟨by simp [runtime, exec, execSrv, closeFromServer, hnone], _, [],
            (List.append_nil _).symm, ?_, ?_⟩
          · simp only [runtime, exec, execSrv, closeFromServer, if_neg hnone]
            exact .tearing s _ _ _ hI (by simpa using hnone)
          · simp [runtime, exec, execSrv, closeFromServer, hnone]
      · have hnone := hr.ok s rfl
        simp only [exec, execSrv, awaitClosed] at hj
        split at hj
        · simp [Effect.spawned] at hj
        · rename_i hres
          have hpend : (σ.life.sockets s).teardownPromise = .pending := by
            cases hp : (σ.life.sockets s).teardownPromise with
            | none => exact absurd hp hnone
            | pending => rfl
            | resolved => exact absurd hp hres
          refine ⟨by simp [runtime, exec, execSrv, awaitClosed, hres], _, [],
            (List.append_nil _).symm, ?_, ?_⟩
          · simp only [runtime, exec, execSrv, awaitClosed, if_neg hres]
            exact .awaiting s _ hI hpend
          · simp [runtime, exec, execSrv, awaitClosed, hres]
    · exact Or.inl ⟨hI', fun j hj => Bool.eq_false_iff.mpr fun h => hw ⟨j, hj, h⟩⟩
  stable σ i j _ _ hj := hj
  call σ i _ _ hc := by
    unfold Instr.awaits
    split
    · cases hc
    · rfl
  handle σ i is his j hj := by
    rcases onThrow_handle his with rfl | ⟨a, err, rfl, -⟩
    · cases hj
    · rw [List.mem_singleton.mp hj]
      rfl
  run σ i _ _ hr h := waitsPending_exec h fun s w e => by subst e; cases hr
  mid σ i pre hr h _ := by
    generalize hl : i :: pre = stack at h
    cases h with
    | tearing s r d w hI hs =>
        obtain ⟨rfl, rfl⟩ := List.cons.inj hl
        have hI' : WaitsPending (exec P (.life (.teardown s r d)) σ).core :=
          waitsPending_exec hI (by intro _ _ h; cases h)
        refine Or.inl ⟨execLife_fails _ _, ?_, fun j hj => ?_⟩
        · have hpush : (exec P (.life (.teardown s r d)) σ).push = [] := by
            simp [exec, execLife, teardown, hs]
          have hpend : ((exec P (.life (.teardown s r d)) σ).core.life.sockets s).teardownPromise =
              .pending := by
            simp [exec, execLife, teardown, hs, Life.setSocket]
          simp only [runtime, hpush, List.nil_append]
          exact .awaiting s w hI' hpend
        · simp only [runtime, exec, execLife, teardown, hs, ne_eq, not_true_eq_false, if_false,
            List.mem_singleton] at hj
          subst hj
          rfl
    | awaiting s w hI hs =>
        obtain ⟨rfl, rfl⟩ := List.cons.inj hl
        refine Or.inr ⟨waitsPending_exec hI ?_, by simp [runtime, exec, execLife, Effect.spawned]⟩
        rintro t w' e
        obtain ⟨rfl, -⟩ := LifeInstr.awaitTeardown.inj (Instr.life.inj e)
        exact hs
  ret σ i pre h happ := by cases (waiting_app h).symm.trans happ
  nonempty σ h := by
    generalize hl : ([] : List Instr) = stack at h
    cases h with
    | tearing | awaiting => cases hl

/-- **Nobody waits for a teardown that is over.** -/
theorem reach_waiting {C : State → Action Instr → Prop} {σ : State}
    (h : (runtime P).Reach C newServer σ) : WaitsPending σ.core := by
  have hb : Between WaitsPending (fun _ i => i.awaits = false) Core.Waiting σ := by
    refine h.between (waiting_atomic P) (promised_inductive P) (fun _ _ _ _ _ _ _ => trivial) ?_
      ⟨trivial, fun _ hj => absurd hj List.not_mem_nil, .nil⟩
      (Or.inl ⟨fun s hs => absurd rfl hs, fun _ hj => absurd hj List.not_mem_nil⟩)
    exact fun τ a _ i pre k _ hm happ => by cases (waiting_app hm).symm.trans happ
  rcases hb with ⟨hI, -⟩ | ⟨pre, k, -, hm, -⟩
  · exact hI
  · cases hm <;> assumption

/-! ## 5. Every run -/

section Survives

variable {C : State → Action Instr → Prop} {σ : State} {s : SocketId}

theorem reach_cleans (h : (runtime P).Reach C newServer σ)
    (hC : ∀ τ a, C τ a → TeardownsFinish P τ a) (s : SocketId)
    (ho : (σ.core.life.sockets s).teardownPromise ≠ .none ∧
      (σ.core.memb.sockets s).membershipCleaned = false) :
    ∃ j ∈ σ.pending, j.cleansLater s = true := by
  refine h.dues (cleanup_dues P) (fun τ hτ _ => reach_torn hτ hC) ?_ (fun t ht => absurd rfl ht.1) s ho
  intro τ a _ hc j hj t hpay ho
  have hleft := (hC τ a hc).1 j hj
  unfold Instr.cleansLater at hpay
  split at hpay
  case h_4 => cases hpay
  all_goals
    obtain rfl := of_decide_eq_true hpay
    simp [Core.leaves, ho.2] at hleft

theorem reach_unconnects (h : (runtime P).Reach C newServer σ)
    (hC : ∀ τ a, C τ a → TeardownsFinish P τ a) (s : SocketId)
    (ho : (σ.core.life.sockets s).teardownPromise ≠ .none ∧
      (σ.core.life.sockets s).connected = true) :
    ∃ j ∈ σ.pending, j.unconnects s = true := by
  refine h.dues (connection_dues P) (fun τ hτ _ => ⟨reach_torn hτ hC, reach_cleans hτ hC⟩) ?_
    (fun t ht => absurd rfl ht.1) s ho
  intro τ a _ hc j hj t hpay ho
  have hleft := (hC τ a hc).1 j hj
  unfold Instr.unconnects at hpay
  split at hpay
  case h_3 => cases hpay
  all_goals
    obtain rfl := of_decide_eq_true hpay
    simp [Core.leaves, ho.2] at hleft

theorem reach_tears (h : (runtime P).Reach C newServer σ)
    (hC : ∀ τ a, C τ a → TeardownsFinish P τ a) (s : SocketId)
    (ho : (σ.core.memb.sockets s).membershipCleaned = true ∧
      (σ.core.life.sockets s).connected = true ∧
      (σ.core.life.sockets s).teardownPromise = .none) :
    ∃ j ∈ σ.pending, j.teardownOf s = true := by
  refine h.dues (teardown_dues P) (fun τ hτ hc => ⟨reach_torn hτ hC, (hC τ _ hc).2.1⟩) ?_
    (fun t ht => by cases ht.1) s ho
  intro τ a _ hc j hj t hpay ho
  have hleft := (hC τ a hc).1 j hj
  unfold Instr.teardownOf at hpay
  split at hpay
  · obtain rfl := of_decide_eq_true hpay
    simp [Core.leaves, ho.2.1, ho.2.2] at hleft
  · cases hpay

theorem reach_resolves (h : (runtime P).Reach C newServer σ)
    (hC : ∀ τ a, C τ a → TeardownsFinish P τ a) (s : SocketId)
    (ho : (σ.core.life.sockets s).teardownPromise = .pending) :
    ∃ j ∈ σ.pending, j.resolves s = true := by
  refine h.dues (promise_dues P) (fun τ hτ _ => reach_torn hτ hC) ?_ (fun t ht => by cases ht) s ho
  intro τ a _ hc j hj t hpay ho
  have hleft := (hC τ a hc).1 j hj
  unfold Instr.resolves at hpay
  split at hpay
  case h_5 => cases hpay
  all_goals
    obtain rfl := of_decide_eq_true hpay
    simp [Core.leaves] at hleft

/-- What a cleanup has left to do is done by its second half. -/
theorem reach_leaves (h : (runtime P).Reach C newServer σ)
    (hC : ∀ τ a, C τ a → TeardownsFinish P τ a) (s : SocketId)
    (ho : σ.core.memb.Owes s ∨ σ.core.Lingers s) :
    .memb (.cleanupMembershipRest s) ∈ σ.pending := by
  let S : Instr → Prop := fun i => ∃ t, i = .memb (.cleanupMembershipRest t)
  have happ : ∀ i, S i → (runtime P).isApp i = false := by rintro - ⟨t, rfl⟩; rfl
  have hrun : ∀ c i, S i → (runtime P).onThrow c i ≠ .run := by rintro c - ⟨t, rfl⟩; nofun
  have hready : ∀ (σ τ : State) i, Torn P σ → (runtime P).next σ = some (i, τ) →
      Ready entersLive (fun σ => σ.Wf P ∧ MembInv σ.conn σ.memb) (fun σ i => i.Valid σ) σ.core i :=
    fun σ τ i hK hn => ⟨⟨hK.wf, hK.memb⟩, hK.valid i (next_mem hn).1, hK.live i τ hn⟩
  have hfails : ∀ c i, S i → ((runtime P).exec i c).fails = false := by
    rintro c - ⟨t, rfl⟩
    rfl
  have hK : ∀ τ, (runtime P).Reach C newServer τ → C τ .run → Torn P τ :=
    fun τ hτ _ => reach_torn hτ hC
  rcases ho with ho | ho
  · have hdebts : Debts (runtime P) entersLive (fun σ => σ.Wf P ∧ MembInv σ.conn σ.memb)
        (fun σ i => i.Valid σ) S (fun σ s => σ.memb.Owes s)
        fun i s => i = .memb (.cleanupMembershipRest s) :=
      cleanup_debts (fun _ h => h) (fun _ _ h => h) fun t => ⟨t, rfl⟩
    have hD := hdebts.dues happ hrun hready fun c i _ => hfails c i
    have hpaid : ∀ τ a, (runtime P).Reach C newServer τ → C τ a → ∀ j ∈ (runtime P).dropped τ a,
        ∀ t, j = .memb (.cleanupMembershipRest t) → ¬ τ.core.memb.Owes t := by
      rintro τ a - hc - hj t rfl ⟨-, room, hroom⟩
      have hleft := (hC τ a hc).1 _ hj
      simp only [Core.leaves, Bool.or_eq_false_iff, Bool.not_eq_false', List.isEmpty_iff] at hleft
      have hmem : room ∈ (τ.core.memb.sockets t).rooms.elems := hroom
      rw [hleft.2] at hmem
      cases hmem
    obtain ⟨j, hj, rfl⟩ := h.dues hD hK hpaid (fun t ⟨ht, _⟩ => by cases ht) s ho
    exact hj
  · have hD := (roster_debts P (S := S) fun t => ⟨t, rfl⟩).dues (K := Torn P) happ hrun
      (fun σ τ i hK hn => ⟨hK.wf, hK.valid i (next_mem hn).1, hK.live i τ hn⟩)
      fun c i _ => hfails c i
    have hpaid : ∀ τ a, (runtime P).Reach C newServer τ → C τ a → ∀ j ∈ (runtime P).dropped τ a,
        ∀ t, j = .memb (.cleanupMembershipRest t) → ¬ τ.core.Lingers t := by
      rintro τ a hτ hc - hj t rfl ⟨-, n, sid, ht⟩
      have hleft := (hC τ a hc).1 _ hj
      obtain ⟨-, rfl, rfl⟩ := (reach_wf hτ).1.roster n sid t ht
      simp [Core.leaves, ht] at hleft
    obtain ⟨j, hj, rfl⟩ := h.dues hD hK hpaid (fun t ⟨_, _, _, ht⟩ => by cases ht) s ho
    exact hj

theorem tearsDown_of {j : Instr} (h : (j.cleansLater s || j.unconnects s || j.teardownOf s ||
    j.resolves s) = true) : j.tearsDown s = true := by
  simp only [Bool.or_eq_true, or_assoc] at h
  rcases h with h | h | h | h
  · unfold Instr.cleansLater at h
    split at h <;> first | exact h | cases h
  · unfold Instr.unconnects at h
    split at h <;> first | exact h | cases h
  · unfold Instr.teardownOf at h
    split at h <;> first | exact h | cases h
  · unfold Instr.resolves at h
    split at h <;> first | exact h | cases h

end Survives

end Smocket
