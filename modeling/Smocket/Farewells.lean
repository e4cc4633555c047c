import Smocket.Accounts
import Smocket.Orders
import Smocket.Handles
import Smocket.Hooks
import Smocket.Teardowns

/-
  File:      Smocket/Farewells.lean
  Subject:   ONE COMPLETE LIFECYCLE for every observed connection: after its `connection` events a
             server socket dispatches `disconnecting` and `disconnect`, each once and in this order,
             and is `connected` until the `disconnecting` listeners have returned.

  * `disconnecting_account` -- `disconnecting` at most once;
  * `disconnect_account` -- `disconnect` at most as often;
  * `farewell_dues` -- who was announced and is no longer connected dispatches `disconnect`;
  * `lifecycle_complete` -- one complete lifecycle for every observed connection.
-/

namespace Smocket

open Ordered EventLoop EventLoop.Machine

variable {P : Platform}

/-! ## 1. The condition -/

/-- What is left of a teardown that has an event to dispatch. -/
def Instr.farewell : Instr → Option SocketId
  | .life (.teardownCleanup s ..) | .life (.teardownDisconnect s ..) => some s
  | _ => none

/-- **The condition**: teardowns finish, and no exception passes one that has an event left to
    dispatch. -/
def LifecyclesFinish (P : Platform) (σ : State) (a : Action Instr) : Prop :=
  TeardownsFinish P σ a ∧ ∀ j ∈ (runtime P).dropped σ a, j.farewell = none

instance (σ : State) (a : Action Instr) : Decidable (LifecyclesFinish P σ a) :=
  inferInstanceAs (Decidable (_ ∧ _))

/-! ## 2. Each event once -/

/-- A `disconnecting` that a teardown has deferred. -/
def Instr.disconnectsLater (s : SocketId) : Instr → Nat
  | .life (.teardownTask t ..) => if t = s then 1 else 0
  | _ => 0

/-- A `disconnect` whose `disconnecting` has been dispatched. -/
def Instr.farewells (s : SocketId) : Instr → Nat
  | .life (.teardownCleanup t ..) | .life (.teardownDisconnect t ..) => if t = s then 1 else 0
  | _ => 0

@[simp] theorem farewells_cleanup (s : SocketId) (r : String) (sync : Bool) :
    (Instr.life (.teardownCleanup s r sync)).farewells s = 1 := by
  simp [Instr.farewells]

@[simp] theorem farewells_disconnect (s : SocketId) (r : String) (sync : Bool) :
    (Instr.life (.teardownDisconnect s r sync)).farewells s = 1 := by
  simp [Instr.farewells]

def Core.isPromised (σ : Core) (s : SocketId) : Nat :=
  if (σ.life.sockets s).teardownPromise = .none then 0 else 1

theorem isPromised_le (σ : Core) (i : Instr) (s : SocketId) :
    σ.isPromised s ≤ (exec P i σ).core.isPromised s := by
  unfold Core.isPromised
  split
  · exact Nat.zero_le _
  · rename_i h
    rw [if_neg (promised_exec h)]

/-- **A teardown dispatches `disconnecting` at most once.** -/
theorem disconnecting_account (P : Platform) (s : SocketId) :
    Account (runtime P) (fun _ => True) (fun _ i => i.disconnectsLater s)
      (fun σ => σ.log.count (.disconnecting s)) fun σ => σ.isPromised s where
  exec σ i τ _ _ _ := by
    change (exec P i σ.core).core.log.count _ + _ + _ ≤ _ + _ + (exec P i σ.core).core.isPromised s
    by_cases ht : ∃ t r d, i = .life (.teardown t r d)
    · obtain ⟨t, r, d, rfl⟩ := ht
      rw [count_log (by simp [Instr.Records])]
      simp only [runtime, exec, execLife, teardown, Core.isPromised, Effect.spawned]
      by_cases hts : s = t
      · subst hts
        split <;> simp_all [Life.setSocket, Instr.disconnectsLater]
      · split <;> simp [Life.setSocket, Instr.disconnectsLater, hts, Ne.symm hts]
    · by_cases hk : ∃ t r d, i = .life (.teardownTask t r d)
      · obtain ⟨t, r, d, rfl⟩ := hk
        simp only [runtime, exec, execLife, teardownTask, Core.isPromised, Effect.spawned,
          ownedDispatch]
        by_cases hts : s = t
        · subst hts
          simp [Life.setSocket, Lifecycle.invalidateDelivery, Lifecycle.enterDispatch,
            Lifecycle.invalidateAcknowledgements, Instr.disconnectsLater]
        · simp [Life.setSocket, Instr.disconnectsLater, hts, Ne.symm hts]
      · by_cases hd : ∃ t, i = .life (.disconnectNamespaceFromServer t)
        · obtain ⟨t, rfl⟩ := hd
          simp only [runtime, exec, execLife, disconnectNamespaceFromServer, Core.isPromised,
            Effect.spawned, ownedDispatch]
          by_cases hts : s = t
          · subst hts
            split <;> simp_all [Life.setSocket, Instr.disconnectsLater]
          · split <;> simp [Life.setSocket, Instr.disconnectsLater, hts, Ne.symm hts]
        · have hz : weigh (fun _ i => i.disconnectsLater s) (exec P i σ.core).core
              (exec P i σ.core).spawned = 0 := by
            refine weigh_eq_zero fun j hj => ?_
            have hby := spawnedBy hj
            unfold Instr.disconnectsLater
            split
            · obtain ⟨d, rfl⟩ := hby
              exact absurd ⟨_, _, d, rfl⟩ ht
            · rfl
          have hl : ¬ i.Records (.disconnecting s) := fun h =>
            (records_disconnecting h).elim (fun h => hk ⟨s, h⟩) fun h => hd ⟨s, h⟩
          have hp := isPromised_le (P := P) σ.core i s
          rw [count_log hl]
          change _ + weigh _ (exec P i σ.core).core (exec P i σ.core).spawned + _ ≤ _
          omega
  stays σ i τ _ _ j _ := Nat.le_refl _
  run σ i hr := by
    refine ⟨?_, fun j => Nat.le_refl _⟩
    have hp := isPromised_le (P := P) σ i s
    change (exec P i σ).core.log.count _ + _ ≤ _
    have hl : ¬ i.Records (.disconnecting s) := by
      rcases onThrow_run hr with ⟨t, rfl⟩ | ⟨t, rfl⟩ | ⟨r, rfl⟩ <;> simp [Instr.Records]
    rw [count_log hl]
    exact Nat.add_le_add_left hp _
  call σ i hc := by
    unfold Instr.disconnectsLater
    split
    · cases hc
    · rfl
  handle σ i is his j hj := by
    rcases onThrow_handle his with rfl | ⟨a, err, rfl, -⟩
    · cases hj
    · rw [List.mem_singleton.mp hj]
      rfl

/-- **A teardown dispatches `disconnect` at most as often as `disconnecting`.** -/
theorem disconnect_account (P : Platform) (s : SocketId) :
    Account (runtime P) (fun _ => True) (fun _ i => i.farewells s)
      (fun σ => σ.log.count (.disconnect s)) fun σ => σ.log.count (.disconnecting s) where
  exec σ i τ _ _ _ := by
    change (exec P i σ.core).core.log.count _ + _ + _ ≤
      _ + _ + (exec P i σ.core).core.log.count (.disconnecting s)
    by_cases hk : ∃ t r d, i = .life (.teardownTask t r d)
    · obtain ⟨t, r, d, rfl⟩ := hk
      by_cases hts : s = t
      · subst hts
        simp [runtime, exec, execLife, teardownTask, Effect.spawned, ownedDispatch,
          Instr.farewells]
        omega
      · simp [runtime, exec, execLife, teardownTask, Effect.spawned, ownedDispatch,
          Instr.farewells, Ne.symm hts]
    · by_cases hd : ∃ t, i = .life (.disconnectNamespaceFromServer t)
      · obtain ⟨t, rfl⟩ := hd
        simp only [runtime, exec, execLife, disconnectNamespaceFromServer, Effect.spawned,
          ownedDispatch]
        by_cases hts : s = t
        · subst hts
          split
          · simp [Instr.farewells]
          · simp [Instr.farewells]
            omega
        · split <;> simp [Instr.farewells, Ne.symm hts]
      · have hl : ¬ i.Records (.disconnecting s) := fun h =>
          (records_disconnecting h).elim (fun h => hk ⟨s, h⟩) fun h => hd ⟨s, h⟩
        rw [count_log hl]
        by_cases hc : ∃ t r sync, i = .life (.teardownCleanup t r sync)
        · obtain ⟨t, r, sync, rfl⟩ := hc
          rw [count_log (by simp [Instr.Records])]
          by_cases hts : s = t
          · subst hts
            simp [runtime, exec, execLife, teardownCleanup, Effect.spawned, Instr.farewells]
          · simp [runtime, exec, execLife, teardownCleanup, Effect.spawned, Instr.farewells,
              Ne.symm hts]
        · by_cases hr : ∃ t r sync, i = .life (.teardownDisconnect t r sync)
          · obtain ⟨t, r, sync, rfl⟩ := hr
            by_cases hts : s = t
            · subst hts
              simp [runtime, exec, execLife, teardownDisconnect, Effect.spawned, ownedDispatch,
                Instr.farewells]
            · simp [runtime, exec, execLife, teardownDisconnect, Effect.spawned, ownedDispatch,
                Instr.farewells, Ne.symm hts]
          · have hz : weigh (fun _ i => i.farewells s) (exec P i σ.core).core
                (exec P i σ.core).spawned = 0 := by
              refine weigh_eq_zero fun j hj => ?_
              have hby := spawnedBy hj
              unfold Instr.farewells
              split
              · rename_i t r sync
                cases sync with
                | true => exact absurd ⟨t, hby⟩ hd
                | false =>
                    obtain ⟨d, rfl⟩ := hby
                    exact absurd ⟨_, _, d, rfl⟩ hk
              · exact absurd ⟨_, _, _, hby⟩ hc
              · rfl
            have hl' : ¬ i.Records (.disconnect s) := fun h => hr ⟨s, records_disconnect h⟩
            rw [count_log hl']
            change _ + weigh _ (exec P i σ.core).core (exec P i σ.core).spawned + _ ≤ _
            omega
  stays σ i τ _ _ j _ := Nat.le_refl _
  run σ i hr := by
    refine ⟨?_, fun j => Nat.le_refl _⟩
    have hnot : ∀ e, i.Records e → e ≠ .disconnect s ∧ e ≠ .disconnecting s := by
      rcases onThrow_run hr with ⟨t, rfl⟩ | ⟨t, rfl⟩ | ⟨r, rfl⟩ <;> exact fun e he => he.elim
    change (exec P i σ).core.log.count _ + _ ≤ _ + (exec P i σ).core.log.count (.disconnecting s)
    rw [count_log fun h => (hnot _ h).1 rfl, count_log fun h => (hnot _ h).2 rfl]
  call σ i hc := by
    unfold Instr.farewells
    split
    · cases hc
    · cases hc
    · rfl
  handle σ i is his j hj := by
    rcases onThrow_handle his with rfl | ⟨a, err, rfl, -⟩
    · cases hj
    · rw [List.mem_singleton.mp hj]
      rfl

/-! ## 3. What is left to dispatch -/

/-- A `finally` block records nothing. -/
theorem run_log {σ : Core} {i : Instr} (hr : onThrow σ i = .run) :
    (exec P i σ).core.log = σ.log := by
  rcases onThrow_run hr with ⟨t, rfl⟩ | ⟨t, rfl⟩ | ⟨r, rfl⟩ <;> rfl

/-- Nor does an instruction that throws: it is none that records. -/
theorem records_runs {σ : Core} {i : Instr} (hf : (exec P i σ).fails = true) {e : Event}
    {s : SocketId} (he : e = .connection s ∨ e = .disconnecting s ∨ e = .disconnect s) :
    ¬ i.Records e := by
  obtain ⟨-, -, hnl, -⟩ := fails_outside (P := P) hf
  intro h
  unfold Instr.Records at h
  split at h
  case h_13 => exact h
  case h_10 => cases hf
  all_goals first
    | exact hnl _ rfl
    | rcases he with rfl | rfl | rfl <;> simp at h

/-- **A teardown that was begun dispatches `disconnecting`.** -/
theorem disconnecting_dues (P : Platform) : Dues (runtime P) (Torn P)
    (fun (σ : Core) s => (σ.life.sockets s).teardownPromise ≠ .none ∧ .disconnecting s ∉ σ.log)
    fun i s => i.disconnectsLater s = 1 where
  frame i s hi := by
    cases i with
    | app x => cases hi
    | _ => rfl
  exec σ τ i s hK hn _ := by
    rintro ⟨hp, hl⟩
    have hl₀ : .disconnecting s ∉ σ.core.log := fun h => hl (mem_log h)
    by_cases hnone : (σ.core.life.sockets s).teardownPromise = .none
    · rcases promise_begun (hK.promised i (next_mem hn).1) hnone hp with ⟨r, d, hj, -⟩ | ⟨r, hj⟩
      · exact Or.inl ⟨_, List.mem_append_left _ hj, by simp [Instr.disconnectsLater]⟩
      · obtain rfl : i = .life (.disconnectNamespaceFromServer s) := spawnedBy hj
        refine absurd ?_ hl
        simp [runtime, exec, execLife, disconnectNamespaceFromServer, hnone]
    · refine Or.inr ⟨⟨hnone, hl₀⟩, fun hpay => hl ?_⟩
      unfold Instr.disconnectsLater at hpay
      split at hpay
      · split at hpay
        · rename_i ht
          subst ht
          simp [runtime, exec, execLife, teardownTask]
        · cases hpay
      · cases hpay
  fails σ τ i s hK hn hf := by
    rintro ⟨hp, hl⟩
    obtain ⟨hlife, -, hnl, -⟩ := fails_outside (P := P) hf
    refine ⟨⟨fun h => hp ?_, fun h => hl (mem_log h)⟩, fun hpay => ?_⟩
    · exact (congrArg (fun ℓ => (ℓ.sockets s).teardownPromise) hlife).trans h
    · unfold Instr.disconnectsLater at hpay
      split at hpay
      · exact hnl _ rfl
      · cases hpay
  run σ i s hr := by
    rintro ⟨hp, hl⟩
    exact ⟨fun h => hp ((run_outside (P := P) hr s).1.trans h), fun h => hl (mem_log h)⟩

/-- **After `disconnecting`, `disconnect`.** -/
theorem disconnect_dues (P : Platform) : Dues (runtime P) (fun _ => True)
    (fun (σ : Core) s => .disconnecting s ∈ σ.log ∧ .disconnect s ∉ σ.log)
    fun i s => i.farewells s = 1 where
  frame i s hi := by
    cases i with
    | app x => cases hi
    | _ => rfl
  exec σ τ i s _ hn _ := by
    rintro ⟨hd, hl⟩
    have hl₀ : .disconnect s ∉ σ.core.log := fun h => hl (mem_log h)
    by_cases hd₀ : .disconnecting s ∈ σ.core.log
    · by_cases hpay : i.farewells s = 1
      · unfold Instr.farewells at hpay
        split at hpay
        · rename_i t r sync _
          split at hpay
          · rename_i ht
            subst ht
            refine Or.inl ⟨.life (.teardownDisconnect t r sync), List.mem_append_left _ ?_, ?_⟩
            · simp [runtime, exec, execLife, teardownCleanup, Effect.spawned]
            · simp [Instr.farewells]
          · cases hpay
        · rename_i t r sync _
          split at hpay
          · rename_i ht
            subst ht
            refine absurd ?_ hl
            simp [runtime, exec, execLife, teardownDisconnect]
          · cases hpay
        · cases hpay
      · exact Or.inr ⟨⟨hd₀, hl₀⟩, hpay⟩
    · obtain ⟨es, hes, hr⟩ := exec_log P i σ.core
      change .disconnecting s ∈ (exec P i σ.core).core.log at hd
      rw [hes] at hd
      rcases records_disconnecting (hr _ ((List.mem_append.mp hd).resolve_right hd₀)) with
        ⟨r, d, rfl⟩ | rfl
      · exact Or.inl ⟨.life (.teardownCleanup s _ false), List.mem_append_left _ (by
          simp [runtime, exec, execLife, teardownTask, Effect.spawned, ownedDispatch]; rfl),
          by simp [Instr.farewells]⟩
      · by_cases hnone : (σ.core.life.sockets s).teardownPromise = .none
        · exact Or.inl ⟨.life (.teardownCleanup s _ true), List.mem_append_left _ (by
            simp [runtime, exec, execLife, disconnectNamespaceFromServer, hnone, Effect.spawned,
              ownedDispatch]; rfl), by simp [Instr.farewells]⟩
        · refine absurd ?_ hd₀
          have : es = [] := by
            have := hes
            simpa [exec, execLife, disconnectNamespaceFromServer, hnone] using this.symm
          simpa [this] using hd
  fails σ τ i s _ hn hf := by
    rintro ⟨hd, hl⟩
    obtain ⟨-, -, hnl, -⟩ := fails_outside (P := P) hf
    obtain ⟨es, hes, hr⟩ := exec_log P i σ.core
    refine ⟨⟨?_, fun h => hl (mem_log h)⟩, fun hpay => ?_⟩
    · change .disconnecting s ∈ (exec P i σ.core).core.log at hd
      rw [hes] at hd
      exact (List.mem_append.mp hd).resolve_left fun he =>
        records_runs hf (Or.inr (Or.inl rfl)) (hr _ he)
    · unfold Instr.farewells at hpay
      split at hpay
      · exact hnl _ rfl
      · exact hnl _ rfl
      · cases hpay
  run σ i s hr := by
    change _ ∈ (exec P i σ).core.log ∧ _ ∉ (exec P i σ).core.log → _
    rw [run_log hr]
    exact id

/-! ## 4. Admissions -/

/-- An admitted socket's `connection` event has been emitted, and so has that of a connected one. -/
structure Core.Announced (σ : Core) (s : SocketId) : Prop where
  admitted : .admitted s ∈ σ.log ↔ .connection s ∈ σ.log
  connected : (σ.life.sockets s).connected = true → .connection s ∈ σ.log

/-- What an admission still has to do once the socket is connected. -/
def announcement (s : SocketId) (l : List Instr) : Prop :=
  l = [.ctl (.emitConnection s)] ∨ l = [.srv (.offer s), .ctl (.emitConnection s)]

/-- The top of the stack during an admission. -/
inductive Core.Announcing (σ : Core) : List Instr → Prop where
  | enter (s : SocketId) (l : List Instr) (hl : announcement s l) (hI : ∀ t, σ.Announced t) :
      σ.Announcing (.memb (.enter s) :: .life (.markConnected s) :: l)
  | mark (s : SocketId) (l : List Instr) (hl : announcement s l)
      (hI : ∀ t, t ≠ s → σ.Announced t) (ha : .admitted s ∈ σ.log) :
      σ.Announcing (.life (.markConnected s) :: l)
  | announce (s : SocketId) (l : List Instr) (hl : announcement s l)
      (hI : ∀ t, t ≠ s → σ.Announced t) (ha : .admitted s ∈ σ.log)
      (hc : (σ.life.sockets s).connected = true) : σ.Announcing l

/-- What an instruction that is no step of an admission leaves announced. -/
theorem announced_exec {σ : Core} {i : Instr} {t : SocketId} (hi : i.enters ≠ some t)
    (h : σ.Announced t) : (exec P i σ).core.Announced t := by
  obtain ⟨es, hes, hr⟩ := exec_log P i σ
  refine ⟨⟨fun ha => ?_, fun ha => ?_⟩, ?_⟩
  · rw [hes] at ha
    refine mem_log (h.admitted.mp ((List.mem_append.mp ha).resolve_left fun ha => hi ?_))
    rw [records_admitted (hr _ ha)]
    rfl
  · rw [hes] at ha
    refine mem_log (h.admitted.mpr ((List.mem_append.mp ha).resolve_left fun ha => hi ?_))
    rw [records_connection (hr _ ha)]
    rfl
  · intro hc
    refine mem_log (h.connected ((exec_connected hc).resolve_right ?_))
    rintro rfl
    exact hi rfl

theorem announcing_exec {σ : Core} {i : Instr} {pre : List Instr} (h : σ.Announcing (i :: pre)) :
    ((exec P i σ).fails = false ∧ (exec P i σ).core.Announcing ((exec P i σ).push ++ pre) ∧
        ∀ j ∈ (exec P i σ).post, j.enters = none) ∨
      ((∀ t, (exec P i σ).core.Announced t) ∧
        ∀ j ∈ (exec P i σ).spawned ++ pre, j.enters = none) := by
  generalize hl' : i :: pre = stack at h
  cases h with
  | enter s l hl hI =>
      obtain ⟨rfl, rfl⟩ := List.cons.inj hl'
      refine Or.inl ⟨rfl, .mark s l hl (fun t ht => announced_exec ?_ (hI t)) ?_,
        by rintro _ ⟨⟩⟩
      · simpa [Instr.enters] using Ne.symm ht
      · simp [exec, execMemb, enter]
  | mark s l hl hI ha =>
      obtain ⟨rfl, rfl⟩ := List.cons.inj hl'
      refine Or.inl ⟨rfl, .announce s _ hl (fun t ht => announced_exec ?_ (hI t ht))
        (mem_log ha) ?_, by rintro _ ⟨⟩⟩
      · simpa [Instr.enters] using Ne.symm ht
      · simp [exec, execLife, Life.setSocket]
  | announce s l hl hI ha hc =>
      rcases hl with rfl | rfl
      · obtain ⟨rfl, rfl⟩ := List.cons.inj hl'
        refine Or.inr ⟨fun t => ?_, by simp [exec, execCtl, emitConnection, Effect.spawned,
          Instr.enters]⟩
        by_cases ht : t = s
        · subst ht
          have hmem : .connection t ∈ (exec P (.ctl (.emitConnection t)) σ).core.log := by
            simp [exec, execCtl, emitConnection]
          exact ⟨⟨fun _ => hmem, fun _ => mem_log ha⟩, fun _ => hmem⟩
        · exact announced_exec (by simpa [Instr.enters] using Ne.symm ht) (hI t ht)
      · obtain ⟨rfl, rfl⟩ := List.cons.inj hl'
        have hpush : (exec P (.srv (.offer s)) σ).push = [] ∧
            (exec P (.srv (.offer s)) σ).fails = false := by
          simp only [exec, execSrv, offer]
          split <;> exact ⟨rfl, rfl⟩
        refine Or.inl ⟨hpush.2, ?_, fun j hj => ?_⟩
        · rw [hpush.1]
          exact .announce s _ (Or.inl rfl)
            (fun t ht => announced_exec (by intro h; cases h) (hI t ht)) (mem_log ha) hc
        · rcases spawns_passage (List.mem_append_right _ hj) with ⟨he, -⟩ | ⟨t, ht⟩ |
            ⟨t, r, sync, ht⟩
          · exact he
          · cases ht
          · cases ht

theorem announcing_app {σ : Core} {i : Instr} {pre : List Instr} (h : σ.Announcing (i :: pre)) :
    isApp i = false := by
  generalize hl' : i :: pre = stack at h
  cases h with
  | enter | mark =>
      obtain ⟨rfl, -⟩ := List.cons.inj hl'
      rfl
  | announce s l hl =>
      rcases hl with rfl | rfl <;> (obtain ⟨rfl, -⟩ := List.cons.inj hl'; rfl)

/-- **An admission announces its socket before anything else runs.** -/
theorem announcing_atomic (P : Platform) :
    Atomic (runtime P) (fun _ _ => True) (fun _ => True)
      (fun σ i => ∀ s, i.promised = some s → (σ.life.sockets s).teardownPromise ≠ .none)
      (fun σ => ∀ t, σ.Announced t) (fun _ i => i.enters = none) Core.Announcing where
  exec σ i _ hI hi := by
    have hI' : ∀ t, (exec P i σ).core.Announced t := fun t =>
      announced_exec (by rw [hi]; rintro ⟨⟩) (hI t)
    by_cases hc : ∃ s, i = .ctl (.completion s none)
    · obtain ⟨s, rfl⟩ := hc
      have hI : ∀ t, ({ σ with log := σ.log } : Core).Announced t := hI
      simp only [runtime, exec, execCtl, completion, Effect.spawned]
      split
      · split
        · exact Or.inl ⟨hI, by simp [Instr.enters]⟩
        · exact Or.inr ⟨trivial, _, [.ctl (.dispatchClient (σ.conn.sockets s).peer "connect")],
            rfl, .enter s _ (Or.inl rfl) hI, by simp [Instr.enters]⟩
      · split
        · refine Or.inl ⟨hI, ?_⟩
          split <;> simp [Instr.enters]
        · split
          · exact Or.inl ⟨hI, by simp [Instr.enters]⟩
          · exact Or.inr ⟨trivial, _,
              [.conn (.completeConnectionAttempt (σ.conn.sockets s).attempt s)],
              rfl, .enter s _ (Or.inr rfl) hI, by simp [Instr.enters]⟩
    · refine Or.inl ⟨hI', fun j hj => ?_⟩
      rcases spawns_passage hj with ⟨he, -⟩ | h | ⟨t, r, sync, rfl⟩
      · exact he
      · exact absurd h hc
      · have : j = .memb (.cleanupMembership t) ∨ j = .life (.teardownDisconnect t r sync) := by
          simpa [runtime, exec, execLife, teardownCleanup, Effect.spawned] using hj
        rcases this with rfl | rfl <;> rfl
  stable _ _ _ _ _ h := h
  call σ i _ _ hc := by
    unfold Instr.enters
    split <;> first | rfl | cases hc
  handle σ i is his j hj := by
    rcases onThrow_handle his with rfl | ⟨a, err, rfl, -⟩
    · cases hj
    · rw [List.mem_singleton.mp hj]
      rfl
  run σ i _ _ hr hI t := announced_exec (by
    rcases onThrow_run hr with ⟨u, rfl⟩ | ⟨u, rfl⟩ | ⟨u, rfl⟩ <;> rintro ⟨⟩) (hI t)
  mid σ i pre _ h _ := announcing_exec h
  ret σ i pre h happ := by cases (announcing_app h).symm.trans happ
  nonempty σ h := by
    generalize hl' : ([] : List Instr) = stack at h
    cases h with
    | enter | mark => cases hl'
    | announce s l hl => rcases hl with rfl | rfl <;> cases hl'

/-- Behind a step of an admission no teardown of its socket waits to go on. -/
def Instr.ahead (i j : Instr) : Prop :=
  ∀ s, i.enters = some s ∨ i = .ctl (.completion s none) →
    ∀ r sync, j ≠ .life (.teardownCleanup s r sync)

theorem ahead_line (P : Platform) : Line (runtime P) (fun _ _ => True) (fun _ => True)
    (fun _ _ => True) Instr.ahead where
  core _ _ _ := trivial
  spawn _ _ _ _ _ := trivial
  stable _ _ _ _ _ _ := trivial
  call _ _ _ _ := trivial
  handle _ _ _ _ _ _ _ _ := trivial
  push σ i j p _ _ hij hp := by
    rintro s (he | rfl) r sync rfl
    · rcases spawns_passage (List.mem_append_left _ hp) with ⟨hn, -⟩ | ⟨t, rfl⟩ |
        ⟨t, r', sync', rfl⟩
      · cases hn.symm.trans he
      · have hts : t = s := by
          have hby := spawnedBy (List.mem_append_left _ hp)
          unfold Instr.enters at he
          split at he
          case h_4 => cases he
          all_goals
            obtain rfl := Option.some.inj he
            simp only [Instr.SpawnedBy, MembInstr.SpawnedBy, LifeInstr.SpawnedBy,
              CtlInstr.SpawnedBy] at hby
            cases hby
            rfl
        exact hij s (Or.inr (hts ▸ rfl)) r sync rfl
      · have : p = .memb (.cleanupMembership t) ∨ p = .life (.teardownDisconnect t r' sync') := by
          simpa [runtime, exec, execLife, teardownCleanup] using hp
        rcases this with rfl | rfl <;> cases he
    · cases isTask_push hp
  post σ i j p hp := by
    rintro s - r sync rfl
    have hby := spawnedBy (List.mem_append_right _ hp)
    cases sync with
    | true =>
        obtain rfl := hby
        simp only [runtime, exec, execLife, disconnectNamespaceFromServer] at hp
        split at hp <;> cases hp
    | false =>
        obtain ⟨d, rfl⟩ := hby
        cases hp
  inner σ i _ := by
    refine List.pairwise_of_forall_mem_list fun j hj k hk => ?_
    rintro s hjs r sync rfl
    have hk' := spawnedBy hk
    have hj' := spawns_passage hj
    have hi : (∃ t r d, i = .life (.teardownTask t r d)) ∨
        ∃ t, i = .life (.disconnectNamespaceFromServer t) := by
      cases sync with
      | true => exact Or.inr ⟨s, hk'⟩
      | false =>
          obtain ⟨d, rfl⟩ := hk'
          exact Or.inl ⟨_, _, _, rfl⟩
    have hnone : j.enters = none := by
      rcases hj' with ⟨he, -⟩ | ⟨t, rfl⟩ | ⟨t, r', sync', rfl⟩
      · exact he
      · rcases hi with ⟨_, _, _, hi⟩ | ⟨_, hi⟩ <;> cases hi
      · rcases hi with ⟨_, _, _, hi⟩ | ⟨_, hi⟩ <;> cases hi
    rcases hjs with he | rfl
    · cases hnone.symm.trans he
    · have hj := spawnedBy hj
      simp only [Instr.SpawnedBy, CtlInstr.SpawnedBy] at hj
      rcases hi with ⟨_, _, _, rfl⟩ | ⟨_, rfl⟩ <;> simp at hj
  callRel σ i j hc := by
    rintro s (he | rfl) r sync -
    · unfold Instr.enters at he
      split at he <;> first | cases he; done | cases hc
    · cases hc
  handleRel σ i is his := by
    rcases onThrow_handle his with rfl | ⟨a, err, rfl, -⟩
    · exact ⟨.nil, by rintro _ ⟨⟩⟩
    · refine ⟨List.pairwise_singleton _ _, fun p hp j => ?_⟩
      obtain rfl := List.mem_singleton.mp hp
      rintro s (he | he) <;> cases he
  free _ _ _ := trivial

/-- What one instruction does to `connected`. -/
theorem execLife_connection (σ : Core) (i : LifeInstr) (s : SocketId) :
    ((execLife σ i).part.sockets s).connected = (σ.life.sockets s).connected ∨
      i = .markConnected s ∨ ∃ r sync, i = .teardownCleanup s r sync := by
  have hset : ∀ {t : SocketId} {g : Lifecycle → Lifecycle}, (∀ x, (g x).connected = x.connected) →
      ((σ.life.setSocket t g).sockets s).connected = (σ.life.sockets s).connected := by
    intro t g hg
    simp only [Life.setSocket, modify_apply]
    split
    · rename_i ht
      rw [hg, ht]
    · rfl
  cases i with
  | teardownCleanup t r sync =>
      by_cases hts : s = t
      · exact Or.inr (Or.inr ⟨r, sync, hts ▸ rfl⟩)
      · exact Or.inl (by simp [execLife, teardownCleanup, Life.setSocket, hts])
  | markConnected t =>
      by_cases hts : s = t
      · exact Or.inr (Or.inl (hts ▸ rfl))
      · exact Or.inl (by simp [execLife, Life.setSocket, hts])
  | teardown t r d =>
      simp only [execLife, teardown]
      split
      · exact Or.inl rfl
      · refine Or.inl (hset fun x => ?_)
        dsimp only
        split <;> rfl
  | disconnectNamespaceFromServer t =>
      simp only [execLife, disconnectNamespaceFromServer]
      split
      · exact Or.inl rfl
      · exact Or.inl (hset fun _ => rfl)
  | teardownDone t sync =>
      cases sync with
      | true => exact Or.inl rfl
      | false => exact Or.inl (hset (t := t) (g := fun x => { x with teardownPromise := .resolved })
          fun _ => rfl)
  | runMiddleware t =>
      simp only [execLife, runMiddleware, Life.advance]
      split <;> exact Or.inl rfl
  | next t k err =>
      cases err with
      | some err => exact Or.inl rfl
      | none =>
          simp only [execLife, next, Life.advance]
          split <;> exact Or.inl rfl
  | setPacket r e k =>
      simp only [execLife, setPacket]
      split <;> exact Or.inl rfl
  | runPacket r k =>
      simp only [execLife, runPacket]
      split
      · exact Or.inl rfl
      · split <;> exact Or.inl rfl
  | packetNext r k err =>
      simp only [execLife, packetNext]
      split
      · exact Or.inl rfl
      · split <;> exact Or.inl rfl
  | dispatchNamed r =>
      simp only [execLife, dispatchNamed]
      split
      · exact Or.inl rfl
      · split
        · exact Or.inl rfl
        · exact Or.inl (hset fun _ => rfl)
  | awaitTeardown t w => exact Or.inl rfl
  | use t f => exact Or.inl rfl
  | dispatchEvent t e k => exact Or.inl rfl
  | startPacket d b => exact Or.inl rfl
  | teardownTask t r d | teardownDisconnect t r sync | cleanupConnectionAttempt t
  | invalidateAcknowledgements t | endDispatch t => exact Or.inl (hset fun _ => rfl)
  | dispatch d => exact Or.inl (hset fun _ => rfl)

/-- Only `this.connected = false` disconnects. -/
theorem exec_disconnects {σ : Core} {i : Instr} {s : SocketId}
    (h : (σ.life.sockets s).connected = true)
    (h' : ((exec P i σ).core.life.sockets s).connected = false) :
    ∃ r sync, i = .life (.teardownCleanup s r sync) := by
  cases i with
  | life i =>
      rcases execLife_connection σ i s with he | rfl | ⟨r, sync, rfl⟩
      · exact absurd (he.symm.trans h') (by rw [h]; decide)
      · simp [exec, execLife, Life.setSocket] at h'
      · exact ⟨r, sync, rfl⟩
  | _ => cases h.symm.trans h'

/-- **A socket that was announced and is no longer connected dispatches `disconnect`.** -/
theorem farewell_dues (P : Platform) : Dues (runtime P)
    (fun σ => ∀ s τ, (runtime P).next σ = some (.ctl (.emitConnection s), τ) →
      (σ.core.life.sockets s).connected = true)
    (fun (σ : Core) s => .connection s ∈ σ.log ∧ (σ.life.sockets s).connected = false ∧
      .disconnect s ∉ σ.log)
    fun i s => ∃ r sync, i = .life (.teardownDisconnect s r sync) where
  frame i s hi := by
    obtain ⟨r, sync, rfl⟩ := hi
    rfl
  exec σ τ i s hK hn _ := by
    rintro ⟨hl, hc, hd⟩
    have hd₀ : .disconnect s ∉ σ.core.log := fun h => hd (mem_log h)
    by_cases hcon : (σ.core.life.sockets s).connected = true
    · obtain ⟨r, sync, rfl⟩ := exec_disconnects hcon hc
      exact Or.inl ⟨.life (.teardownDisconnect s r sync), List.mem_append_left _
        (by simp [runtime, exec, execLife, teardownCleanup, Effect.spawned]), r, sync, rfl⟩
    · have hl₀ : .connection s ∈ σ.core.log := by
        obtain ⟨es, hes, hr⟩ := exec_log P i σ.core
        change .connection s ∈ (exec P i σ.core).core.log at hl
        rw [hes] at hl
        refine (List.mem_append.mp hl).resolve_left fun he => hcon (hK s τ ?_)
        rw [← records_connection (hr _ he)]
        exact hn
      refine Or.inr ⟨⟨hl₀, by simpa using hcon, hd₀⟩, ?_⟩
      rintro ⟨r, sync, rfl⟩
      exact hd (by simp [runtime, exec, execLife, teardownDisconnect])
  fails σ τ i s hK hn hf := by
    rintro ⟨hl, hc, hd⟩
    obtain ⟨hlife, -, hnl, -⟩ := fails_outside (P := P) hf
    obtain ⟨es, hes, hr⟩ := exec_log P i σ.core
    refine ⟨⟨?_, ?_, fun h => hd (mem_log h)⟩, by rintro ⟨r, sync, rfl⟩; exact hnl _ rfl⟩
    · change .connection s ∈ (exec P i σ.core).core.log at hl
      rw [hes] at hl
      exact (List.mem_append.mp hl).resolve_left fun he => records_runs hf (Or.inl rfl) (hr _ he)
    · exact (congrArg (fun ℓ => (ℓ.sockets s).connected) hlife).symm.trans hc
  run σ i s hr := by
    rintro ⟨hl, hc, hd⟩
    refine ⟨?_, (run_outside (P := P) hr s).2.1.symm.trans hc, fun h => hd (mem_log h)⟩
    change _ ∈ (exec P i σ).core.log at hl
    rwa [run_log hr] at hl

/-- An admitted socket is in its roster until it has been cleaned up. -/
structure Core.Rostered (σ : Core) (s : SocketId) : Prop where
  valid : s < σ.conn.socketCount
  listed : (σ.memb.sockets s).membershipCleaned = true ∨
    (σ.memb.rosters (σ.conn.sockets s).nsp).get? (σ.conn.sockets s).id = some s

theorem roster_layer (P : Platform) : Machine.Layer (runtime P) (fun _ _ => True) (Core.Wf P)
    (fun σ i => i.Valid σ) (fun σ => ∀ s, .admitted s ∈ σ.log → σ.Rostered s)
    (fun σ i => ∀ s, i = .memb (.cleanupMembershipRest s) →
      (σ.memb.sockets s).membershipCleaned = true) fun _ => (none : Option Unit) := by
  refine .of_facts (fun σ i hw hv h s hs => ?_) (fun σ i _ _ h j hj s he => ?_)
    (fun σ i j _ _ _ _ hj s he => cleaned_exec (hj s he)) (fun σ i _ _ hc s he => ?_)
    (fun σ i is _ _ his j hj s he => ?_) fun _ _ _ => trivial
  · by_cases he : i = .memb (.enter s)
    · subst he
      have hlt : s < σ.conn.socketCount := hv (.socket s) (List.mem_singleton_self _)
      exact ⟨hlt, Or.inr (by simp [runtime, exec, execMemb, enter, Memb.setRoster])⟩
    · have hs₀ : .admitted s ∈ σ.log := by
        obtain ⟨es, hes, hr⟩ := exec_log P i σ
        change .admitted s ∈ (exec P i σ).core.log at hs
        rw [hes] at hs
        exact (List.mem_append.mp hs).resolve_left fun ha => he (records_admitted (hr _ ha))
      obtain ⟨hlt, hl⟩ := h.inv s hs₀
      have hE := conn_extends (P := P) hw hv
      refine ⟨hlt.trans_le hE.sockets, ?_⟩
      by_cases hc : (σ.memb.sockets s).membershipCleaned = true
      · exact Or.inl (cleaned_exec hc)
      · refine Or.inr ?_
        by_contra hno
        have hsock := hE.socketOf s hlt
        change ((exec P i σ).core.memb.rosters ((exec P i σ).core.conn.sockets s).nsp).get?
          ((exec P i σ).core.conn.sockets s).id ≠ some s at hno
        rw [hsock] at hno
        exact hc (h.ok s (leaves_roster hw hv (hl.resolve_left hc) hno))
  · subst he
    obtain rfl : i = .memb (.cleanupMembership s) := by simpa using spawnedBy hj
    exact cleaned_exec_iff.mpr (Or.inr rfl)
  · subst he
    cases hc
  · rcases onThrow_handle his with rfl | ⟨a, err, rfl, -⟩
    · cases hj
    · rw [List.mem_singleton.mp hj] at he
      cases he

/-! ## 5. The lifecycle of a socket -/

/-- The events `connection`, `disconnecting` and `disconnect` of a socket. -/
def Event.ofLifecycle (s : SocketId) : Event → Bool
  | .connection t | .disconnecting t | .disconnect t => decide (t = s)
  | _ => false

/-- The lifecycle events of a socket, oldest first. -/
def Core.lifecycle (σ : Core) (s : SocketId) : List Event :=
  (σ.log.filter (Event.ofLifecycle s)).reverse

theorem ofLifecycle_cases {s : SocketId} {e : Event} (h : e.ofLifecycle s = true) :
    e = .connection s ∨ e = .disconnecting s ∨ e = .disconnect s := by
  unfold Event.ofLifecycle at h
  split at h
  · exact Or.inl (of_decide_eq_true h ▸ rfl)
  · exact Or.inr (Or.inl (of_decide_eq_true h ▸ rfl))
  · exact Or.inr (Or.inr (of_decide_eq_true h ▸ rfl))
  · cases h

theorem mem_lifecycle {σ : Core} {s : SocketId} {e : Event} :
    e ∈ σ.lifecycle s ↔ e ∈ σ.log ∧ e.ofLifecycle s = true := by
  simp [Core.lifecycle]

/-- One instruction adds at most one event. -/
theorem exec_lifecycle (σ : Core) (i : Instr) (s : SocketId) :
    (exec P i σ).core.lifecycle s = σ.lifecycle s ∨
      ∃ e, i.Records e ∧ e.ofLifecycle s = true ∧ (exec P i σ).core.log = e :: σ.log := by
  obtain ⟨es, hes, hr⟩ := exec_log P i σ
  by_cases hno : ∀ e ∈ es, e.ofLifecycle s = false
  · refine Or.inl ?_
    have hnil : es.filter (Event.ofLifecycle s) = [] :=
      List.filter_eq_nil_iff.mpr fun e he => by simp [hno e he]
    rw [Core.lifecycle, hes, List.filter_append, hnil, List.nil_append]
    rfl
  · push Not at hno
    obtain ⟨e, he, hs⟩ := hno
    have hs : e.ofLifecycle s = true := by simpa using hs
    refine Or.inr ⟨e, hr e he, hs, ?_⟩
    -- each of the four instructions that record such an event records nothing else
    rcases ofLifecycle_cases hs with rfl | rfl | rfl
    · rw [records_connection (hr _ he)]
      rfl
    · rcases records_disconnecting (hr _ he) with ⟨r, d, rfl⟩ | rfl
      · rfl
      · by_cases hp : (σ.life.sockets s).teardownPromise = .none
        · simp [exec, execLife, disconnectNamespaceFromServer, hp]
        · have hnil : es = [] := by
            simpa [exec, execLife, disconnectNamespaceFromServer, hp] using hes.symm
          rw [hnil] at he
          cases he
    · obtain ⟨r, sync, rfl⟩ := records_disconnect (hr _ he)
      rfl

/-- **One complete lifecycle.** -/
structure Complete (P : Platform) (σ : State) (s : SocketId) : Prop where
  /-- after its `connection` events at most one `disconnecting`, then at most one `disconnect` -/
  order : ∃ n farewell, σ.core.lifecycle s = List.replicate n (.connection s) ++ farewell ∧
    farewell <+: [.disconnecting s, .disconnect s]
  /-- wherever application code may run, the socket is connected from its admission until its
      `disconnecting` listeners have returned -/
  connected : (runtime P).inApp σ = true → ((σ.core.life.sockets s).connected = true ↔
    .admitted s ∈ σ.core.log ∧ (.disconnecting s ∈ σ.core.log →
      ∃ r sync, .life (.teardownCleanup s r sync) ∈ σ.pending))
  /-- a socket that was observed and has left its roster said both farewells, once nothing of a
      teardown of it is pending -/
  complete : .connection s ∈ σ.core.log → (∀ n sid, (σ.core.memb.rosters n).get? sid ≠ some s) →
    (∀ j ∈ σ.pending, j.tearsDown s = false) → (σ.core.life.sockets s).connected = false ∧
      ∃ n, σ.core.lifecycle s =
        List.replicate n (.connection s) ++ [.disconnecting s, .disconnect s]

section Reached

variable {C : State → Action Instr → Prop} {σ : State}

theorem reach_disconnecting (h : (runtime P).Reach C newServer σ) (s : SocketId) :
    Covers (fun _ i => i.disconnectsLater s) (fun σ => σ.log.count (.disconnecting s))
      (fun σ : Core => σ.isPromised s) σ.core σ.pending :=
  h.account (disconnecting_account P s) (fun _ _ _ => trivial) (Nat.le_refl _)

theorem reach_disconnect (h : (runtime P).Reach C newServer σ) (s : SocketId) :
    Covers (fun _ i => i.farewells s) (fun σ => σ.log.count (.disconnect s))
      (fun σ : Core => σ.log.count (.disconnecting s)) σ.core σ.pending :=
  h.account (disconnect_account P s) (fun _ _ _ => trivial) (Nat.le_refl _)

/-- Nothing is deferred of a `disconnecting` that has been dispatched. -/
theorem disconnecting_once (h : (runtime P).Reach C newServer σ) {s : SocketId}
    (hs : .disconnecting s ∈ σ.core.log) :
    σ.core.log.count (.disconnecting s) = 1 ∧ (σ.core.life.sockets s).teardownPromise ≠ .none ∧
      ∀ j ∈ σ.pending, j.disconnectsLater s = 0 := by
  have hle := reach_disconnecting h s
  have hpos := List.count_pos_iff.mpr hs
  simp only [Covers, Core.isPromised] at hle
  split at hle
  · omega
  · rename_i hp
    refine ⟨by omega, hp, fun j hj => ?_⟩
    have hj' : j.disconnectsLater s ≤ weigh (fun _ i => i.disconnectsLater s) σ.core σ.pending :=
      mass_le_weigh (fun _ i => i.disconnectsLater s) σ.core hj
    omega

/-- Nor is anything left to dispatch of a `disconnect` that has been dispatched. -/
theorem disconnect_once (h : (runtime P).Reach C newServer σ) {s : SocketId}
    (hs : .disconnect s ∈ σ.core.log) :
    σ.core.log.count (.disconnect s) = 1 ∧ .disconnecting s ∈ σ.core.log ∧
      ∀ j ∈ σ.pending, j.farewells s = 0 := by
  have hle := reach_disconnect h s
  have hpos := List.count_pos_iff.mpr hs
  simp only [Covers] at hle
  have hd : .disconnecting s ∈ σ.core.log := List.count_pos_iff.mp (by omega)
  have hone := (disconnecting_once h hd).1
  refine ⟨by omega, hd, fun j hj => ?_⟩
  have hj' : j.farewells s ≤ weigh (fun _ i => i.farewells s) σ.core σ.pending :=
    mass_le_weigh (fun _ i => i.farewells s) σ.core hj
  omega

theorem reach_announcing (h : (runtime P).Reach C newServer σ) :
    Between (fun σ : Core => ∀ t, σ.Announced t) (fun _ (i : Instr) => i.enters = none)
      Core.Announcing σ := by
  refine h.between (announcing_atomic P) (promised_inductive P) (fun _ _ _ _ _ _ _ => trivial) ?_
    ⟨trivial, fun _ hj => absurd hj List.not_mem_nil, .nil⟩
    (Or.inl ⟨fun s => ⟨⟨fun hs => (by cases hs), fun hs => (by cases hs)⟩, fun hs => (by cases hs)⟩,
      fun _ hj => absurd hj List.not_mem_nil⟩)
  exact fun τ a _ i pre k _ hm happ => by cases (announcing_app hm).symm.trans happ

/-- What is announced is connected. -/
theorem announces_connected (h : (runtime P).Reach C newServer σ) {τ : State} {s : SocketId}
    (hn : (runtime P).next σ = some (.ctl (.emitConnection s), τ)) :
    (σ.core.life.sockets s).connected = true := by
  rcases reach_announcing h with ⟨-, hO⟩ | ⟨pre, k, hst, hm, -⟩
  · cases hO _ (next_mem hn).1
  · have hhead : ∀ {i : Instr} {l : List Instr}, pre = i :: l → i = .ctl (.emitConnection s) := by
      rintro i l rfl
      obtain ⟨-, ⟨-, hst', -⟩ | ⟨hst', -, -⟩⟩ := next_pending hn
      · exact (List.cons.inj (hst.symm.trans hst')).1
      · cases hst.symm.trans hst'
    generalize hpre : pre = stack at hm
    cases hm with
    | enter t l => cases hhead hpre
    | mark t l => cases hhead hpre
    | announce t l hl _ _ hc =>
        rcases hl with rfl | rfl
        · cases hhead hpre
          exact hc
        · cases hhead hpre

/-- What is announced has not said farewell. -/
theorem announces_first (h : (runtime P).Reach C newServer σ)
    (hC : ∀ τ a, C τ a → TeardownsFinish P τ a) {τ : State} {s : SocketId}
    (hn : (runtime P).next σ = some (.ctl (.emitConnection s), τ)) :
    .disconnecting s ∉ σ.core.log := by
  intro hd
  obtain ⟨-, hp, hlater⟩ := disconnecting_once h hd
  have hT := reach_torn h hC
  have hc : (σ.core.memb.sockets s).membershipCleaned = false := hT.live _ τ hn s rfl
  have hline := ((h.line (ahead_line P) (fun _ _ _ _ _ _ _ => trivial)
    ⟨trivial, fun _ hj => absurd hj List.not_mem_nil, .nil⟩).next hn).rel
  obtain ⟨j, hj, hjs⟩ := reach_cleans h hC s ⟨hp, hc⟩
  have hji : j ≠ .ctl (.emitConnection s) := by
    rintro rfl
    cases hjs
  have hjτ : j ∈ τ.pending := by
    obtain ⟨-, ⟨-, hst, hq⟩ | ⟨hst, hst', hq⟩⟩ := next_pending hn
    · simpa [Config.pending, hst, hq, hji] using hj
    · simpa [Config.pending, hst, hst', hq, hji] using hj
  unfold Instr.cleansLater at hjs
  split at hjs
  · obtain rfl := of_decide_eq_true hjs
    have := hlater _ hj
    simp [Instr.disconnectsLater] at this
  · obtain rfl := of_decide_eq_true hjs
    exact (List.pairwise_cons.mp hline).1 _ hjτ _ (Or.inl rfl) _ _ rfl
  · have hcl : (Instr.memb (.cleanupMembership _)).cleans = none := hT.cleans _ (by
      obtain ⟨-, ⟨-, hst, hq⟩ | ⟨hst, hst', hq⟩⟩ := next_pending hn
      · rw [hst, List.tail_cons, hq]
        exact hjτ
      · rw [hst, hq]
        exact List.mem_cons_of_mem _ (by simpa [Config.pending, hst'] using hjτ))
    cases hcl
  · cases hjs

/-- A log changes by what the instruction records. -/
theorem logs_keeping (P : Platform) : Keeping (runtime P) fun σ τ => τ.log = σ.log where
  refl _ := rfl
  trans h h' := h'.trans h
  run _ _ hr := run_log hr

/-- **The order of the lifecycle events.** -/
theorem reach_lifecycle (h : (runtime P).Reach C newServer σ)
    (hC : ∀ τ a, C τ a → TeardownsFinish P τ a) (s : SocketId) :
    ∃ n farewell, σ.core.lifecycle s = List.replicate n (.connection s) ++ farewell ∧
      farewell <+: [.disconnecting s, .disconnect s] := by
  induction h with
  | start => exact ⟨0, [], rfl, List.nil_prefix⟩
  | @step σ σ' a hr hc hs ih =>
      obtain ⟨n, farewell, hl, hf⟩ := ih
      have hmem : ∀ e ∈ farewell, e ∈ σ.core.log := fun e he =>
        (mem_lifecycle.mp (hl ▸ List.mem_append_right _ he)).1
      have hr' : (runtime P).Reach C newServer σ' := hr.step hc hs
      rcases (logs_keeping P).step hs with ⟨i, τ, rfl, hn, -, hlog⟩ | ⟨-, hlog⟩
      · have hsame : σ'.core.lifecycle s = (exec P i σ.core).core.lifecycle s := by
          rw [Core.lifecycle, hlog]
          rfl
        rcases exec_lifecycle (P := P) σ.core i s with he | ⟨e, hrec, hes, he⟩
        · exact ⟨n, farewell, hsame.trans (he.trans hl), hf⟩
        · have hl' : σ'.core.lifecycle s = List.replicate n (.connection s) ++ farewell ++ [e] := by
            rw [hsame, Core.lifecycle, he, List.filter_cons, if_pos hes, List.reverse_cons]
            exact congrArg (· ++ [e]) hl
          have hlog' : σ'.core.log = e :: σ.core.log := hlog.trans he
          rcases List.prefix_cons_iff.mp hf with rfl | ⟨rest, rfl, hrest⟩
          · -- nothing was said yet: another `connection`, or `disconnecting`
            rw [List.append_nil] at hl hl'
            rcases ofLifecycle_cases hes with rfl | rfl | rfl
            · refine ⟨n + 1, [], ?_, List.nil_prefix⟩
              rw [hl', List.append_nil, List.replicate_succ']
            · exact ⟨n, [.disconnecting s], hl', [.disconnect s], rfl⟩
            · have hd := (disconnect_once hr' (hlog' ▸ List.mem_cons_self)).2.1
              rw [hlog'] at hd
              have hd := (List.mem_cons.mp hd).resolve_left (by intro h; cases h)
              have hd : Event.disconnecting s ∈ σ.core.lifecycle s :=
                mem_lifecycle.mpr ⟨hd, by simp [Event.ofLifecycle]⟩
              rw [hl] at hd
              cases List.eq_of_mem_replicate hd
          · have hd : .disconnecting s ∈ σ.core.log := hmem _ List.mem_cons_self
            rcases ofLifecycle_cases hes with rfl | rfl | rfl
            · rw [records_connection hrec] at hn
              exact absurd hd (announces_first hr hC hn)
            · have hone := (disconnecting_once hr' (hlog' ▸ List.mem_cons_self)).1
              rw [hlog', List.count_cons_self] at hone
              have := List.count_pos_iff.mpr hd
              omega
            · rcases List.prefix_cons_iff.mp hrest with rfl | ⟨rest', rfl, -⟩
              · exact ⟨n, _, by rw [hl', List.append_assoc]; rfl, List.prefix_refl _⟩
              · have hone := (disconnect_once hr' (hlog' ▸ List.mem_cons_self)).1
                rw [hlog', List.count_cons_self] at hone
                have := List.count_pos_iff.mpr
                  (hmem _ (List.mem_cons_of_mem _ List.mem_cons_self))
                omega
      · exact ⟨n, farewell, by rw [Core.lifecycle, hlog]; exact hl, hf⟩

/-- What is left to dispatch is pending. -/
theorem reach_says (h : (runtime P).Reach C newServer σ)
    (hC : ∀ τ a, C τ a → LifecyclesFinish P τ a) (s : SocketId) :
    ((σ.core.life.sockets s).teardownPromise ≠ .none → .disconnecting s ∉ σ.core.log →
        ∃ j ∈ σ.pending, j.disconnectsLater s = 1) ∧
      (.disconnecting s ∈ σ.core.log → .disconnect s ∉ σ.core.log →
        ∃ j ∈ σ.pending, j.farewells s = 1) ∧
      (.connection s ∈ σ.core.log → (σ.core.life.sockets s).connected = false →
        .disconnect s ∉ σ.core.log →
        ∃ r sync, .life (.teardownDisconnect s r sync) ∈ σ.pending) := by
  have hT : ∀ τ a, C τ a → TeardownsFinish P τ a := fun τ a hc => (hC τ a hc).1
  refine ⟨fun hp hd => ?_, fun hd hd' => ?_, fun hl hc hd => ?_⟩
  · refine h.dues (disconnecting_dues P) (fun τ hτ _ => reach_torn hτ hT) ?_
      (fun t ht => absurd rfl ht.1) s ⟨hp, hd⟩
    intro τ a _ hc j hj t hpay _
    have hleft := (hT τ a hc).1 j hj
    unfold Instr.disconnectsLater at hpay
    split at hpay
    · cases hleft
    · cases hpay
  · refine h.dues (disconnect_dues P) (fun _ _ _ => trivial) ?_
      (fun t ht => by cases ht.1) s ⟨hd, hd'⟩
    intro τ a _ hc j hj t hpay _
    have hleft := (hC τ a hc).2 j hj
    unfold Instr.farewells at hpay
    split at hpay
    · cases hleft
    · cases hleft
    · cases hpay
  · obtain ⟨j, hj, r, sync, rfl⟩ := h.dues (farewell_dues P)
      (fun τ hτ _ t ρ hn => announces_connected hτ hn) (by
        rintro τ a _ hc j hj t ⟨r, sync, rfl⟩ _
        cases (hC τ a hc).2 _ hj) (fun t ht => by cases ht.1) s ⟨hl, hc, hd⟩
    exact ⟨r, sync, hj⟩

/-- An observed socket was admitted. -/
theorem connection_admitted (h : (runtime P).Reach C newServer σ) {s : SocketId}
    (hs : .connection s ∈ σ.core.log) : .admitted s ∈ σ.core.log := by
  rcases reach_announcing h with ⟨hI, -⟩ | ⟨pre, k, -, hm, -⟩
  · exact (hI s).admitted.mpr hs
  · cases hm with
    | enter t l hl hI => exact (hI s).admitted.mpr hs
    | mark t l hl hI ha | announce t l hl hI ha hc =>
        by_cases hst : s = t
        · exact hst ▸ ha
        · exact (hI s hst).admitted.mpr hs

/-- An admitted socket is in its roster until its membership is cleaned up. -/
theorem reach_rostered (h : (runtime P).Reach C newServer σ) {s : SocketId}
    (hs : .admitted s ∈ σ.core.log) : σ.core.Rostered s := by
  have hL := Machine.Layer.inductive (valid_inductive P) (fun _ _ _ => trivial) (roster_layer P)
  exact (h.inv_ok hL (fun _ _ _ _ _ _ _ => trivial)
    ⟨⟨newServer_wf P, fun s hs => by cases hs⟩, fun _ hj => absurd hj List.not_mem_nil,
      .nil⟩).inv.2 s hs

end Reached

/-- The client disconnects inside the first `connection` listener, before it is paired: the socket
    leaves its roster without a farewell and stays connected. -/
theorem cancelled_in_handler_says_nothing : ∃ σ,
    (runtime unary).Reach (fun _ _ => True) newServer σ ∧ σ.pending = [] ∧
      (∀ n sid, (σ.core.memb.rosters n).get? sid ≠ some 0) ∧
      (σ.core.life.sockets 0).connected = true ∧ σ.core.lifecycle 0 = [.connection 0] := by
  obtain ⟨σ, hσ, hp⟩ := reach_of_script (runtime unary) (fun _ _ => True) newServer 60
    [.call (.srv (.serverConnect "/" false false)), .run, .run,
      .call (.ctl (.clientDisconnect 0)), .ret, .ret]
    (fun σ => decide (σ.pending.isEmpty = true ∧ (σ.core.memb.rosters 0).get? "" = none ∧
      (σ.core.conn.sockets 0).nsp = 0 ∧ (σ.core.conn.sockets 0).id = "" ∧
      (σ.core.life.sockets 0).connected = true ∧ σ.core.lifecycle 0 = [.connection 0])) (by decide)
  obtain ⟨hpend, hr, hn, hid, hc, hl⟩ := of_decide_eq_true hp
  refine ⟨σ, hσ, List.isEmpty_iff.mp hpend, fun n sid hs => ?_, hc, hl⟩
  obtain ⟨-, rfl, rfl⟩ := (reach_wf hσ).1.roster n sid 0 hs
  rw [hn, hid, hr] at hs
  cases hs

end Smocket
