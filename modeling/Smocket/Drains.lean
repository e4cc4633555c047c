import Smocket.Log
import Smocket.Spawns
import Smocket.Traces

/-
  File:      Smocket/Drains.lean
  Subject:   WHAT A CLIENT SENT BEFORE IT LEFT. Packets for a server socket wait in the queue of the
             loop, in the order they were sent, until the socket's delivery is switched off.

  `client.disconnect()` posts the teardown behind them. It leaves the delivery on while the server
  socket is dispatching, so that they come first; otherwise it switches it off at once, and what
  still waits is dropped.

  * `teardown_inductive` -- a socket's lifecycle ends under its `teardownPromise`;
  * `Poised.step` -- inside a dispatch the packets drain, outside they are dropped;
  * `disconnect_drains` -- what was sent before `client.disconnect()` is dispatched before
    `disconnecting`, in order, if the call comes from a dispatch;
  * `disconnect_drops` -- outside every dispatch it is dropped.
-/

namespace Smocket

open Ordered EventLoop EventLoop.Machine

variable {P : Platform}

/-! ## 1. Packets for a server socket -/

/-- The packet for `s` that an instruction brings to its dispatch. -/
def Instr.packetFor (s : SocketId) : Instr → Option ServerDelivery
  | .ctl (.deliverServer d) | .life (.dispatch d) => if d.socket = s then some d else none
  | _ => none

def Event.dispatchedOn (s : SocketId) : Event → Option ServerDelivery
  | .entered d => if d.socket = s then some d else none
  | _ => none

/-- The packets dispatched on `s`, in their order. -/
def dispatchedOn (s : SocketId) (log : List Event) : List ServerDelivery :=
  (log.filterMap (·.dispatchedOn s)).reverse

/-- The packets for `s` among pending instructions. -/
def waitingFor (s : SocketId) (l : List Instr) : List ServerDelivery := l.filterMap (·.packetFor s)

/-- The packets posted for `s`, in their order. -/
def sentTo (P : Platform) (s : SocketId) (tr : List (Core × Instr)) : List ServerDelivery :=
  tr.flatMap fun x => waitingFor s (exec P x.2 x.1).post

variable {s : SocketId}

theorem packetFor_eq_some {j : Instr} {d : ServerDelivery} (h : j.packetFor s = some d) :
    (j = .ctl (.deliverServer d) ∨ j = .life (.dispatch d)) ∧ d.socket = s := by
  unfold Instr.packetFor at h
  split at h
  · split at h <;> cases h
    exact ⟨Or.inl rfl, ‹_›⟩
  · split at h <;> cases h
    exact ⟨Or.inr rfl, ‹_›⟩
  · cases h

theorem waitingFor_append (l l' : List Instr) :
    waitingFor s (l ++ l') = waitingFor s l ++ waitingFor s l' :=
  List.filterMap_append ..

theorem waitingFor_nil {l : List Instr} (h : ∀ j ∈ l, j.packetFor s = none) : waitingFor s l = [] :=
  List.filterMap_eq_nil_iff.mpr h

theorem dispatchedOn_append (es log : List Event) :
    dispatchedOn s (es ++ log) = dispatchedOn s log ++ dispatchedOn s es := by
  simp [dispatchedOn]

/-- What dispatching adds. -/
def Instr.dispatches (s : SocketId) : Instr → List ServerDelivery
  | .life (.dispatch d) => if d.socket = s then [d] else []
  | _ => []

/-- Only `dispatch` dispatches. -/
theorem records_dispatchedOn {i : Instr} {e : Event} (h : i.Records e)
    (hi : ∀ d, i ≠ .life (.dispatch d)) : e.dispatchedOn s = none := by
  cases e with
  | entered d =>
      unfold Instr.Records at h
      split at h <;> simp_all
  | _ => rfl

theorem exec_dispatchedOn (i : Instr) (σ : Core) :
    dispatchedOn s (exec P i σ).core.log = dispatchedOn s σ.log ++ i.dispatches s := by
  by_cases hdisp : ∃ d, i = .life (.dispatch d)
  · obtain ⟨d, rfl⟩ := hdisp
    have hlog : (exec P (.life (.dispatch d)) σ).core.log = [.entered d] ++ σ.log := rfl
    rw [hlog, dispatchedOn_append]
    by_cases hd : d.socket = s <;> simp [dispatchedOn, Instr.dispatches, Event.dispatchedOn, hd]
  · have hi : ∀ d, i ≠ .life (.dispatch d) := fun d hd => hdisp ⟨d, hd⟩
    obtain ⟨es, hes, hr⟩ := exec_log P i σ
    rw [hes, dispatchedOn_append]
    have hes : es.filterMap (·.dispatchedOn s) = [] :=
      List.filterMap_eq_nil_iff.mpr fun e he => records_dispatchedOn (hr e he) hi
    have hno : i.dispatches s = [] := by
      unfold Instr.dispatches
      split
      · exact absurd rfl (hi _)
      · rfl
    have hes' : dispatchedOn s es = [] := by rw [dispatchedOn, hes, List.reverse_nil]
    rw [hno, hes']

/-- A packet is pushed by nothing but its own delivery, if the socket takes deliveries. -/
theorem exec_push_packets (i : Instr) (σ : Core) :
    (∃ d, i = .ctl (.deliverServer d) ∧ (exec P i σ).push =
      if (σ.life.sockets d.socket).deliveryActive then [.life (.dispatch d)] else []) ∨
    (∀ d, i ≠ .ctl (.deliverServer d)) ∧ ∀ j ∈ (exec P i σ).push, j.packetFor s = none := by
  by_cases hdel : ∃ d, i = .ctl (.deliverServer d)
  · obtain ⟨d, rfl⟩ := hdel
    exact Or.inl ⟨d, rfl, rfl⟩
  · refine Or.inr ⟨fun d hd => hdel ⟨d, hd⟩, fun j hj =>
      Option.eq_none_iff_forall_not_mem.mpr fun d hd => ?_⟩
    have hby : j.SpawnedBy i := spawnedBy (List.mem_append_left _ hj)
    rcases (packetFor_eq_some hd).1 with rfl | rfl
    · rcases hby with ⟨c, p, rfl⟩ | ⟨a, t, p, ps, rfl⟩
      · simp only [exec, execMail, clientEmitRest] at hj
        split at hj
        · cases hj
        · split at hj
          · dsimp only at hj
            split at hj
            · cases List.mem_singleton.mp hj
            · cases hj
          · cases hj
      · simp only [exec, execMail, flushRest] at hj
        split at hj
        · cases List.mem_singleton.mp hj
        · cases hj
    · exact hdel ⟨d, hby⟩

/-- `dispatch` is never posted. -/
theorem exec_post_dispatch {i : Instr} {σ : Core} {d : ServerDelivery} :
    .life (.dispatch d) ∉ (exec P i σ).post := by
  intro hj
  obtain rfl : i = .ctl (.deliverServer d) := spawnedBy (List.mem_append_right _ hj)
  cases hj

/-! ## 2. The lifecycle of one server socket -/

/-- The instructions that may switch the delivery of `s` off. -/
def Instr.silences (s : SocketId) : Instr → Bool
  | .life (.teardown t ..) | .life (.teardownTask t ..) | .life (.disconnectNamespaceFromServer t)
  | .life (.cleanupConnectionAttempt t) => decide (t = s)
  | _ => false

theorem exec_life {i : Instr} {σ : Core} (h : ∀ j, i ≠ .life j) :
    (exec P i σ).core.life = σ.life := by
  cases i with
  | life j => exact absurd rfl (h j)
  | _ => rfl

/-- What an instruction leaves of the delivery and the teardown of `s`. -/
structure Lifecycle.Kept (x y : Lifecycle) : Prop where
  deliveryActive : y.deliveryActive = x.deliveryActive
  teardownPromise : y.teardownPromise = .none → x.teardownPromise = .none

theorem Lifecycle.Kept.refl (x : Lifecycle) : x.Kept x := ⟨rfl, id⟩

theorem Life.setSocket_kept {ℓ : Life} {t : SocketId} {g : Lifecycle → Lifecycle}
    (hg : t = s → (ℓ.sockets s).Kept (g (ℓ.sockets s))) :
    (ℓ.sockets s).Kept ((ℓ.setSocket t g).sockets s) := by
  simp only [Life.setSocket, modify_apply]
  split
  · rename_i hs
    exact hs ▸ hg hs.symm
  · exact .refl _

theorem advance_kept {x : Lifecycle} {ℓ : Life} {t : SocketId} (h : ℓ.sockets s = x) :
    x.Kept ((ℓ.advance t).part.sockets s) := by
  unfold Life.advance
  dsimp only
  split <;> exact h ▸ .refl _

theorem exec_kept {i : Instr} {σ : Core} (h : i.silences s = false) :
    (σ.life.sockets s).Kept ((exec P i σ).core.life.sockets s) := by
  by_cases hl : ∃ j, i = .life j
  · obtain ⟨j, rfl⟩ := hl
    simp only [exec]
    cases j with
    | teardown t r d =>
        simp only [execLife, teardown]
        split
        · exact .refl _
        · exact Life.setSocket_kept fun ht => absurd ht (of_decide_eq_false h)
    | teardownTask t r d => exact Life.setSocket_kept fun ht => absurd ht (of_decide_eq_false h)
    | disconnectNamespaceFromServer t =>
        simp only [execLife, disconnectNamespaceFromServer]
        split
        · exact .refl _
        · exact Life.setSocket_kept fun ht => absurd ht (of_decide_eq_false h)
    | cleanupConnectionAttempt t =>
        exact Life.setSocket_kept fun ht => absurd ht (of_decide_eq_false h)
    | teardownCleanup t r sync => exact Life.setSocket_kept fun _ => ⟨rfl, id⟩
    | teardownDisconnect t r sync => exact Life.setSocket_kept fun _ => ⟨rfl, id⟩
    | teardownDone t sync =>
        simp only [execLife, teardownDone]
        split
        · exact .refl _
        · exact Life.setSocket_kept (g := fun x => { x with teardownPromise := .resolved })
            fun _ => ⟨rfl, fun hx => by cases hx⟩
    | runMiddleware t => exact advance_kept rfl
    | next t k err =>
        cases err with
        | some e => exact .refl _
        | none => exact advance_kept rfl
    | markConnected t => exact Life.setSocket_kept fun _ => ⟨rfl, id⟩
    | invalidateAcknowledgements t => exact Life.setSocket_kept fun _ => ⟨rfl, id⟩
    | endDispatch t => exact Life.setSocket_kept fun _ => ⟨rfl, id⟩
    | dispatch d => exact Life.setSocket_kept fun _ => ⟨rfl, id⟩
    | setPacket r event args =>
        simp only [execLife, setPacket]
        split <;> exact .refl _
    | runPacket r k =>
        simp only [execLife, runPacket]
        split <;> [exact .refl _; (split <;> exact .refl _)]
    | packetNext r k err =>
        simp only [execLife, packetNext]
        split <;> [exact .refl _; (split <;> exact .refl _)]
    | dispatchNamed r =>
        simp only [execLife, dispatchNamed]
        split
        · exact .refl _
        · split
          · exact .refl _
          · exact Life.setSocket_kept fun _ => ⟨rfl, id⟩
    | _ => exact .refl _
  · rw [exec_life fun j hj => hl ⟨j, hj⟩]
    exact .refl _

/-- Everything else leaves the delivery on, and no step takes a teardown back. -/
theorem exec_promise {i : Instr} {σ : Core}
    (h : ((exec P i σ).core.life.sockets s).teardownPromise = .none) :
    (σ.life.sockets s).teardownPromise = .none := by
  cases hi : i.silences s with
  | false => exact (exec_kept hi).teardownPromise h
  | true =>
      have hset : ∀ {t : SocketId} {g : Lifecycle → Lifecycle},
          (t = s → (g (σ.life.sockets s)).teardownPromise = .none →
            (σ.life.sockets s).teardownPromise = .none) →
          ((σ.life.setSocket t g).sockets s).teardownPromise = .none →
          (σ.life.sockets s).teardownPromise = .none := by
        intro t g hg hx
        simp only [Life.setSocket, modify_apply] at hx
        split at hx
        · rename_i hs
          exact hg hs.symm (hs ▸ hx)
        · exact hx
      unfold Instr.silences at hi
      split at hi
      · simp only [exec, execLife, teardown] at h
        split at h
        · exact h
        · exact hset (fun _ hx => by cases hx) h
      · exact hset (fun _ hx => hx) h
      · simp only [exec, execLife, disconnectNamespaceFromServer] at h
        split at h
        · exact h
        · exact hset (fun _ hx => by cases hx) h
      · exact hset (fun _ hx => hx) h
      · cases hi

/-! ## 3. What a step does with the packets -/

/-- A packet for `s`, or the deferred part of its teardown: what waits in the queue. -/
def Instr.queued (s : SocketId) : Instr → Bool
  | .ctl (.deliverServer d) | .life (.dispatch d) => decide (d.socket = s)
  | .life (.teardownTask t ..) => decide (t = s)
  | _ => false

theorem packetFor_none {j : Instr} (h : j.queued s = false) : j.packetFor s = none := by
  refine Option.eq_none_iff_forall_not_mem.mpr fun d hd => ?_
  obtain ⟨rfl | rfl, hds⟩ := packetFor_eq_some hd <;> simp [Instr.queued, hds] at h

theorem waitingFor_unqueued {l : List Instr} (h : ∀ j ∈ l, j.queued s = false) :
    waitingFor s l = [] :=
  waitingFor_nil fun j hj => packetFor_none (h j hj)

/-- Nothing that belongs into the queue is on the stack, but for a packet about to be dispatched. -/
structure Calm (s : SocketId) (σ : State) : Prop where
  stack : (∀ j ∈ σ.stack, j.queued s = false) ∨ ∃ d, σ.stack = [.life (.dispatch d)]
  queue : ∀ d, .life (.dispatch d) ∉ σ.queue

/-- Nothing happened to `s`. -/
structure Still (s : SocketId) (σ σ' : Core) : Prop where
  log : σ'.log = σ.log
  life : (σ.life.sockets s).Kept (σ'.life.sockets s)

theorem Still.refl (s : SocketId) (σ : Core) : Still s σ σ := ⟨rfl, .refl _⟩

theorem Still.trans {σ σ' σ'' : Core} (h : Still s σ σ') (h' : Still s σ' σ'') : Still s σ σ'' :=
  ⟨h'.log.trans h.log, h'.life.deliveryActive.trans h.life.deliveryActive,
    fun hx => h.life.teardownPromise (h'.life.teardownPromise hx)⟩

/-- What an exception runs on its way, and what it leaves of the stack. -/
theorem unwind_still : ∀ (k : List Instr) (σ : Core), (∀ j ∈ k, j.queued s = false) →
    Still s σ ((runtime P).unwind σ k).1 ∧ ∀ j ∈ ((runtime P).unwind σ k).2, j.queued s = false
  | [], σ, _ => ⟨.refl s σ, nofun⟩
  | i :: k, σ, h => by
      have hk := fun j hj => h j (List.mem_cons_of_mem i hj)
      rw [Machine.unwind]
      split
      · exact ⟨.refl s σ, h⟩
      · split
        · exact unwind_still k σ hk
        · rename_i hr
          have hstill : Still s σ (exec P i σ).core := by
            simp only [runtime, onThrow] at hr
            split at hr <;> first
              | exact ⟨rfl, exec_kept rfl⟩
              | cases hr
          exact ⟨hstill.trans (unwind_still k _ hk).1, (unwind_still k _ hk).2⟩
        · rename_i is his
          refine ⟨.refl s σ, fun j hj => ?_⟩
          rcases List.mem_append.mp hj with hj | hj
          · rcases onThrow_handle his with rfl | ⟨a, err, rfl, -⟩
            · cases hj
            · rw [List.mem_singleton.mp hj]
              rfl
          · exact hk j hj

/-- Of what belongs into the queue, a packet about to be dispatched is all that is ever pushed. -/
theorem exec_push_queued (i : Instr) (σ : Core) :
    (∃ d, i = .ctl (.deliverServer d) ∧ d.socket = s ∧ (exec P i σ).push =
      if (σ.life.sockets s).deliveryActive then [.life (.dispatch d)] else []) ∨
    (∀ d, i = .ctl (.deliverServer d) → d.socket ≠ s) ∧
      ∀ j ∈ (exec P i σ).push, j.queued s = false := by
  rcases exec_push_packets i σ with ⟨d, rfl, hpush⟩ | ⟨hi, hnone⟩
  · by_cases hd : d.socket = s
    · exact Or.inl ⟨d, rfl, hd, hd ▸ hpush⟩
    · refine Or.inr ⟨fun d' hd' => by cases hd'; exact hd, fun j hj => ?_⟩
      rw [hpush] at hj
      split at hj
      · rw [List.mem_singleton.mp hj]
        exact decide_eq_false hd
      · cases hj
  · refine Or.inr ⟨fun d hd => absurd hd (hi d), fun j hj => ?_⟩
    have hj' := hnone j hj
    unfold Instr.queued
    split
    · simpa [Instr.packetFor] using hj'
    · simpa [Instr.packetFor] using hj'
    · obtain ⟨d, rfl⟩ : ∃ d, i = .life (.teardown _ _ d) := spawnedBy (List.mem_append_left _ hj)
      simp only [exec, execLife, teardown] at hj
      split at hj <;> cases hj
    · rfl

theorem Calm.next {σ τ : State} {i : Instr} (h : Calm s σ)
    (hn : (runtime P).next σ = some (i, τ)) :
    (∀ j ∈ τ.stack, j.queued s = false) ∧ (i.queued s = true → τ.stack = []) ∧
      ∀ d, .life (.dispatch d) ∉ τ.queue := by
  obtain ⟨-, ⟨-, hst, hq⟩ | ⟨-, hst, hq⟩⟩ := next_pending hn
  · rw [← hq]
    rcases h.stack with hs | ⟨d, hs⟩
    · rw [hst] at hs
      refine ⟨fun j hj => hs j (List.mem_cons_of_mem _ hj), fun hi => ?_, h.queue⟩
      rw [hs i List.mem_cons_self] at hi
      cases hi
    · obtain ⟨-, hτ⟩ := List.cons.inj (hst.symm.trans hs)
      exact ⟨by simp [hτ], fun _ => hτ, h.queue⟩
  · refine ⟨by simp [hst], fun _ => hst, fun d hd => h.queue d ?_⟩
    rw [hq]
    exact List.mem_cons_of_mem _ hd

/-- What an executed instruction leaves: the queue with its posts, what it did to `s`, and the
    stack without anything that belongs into the queue, but for a packet it brought to its
    dispatch. -/
structure Executed (P : Platform) (s : SocketId) (i : Instr) (σ τ σ' : State) : Prop where
  queue : σ'.queue = τ.queue ++ (exec P i σ.core).post
  still : Still s (exec P i σ.core).core σ'.core
  stack : (∃ d, i = .ctl (.deliverServer d) ∧ d.socket = s ∧
      (σ.core.life.sockets s).deliveryActive = true ∧ σ'.stack = [.life (.dispatch d)]) ∨
    ((σ.core.life.sockets s).deliveryActive = true → ∀ d, i = .ctl (.deliverServer d) →
      d.socket ≠ s) ∧ ∀ j ∈ σ'.stack, j.queued s = false

theorem Calm.execute {σ τ : State} {i : Instr} (h : Calm s σ)
    (hn : (runtime P).next σ = some (i, τ)) : Executed P s i σ τ ((runtime P).execute i τ) := by
  obtain ⟨hτ, hi, -⟩ := h.next hn
  have hc := (next_pending hn).1
  have hpush := exec_push_queued (P := P) (s := s) i σ.core
  unfold Machine.execute
  dsimp only
  rw [← hc]
  have hfail : ∀ d, i = .ctl (.deliverServer d) → (exec P i σ.core).fails = false :=
    fun d hd => by rw [hd]; rfl
  split
  · rename_i hf
    obtain ⟨hstill, hst⟩ := unwind_still (P := P) τ.stack (exec P i σ.core).core hτ
    refine ⟨rfl, hstill, Or.inr ⟨fun _ d hd => ?_, hst⟩⟩
    have hf' : (exec P i σ.core).fails = true := hf
    rw [hfail d hd] at hf'
    cases hf'
  · refine ⟨rfl, .refl _ _, ?_⟩
    dsimp only
    rcases hpush with ⟨d, rfl, hd, hp⟩ | ⟨hd, hp⟩
    · have hp' : ((runtime P).exec (.ctl (.deliverServer d)) σ.core).push ++ τ.stack =
          if (σ.core.life.sockets s).deliveryActive then [.life (.dispatch d)] else [] := by
        rw [hi (decide_eq_true hd), List.append_nil]
        exact hp
      rw [hp']
      cases hact : (σ.core.life.sockets s).deliveryActive with
      | true => exact Or.inl ⟨d, rfl, hd, rfl, rfl⟩
      | false => exact Or.inr ⟨nofun, nofun⟩
    · exact Or.inr ⟨fun _ => hd, fun j hj => (List.mem_append.mp hj).elim (hp j) (hτ j)⟩

/-- What a call, a return or an exception of the application leaves. -/
structure Undisturbed (s : SocketId) (σ σ' : State) : Prop where
  queue : σ'.queue = σ.queue
  still : Still s σ.core σ'.core
  before : ∀ j ∈ σ.stack, j.queued s = false
  after : ∀ j ∈ σ'.stack, j.queued s = false

theorem callable_unqueued {σ : Core} {i : Instr} (h : callable σ i = true) :
    i.queued s = false := by
  unfold Instr.queued
  split <;> first | rfl | cases h

theorem Calm.inApp {σ : State} (h : Calm s σ) (ha : (runtime P).inApp σ = true) :
    ∀ j ∈ σ.stack, j.queued s = false := by
  rcases h.stack with hst | ⟨d, hst⟩
  · exact hst
  · simp [Machine.inApp, hst, runtime, isApp] at ha

/-- **A step, as the packets for `s` see it.** -/
theorem Calm.step {σ σ' : State} {a : Action Instr} (h : Calm s σ)
    (hs : (runtime P).step σ a = some σ') : Calm s σ' ∧
      ((∃ i τ, a = .run ∧ (runtime P).next σ = some (i, τ) ∧ Executed P s i σ τ σ') ∨
        a ≠ .run ∧ Undisturbed s σ σ') := by
  rcases step_cases hs with ⟨i, τ, rfl, hn, rfl⟩ | ⟨i, rfl, ha, hcall, rfl⟩ |
    ⟨i, k, rfl, hst, ha, rfl⟩ | ⟨i, k, rfl, hst, ha, rfl⟩
  · have hE := h.execute hn
    refine ⟨⟨?_, fun d hd => ?_⟩, Or.inl ⟨i, τ, rfl, hn, hE⟩⟩
    · rcases hE.stack with ⟨d, -, -, -, hst⟩ | ⟨-, hst⟩
      · exact Or.inr ⟨d, hst⟩
      · exact Or.inl hst
    · rw [hE.queue] at hd
      exact (List.mem_append.mp hd).elim ((h.next hn).2.2 d) exec_post_dispatch
  · have hst := h.inApp ha
    have hst' : ∀ j ∈ i :: σ.stack, j.queued s = false :=
      List.forall_mem_cons.mpr ⟨callable_unqueued hcall, hst⟩
    exact ⟨⟨Or.inl hst', h.queue⟩, Or.inr ⟨nofun, rfl, .refl _ _, hst, hst'⟩⟩
  · have hst' := h.inApp (P := P) (by simpa [Machine.inApp, hst] using ha)
    have hk : ∀ j ∈ k, j.queued s = false :=
      fun j hj => hst' j (hst ▸ List.mem_cons_of_mem _ hj)
    exact ⟨⟨Or.inl hk, h.queue⟩, Or.inr ⟨nofun, rfl, .refl _ _, hst', hk⟩⟩
  · have hst' := h.inApp (P := P) (by simpa [Machine.inApp, hst] using ha)
    have hk : ∀ j ∈ k, j.queued s = false :=
      fun j hj => hst' j (hst ▸ List.mem_cons_of_mem _ hj)
    obtain ⟨hstill, hu⟩ := unwind_still (P := P) k σ.core hk
    exact ⟨⟨Or.inl hu, h.queue⟩, Or.inr ⟨nofun, rfl, hstill, hst', hu⟩⟩

/-- While the delivery is on, what an instruction takes from the waiting packets it dispatches. -/
theorem Executed.balance {i : Instr} {σ τ σ' : State} (h : Executed P s i σ τ σ')
    (hτ : ∀ j ∈ τ.stack, j.queued s = false) (ha : (σ.core.life.sockets s).deliveryActive = true) :
    dispatchedOn s σ'.core.log ++ waitingFor s σ'.stack =
      dispatchedOn s σ.core.log ++ waitingFor s (i :: τ.stack) := by
  have hold : waitingFor s (i :: τ.stack) = (i.packetFor s).toList := by
    have := waitingFor_unqueued hτ
    unfold waitingFor at this ⊢
    rw [List.filterMap_cons, this]
    cases i.packetFor s <;> rfl
  rw [hold, h.still.log, exec_dispatchedOn, List.append_assoc]
  congr 1
  rcases h.stack with ⟨d, rfl, hd, -, hst⟩ | ⟨hdel, hst⟩
  · rw [hst]
    simp [waitingFor, Instr.packetFor, Instr.dispatches, hd]
  · rw [waitingFor_unqueued hst, List.append_nil]
    cases hp : i.packetFor s with
    | none =>
        unfold Instr.dispatches
        split
        · simp only [Instr.packetFor] at hp
          split at hp
          · cases hp
          · rw [if_neg ‹_›]
            rfl
        · rfl
    | some d =>
        obtain ⟨rfl | rfl, hds⟩ := packetFor_eq_some hp
        · exact absurd hds (hdel ha d rfl)
        · simp [Instr.dispatches, hds]

/-- With the delivery off, nothing is dispatched but what is already about to be. -/
theorem Executed.silent {i : Instr} {σ τ σ' : State} (h : Executed P s i σ τ σ')
    (hi : ∀ d, i = .life (.dispatch d) → d.socket ≠ s) :
    dispatchedOn s σ'.core.log = dispatchedOn s σ.core.log := by
  rw [h.still.log, exec_dispatchedOn]
  have hno : i.dispatches s = [] := by
    unfold Instr.dispatches
    split
    · exact if_neg (hi _ rfl)
    · rfl
  rw [hno, List.append_nil]

/-! ## 4. The order of a teardown -/

/-- **A socket's lifecycle ends under its `teardownPromise`.** -/
theorem teardown_inductive (s : SocketId) : Inductive (runtime P) (fun _ _ => True)
    (fun σ => .disconnecting s ∈ σ.log → (σ.life.sockets s).teardownPromise ≠ .none)
    (fun σ i => ∀ r d, i = .life (.teardownTask s r d) →
      (σ.life.sockets s).teardownPromise ≠ .none) fun _ => (none : Option Unit) := by
  have hkeep : ∀ {σ : Core} {i : Instr}, (σ.life.sockets s).teardownPromise ≠ .none →
      ((exec P i σ).core.life.sockets s).teardownPromise ≠ .none := fun h h' => h (exec_promise h')
  refine .of_facts ?_ ?_ (fun σ i j _ hj r d he => hkeep (hj r d he)) ?_ ?_ fun _ _ _ => trivial
  · intro σ i h hlog
    obtain ⟨es, hes, hr⟩ := exec_log P i σ
    have hlog' : .disconnecting s ∈ es ++ σ.log := hes ▸ hlog
    rcases List.mem_append.mp hlog' with he | he
    · have hrec := hr _ he
      unfold Instr.Records at hrec
      split at hrec <;> simp only [Event.disconnecting.injEq, reduceCtorEq, exists_false, or_self]
        at hrec
      · subst hrec
        exact hkeep (h.ok _ _ rfl)
      · subst hrec
        show ((disconnectNamespaceFromServer σ s).part.sockets s).teardownPromise ≠ .none
        unfold disconnectNamespaceFromServer
        split
        · assumption
        · simp [Life.setSocket]
    · exact hkeep (h.inv he)
  · rintro σ i - j hj r d rfl
    obtain ⟨d', rfl⟩ : ∃ d', i = .life (.teardown s r d') := spawnedBy hj
    show ((teardown σ s r d').part.sockets s).teardownPromise ≠ .none
    unfold teardown
    dsimp only
    split
    · assumption
    · simp [Life.setSocket]
  · rintro σ i - hc r d rfl
    cases hc
  · intro σ i is _ _ his j hj r d he
    rcases onThrow_handle his with rfl | ⟨a, err, rfl, -⟩
    · cases hj
    · rw [List.mem_singleton.mp hj] at he
      cases he

/-! ## 5. Before the client leaves -/

def Instr.cleansUp (s : SocketId) : Instr → Bool
  | .life (.cleanupConnectionAttempt t) => decide (t = s)
  | _ => false

/-- No repeated completion of connection middleware cleans the socket up. -/
def Uncleaned (P : Platform) (s : SocketId) : State → Action Instr → Prop :=
  (runtime P).Obeys fun _ i => i.cleansUp s = false

instance (s : SocketId) (σ : State) (a : Action Instr) : Decidable (Uncleaned P s σ a) :=
  inferInstanceAs (Decidable ((runtime P).Obeys _ σ a))

/-- Until a teardown begins, what was sent was dispatched or waits. -/
structure Feeding (P : Platform) (s : SocketId) (tr : List (Core × Instr)) (σ : State) : Prop where
  active : (σ.core.life.sockets s).deliveryActive = true
  sent : sentTo P s tr = dispatchedOn s σ.core.log ++ waitingFor s σ.pending

theorem pending_eq {σ τ : State} {i : Instr} (hn : (runtime P).next σ = some (i, τ)) :
    σ.pending = i :: τ.stack ++ τ.queue := by
  obtain ⟨-, ⟨-, hst, hq⟩ | ⟨hst, hst', hq⟩⟩ := next_pending hn
  · rw [Config.pending, hst, hq]
  · rw [Config.pending, hst, hst', hq]
    rfl

theorem taken_run {σ τ : State} {i : Instr} (hn : (runtime P).next σ = some (i, τ)) :
    (runtime P).taken σ .run = [(σ.core, i)] := by
  simp [Machine.taken, hn]

theorem taken_other {σ : State} {a : Action Instr} (ha : a ≠ .run) :
    (runtime P).taken σ a = [] := by
  cases a with
  | run => exact absurd rfl ha
  | _ => rfl

theorem Undisturbed.waiting {σ σ' : State} (h : Undisturbed s σ σ') :
    waitingFor s σ'.pending = waitingFor s σ.pending := by
  rw [Config.pending, Config.pending, waitingFor_append, waitingFor_append, h.queue,
    waitingFor_unqueued h.before, waitingFor_unqueued h.after]

/-- Nothing but the four of `silences` switches a delivery off, and only the deferred part of a
    teardown does it once the teardown has begun. -/
theorem exec_active {i : Instr} {σ : Core} (hclean : i.cleansUp s = false)
    (htask : ∀ r d, i ≠ .life (.teardownTask s r d))
    (h : ((exec P i σ).core.life.sockets s).teardownPromise = .none ∨
      (σ.life.sockets s).teardownPromise ≠ .none) :
    ((exec P i σ).core.life.sockets s).deliveryActive = (σ.life.sockets s).deliveryActive := by
  cases hi : i.silences s with
  | false => exact (exec_kept hi).deliveryActive
  | true =>
      unfold Instr.silences at hi
      split at hi
      · obtain rfl := of_decide_eq_true hi
        simp only [exec, execLife, teardown] at h ⊢
        split
        · rfl
        · rename_i hnone
          rw [if_neg hnone] at h
          rcases h with h | h
          · simp [Life.setSocket] at h
          · exact absurd h hnone
      · obtain rfl := of_decide_eq_true hi
        exact absurd rfl (htask _ _)
      · obtain rfl := of_decide_eq_true hi
        simp only [exec, execLife, disconnectNamespaceFromServer] at h ⊢
        split
        · rfl
        · rename_i hnone
          rw [if_neg hnone] at h
          rcases h with h | h
          · simp [Life.setSocket] at h
          · exact absurd h hnone
      · simp [Instr.cleansUp, of_decide_eq_true hi] at hclean
      · cases hi

theorem Uncleaned.run {σ τ : State} {i : Instr} (h : Uncleaned P s σ .run)
    (hn : (runtime P).next σ = some (i, τ)) : i.cleansUp s = false := h rfl i τ hn

/-- One step of the phase. -/
theorem Feeding.step {tr : List (Core × Instr)} {σ σ' : State} {a : Action Instr}
    (h : (σ.core.life.sockets s).teardownPromise = .none → Feeding P s tr σ) (hcalm : Calm s σ)
    (htask : (σ.core.life.sockets s).teardownPromise = .none →
      ∀ r d, .life (.teardownTask s r d) ∉ σ.pending)
    (hc : Uncleaned P s σ a) (hs : (runtime P).step σ a = some σ')
    (hnone : (σ'.core.life.sockets s).teardownPromise = .none) :
    Feeding P s (tr ++ (runtime P).taken σ a) σ' := by
  rcases (hcalm.step hs).2 with ⟨i, τ, rfl, hn, hE⟩ | ⟨ha, hU⟩
  · have hmid := hE.still.life.teardownPromise hnone
    have hold := exec_promise hmid
    have hF := h hold
    have hi : i ∈ σ.pending := by
      rw [pending_eq hn]
      exact List.mem_cons_self
    have hact : ((exec P i σ.core).core.life.sockets s).deliveryActive = true :=
      (exec_active (hc.run hn) (fun r d he => htask hold r d (he ▸ hi)) (Or.inl hmid)).trans
        hF.active
    refine ⟨hE.still.life.deliveryActive.trans hact, ?_⟩
    have hb := hE.balance (hcalm.next hn).1 hF.active
    have hF' := hF.sent
    rw [pending_eq hn, waitingFor_append, ← List.append_assoc, ← hb] at hF'
    rw [taken_run hn, sentTo, List.flatMap_append, ← sentTo, hF', Config.pending, hE.queue]
    simp [waitingFor_append]
  · have hF := h (hU.still.life.teardownPromise hnone)
    refine ⟨hU.still.life.deliveryActive.trans hF.active, ?_⟩
    rw [taken_other ha, List.append_nil, hU.still.log, hU.waiting]
    exact hF.sent

/-- The heap and the pending instructions, as `teardown_inductive` knows them. -/
theorem teardown_known {C : State → Action Instr → Prop} {σ : State}
    (h : (runtime P).Reach C newServer σ)
    (hnone : (σ.core.life.sockets s).teardownPromise = .none) :
    .disconnecting s ∉ σ.core.log ∧ ∀ r d, .life (.teardownTask s r d) ∉ σ.pending := by
  have hk := h.inv_ok (teardown_inductive s) (fun _ _ _ _ _ _ _ => trivial)
    ⟨fun hl => (by cases hl), fun _ hj => (by cases hj), .nil⟩
  exact ⟨fun hl => hk.inv hl hnone, fun r d hj => hk.ok _ hj r d rfl hnone⟩

/-- The run of the phase. -/
theorem Feeding.run {tr : List (Core × Instr)} {σ : State}
    (h : (runtime P).Run (Uncleaned P s) newServer tr σ) :
    Calm s σ ∧ ((σ.core.life.sockets s).teardownPromise = .none → Feeding P s tr σ) := by
  induction h with
  | start => exact ⟨⟨Or.inl nofun, nofun⟩, fun _ => ⟨rfl, rfl⟩⟩
  | step hr hc hs ih =>
      exact ⟨(ih.1.step hs).1, Feeding.step ih.2 ih.1
        (fun hnone => (teardown_known hr.reach hnone).2) hc hs⟩

/-! ## 6. After the client has left -/

/-- The deferred teardown waits behind the packets that were sent. -/
structure Draining (s : SocketId) (sent : List ServerDelivery) (σ : State) : Prop where
  active : (σ.core.life.sockets s).deliveryActive = true
  promise : (σ.core.life.sockets s).teardownPromise ≠ .none
  quiet : .disconnecting s ∉ σ.core.log
  waits : ∃ r A B, σ.queue = A ++ .life (.teardownTask s r true) :: B ∧
    (∀ r d, .life (.teardownTask s r d) ∉ A) ∧
    sent = dispatchedOn s σ.core.log ++ waitingFor s (σ.stack ++ A)

/-- The delivery is off: `past` is all that is ever dispatched. -/
structure Silent (s : SocketId) (past : List ServerDelivery) (σ : State) : Prop where
  active : (σ.core.life.sockets s).deliveryActive = false
  stack : ∀ d, .life (.dispatch d) ∈ σ.stack → d.socket ≠ s
  fixed : dispatchedOn s σ.core.log = past
  leaves : ∀ log, .disconnecting s :: log <:+ σ.core.log → dispatchedOn s log = past
  ends : .disconnecting s ∈ σ.core.log ∨ ∃ r d, .life (.teardownTask s r d) ∈ σ.queue

/-- A delivery that is off stays off. -/
theorem exec_inactive {i : Instr} {σ : Core} (h : (σ.life.sockets s).deliveryActive = false) :
    ((exec P i σ).core.life.sockets s).deliveryActive = false := by
  have hset : ∀ {t : SocketId} {g : Lifecycle → Lifecycle},
      (∀ x : Lifecycle, x.deliveryActive = false → (g x).deliveryActive = false) →
      ((σ.life.setSocket t g).sockets s).deliveryActive = false := by
    intro t g hg
    simp only [Life.setSocket, modify_apply]
    split
    · rename_i hs
      exact hg _ (hs ▸ h)
    · exact h
  cases hi : i.silences s with
  | false => exact (exec_kept hi).deliveryActive.trans h
  | true =>
      unfold Instr.silences at hi
      split at hi
      · simp only [exec, execLife, teardown]
        split
        · exact h
        · refine hset fun x hx => ?_
          dsimp only
          split
          · exact hx
          · rfl
      · exact hset fun _ _ => rfl
      · simp only [exec, execLife, disconnectNamespaceFromServer]
        split
        · exact h
        · exact hset fun _ _ => rfl
      · exact hset fun _ _ => rfl
      · cases hi

/-- What a log holds of packets between two logs that hold the same. -/
theorem dispatchedOn_between {log mid log' : List Event} (h : log <:+ mid) (h' : mid <:+ log')
    (heq : dispatchedOn s log' = dispatchedOn s log) : dispatchedOn s mid = dispatchedOn s log := by
  obtain ⟨es, rfl⟩ := h
  obtain ⟨es', rfl⟩ := h'
  rw [dispatchedOn_append, dispatchedOn_append, List.append_assoc] at heq
  have hnil := (List.append_eq_nil_iff.mp (List.append_right_eq_self.mp heq)).1
  rw [dispatchedOn_append, hnil, List.append_nil]

theorem suffix_cases {e : Event} {mid es log : List Event} (h : e :: mid <:+ es ++ log) :
    e :: mid <:+ log ∨ log <:+ mid := by
  rcases List.suffix_or_suffix_of_suffix h (List.suffix_append es log) with h' | h'
  · exact Or.inl h'
  · rcases List.suffix_cons_iff.mp h' with h' | h'
    · exact Or.inl (h' ▸ List.suffix_rfl)
    · exact Or.inr h'

theorem Silent.step {past : List ServerDelivery} {σ σ' : State} {a : Action Instr}
    (h : Silent s past σ) (hcalm : Calm s σ) (hs : (runtime P).step σ a = some σ') :
    Silent s past σ' := by
  obtain ⟨hcalm', ⟨i, τ, rfl, hn, hE⟩ | ⟨-, hU⟩⟩ := hcalm.step hs
  · obtain ⟨es, hes, -⟩ := exec_log P i σ.core
    have hlog : σ'.core.log = es ++ σ.core.log := hE.still.log.trans hes
    have hi : ∀ d, i = .life (.dispatch d) → d.socket ≠ s := by
      rintro d rfl
      obtain ⟨-, ⟨-, hst, -⟩ | ⟨-, -, hq⟩⟩ := next_pending hn
      · exact h.stack d (hst ▸ List.mem_cons_self)
      · exact absurd (hq ▸ List.mem_cons_self) (hcalm.queue d)
    have hfix : dispatchedOn s σ'.core.log = past := (hE.silent hi).trans h.fixed
    refine ⟨hE.still.life.deliveryActive.trans (exec_inactive h.active), fun d hd => ?_, hfix,
      fun log hlog' => ?_, ?_⟩
    · rcases hE.stack with ⟨d', -, -, hact, -⟩ | ⟨-, hst⟩
      · rw [h.active] at hact
        cases hact
      · exact of_decide_eq_false (hst _ hd)
    · rcases suffix_cases (hlog ▸ hlog') with hl | hl
      · exact h.leaves log hl
      · rw [dispatchedOn_between hl ((List.suffix_cons _ _).trans hlog') (hfix.trans h.fixed.symm)]
        exact h.fixed
    · rcases h.ends with hd | ⟨r, d, hd⟩
      · exact Or.inl (hlog ▸ List.mem_append_right _ hd)
      · obtain ⟨-, ⟨-, -, hq⟩ | ⟨-, -, hq⟩⟩ := next_pending hn
        · exact Or.inr ⟨r, d, by rw [hE.queue, ← hq]; exact List.mem_append_left _ hd⟩
        · rw [hq] at hd
          rcases List.mem_cons.mp hd with rfl | hd
          · refine Or.inl ?_
            rw [hE.still.log]
            exact List.mem_cons_self
          · exact Or.inr ⟨r, d, by rw [hE.queue]; exact List.mem_append_left _ hd⟩
  · refine ⟨hU.still.life.deliveryActive.trans h.active, fun d hd => of_decide_eq_false
      (hU.after _ hd), ?_, ?_, ?_⟩
    · rw [hU.still.log]
      exact h.fixed
    · rw [hU.still.log]
      exact h.leaves
    · rw [hU.still.log, hU.queue]
      exact h.ends

/-- `disconnecting` is recorded by the two ways to tear a socket down. -/
theorem exec_quiet {i : Instr} {σ : Core} (h : .disconnecting s ∉ σ.log)
    (hp : (σ.life.sockets s).teardownPromise ≠ .none)
    (hi : ∀ r d, i ≠ .life (.teardownTask s r d)) :
    .disconnecting s ∉ (exec P i σ).core.log := by
  intro hlog
  obtain ⟨es, hes, hr⟩ := exec_log P i σ
  rw [hes] at hlog
  refine (List.mem_append.mp hlog).elim (fun he => ?_) h
  have hrec := hr _ he
  unfold Instr.Records at hrec
  split at hrec <;> simp only [Event.disconnecting.injEq, reduceCtorEq, exists_false, or_self]
    at hrec
  · exact hi _ _ (by rw [hrec])
  · subst hrec
    have hlog : (exec P (.life (.disconnectNamespaceFromServer s)) σ).core.log = σ.log := by
      simp only [exec, execLife, disconnectNamespaceFromServer]
      rw [if_pos hp]
      rfl
    rw [hes] at hlog
    exact h (hlog ▸ List.mem_append_left _ he)

theorem Draining.step {sent : List ServerDelivery} {σ σ' : State} {a : Action Instr}
    (h : Draining s sent σ) (hcalm : Calm s σ) (hc : Uncleaned P s σ a)
    (hs : (runtime P).step σ a = some σ') : Draining s sent σ' ∨ Silent s sent σ' := by
  obtain ⟨r, A, B, hq, hA, hsent⟩ := h.waits
  obtain ⟨-, ⟨i, τ, rfl, hn, hE⟩ | ⟨-, hU⟩⟩ := hcalm.step hs
  · have hτ := hcalm.next hn
    -- an instruction that is not the deferred teardown leaves it waiting
    have hnext : (∀ r d, i ≠ .life (.teardownTask s r d)) →
        (∃ A', τ.queue = A' ++ .life (.teardownTask s r true) :: B ∧
          (∀ r d, .life (.teardownTask s r d) ∉ A') ∧
          waitingFor s (σ.stack ++ A) = waitingFor s (i :: τ.stack ++ A')) → Draining s sent σ' := by
      rintro hi ⟨A', hq', hA', hw⟩
      refine ⟨(hE.still.life.deliveryActive.trans
          (exec_active (hc.run hn) hi (Or.inr h.promise))).trans h.active,
        fun hp => h.promise (exec_promise (hE.still.life.teardownPromise hp)), ?_,
        r, A', B ++ (exec P i σ.core).post, ?_, hA', ?_⟩
      · rw [hE.still.log]
        exact exec_quiet h.quiet h.promise hi
      · rw [hE.queue, hq', List.append_assoc, List.cons_append]
      · rw [hsent, hw, waitingFor_append, waitingFor_append, ← List.append_assoc,
          ← List.append_assoc, hE.balance hτ.1 h.active]
    obtain ⟨-, ⟨-, hst, hq'⟩ | ⟨hst, hst', hq'⟩⟩ := next_pending hn
    · refine Or.inl (hnext (fun r d hi => ?_) ⟨A, hq' ▸ hq, hA, by rw [hst]⟩)
      rcases hcalm.stack with hst' | ⟨d', hst'⟩
      · have := hst' i (hst ▸ List.mem_cons_self)
        simp [hi, Instr.queued] at this
      · rw [hst, hi] at hst'
        cases hst'
    · cases A with
      | nil =>
          obtain ⟨rfl, -⟩ := List.cons.inj (hq'.symm.trans hq)
          have hsent' : sent = dispatchedOn s σ.core.log := by
            rw [hsent, hst]
            exact List.append_nil _
          have hlog : σ'.core.log = .disconnecting s :: σ.core.log := hE.still.log
          have hfix : dispatchedOn s σ'.core.log = sent :=
            (hE.silent nofun).trans hsent'.symm
          refine Or.inr ⟨hE.still.life.deliveryActive.trans ?_, fun d hd => ?_, hfix,
            fun log hl => ?_, Or.inl (hlog ▸ List.mem_cons_self)⟩
          · simp [exec, execLife, teardownTask, Life.setSocket, Lifecycle.enterDispatch,
              Lifecycle.invalidateAcknowledgements, Lifecycle.invalidateDelivery]
          · rcases hE.stack with ⟨d', hi, -⟩ | ⟨-, hst⟩
            · cases hi
            · exact of_decide_eq_false (hst _ hd)
          · rw [hlog] at hl
            rcases List.suffix_cons_iff.mp hl with hl | hl
            · rw [(List.cons.inj hl).2]
              exact hsent'.symm
            · exact absurd (hl.subset List.mem_cons_self) h.quiet
      | cons i' A =>
          obtain ⟨rfl, hA'⟩ := List.cons.inj (hq'.symm.trans hq)
          refine Or.inl (hnext (fun r d hi => hA r d (hi ▸ List.mem_cons_self))
            ⟨A, hA', fun r d hj => hA r d (List.mem_cons_of_mem _ hj), ?_⟩)
          rw [hst, hst']
          rfl
  · refine Or.inl ⟨hU.still.life.deliveryActive.trans h.active,
      fun hp => h.promise (hU.still.life.teardownPromise hp), ?_, r, A, B, hU.queue.trans hq, hA, ?_⟩
    · rw [hU.still.log]
      exact h.quiet
    · rw [hsent, hU.still.log, waitingFor_append, waitingFor_append, waitingFor_unqueued hU.before,
        waitingFor_unqueued hU.after]

/-- `handleDisconnect` is about to tear `s` down; the packets `now` have been dispatched. -/
structure Poised (s : SocketId) (depth : Nat) (now sent : List ServerDelivery) (σ : State) :
    Prop where
  top : ∃ r k, σ.stack = .life (.teardown s r true) :: k ∧ ∀ j ∈ k, j.queued s = false
  promise : (σ.core.life.sockets s).teardownPromise = .none
  depth : (σ.core.life.sockets s).dispatchDepth = depth
  active : (σ.core.life.sockets s).deliveryActive = true
  quiet : .disconnecting s ∉ σ.core.log
  first : ∀ r d, .life (.teardownTask s r d) ∉ σ.queue
  dispatched : dispatchedOn s σ.core.log = now
  waits : sent = now ++ waitingFor s σ.queue

/-- **The gate of `teardown`**: inside a dispatch the packets drain, outside they are dropped. -/
theorem Poised.step {depth : Nat} {now sent : List ServerDelivery} {σ σ' : State}
    {a : Action Instr} (h : Poised s depth now sent σ) (hs : (runtime P).step σ a = some σ') :
    (0 < depth ∧ Draining s sent σ') ∨ (depth = 0 ∧ Silent s now σ') := by
  obtain ⟨r, k, hst, hk⟩ := h.top
  have happ : (runtime P).inApp σ = false := by
    simp [Machine.inApp, hst, runtime, isApp]
  rcases step_cases hs with ⟨i, τ, -, hn, rfl⟩ | ⟨i, -, ha, -⟩ | ⟨i, k', -, hst', ha, -⟩ |
    ⟨i, k', -, hst', ha, -⟩
  · obtain ⟨hcore, ⟨-, hst', hq⟩ | ⟨hst', -⟩⟩ := next_pending hn
    · obtain ⟨rfl, rfl⟩ := List.cons.inj (hst.symm.trans hst')
      have hp := h.promise
      have hd := h.depth
      rw [hcore] at hp hd
      by_cases hpos : 0 < depth
      · refine Or.inl ⟨hpos, ?_⟩
        have hexec : (runtime P).exec (.life (.teardown s r true)) τ.core =
            { core := { τ.core with life := τ.core.life.setSocket s fun x =>
                          { x with teardownPromise := .pending } }
              post := [.life (.teardownTask s r true)] } := by
          simp [runtime, exec, execLife, teardown, hp, hd, hpos]
        refine ⟨?_, ?_, ?_, r, σ.queue, [], ?_, h.first, ?_⟩ <;>
          simp only [Machine.execute, hexec, Bool.false_eq_true, if_false]
        · simpa [Life.setSocket, ← hcore] using h.active
        · simp [Life.setSocket]
        · exact hcore ▸ h.quiet
        · rw [hq]
        · rw [List.nil_append, waitingFor_append, waitingFor_unqueued hk, ← hcore, h.dispatched]
          exact h.waits
      · obtain rfl : depth = 0 := Nat.eq_zero_of_not_pos hpos
        refine Or.inr ⟨rfl, ?_⟩
        have hexec : (runtime P).exec (.life (.teardown s r true)) τ.core =
            { core := { τ.core with life := τ.core.life.setSocket s fun x =>
                          { x.invalidateDelivery false with
                            clientAck := false, teardownPromise := .pending } }
              post := [.life (.teardownTask s r false)] } := by
          simp [runtime, exec, execLife, teardown, hp, hd]
        refine ⟨?_, fun d hd => ?_, ?_, fun log hl => ?_, Or.inr ⟨r, false, ?_⟩⟩ <;>
          simp only [Machine.execute, hexec, Bool.false_eq_true, if_false, List.nil_append] at *
        · simp [Life.setSocket, Lifecycle.invalidateDelivery]
        · exact of_decide_eq_false (hk _ hd)
        · exact hcore ▸ h.dispatched
        · exact absurd (hcore ▸ hl.subset List.mem_cons_self) h.quiet
        · exact List.mem_append_right _ List.mem_cons_self
    · rw [hst] at hst'
      cases hst'
  · rw [happ] at ha
    cases ha
  · rw [hst] at hst'
    obtain ⟨rfl, -⟩ := List.cons.inj hst'
    cases ha
  · rw [hst] at hst'
    obtain ⟨rfl, -⟩ := List.cons.inj hst'
    cases ha

/-- The three phases after `handleDisconnect`. -/
def Departing (s : SocketId) (depth : Nat) (now sent : List ServerDelivery) (σ : State) : Prop :=
  Poised s depth now sent σ ∨ (0 < depth ∧ Draining s sent σ) ∨
    Silent s (if 0 < depth then sent else now) σ

theorem Departing.step {depth : Nat} {now sent : List ServerDelivery} {σ σ' : State}
    {a : Action Instr} (h : Departing s depth now sent σ) (hcalm : Calm s σ)
    (hc : Uncleaned P s σ a) (hs : (runtime P).step σ a = some σ') :
    Departing s depth now sent σ' := by
  rcases h with h | ⟨hpos, h⟩ | h
  · rcases h.step hs with h' | ⟨hz, h'⟩
    · exact Or.inr (Or.inl h')
    · exact Or.inr (Or.inr (by rw [if_neg (by omega)]; exact h'))
  · rcases h.step hcalm hc hs with h' | h'
    · exact Or.inr (Or.inl ⟨hpos, h'⟩)
    · exact Or.inr (Or.inr (by rw [if_pos hpos]; exact h'))
  · exact Or.inr (Or.inr (h.step hcalm hs))

theorem Departing.run {depth : Nat} {now sent : List ServerDelivery} {σ₀ σ : State}
    (h₀ : Departing s depth now sent σ₀) (hcalm : Calm s σ₀)
    (h : (runtime P).Reach (Uncleaned P s) σ₀ σ) : Calm s σ ∧ Departing s depth now sent σ := by
  induction h with
  | start => exact ⟨hcalm, h₀⟩
  | step _ hc hs ih => exact ⟨(ih.1.step hs).1, ih.2.step ih.1 hc hs⟩

/-- The call `this.serverSocket.handleDisconnect()`. -/
theorem Feeding.departs {tr : List (Core × Instr)} {σ τ σ' : State} {c : ClientId}
    (hr : (runtime P).Run (Uncleaned P s) newServer tr σ)
    (hn : (runtime P).next σ = some (.ctl (.handleDisconnect c), τ))
    (hs : (runtime P).step σ .run = some σ')
    (hsocket : (σ.core.conn.clients c).serverSocket = some s)
    (hnone : (σ.core.life.sockets s).teardownPromise = .none) :
    Poised s (σ.core.life.sockets s).dispatchDepth (dispatchedOn s σ.core.log) (sentTo P s tr)
      σ' := by
  obtain ⟨hcalm, hF⟩ := Feeding.run hr
  obtain ⟨hquiet, htask⟩ := teardown_known hr.reach hnone
  have hτ := hcalm.next hn
  have hpend := pending_eq hn
  have hexec : (runtime P).exec (.ctl (.handleDisconnect c)) σ.core =
      { core := σ.core
        push := [.life (.teardown s "client namespace disconnect" true)] } := by
    simp [runtime, exec, execCtl, handleDisconnect, hsocket]
  obtain rfl : (runtime P).execute (.ctl (.handleDisconnect c)) τ = σ' := by
    simpa [Machine.step, hn] using hs
  have hcore := (next_pending hn).1
  rw [hcore] at hexec
  simp only [Machine.execute, hexec, Bool.false_eq_true, if_false, List.append_nil,
    List.cons_append, List.nil_append]
  refine ⟨⟨_, _, rfl, hτ.1⟩, hcore ▸ hnone, hcore ▸ rfl, hcore ▸ (hF hnone).active, hcore ▸ hquiet,
    fun r d hj => htask r d ?_, hcore ▸ rfl, ?_⟩
  · rw [hpend]
    exact List.mem_append_right _ hj
  · rw [(hF hnone).sent, hpend, waitingFor_append]
    have hno : waitingFor s (.ctl (.handleDisconnect c) :: τ.stack) = [] := by
      refine waitingFor_unqueued fun j hj => ?_
      rcases List.mem_cons.mp hj with rfl | hj
      · rfl
      · exact hτ.1 j hj
    rw [hno]
    rfl

/-- **What a client sent before `client.disconnect()` is dispatched before `disconnecting`, in the
    order it was sent, if the call comes from a dispatch of the server socket; otherwise what still
    waits is dropped.** -/
theorem disconnect_drains {c : ClientId} {tr₁ tr₂ : List (Core × Instr)} {τ : Core} {σ : State}
    (h : (runtime P).Run (Uncleaned P s) newServer
      (tr₁ ++ (τ, .ctl (.handleDisconnect c)) :: tr₂) σ)
    (hsocket : (τ.conn.clients c).serverSocket = some s)
    (hnone : (τ.life.sockets s).teardownPromise = .none) :
    (0 < (τ.life.sockets s).dispatchDepth →
      (∀ past, .disconnecting s :: past <:+ σ.core.log → dispatchedOn s past = sentTo P s tr₁) ∧
        (σ.pending = [] → .disconnecting s ∈ σ.core.log)) ∧
    ((τ.life.sockets s).dispatchDepth = 0 →
      dispatchedOn s σ.core.log = dispatchedOn s τ.log) := by
  obtain ⟨σ₁, τ₁, σ₂, hr, -, hcore, hn, hs, hrest⟩ := h.split
  have hrest := hrest.reach
  dsimp only at hcore hn
  subst hcore
  have hP := Feeding.departs hr hn hs hsocket hnone
  have hcalm := ((Feeding.run hr).1.step hs).1
  rcases (Departing.run (Or.inl hP) hcalm hrest).2 with h' | ⟨hpos, h'⟩ | h'
  · obtain ⟨r, k, hst, -⟩ := h'.top
    refine ⟨fun _ => ⟨fun past hl => ?_, fun hnil => ?_⟩, fun _ => h'.dispatched⟩
    · exact absurd (hl.subset List.mem_cons_self) h'.quiet
    · simp [Config.pending, hst] at hnil
  · obtain ⟨r, A, B, hq, -⟩ := h'.waits
    refine ⟨fun _ => ⟨fun past hl => ?_, fun hnil => ?_⟩, fun hz => by omega⟩
    · exact absurd (hl.subset List.mem_cons_self) h'.quiet
    · simp [Config.pending, hq] at hnil
  · refine ⟨fun hpos => ⟨fun past hl => ?_, fun hnil => ?_⟩, fun hz => ?_⟩
    · rw [if_pos hpos] at h'
      exact h'.leaves past hl
    · rcases h'.ends with hl | ⟨r, d, hj⟩
      · exact hl
      · have : σ.queue = [] := (List.append_eq_nil_iff.mp hnil).2
        rw [this] at hj
        cases hj
    · rw [if_neg (by omega)] at h'
      exact h'.fixed

/-- A client connects, and packets `a` and `b` leave it: `b` and `disconnect` from the listener of
    `a` or, if `late`, both packets and `disconnect` outside every dispatch. -/
def leaving (late : Bool) : List (Action Instr) :=
  let emit (event : String) : List (Action Instr) :=
    [.call (.mail (.clientEmit 0 event .plain)), .ret]
  let disconnect : List (Action Instr) := [.call (.ctl (.clientDisconnect 0)), .ret]
  [.call (.srv (.serverConnect "/" false false)), .run, .run, .ret, .ret, .ret] ++ emit "a" ++
    (if late then emit "b" ++ disconnect ++ [.run]
      else [.run, .ret] ++ emit "b" ++ disconnect ++ [.ret]) ++
    [.run] ++ (if late then [] else [.ret, .ret]) ++ [.run, .ret, .ret]

def isDeparture (x : Core × Instr) : Bool :=
  match x.2 with
  | .ctl (.handleDisconnect 0) => true
  | _ => false

/-- The run of a script, cut at the client's departure. -/
theorem departure_of_script (as : List (Action Instr))
    (p : List (Core × Instr) → Core → State → Bool)
    (h : ((runtime unary).record (fun τ a => decide (Uncleaned unary 0 τ a)) 90 as []
      newServer).any (fun r => (r.1.dropWhile (!isDeparture ·)).head?.any fun x =>
        isDeparture x && p (r.1.takeWhile (!isDeparture ·)) x.1 r.2) = true) :
    ∃ tr₁ tr₂ τ σ, (runtime unary).Run (Uncleaned unary 0) newServer
      (tr₁ ++ (τ, .ctl (.handleDisconnect 0)) :: tr₂) σ ∧ p tr₁ τ σ = true := by
  obtain ⟨tr, σ, hr, hp⟩ := run_of_script (runtime unary) (Uncleaned unary 0) newServer 90 as _ h
  obtain ⟨⟨τ, i⟩, hx, hp⟩ := (Option.any_eq_true _ _).mp hp
  obtain ⟨tr₂, hd⟩ := List.head?_eq_some_iff.mp hx
  obtain ⟨hi, hp⟩ := Bool.and_eq_true_iff.mp hp
  obtain rfl : i = .ctl (.handleDisconnect 0) := by
    simp only [isDeparture] at hi
    split at hi
    · rfl
    · cases hi
  refine ⟨_, tr₂, τ, σ, ?_, hp⟩
  rw [← hd, List.takeWhile_append_dropWhile]
  exact hr

/-- **Outside every dispatch, `client.disconnect()` drops what the client has just sent.** -/
theorem disconnect_drops :
    ∃ tr₁ tr₂ τ σ, (runtime unary).Run (Uncleaned unary 0) newServer
        (tr₁ ++ (τ, .ctl (.handleDisconnect 0)) :: tr₂) σ ∧
      (τ.conn.clients 0).serverSocket = some 0 ∧ τ.life.packetMiddleware 0 = [] ∧
      (τ.life.sockets 0).teardownPromise = .none ∧ .disconnecting 0 ∈ σ.core.log ∧
      (sentTo unary 0 tr₁).map (·.event) = ["a", "b"] ∧ dispatchedOn 0 σ.core.log = [] := by
  obtain ⟨tr₁, tr₂, τ, σ, hr, hp⟩ := departure_of_script (leaving true) (fun tr₁ τ σ =>
    decide ((τ.conn.clients 0).serverSocket = some 0 ∧ τ.life.packetMiddleware 0 = [] ∧
      (τ.life.sockets 0).teardownPromise = .none ∧ .disconnecting 0 ∈ σ.core.log ∧
      (sentTo unary 0 tr₁).map (·.event) = ["a", "b"] ∧ dispatchedOn 0 σ.core.log = [])) (by decide)
  exact ⟨tr₁, tr₂, τ, σ, hr, of_decide_eq_true hp⟩

/-- From the listener of the first packet it lets the second one through. -/
theorem disconnect_drains_listener :
    ∃ tr₁ tr₂ τ σ, (runtime unary).Run (Uncleaned unary 0) newServer
        (tr₁ ++ (τ, .ctl (.handleDisconnect 0)) :: tr₂) σ ∧
      (sentTo unary 0 tr₁).map (·.event) = ["a", "b"] ∧ ∃ past,
        .disconnecting 0 :: past <:+ σ.core.log ∧ dispatchedOn 0 past = sentTo unary 0 tr₁ := by
  obtain ⟨tr₁, tr₂, τ, σ, hr, hp⟩ := departure_of_script (leaving false) (fun tr₁ τ σ =>
    decide ((τ.conn.clients 0).serverSocket = some 0 ∧
      (τ.life.sockets 0).teardownPromise = .none ∧ 0 < (τ.life.sockets 0).dispatchDepth ∧
      σ.pending.isEmpty ∧ (sentTo unary 0 tr₁).map (·.event) = ["a", "b"])) (by decide)
  obtain ⟨hc, ht, hdepth, hq, hs⟩ := of_decide_eq_true hp
  obtain ⟨hpast, hend⟩ := (disconnect_drains hr hc ht).1 hdepth
  obtain ⟨newer, past, hlog⟩ := List.append_of_mem (hend (List.isEmpty_iff.mp hq))
  have hsuffix : .disconnecting 0 :: past <:+ σ.core.log := ⟨newer, hlog.symm⟩
  exact ⟨tr₁, tr₂, τ, σ, hr, hs, past, hsuffix, hpast past hsuffix⟩

end Smocket
