import Smocket.Spawns

/-
  File:      Smocket/Namespaces.lean
  Subject:   EVERY NAMESPACE IN USE HAS BEEN CREATED: the table, the clients, the server sockets and
             the pending instructions name namespaces below the counter. So the namespace that is
             created next is untouched.

  * `homed_inductive` -- the namespaces in use stay created;
  * `reach_homed` -- in every run.
-/

namespace Smocket

open Ordered EventLoop EventLoop.Machine

variable {P : Platform}

/-! ## 1. The invariant -/

/-- The namespaces the connection part names. -/
structure Conn.Homed (κ : Conn) (p : NspId → Prop) : Prop where
  client : ∀ c n, (κ.clients c).nsp = some n → p n
  socket : ∀ s, p (κ.sockets s).nsp

/-- Those the server names; the others nobody has asked or offered anything. -/
structure Srv.Homed (ν : Srv) : Prop where
  root : 0 < ν.nspCount
  table : ∀ name n, ν.table.get? name = some n → n < ν.nspCount
  authCalls : ∀ a n, (a, some n) ∈ ν.authCalls → n < ν.nspCount
  unborn : ∀ n, ν.nspCount ≤ n → (ν.namespaces n).ready = [] ∧ (ν.namespaces n).waiters = []

/-- **Every namespace in use has been created.** -/
structure Core.Homed (σ : Core) : Prop where
  srv : σ.srv.Homed
  conn : σ.conn.Homed (· < σ.srv.nspCount)

/-- The namespace a pending instruction works for. -/
def Instr.home : Instr → Option NspId
  | .conn (.attachNamespace _ n) | .conn (.newServerSocket _ n) => some n
  | .srv (.continuePair _ n _) | .srv (.authorized _ n) | .srv (.createNamespaceRest n _)
  | .srv (.observe _ n) | .srv (.closeNamespace n) => some n
  | .ctl (.admitChild _ n) => some n
  | _ => none

/-- The namespace an instruction is about exists. -/
def Core.Houses (σ : Core) (i : Instr) : Prop := ∀ n, i.home = some n → n < σ.srv.nspCount

/-! ## 2. The connection part -/

namespace Conn.Homed

variable {κ : Conn} {p : NspId → Prop}

theorem setAttempt (h : κ.Homed p) (a : AttemptId) (g : ConnectionAttempt → ConnectionAttempt) :
    (κ.setAttempt a g).Homed p := ⟨h.client, h.socket⟩

theorem setManager (h : κ.Homed p) (c : ClientId) (g : Manager → Manager) :
    (κ.setManager c g).Homed p := ⟨h.client, h.socket⟩

/-- A client may be given a namespace that exists. -/
theorem setClient (h : κ.Homed p) (c : ClientId) {g : ClientSocket → ClientSocket}
    (hg : ∀ n, (g (κ.clients c)).nsp = some n → p n) : (κ.setClient c g).Homed p where
  client d n hd := by
    simp only [Conn.setClient, modify_apply] at hd
    split at hd
    · exact hg n hd
    · exact h.client d n hd
  socket := h.socket

/-- Beginning an attempt moves no client. -/
theorem begin (h : κ.Homed p) (c : ClientId) : (κ.beginConnectionAttempt c).1.Homed p := by
  unfold Conn.beginConnectionAttempt
  split
  · exact h
  · have hnew : (κ.newAttempt c).Homed p := ⟨h.client, h.socket⟩
    exact (hnew.setClient c fun n hn => hnew.client c n hn).setManager c _

/-- A manager has clients, no namespace. -/
theorem managerFor (h : κ.Homed p) (name : String) (forceNew : Bool) :
    (κ.managerFor name forceNew).1.Homed p := by
  unfold Conn.managerFor
  split
  · exact ⟨h.client, h.socket⟩
  · split
    · exact ⟨h.client, h.socket⟩
    · split <;> exact ⟨h.client, h.socket⟩

/-- A new client is in its namespace, where that was found, or in none. -/
theorem newClient (h : κ.Homed p) {io : ManagerId} {path : String} {nsp : Option NspId}
    {authCallback : Bool} (hn : ∀ n, nsp = some n → p n) :
    (κ.newClient io path nsp authCallback).Homed p where
  client d n hd := by
    simp only [Conn.newClient, Function.update_apply] at hd
    split at hd
    · exact hn n hd
    · exact h.client d n hd
  socket := h.socket

/-- A new socket belongs to the namespace it is built in. -/
theorem newSocket (h : κ.Homed p) {a : AttemptId} {n : NspId} (hn : p n) :
    (κ.newSocket P a n).Homed p where
  client := h.client
  socket s := by
    simp only [Conn.newSocket, Function.update_apply]
    split
    · exact hn
    · exact h.socket s

end Conn.Homed

/-- **No step of the connection part names a namespace that was not created.** -/
theorem execConn_homed {σ : Core} (h : σ.Homed) {i : ConnInstr} (hi : σ.Houses (.conn i)) :
    (execConn P σ i).part.Homed (· < σ.srv.nspCount) := by
  have hconn := h.conn
  cases i with
  | openClient name b f =>
      have hnew : ((σ.conn.managerFor name f).1.newClient (σ.conn.managerFor name f).2 name
          (σ.srv.table.get? name) b).Homed (· < σ.srv.nspCount) :=
        (hconn.managerFor name f).newClient fun n hn => h.srv.table name n hn
      simp only [execConn, openClient]
      split
      · exact hnew.begin _
      · split <;> exact hnew
  | connect c =>
      simp only [execConn, connect]
      split
      · exact hconn
      · split
        · exact hconn
        · rename_i n hn
          refine Conn.Homed.begin (hconn.setClient c fun m hm => ?_) c
          obtain rfl := Option.some.inj hm
          rcases (Option.orElse_eq_some _ _ _).mp hn with hc | ⟨-, ht⟩
          · exact hconn.client c _ hc
          · exact h.srv.table _ _ ht
  | setAuth c b => exact hconn.setClient c fun n hn => hconn.client c n hn
  | admitDynamic c => exact hconn.begin c
  | attachNamespace c n => exact hconn.setClient c fun m hm => Option.some.inj hm ▸ hi n rfl
  | newServerSocket a n =>
      have hnew := hconn.newSocket (P := P) (a := a) (hi n rfl)
      simp only [execConn, newServerSocket]
      split
      · exact hnew.setAttempt _ _
      · exact hnew
  | rejectConnectionAttempt a err =>
      simp only [execConn, rejectConnectionAttempt]
      split
      · exact hconn.setAttempt _ _
      · exact hconn
  | rejectConnectionAttemptRest a err =>
      have hset := (hconn.setClient (σ.conn.attempts a).client
        (g := fun cl => { cl with connectionAttempt := none })
        fun n hn => hconn.client _ n hn).setManager (σ.conn.attempts a).client
          fun m => m.settlePending (σ.conn.attempts a).client
      simp only [execConn, rejectConnectionAttemptRest]
      split <;> exact hset
  | cancelConnectionAttempt c =>
      simp only [execConn, cancelConnectionAttempt]
      split
      · exact hconn
      · split
        · exact hconn.setAttempt _ _
        · exact hconn
  | cancelConnectionAttemptRest c =>
      exact (hconn.setClient c fun n hn => hconn.client c n hn).setManager c _
  | completeConnectionAttempt a s =>
      simp only [execConn, completeConnectionAttempt]
      split
      · exact ((hconn.setAttempt a _).setClient _ fun n hn => hconn.client _ n hn).setManager _ _
      · split <;> exact hconn
  | markDisconnected c r =>
      simp only [execConn, markDisconnected]
      split
      · exact hconn
      · exact ((hconn.setAttempt _ _).setClient c fun n hn => hconn.client c n hn).setManager c _

/-! ## 3. The server -/

namespace Srv.Homed

variable {ν : Srv}

/-- A change to a namespace that exists, or that leaves both queues alone. -/
theorem setNamespace (h : ν.Homed) (n : NspId) {g : Namespace → Namespace}
    (hg : n < ν.nspCount ∨ ∀ N, (g N).ready = N.ready ∧ (g N).waiters = N.waiters) :
    (ν.setNamespace n g).Homed where
  root := h.root
  table := h.table
  authCalls := h.authCalls
  unborn m hm := by
    simp only [Srv.setNamespace, modify_apply]
    split
    · rename_i hmn
      rcases hg with hn | hg
      · exact absurd (hmn ▸ hn) (Nat.not_lt.mpr hm)
      · rw [(hg _).1, (hg _).2, ← hmn]
        exact h.unborn m hm
    · exact h.unborn m hm

/-- An observer's state names no namespace. -/
theorem setObserver (h : ν.Homed) (o : ObserverId) (x : Observer) : (ν.setObserver o x).Homed :=
  ⟨h.root, h.table, h.authCalls, h.unborn⟩

theorem settleWaiter (h : ν.Homed) (w : Waiter) (x : Observer) : (settleWaiter ν w x).1.Homed := by
  unfold Smocket.settleWaiter
  split
  · exact h
  · exact h.setObserver _ _

/-- Settling whoever waits moves no namespace. -/
theorem settleWaiters (h : ν.Homed) (x : Observer) (is : List Instr) (ws : List Waiter) :
    (settleWaiters x (ν, is) ws).1.Homed :=
  List.foldlRecOn (motive := fun r : Srv × List Instr => r.1.Homed) _ _ h
    fun _ hr w _ => Srv.Homed.settleWaiter hr w x

/-- Closing the server keeps its table. -/
theorem startClose (h : ν.Homed) : ν.startClose.Homed :=
  List.foldlRecOn (motive := Srv.Homed) _ _ ⟨h.root, h.table, h.authCalls, h.unborn⟩
    fun _ hν o _ => hν.setObserver o .rejected

/-- The new namespace is the first that was not in use. -/
theorem register (h : ν.Homed) (name : String) (N : Namespace) (parent : Option ParentId) :
    ((ν.register name N).addChild parent ν.nspCount).Homed := by
  have hreg : (ν.register name N).Homed := by
    refine ⟨Nat.succ_pos _, fun name' n hn => ?_, fun a n ha => ?_, fun n hn => ?_⟩
    · simp only [Srv.register, OMap.get?_set] at hn
      split at hn
      · exact Option.some.inj hn ▸ Nat.lt_succ_self _
      · exact (h.table name' n hn).trans (Nat.lt_succ_self _)
    · exact (h.authCalls a n ha).trans (Nat.lt_succ_self _)
    · have hlt : ν.nspCount < n := hn
      simp only [Srv.register, Function.update_apply, if_neg (Nat.ne_of_gt hlt)]
      exact h.unborn n hlt.le
  cases parent with
  | none => exact hreg
  | some p => exact ⟨hreg.root, hreg.table, hreg.authCalls, hreg.unborn⟩

end Srv.Homed

/-- **Nor does a step of the server**, and nobody asks or is offered where there is no namespace. -/
theorem execSrv_homed {σ : Core} (h : σ.Homed) {i : SrvInstr} (hi : σ.Houses (.srv i)) :
    (execSrv P σ i).part.Homed := by
  have hν := h.srv
  cases i with
  | serverConnect | ofMatcher | useParent | factoryReturns | socketClosed | namespaceClosed
    | closeThen => exact ⟨hν.root, hν.table, hν.authCalls, hν.unborn⟩
  | adapter results =>
      refine adapter_induct hν (fun _ => ⟨hν.root, hν.table, hν.authCalls, hν.unborn⟩)
        fun _ ν hν n r _ => hν.setNamespace n (Or.inr fun N => ?_)
      rw [Namespace.useAdapter_eq]
      exact ⟨rfl, rfl⟩
  | use n f => exact hν.setNamespace n (Or.inr fun _ => ⟨rfl, rfl⟩)
  | nextConnection name =>
      simp only [execSrv, nextConnection]
      split
      · exact ⟨hν.root, hν.table, hν.authCalls, hν.unborn⟩
      · split
        · exact ⟨hν.root, hν.table, hν.authCalls, hν.unborn⟩
        · split <;> exact ⟨hν.root, hν.table, hν.authCalls, hν.unborn⟩
  | continuePair a n b =>
      simp only [execSrv, continuePair]
      split
      · exact hν
      · split
        · exact hν
        · split
          · refine ⟨hν.root, hν.table, fun a' n' ha => ?_, hν.unborn⟩
            rcases List.mem_cons.mp ha with he | ha
            · exact (Option.some.inj (Prod.mk.inj he).2) ▸ hi n rfl
            · exact hν.authCalls a' n' ha
          · exact hν
  | authorized a n =>
      simp only [execSrv, authorized]
      split
      · exact hν
      · split <;> exact hν
  | dynamicTask a b =>
      simp only [execSrv, dynamicTask]
      split
      · exact hν
      · split
        · refine ⟨hν.root, hν.table, fun a' n' ha => ?_, hν.unborn⟩
          rcases List.mem_cons.mp ha with he | ha
          · cases (Prod.mk.inj he).2
          · exact hν.authCalls a' n' ha
        · exact hν
  | dynamicAuthorized a => simp only [execSrv, dynamicAuthorized]; split <;> exact hν
  | tryParent a k =>
      simp only [execSrv, tryParent]
      split
      · exact hν
      · split <;> exact ⟨hν.root, hν.table, hν.authCalls, hν.unborn⟩
  | matched a k b => simp only [execSrv, matched]; split <;> exact hν
  | getNamespace name parent k => simp only [execSrv, getNamespace]; split <;> exact hν
  | createNamespace name attachTo closed k =>
      simp only [execSrv, createNamespace]
      split
      · split <;> exact hν
      · exact hν.register ..
  | observe o n =>
      simp only [execSrv, observe]
      split
      · exact (hν.setNamespace n (Or.inl (hi n rfl))).setObserver _ _
      · exact hν.setNamespace n (Or.inl (hi n rfl))
  | settleObserver o x => exact hν.setObserver o x
  | offer s =>
      simp only [execSrv, offer]
      split
      · exact hν.setNamespace _ (Or.inl (h.conn.socket s))
      · exact (hν.setNamespace _ (Or.inl (h.conn.socket s))).settleWaiter _ _
  | discardReady s => exact hν.setNamespace _ (Or.inl (h.conn.socket s))
  | broadcast op event =>
      simp only [execSrv, broadcast]
      split
      · exact hν
      · exact hν.setNamespace _ (Or.inr (by intro _; rw [Namespace.trace_eq]; exact ⟨rfl, rfl⟩))
  | setDropped n layer sid b =>
      simp only [execSrv, setDropped]
      split
      · exact hν
      · exact hν.setNamespace _ (Or.inr fun _ => ⟨rfl, rfl⟩)
  | removeSocket s => exact hν.setNamespace _ (Or.inr fun _ => ⟨rfl, rfl⟩)
  | close =>
      have hs := hν.startClose
      simp only [execSrv, close]
      split
      · exact hs
      · exact ⟨hs.root, hs.table, hs.authCalls, hs.unborn⟩
  | closeNamespace n =>
      have hset := (hν.setNamespace n (g := fun N =>
        { N with closed := true, ready := [], waiters := [] })
        (Or.inl (hi n rfl))).settleWaiters .rejected [] (σ.srv.namespaces n).waiters
      exact ⟨hset.root, hset.table, hset.authCalls, hset.unborn⟩
  | closeFromServer s => simp only [execSrv, closeFromServer]; split <;> exact hν
  | awaitClosed s => simp only [execSrv, awaitClosed]; split <;> exact hν
  | of | createNamespaceRest | closeRest | closeResolved | namespaceEmpty | namespaceRest =>
      exact hν

/-! ## 4. The runtime -/

/-- Namespaces are not taken back. -/
theorem execSrv_nspCount (σ : Core) (i : SrvInstr) :
    σ.srv.nspCount ≤ (execSrv P σ i).part.nspCount := by
  have hsettle : ∀ (ν : Srv) (w : Waiter) (x : Observer),
      (settleWaiter ν w x).1.nspCount = ν.nspCount := by
    intro ν w x
    unfold settleWaiter
    split <;> rfl
  have hclose : ∀ ν : Srv, ν.startClose.nspCount = ν.nspCount := fun ν =>
    List.foldlRecOn (motive := fun ν' : Srv => ν'.nspCount = ν.nspCount) _ _ rfl
      fun _ hν _ _ => hν
  cases i with
  | adapter results =>
      exact adapter_induct (motive := fun ν => σ.srv.nspCount ≤ ν.nspCount) (Nat.le_refl _)
        (fun _ => Nat.le_refl _) fun _ _ hν _ _ _ => hν
  | nextConnection name =>
      simp only [execSrv, nextConnection]
      split
      · exact Nat.le_refl _
      · split
        · exact Nat.le_refl _
        · split <;> exact Nat.le_refl _
  | continuePair =>
      simp only [execSrv, continuePair]
      split
      · exact Nat.le_refl _
      · split
        · exact Nat.le_refl _
        · split <;> exact Nat.le_refl _
  | authorized =>
      simp only [execSrv, authorized]
      split
      · exact Nat.le_refl _
      · split <;> exact Nat.le_refl _
  | dynamicTask =>
      simp only [execSrv, dynamicTask]
      split
      · exact Nat.le_refl _
      · split <;> exact Nat.le_refl _
  | dynamicAuthorized => simp only [execSrv, dynamicAuthorized]; split <;> exact Nat.le_refl _
  | tryParent =>
      simp only [execSrv, tryParent]
      split
      · exact Nat.le_refl _
      · split <;> exact Nat.le_refl _
  | matched => simp only [execSrv, matched]; split <;> exact Nat.le_refl _
  | getNamespace => simp only [execSrv, getNamespace]; split <;> exact Nat.le_refl _
  | createNamespace name attachTo closed k =>
      simp only [execSrv, createNamespace]
      split
      · split <;> exact Nat.le_refl _
      · cases attachTo <;> exact Nat.le_succ _
  | observe => simp only [execSrv, observe]; split <;> exact Nat.le_refl _
  | offer =>
      simp only [execSrv, offer]
      split
      · exact Nat.le_refl _
      · refine Nat.le_of_eq (Eq.symm ?_)
        exact hsettle ..
  | broadcast => simp only [execSrv, broadcast]; split <;> exact Nat.le_refl _
  | setDropped => simp only [execSrv, setDropped]; split <;> exact Nat.le_refl _
  | close =>
      simp only [execSrv, close]
      split <;> exact Nat.le_of_eq (hclose _).symm
  | closeNamespace n =>
      refine Nat.le_of_eq (Eq.symm ?_)
      exact List.foldlRecOn (motive := fun r : Srv × List Instr => r.1.nspCount = σ.srv.nspCount)
        _ _ rfl fun r hr w _ => (hsettle r.1 w .rejected).trans hr
  | closeFromServer => simp only [execSrv, closeFromServer]; split <;> exact Nat.le_refl _
  | awaitClosed => simp only [execSrv, awaitClosed]; split <;> exact Nat.le_refl _
  | _ => exact Nat.le_refl _

/-- No namespace is ever unmade. -/
theorem exec_nspCount (σ : Core) (i : Instr) :
    σ.srv.nspCount ≤ (exec P i σ).core.srv.nspCount := by
  cases i with
  | srv i => exact execSrv_nspCount σ i
  | _ => exact Nat.le_refl _

/-- What closes a server has all its namespaces from the table. -/
theorem close_pushes {σ : Core} {n : NspId}
    (hn : .srv (.closeNamespace n) ∈ (close σ).push) : n ∈ σ.srv.table.values := by
  have htable : σ.srv.startClose.table = σ.srv.table :=
    List.foldlRecOn (motive := fun ν : Srv => ν.table = σ.srv.table) _ _ rfl fun _ hν _ _ => hν
  unfold close at hn
  dsimp only at hn
  split at hn
  · cases hn
  · obtain ⟨m, hm, he⟩ := List.mem_map.mp hn
    cases he
    rwa [htable] at hm

/-- What an instruction leaves pending is about a namespace that exists. -/
theorem houses_spawned {σ : Core} (h : σ.Homed) {i j : Instr} (hi : σ.Houses i)
    (hj : j ∈ (exec P i σ).spawned) : (exec P i σ).core.Houses j := by
  intro n hn
  have hby := spawnedBy hj
  have htable : ∀ name {m}, σ.srv.table.get? name = some m → m < (exec P i σ).core.srv.nspCount :=
    fun _ _ hm => (h.srv.table _ _ hm).trans_le (exec_nspCount σ i)
  have hhome : i.home = some n → n < (exec P i σ).core.srv.nspCount :=
    fun hi' => (hi n hi').trans_le (exec_nspCount σ i)
  unfold Instr.home at hn
  split at hn
  case h_1 c m =>
    obtain rfl := Option.some.inj hn
    obtain ⟨a, rfl⟩ := hby
    exact hhome rfl
  case h_2 a m =>
    obtain rfl := Option.some.inj hn
    obtain rfl : i = .srv (.authorized a m) := hby
    exact hhome rfl
  case h_3 a m b =>
    obtain rfl := Option.some.inj hn
    rcases hby with ⟨name, b, f, rfl⟩ | ⟨c, rfl⟩ | rfl
    · refine htable name ?_
      simp only [exec, execConn, openClient, Effect.spawned] at hj
      split at hj
      · rename_i m' hm
        simp only [List.nil_append, List.mem_map] at hj
        obtain ⟨a', -, he⟩ := hj
        cases he
        exact hm
      · split at hj <;> simp at hj
    · simp only [exec, execConn, connect, Effect.spawned] at hj
      split at hj
      · cases hj
      · split at hj
        · simp at hj
        · rename_i m' hm
          simp only [List.nil_append, List.mem_map] at hj
          obtain ⟨a', -, he⟩ := hj
          cases he
          rcases (Option.orElse_eq_some _ _ _).mp hm with hc | ⟨-, ht⟩
          · exact h.conn.client c _ hc
          · exact htable _ ht
    · exact hhome rfl
  case h_4 a m =>
    obtain rfl := Option.some.inj hn
    obtain rfl : i = .srv (.continuePair a m false) := hby
    exact hhome rfl
  case h_5 m k =>
    obtain rfl := Option.some.inj hn
    obtain ⟨name, p, b, rfl⟩ := hby
    simp only [exec, execSrv, createNamespace, Effect.spawned] at hj ⊢
    split at hj
    · split at hj <;> simp at hj
    · rename_i hr
      rw [if_neg hr]
      have hm : m = σ.srv.nspCount := by
        simp only [List.append_nil, List.mem_append, List.mem_singleton] at hj
        rcases hj with hj | hj
        · split at hj <;> simp at hj
        · exact (SrvInstr.createNamespaceRest.inj (Instr.srv.inj hj)).1
      rw [hm]
      cases p <;> exact Nat.lt_succ_self _
  case h_6 o m =>
    obtain rfl := Option.some.inj hn
    rcases hby with ⟨name, rfl⟩ | ⟨name, p, rfl⟩ | rfl
    · refine htable (normalizeNamespace name) ?_
      simp only [exec, execSrv, nextConnection, Effect.spawned] at hj
      split at hj
      · simp at hj
      · split at hj
        · rename_i m' hm
          simp at hj
          rw [hj.2, hm]
        · split at hj <;> simp at hj
    · refine htable name ?_
      simp only [exec, execSrv, getNamespace, Effect.spawned] at hj
      split at hj
      · rename_i m' hm
        simp [Cont.instrs] at hj
        rw [hj, hm]
      · split at hj <;> simp at hj
    · exact hhome rfl
  case h_7 m =>
    obtain rfl := Option.some.inj hn
    obtain rfl : i = .srv .close := hby
    have hm : .srv (.closeNamespace m) ∈ (close σ).push := by
      simp only [exec, execSrv, Effect.spawned, List.mem_append] at hj
      refine hj.resolve_right fun hp => ?_
      simp only [close] at hp
      split at hp <;> cases hp
    obtain ⟨name, hname⟩ := OMap.mem_values.mp (close_pushes hm)
    exact htable name hname
  case h_8 a m =>
    obtain rfl := Option.some.inj hn
    rcases hby with ⟨name, p, rfl⟩ | rfl
    · refine htable name ?_
      simp only [exec, execSrv, getNamespace, Effect.spawned] at hj
      split at hj
      · rename_i m' hm
        simp [Cont.instrs] at hj
        rw [hj, hm]
      · split at hj <;> simp at hj
    · exact hhome rfl
  case h_9 => cases hn

/-- One step keeps everything at home. -/
theorem homed_exec {σ : Core} (h : σ.Homed) {i : Instr} (hi : σ.Houses i) :
    (exec P i σ).core.Homed := by
  cases i with
  | conn i => exact ⟨h.srv, execConn_homed h hi⟩
  | srv i =>
      have hle := execSrv_nspCount (P := P) σ i
      exact ⟨execSrv_homed h hi, fun c n hn => (h.conn.client c n hn).trans_le hle,
        fun s => (h.conn.socket s).trans_le hle⟩
  | _ => exact ⟨h.srv, h.conn⟩

/-- **The namespaces in use stay created.** -/
theorem homed_inductive (P : Platform) :
    Inductive (runtime P) (fun _ _ => True) Core.Homed Core.Houses fun _ => (none : Option Unit) :=
  Inductive.of_facts (fun σ i h => homed_exec h.inv h.ok)
    (fun σ i h j hj => houses_spawned h.inv h.ok hj)
    (fun σ i j _ hj n hn => (hj n hn).trans_le (exec_nspCount σ i))
    (fun σ i h hc n hn => by
      unfold Instr.home at hn
      split at hn <;> simp [runtime, callable] at hc
      case h_4 a m => exact Option.some.inj hn ▸ h.srv.authCalls a m hc
      case h_9 => cases hn)
    (fun σ i is _ _ his j hj n hn => by
      rcases onThrow_handle his with rfl | ⟨a, err, rfl, -⟩
      · cases hj
      · rw [List.mem_singleton.mp hj] at hn
        cases hn)
    (fun _ _ _ => trivial)

/-- A server starts with the namespace `/`. -/
theorem newServer_homed : newServer.core.Homed where
  srv :=
    { root := Nat.one_pos
      table := fun name n hn => by
        simp only [newServer, OMap.get?_set, OMap.get?_empty] at hn
        split at hn
        · exact Option.some.inj hn ▸ Nat.one_pos
        · cases hn
      authCalls := nofun
      unborn := fun _ _ => ⟨rfl, rfl⟩ }
  conn := ⟨nofun, fun _ => Nat.one_pos⟩

/-- So does a run. -/
theorem reach_homed {C : State → Action Instr → Prop} {σ : State}
    (h : (runtime P).Reach C newServer σ) :
    σ.core.Homed ∧ ∀ j ∈ σ.pending, σ.core.Houses j := by
  have hk := h.inv_ok (homed_inductive P) (fun _ _ _ _ _ _ _ => trivial)
    ⟨newServer_homed, fun _ hj => absurd hj List.not_mem_nil, .nil⟩
  exact ⟨hk.inv, hk.ok⟩

end Smocket
