import Smocket.Membership

/-
  File:      Smocket/Setup.lean
  Subject:   ADAPTERS ARE INSTALLED DURING SETUP (`server.ts`, decision 0031). Few instructions
             touch the adapters of a namespace; `Server.adapter` replaces them before the first
             connection attempt only, when no index has an entry.

  * `execSrv_adapters` -- every other instruction leaves the adapters alone;
  * `reach_installs` -- from the first connection attempt on none is replaced;
  * `reach_started` -- without a connection attempt there are no clients;
  * `unstarted_empty` -- and then every index is empty, as a fresh adapter's is.
-/

namespace Smocket

open Ordered EventLoop EventLoop.Machine

variable {P : Platform}

/-! ## 1. Who touches adapters -/

/-- The instructions that install an adapter or write to its wrappers. -/
def SrvInstr.adapted : SrvInstr → Bool
  | .adapter _ | .factoryReturns _ | .createNamespace .. => true
  | .broadcast .. | .setDropped .. | .removeSocket _ => true
  | _ => false

/-- The namespace's present adapter and the replaced ones are as they were. -/
structure Namespace.SameAdapters (N N' : Namespace) : Prop where
  base : N'.base = N.base
  layers : N'.layers = N.layers
  adapter : N'.adapter = N.adapter
  retired : N'.retired = N.retired

theorem Namespace.SameAdapters.refl (N : Namespace) : N.SameAdapters N := ⟨rfl, rfl, rfl, rfl⟩

/-- So are all of a server's, and registration does not open again. -/
structure Srv.SameAdapters (ν ν' : Srv) : Prop where
  started : ν.admissionStarted = true → ν'.admissionStarted = true
  count : ν'.nspCount = ν.nspCount
  factory : ν'.factoryResult = ν.factoryResult
  namespaces : ∀ n, (ν.namespaces n).SameAdapters (ν'.namespaces n)

namespace Srv.SameAdapters

variable {ν ν' ν'' : Srv}

theorem trans (h : ν.SameAdapters ν') (h' : ν'.SameAdapters ν'') : ν.SameAdapters ν'' where
  started hs := h'.started (h.started hs)
  count := h'.count.trans h.count
  factory := h'.factory.trans h.factory
  namespaces n := ⟨(h'.namespaces n).base.trans (h.namespaces n).base,
    (h'.namespaces n).layers.trans (h.namespaces n).layers,
    (h'.namespaces n).adapter.trans (h.namespaces n).adapter,
    (h'.namespaces n).retired.trans (h.namespaces n).retired⟩

/-- A change elsewhere. -/
theorem of_eq (hs : ν.admissionStarted = true → ν'.admissionStarted = true)
    (hc : ν'.nspCount = ν.nspCount) (hf : ν'.factoryResult = ν.factoryResult)
    (hn : ν'.namespaces = ν.namespaces) : ν.SameAdapters ν' :=
  ⟨hs, hc, hf, fun n => by rw [hn]; exact .refl _⟩

theorem refl (ν : Srv) : ν.SameAdapters ν := .of_eq id rfl rfl rfl

theorem setNamespace (ν : Srv) (n : NspId) {g : Namespace → Namespace}
    (hg : ∀ N : Namespace, N.SameAdapters (g N)) : ν.SameAdapters (ν.setNamespace n g) where
  started := id
  count := rfl
  factory := rfl
  namespaces m := by
    simp only [Srv.setNamespace, modify_apply]
    split
    · rename_i hm
      exact hm ▸ hg _
    · exact .refl _

theorem setObserver (h : ν.SameAdapters ν') (o : ObserverId) (x : Observer) :
    ν.SameAdapters (ν'.setObserver o x) := h.trans (.of_eq id rfl rfl rfl)

theorem settleWaiter (h : ν.SameAdapters ν') (w : Waiter) (x : Observer) :
    ν.SameAdapters (settleWaiter ν' w x).1 := by
  unfold Smocket.settleWaiter
  split
  · exact h
  · exact h.setObserver _ _

theorem settleWaiters (x : Observer) (ws : List Waiter) {r : Srv × List Instr}
    (h : ν.SameAdapters r.1) : ν.SameAdapters (settleWaiters x r ws).1 := by
  unfold Smocket.settleWaiters
  exact List.foldlRecOn (motive := fun r' : Srv × List Instr => ν.SameAdapters r'.1) _ _ h
    fun _ h' w _ => h'.settleWaiter w x

theorem startClose (ν : Srv) : ν.SameAdapters ν.startClose :=
  List.foldlRecOn (motive := ν.SameAdapters) _ _ (.of_eq id rfl rfl rfl)
    fun _ h _ _ => h.setObserver _ _

end Srv.SameAdapters

/-- **The other instructions leave adapters alone.** -/
theorem execSrv_adapters {σ : Core} {i : SrvInstr} (h : i.adapted = false) :
    σ.srv.SameAdapters (execSrv P σ i).part := by
  have skip : σ.srv.SameAdapters σ.srv := .refl _
  cases i with
  | adapter | factoryReturns | createNamespace | broadcast | setDropped | removeSocket => cases h
  | serverConnect => exact .of_eq (fun _ => rfl) rfl rfl rfl
  | use n f => exact .setNamespace _ n fun _ => ⟨rfl, rfl, rfl, rfl⟩
  | observe o n =>
      simp only [execSrv, observe]
      split
      · exact .setObserver (.setNamespace _ n (by intro _; exact ⟨rfl, rfl, rfl, rfl⟩)) _ _
      · exact .setNamespace _ n fun _ => ⟨rfl, rfl, rfl, rfl⟩
  | offer s =>
      simp only [execSrv, offer]
      split
      · exact .setNamespace _ _ fun _ => ⟨rfl, rfl, rfl, rfl⟩
      · exact .settleWaiter (.setNamespace _ _ (by intro _; exact ⟨rfl, rfl, rfl, rfl⟩)) _ _
  | discardReady s => exact .setNamespace _ _ fun _ => ⟨rfl, rfl, rfl, rfl⟩
  | closeNamespace n =>
      exact .trans (.settleWaiters .rejected (σ.srv.namespaces n).waiters
        (.setNamespace _ n (by intro _; exact ⟨rfl, rfl, rfl, rfl⟩))) (.of_eq id rfl rfl rfl)
  | close =>
      simp only [execSrv, close]
      split
      · exact .startClose _
      · exact .trans (.startClose _) (.of_eq id rfl rfl rfl)
  | nextConnection | continuePair | dynamicTask | tryParent =>
      simp only [execSrv, nextConnection, continuePair, dynamicTask, tryParent]
      repeat' split
      all_goals exact .of_eq id rfl rfl rfl
  | authorized | dynamicAuthorized | matched | getNamespace | closeFromServer | awaitClosed =>
      simp only [execSrv, authorized, dynamicAuthorized, matched, getNamespace, closeFromServer,
        awaitClosed]
      repeat' split
      all_goals exact skip
  | _ => exact .of_eq id rfl rfl rfl

/-! ## 2. Replacing them -/

/-- Adapters of existing namespaces are only replaced while registration is open, which it does not
    become again. -/
structure Srv.Installs (ν ν' : Srv) : Prop where
  started : ν.admissionStarted = true → ν'.admissionStarted = true
  count : ν.nspCount ≤ ν'.nspCount
  settled : ν.admissionStarted = true → ∀ n < ν.nspCount,
    (ν'.namespaces n).adapter = (ν.namespaces n).adapter

namespace Srv.Installs

variable {ν ν' ν'' : Srv}

theorem refl (ν : Srv) : ν.Installs ν :=
  ⟨id, Nat.le_refl _, fun _ _ _ => rfl⟩

theorem trans (h : ν.Installs ν') (h' : ν'.Installs ν'') : ν.Installs ν'' where
  started hs := h'.started (h.started hs)
  count := h.count.trans h'.count
  settled hs n hn :=
    (h'.settled (h.started hs) n (hn.trans_le h.count)).trans (h.settled hs n hn)

theorem of_same (h : ν.SameAdapters ν') : ν.Installs ν' where
  started := h.started
  count := h.count.ge
  settled _ n _ := (h.namespaces n).adapter

/-- A change of wrappers. -/
theorem setNamespace (ν : Srv) (n : NspId) {g : Namespace → Namespace}
    (hg : ∀ N, (g N).adapter = N.adapter) : ν.Installs (ν.setNamespace n g) where
  started := id
  count := Nat.le_refl _
  settled _ m _ := by
    simp only [Srv.setNamespace, modify_apply]
    split
    · rename_i hm
      rw [hg, hm]
    · rfl

end Srv.Installs

theorem adapter_installs (σ : Core) (results : List FactoryResult) :
    σ.srv.Installs (adapter σ results).part := by
  refine adapter_induct (.refl _) (fun _ => .of_same (.of_eq id rfl rfl rfl))
    fun hopen ν h n r _ => ⟨h.started, h.count, fun hs => ?_⟩
  rw [hopen] at hs
  cases hs

/-- **No instruction replaces an adapter once a connection attempt has begun.** -/
theorem execSrv_installs {σ : Core} {i : SrvInstr} : σ.srv.Installs (execSrv P σ i).part := by
  by_cases hi : i.adapted = false
  · exact .of_same (execSrv_adapters hi)
  cases i with
  | adapter results => exact adapter_installs σ results
  | factoryReturns r => exact ⟨id, Nat.le_refl _, fun _ _ _ => rfl⟩
  | createNamespace name attachTo closed k =>
      simp only [execSrv, createNamespace]
      split
      · split <;> exact .refl _
      · have hreg : ∀ n < σ.srv.nspCount, ((σ.srv.register name
            (σ.srv.newNamespace name attachTo closed)).addChild attachTo
              σ.srv.nspCount).namespaces n = σ.srv.namespaces n := fun n hn => by
          cases attachTo <;> exact Function.update_of_ne hn.ne _ _
        refine ⟨fun hs => ?_, ?_, fun _ n hn => by rw [hreg n hn]⟩
        · cases attachTo <;> exact hs
        · cases attachTo <;> exact Nat.le_succ _
  | broadcast op event =>
      simp only [execSrv, broadcast]
      split
      · exact .refl _
      · exact .setNamespace _ _ fun N => by rw [Namespace.trace_eq]
  | setDropped n layer sid dropped =>
      simp only [execSrv, setDropped]
      split
      · exact .refl _
      · exact .setNamespace _ _ fun _ => rfl
  | removeSocket s => exact .setNamespace _ _ fun _ => rfl
  | _ => exact absurd rfl hi

theorem exec_installs {σ : Core} {i : Instr} : σ.srv.Installs (exec P i σ).core.srv := by
  cases i with
  | srv i => exact execSrv_installs
  | _ => exact .refl _

/-- Over a run. -/
theorem reach_installs {C : State → Action Instr → Prop} {σ τ : State}
    (h : (runtime P).Reach C σ τ) : σ.core.srv.Installs τ.core.srv := by
  have hI : Inductive (runtime P) (fun _ _ => True) (fun c => σ.core.srv.Installs c.srv)
      (fun _ _ => True) fun _ => (none : Option Unit) :=
    .of_facts (fun _ _ h => h.inv.trans exec_installs) (fun _ _ _ _ _ => trivial)
      (fun _ _ _ _ _ => trivial) (fun _ _ _ _ => trivial) (fun _ _ _ _ _ _ _ _ => trivial)
      fun _ _ _ => trivial
  exact (h.inv_ok hI (fun _ _ _ _ _ _ _ => trivial)
    ⟨.refl _, fun _ _ => trivial, List.pairwise_of_forall fun _ _ => Apart.of_none rfl⟩).inv

/-! ## 3. Before the first connection attempt -/

/-- Clients are opened by `Server.connect`, after which adapters are no longer installed. -/
def Core.Started (σ : Core) : Prop := 0 < σ.conn.clientCount → σ.srv.admissionStarted = true

/-- A client that is being opened was asked for by `Server.connect`. -/
def Core.Opens (σ : Core) : Instr → Prop
  | .conn (.openClient ..) => σ.srv.admissionStarted = true
  | _ => True

theorem begin_clientCount (κ : Conn) (c : ClientId) :
    (κ.beginConnectionAttempt c).1.clientCount = κ.clientCount := by
  unfold Conn.beginConnectionAttempt
  split <;> rfl

theorem execConn_clientCount {σ : Core} {i : ConnInstr} (h : ∀ name b f, i ≠ .openClient name b f) :
    (execConn P σ i).part.clientCount = σ.conn.clientCount := by
  cases i with
  | openClient name b f => exact absurd rfl (h name b f)
  | connect d =>
      simp only [execConn, connect]
      split
      · rfl
      · split
        · rfl
        · rw [begin_clientCount]
          rfl
  | setAuth d b => rfl
  | admitDynamic d => exact begin_clientCount ..
  | attachNamespace d n => rfl
  | newServerSocket b n =>
      simp only [execConn, newServerSocket]
      split <;> rfl
  | rejectConnectionAttempt b err =>
      simp only [execConn, rejectConnectionAttempt]
      split <;> rfl
  | rejectConnectionAttemptRest b err =>
      simp only [execConn, rejectConnectionAttemptRest]
      split <;> rfl
  | cancelConnectionAttempt d =>
      simp only [execConn, cancelConnectionAttempt]
      split
      · rfl
      · split <;> rfl
  | cancelConnectionAttemptRest d => rfl
  | completeConnectionAttempt b s =>
      simp only [execConn, completeConnectionAttempt]
      split
      · rfl
      · split <;> rfl
  | markDisconnected d reason =>
      simp only [execConn, markDisconnected]
      split <;> rfl

/-- Who opens a client has been asked to; whatever else is known of the runtime. -/
theorem started_layer (P : Platform) (Good : Core → Instr → Prop) {I : Core → Prop}
    {Ok : Core → Instr → Prop} (hG : ∀ σ i, onThrow σ i = .run → Good σ i) :
    Machine.Layer (runtime P) Good I Ok Core.Started Core.Opens fun _ => (none : Option Unit) := by
  refine .of_facts ?_ ?_ ?_ ?_ ?_ hG
  · intro σ i _ _ h hc
    cases i with
    | conn i =>
        by_cases ho : ∃ name b f, i = .openClient name b f
        · obtain ⟨name, b, f, rfl⟩ := ho
          exact h.ok
        · have hcount := execConn_clientCount (P := P) (σ := σ) fun name b f he =>
            ho ⟨name, b, f, he⟩
          exact h.inv (hcount ▸ hc)
    | srv i => exact execSrv_installs.started (h.inv hc)
    | _ => exact h.inv hc
  · intro σ i _ _ h j hj
    unfold Core.Opens
    split
    · obtain ⟨name', rfl⟩ := spawnedBy hj
      rfl
    · trivial
  · intro σ i j _ _ _ h hj
    unfold Core.Opens at hj ⊢
    split
    · exact exec_installs.started hj
    · trivial
  · intro σ i _ _ hc
    unfold Core.Opens
    split <;> [cases hc; trivial]
  · intro σ i is _ _ his j hj
    rcases onThrow_handle his with rfl | ⟨a, err, rfl, -⟩
    · cases hj
    · rw [List.mem_singleton.mp hj]
      trivial

theorem newServer_started : newServer.core.Started := fun hc => absurd hc (Nat.lt_irrefl 0)

theorem reach_started {C : State → Action Instr → Prop} {σ : State}
    (h : (runtime P).Reach C newServer σ) : σ.core.Started := by
  have hL := Machine.Layer.inductive (valid_inductive P) (fun _ _ _ => trivial)
    (started_layer P (fun _ _ => True) fun _ _ _ => trivial)
  exact (h.inv_ok hL (fun _ _ _ _ _ _ _ => trivial)
    ⟨⟨newServer_wf P, newServer_started⟩, fun _ hj => absurd hj List.not_mem_nil, .nil⟩).inv.2

omit P in
/-- An index that mirrors nothing and knows nobody is a new one. -/
theorem Adapter.Mirrors.eq_empty {A : Adapter} {r : String → String → Prop} (h : A.Mirrors r)
    (hr : ∀ sid room, ¬ r sid room) (hknown : ∀ sid, A.sids.get? sid = none) : A = {} := by
  have hrooms : A.rooms = .empty := OMap.eq_empty fun room => by
    cases hm : A.rooms.get? room with
    | none => rfl
    | some members =>
        obtain ⟨sid, hsid⟩ := List.exists_mem_of_ne_nil _ (h.inhabited room members hm)
        exact absurd ((h.rooms sid room).mp ⟨members, hm, hsid⟩) (hr sid room)
  have hsids : A.sids = .empty := OMap.eq_empty hknown
  obtain ⟨rooms, sids⟩ := A
  dsimp only at hrooms hsids
  rw [hrooms, hsids]

/-- **While registration is open every index is empty**, so that `Server.adapter` may keep it. -/
theorem unstarted_empty {σ : Core} (hw : σ.Wf P) (hm : MembInv σ.conn σ.memb) (hs : σ.Started)
    (ho : σ.srv.admissionStarted = false) (n : NspId) : σ.memb.adapters n = {} := by
  have hnone : ∀ s, ¬ s < σ.conn.socketCount := fun s h => by
    rw [hs ((Nat.zero_le _).trans_lt (hw.conn.peer_lt h))] at ho
    cases ho
  refine (hm.mirrors n).eq_empty (fun sid room hj => ?_) fun sid => ?_
  · obtain ⟨s, hlt, -⟩ := hj
    exact hnone s hlt
  · by_contra hk
    obtain ⟨s, hlt, -⟩ := hm.known n sid hk
    exact hnone s hlt

end Smocket
