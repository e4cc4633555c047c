import Smocket.Namespaces
import Smocket.Ownership
import Smocket.Teardowns
import Smocket.Traces

/-
  File:      Smocket/Closing.lean
  Subject:   AFTER `Server.close`. Every namespace refuses from then on: no socket enters a roster,
             is offered to an observer or has its connection announced.

  `close` shuts one namespace after the other, and an admission reads one of the flags and then
  announces. Neither is interrupted by application code, so that no admission sees a server half
  closed.

  * `secluded_atomic` -- neither a `close` nor an admission is interrupted;
  * `closed_admits_nobody` -- after `Server.close` nobody is admitted, whatever was pending;
  * `closed_in_factory_admits` -- a factory that closes the server while it creates a namespace
    leaves that one open.
-/

namespace Smocket

open Ordered EventLoop EventLoop.Machine

variable {P : Platform}

/-! ## 1. The namespaces there are -/

/-- The name of the namespace an instruction creates, and whether it creates it closed. -/
def Instr.creation : Instr → Option (String × Bool)
  | .srv (.createNamespace name _ closed _) => some (name, closed)
  | _ => none

/-- A namespace is created the way `getNamespace` left things: its name is still free, and it is
    closed if the server is. Only an adapter factory runs in between. -/
def CreatesAlone (σ : Core) (i : Instr) : Prop :=
  ∀ p ∈ i.creation, σ.srv.table.get? p.1 = none ∧ (σ.srv.closed = true → p.2 = true)

instance (σ : Core) (i : Instr) : Decidable (CreatesAlone σ i) :=
  inferInstanceAs (Decidable (∀ p ∈ i.creation, _ ∧ _))

/-- Every namespace is in the table. -/
def Srv.Listed (ν : Srv) : Prop := ∀ n < ν.nspCount, ∃ name, ν.table.get? name = some n

theorem Srv.Listed.same {ν ν' : Srv} (h : ν.Listed) (hs : ν.SameNames ν') : ν'.Listed := by
  intro n hn
  rw [hs.count] at hn
  rw [hs.table]
  exact h n hn

/-- What `createNamespace` does to the server. -/
theorem createNamespace_cases (σ : Core) (name : String) (attachTo : Option ParentId)
    (closed : Bool) (k : Cont) : (createNamespace σ name attachTo closed k).part = σ.srv ∨
      (createNamespace σ name attachTo closed k).part =
        (σ.srv.register name (σ.srv.newNamespace name attachTo closed)).addChild attachTo
          σ.srv.nspCount := by
  unfold createNamespace
  split
  · split <;> exact Or.inl rfl
  · exact Or.inr rfl

theorem Srv.Listed.created {ν : Srv} (h : ν.Listed) {name : String}
    (hname : ν.table.get? name = none) (N : Namespace) (attachTo : Option ParentId) :
    ((ν.register name N).addChild attachTo ν.nspCount).Listed := by
  have htable : ((ν.register name N).addChild attachTo ν.nspCount).table =
      ν.table.set name ν.nspCount := by cases attachTo <;> rfl
  have hcount : ((ν.register name N).addChild attachTo ν.nspCount).nspCount = ν.nspCount + 1 := by
    cases attachTo <;> rfl
  intro n hn
  rw [hcount] at hn
  rw [htable]
  rcases Nat.lt_succ_iff_lt_or_eq.mp hn with hn | rfl
  · obtain ⟨m, hm⟩ := h n hn
    refine ⟨m, ?_⟩
    rw [OMap.get?_set, if_neg]
    · exact hm
    · rintro rfl
      rw [hname] at hm
      cases hm
  · exact ⟨name, by rw [OMap.get?_set, if_pos rfl]⟩

theorem exec_listed {σ : Core} {i : Instr} (h : σ.srv.Listed) (hi : CreatesAlone σ i) :
    (exec P i σ).core.srv.Listed := by
  by_cases hst : Ledger.stands i = false
  · exact h.same (exec_sameNames hst)
  · cases i with
    | srv i =>
        cases i with
        | adapter results =>
            have hs := h.same (adapter_sameNames σ results)
            exact hs
        | createNamespace name attachTo closed k =>
            change (createNamespace σ name attachTo closed k).part.Listed
            rcases createNamespace_cases σ name attachTo closed k with he | he
            · rw [he]
              exact h
            · rw [he]
              exact h.created (hi _ rfl).1 _ _
        | _ => exact absurd rfl hst
    | _ => exact absurd rfl hst

/-- Only `close` closes the server. -/
theorem execSrv_closed {σ : Core} {i : SrvInstr} (hi : i ≠ .close) :
    (execSrv P σ i).part.closed = σ.srv.closed := by
  have hw : ∀ (ν : Srv) (w : Waiter) (x : Observer), (settleWaiter ν w x).1.closed = ν.closed :=
    fun ν w x => by unfold settleWaiter; split <;> rfl
  cases i with
  | close => exact absurd rfl hi
  | adapter results =>
      exact adapter_induct (motive := fun ν => ν.closed = σ.srv.closed) rfl (fun _ => rfl)
        fun _ _ h _ _ _ => h
  | createNamespace name attachTo closed k =>
      change (createNamespace σ name attachTo closed k).part.closed = _
      rcases createNamespace_cases σ name attachTo closed k with he | he
      · rw [he]
      · rw [he]
        cases attachTo <;> rfl
  | offer s =>
      simp only [execSrv, offer]
      split
      · rfl
      · exact hw _ _ _
  | closeNamespace n =>
      exact List.foldlRecOn (motive := fun r : Srv × List Instr => r.1.closed = σ.srv.closed) _ _ rfl
        fun r h w _ => (hw r.1 w .rejected).trans h
  | nextConnection | continuePair | authorized | dynamicTask | dynamicAuthorized | tryParent
  | matched | getNamespace | observe | broadcast | setDropped | closeFromServer | awaitClosed =>
      simp only [execSrv, nextConnection, continuePair, authorized, dynamicTask, dynamicAuthorized,
        tryParent, matched, getNamespace, observe, broadcast, setDropped, closeFromServer,
        awaitClosed]
      repeat' split
      all_goals rfl
  | _ => rfl

theorem exec_closed {σ : Core} {i : Instr} (hi : i ≠ .srv .close) :
    (exec P i σ).core.srv.closed = σ.srv.closed := by
  cases i with
  | srv i => exact execSrv_closed fun he => hi (he ▸ rfl)
  | _ => rfl

theorem startClose_closed (ν : Srv) : ν.startClose.closed = true :=
  List.foldlRecOn (motive := fun ν' : Srv => ν'.closed = true) _ _ rfl fun _ h _ _ => h

theorem startClose_promise (ν : Srv) : ν.startClose.closePromise = ν.closePromise :=
  List.foldlRecOn (motive := fun ν' : Srv => ν'.closePromise = ν.closePromise) _ _ rfl
    fun _ h _ _ => h

theorem close_closed (σ : Core) : (close σ).part.closed = true := by
  unfold close
  dsimp only
  split <;> exact startClose_closed _

/-! ## 2. Closing begins with `close` -/

/-- The instructions that only `close` sets going. -/
def Instr.closing : Instr → Bool
  | .srv (.closeNamespace _) | .srv (.closeFromServer _) | .srv (.awaitClosed _)
  | .srv (.closeRest _) | .srv (.closeResolved _) | .srv (.socketClosed _)
  | .srv (.namespaceEmpty _) | .srv (.namespaceRest _) | .srv .namespaceClosed | .srv .closeThen
  | .life (.awaitTeardown ..) => true
  | _ => false

/-- What only `close` leaves in the heap: its promise, and who waits for a teardown. -/
structure Core.Begun (σ : Core) : Prop where
  promise : σ.srv.closePromise ≠ .unset → σ.srv.closed = true
  waiting : ∀ s, σ.life.waiting s ≠ [] → σ.srv.closed = true

/-- Only two instructions write the promise. -/
theorem execSrv_promise {σ : Core} {i : SrvInstr} (hi : i ≠ .close) (hi' : i ≠ .closeThen) :
    (execSrv P σ i).part.closePromise = σ.srv.closePromise := by
  have hw : ∀ (ν : Srv) (w : Waiter) (x : Observer),
      (settleWaiter ν w x).1.closePromise = ν.closePromise :=
    fun ν w x => by unfold settleWaiter; split <;> rfl
  cases i with
  | close => exact absurd rfl hi
  | closeThen => exact absurd rfl hi'
  | adapter results =>
      exact adapter_induct (motive := fun ν => ν.closePromise = σ.srv.closePromise) rfl
        (fun _ => rfl) fun _ _ h _ _ _ => h
  | createNamespace name attachTo closed k =>
      change (createNamespace σ name attachTo closed k).part.closePromise = _
      rcases createNamespace_cases σ name attachTo closed k with he | he
      · rw [he]
      · rw [he]
        cases attachTo <;> rfl
  | offer s =>
      simp only [execSrv, offer]
      split
      · rfl
      · exact hw _ _ _
  | closeNamespace n =>
      exact List.foldlRecOn (motive := fun r : Srv × List Instr =>
        r.1.closePromise = σ.srv.closePromise) _ _ rfl fun r h w _ => (hw r.1 w .rejected).trans h
  | nextConnection | continuePair | authorized | dynamicTask | dynamicAuthorized | tryParent
  | matched | getNamespace | observe | broadcast | setDropped | closeFromServer | awaitClosed =>
      simp only [execSrv, nextConnection, continuePair, authorized, dynamicTask, dynamicAuthorized,
        tryParent, matched, getNamespace, observe, broadcast, setDropped, closeFromServer,
        awaitClosed]
      repeat' split
      all_goals rfl
  | _ => rfl

/-- Once closed, closed. -/
theorem exec_stays_closed {σ : Core} (i : Instr) (h : σ.srv.closed = true) :
    (exec P i σ).core.srv.closed = true := by
  by_cases hi : i = .srv .close
  · subst hi
    exact close_closed σ
  · exact (exec_closed hi).trans h

theorem exec_begun {σ : Core} {i : Instr} (h : σ.Begun)
    (hi : i.closing = true → σ.srv.closed = true) : (exec P i σ).core.Begun := by
  by_cases hc : σ.srv.closed = true
  · have hc' := exec_stays_closed (P := P) i hc
    exact ⟨fun _ => hc', fun _ _ => hc'⟩
  · cases i with
    | srv i =>
        by_cases hi' : i = .close
        · subst hi'
          exact ⟨fun _ => close_closed σ, fun _ _ => close_closed σ⟩
        · refine ⟨fun hp => ?_, fun s hs => absurd (h.waiting s hs) hc⟩
          have hthen : i ≠ .closeThen := by
            rintro rfl
            exact hc (hi rfl)
          have hpromise := execSrv_promise (P := P) (σ := σ) hi' hthen
          exact absurd (h.promise (hpromise ▸ hp)) hc
    | life i =>
        refine ⟨h.promise, fun s hs => ?_⟩
        rcases execLife_waiting σ i s with he | ⟨w, rfl⟩ | he
        · exact h.waiting s (he ▸ hs)
        · exact hi rfl
        · exact absurd he hs
    | _ => exact ⟨h.promise, h.waiting⟩

/-- What is left of a closing is spawned by one, or once `close` has begun. -/
theorem closing_spawned {σ : Core} (h : σ.Begun) {i j : Instr}
    (hi : i.closing = true → σ.srv.closed = true) (hj : j ∈ (exec P i σ).spawned)
    (hjc : j.closing = true) : (exec P i σ).core.srv.closed = true := by
  have hby := spawnedBy hj
  have hkind : i.closing = true → (exec P i σ).core.srv.closed = true := fun hic =>
    exec_stays_closed i (hi hic)
  have hdone : ∀ s, i = .life (.teardownDone s false) → (exec P i σ).core.srv.closed = true := by
    rintro s rfl
    refine exec_stays_closed _ (h.waiting s fun hw => ?_)
    simp only [exec, execLife, teardownDone, hw, List.map_nil, Bool.false_eq_true, if_false,
      Effect.spawned, List.nil_append] at hj
    cases hj
  unfold Instr.closing at hjc
  split at hjc <;> try cases hjc
  case h_1 n =>
    obtain rfl : i = .srv .close := hby
    exact close_closed σ
  case h_2 s =>
    obtain ⟨n, rfl⟩ := hby
    exact hkind rfl
  case h_3 s =>
    obtain rfl : i = .srv (.closeFromServer s) := hby
    exact hkind rfl
  case h_4 s => exact hdone s hby
  case h_5 s =>
    rcases hby with rfl | rfl | rfl
    · exact hdone s rfl
    · exact hkind rfl
    · exact hkind rfl
  case h_6 n =>
    obtain ⟨s, rfl⟩ := hby
    exact hkind rfl
  case h_7 n =>
    obtain ⟨m, rfl⟩ := hby
    exact hkind rfl
  case h_8 n =>
    rcases hby with rfl | rfl
    · exact hkind rfl
    · exact hkind rfl
  case h_9 =>
    obtain ⟨n, rfl⟩ := hby
    exact hkind rfl
  case h_10 =>
    obtain rfl : i = .srv .namespaceClosed := hby
    exact hkind rfl
  case h_11 s w =>
    rcases hby with rfl | rfl
    · exact hkind rfl
    · exact hkind rfl

/-- **Where namespaces are created undisturbed, all are in the table, and what closes the server was
    set going by `close`.** -/
theorem begun_inductive (P : Platform) :
    Inductive (runtime P) CreatesAlone (fun σ => σ.Homed ∧ (σ.srv.Listed ∧ σ.Begun))
      (fun σ i => σ.Houses i ∧ (i.closing = true → σ.srv.closed = true))
      fun _ => (none : Option Unit) := by
  refine Machine.Layer.inductive (homed_inductive P) (fun _ _ _ => trivial)
    (Machine.Layer.of_facts ?_ ?_ ?_ ?_ ?_ ?_)
  · exact fun σ i _ _ h => ⟨exec_listed h.inv.1 h.good, exec_begun h.inv.2 h.ok⟩
  · exact fun σ i _ _ h j hj hjc => closing_spawned h.inv.2 h.ok hj hjc
  · exact fun σ i j _ _ _ _ hj hjc => exec_stays_closed i (hj hjc)
  · intro σ i _ _ hc hi
    unfold Instr.closing at hi
    split at hi <;> first | cases hc | cases hi
  · intro σ i is _ _ his j hj
    rcases onThrow_handle his with rfl | ⟨a, err, rfl, -⟩
    · cases hj
    · rw [List.mem_singleton.mp hj]
      intro h
      cases h
  · intro σ i hr p hp
    rcases onThrow_run hr with ⟨s, rfl⟩ | ⟨s, rfl⟩ | ⟨r, rfl⟩ <;> cases hp

/-! ## 3. Shutting and admitting -/

/-- A closed server has closed all its namespaces. -/
def Srv.Shut (ν : Srv) : Prop :=
  ν.closed = true → ∀ n < ν.nspCount, (ν.namespaces n).closed = true

/-- The steps of an admission that a closed namespace does not take. -/
def Instr.enlists : Instr → Bool
  | .memb (.enter _) | .srv (.offer _) | .ctl (.emitConnection _) => true
  | _ => false

/-- What `close` runs before it returns. -/
def Instr.shuts : Instr → Bool
  | .srv (.closeNamespace _) | .srv (.closeFromServer _) | .srv (.namespaceEmpty _)
  | .life (.teardown ..) | .life (.awaitTeardown ..) => true
  | _ => false

/-- The rest of a `close`, with the namespaces that are still open; or the rest of an admission, up
    to the announcement. -/
inductive Core.Secluded (σ : Core) : List Instr → Prop where
  | shutting (pre : List Instr) (hc : σ.srv.closed = true) (hne : pre ≠ [])
      (hall : ∀ i ∈ pre, i.shuts = true)
      (hleft : ∀ n < σ.srv.nspCount,
        (σ.srv.namespaces n).closed = true ∨ .srv (.closeNamespace n) ∈ pre) : σ.Secluded pre
  | admitting (s : SocketId) (l : List Instr) (hc : σ.srv.closed = false)
      (hl : ∀ i ∈ l, i = .memb (.enter s) ∨ i = .life (.markConnected s) ∨ i = .srv (.offer s)) :
      σ.Secluded (l ++ [.ctl (.emitConnection s)])

theorem enlists_spawned {σ : Core} {i j : Instr} (hj : j ∈ (exec P i σ).spawned)
    (ha : j.enlists = true) : ∃ s, i = .ctl (.completion s none) := by
  have hby := spawnedBy hj
  unfold Instr.enlists at ha
  split at ha
  · exact ⟨_, hby⟩
  · exact ⟨_, hby⟩
  · exact ⟨_, hby⟩
  · cases ha

theorem secluded_app {σ : Core} {i : Instr} {pre : List Instr} (h : σ.Secluded (i :: pre)) :
    isApp i = false := by
  generalize hst : i :: pre = stack at h
  cases h with
  | shutting _ _ _ hall =>
      have hi := hall i (hst ▸ List.mem_cons_self)
      unfold Instr.shuts at hi
      split at hi
      case h_6 => cases hi
      all_goals rfl
  | admitting s l _ hl =>
      cases l with
      | nil =>
          obtain ⟨rfl, -⟩ := List.cons.inj hst
          rfl
      | cons j l =>
          obtain ⟨rfl, -⟩ := List.cons.inj hst
          rcases hl i List.mem_cons_self with rfl | rfl | rfl <;> rfl

/-- Apart from `close`, an instruction leaves a server shut that is shut. -/
theorem shut_exec {σ : Core} {i : Instr} (h : σ.srv.Shut) (hi : i ≠ .srv .close)
    (hc : CreatesAlone σ i) : (exec P i σ).core.srv.Shut := by
  intro hcl n hn
  rw [exec_closed hi] at hcl
  have hshut := h hcl
  by_cases hst : Ledger.stands i = false
  · have hs := exec_sameNames (P := P) (σ := σ) hst
    rw [hs.count] at hn
    exact hs.shut n (hshut n hn)
  · cases i with
    | srv i =>
        cases i with
        | adapter results =>
            have hs := adapter_sameNames σ results
            have hn' : n < σ.srv.nspCount := hs.count ▸ hn
            exact hs.shut n (hshut n hn')
        | createNamespace name attachTo closed k =>
            have hclosed : closed = true := (hc _ rfl).2 hcl
            change ((createNamespace σ name attachTo closed k).part.namespaces n).closed = true
            change n < (createNamespace σ name attachTo closed k).part.nspCount at hn
            rcases createNamespace_cases σ name attachTo closed k with he | he
            · rw [he] at hn ⊢
              exact hshut n hn
            · have hN : (σ.srv.newNamespace name attachTo closed).closed = closed :=
                (Srv.newNamespace_spec ..).2.1
              have hns : (createNamespace σ name attachTo closed k).part.namespaces =
                  Function.update σ.srv.namespaces σ.srv.nspCount
                    (σ.srv.newNamespace name attachTo closed) := by
                rw [he]
                cases attachTo <;> rfl
              have hcount : (createNamespace σ name attachTo closed k).part.nspCount =
                  σ.srv.nspCount + 1 := by
                rw [he]
                cases attachTo <;> rfl
              rw [hcount] at hn
              rw [hns, Function.update_apply]
              split
              · exact hN.trans hclosed
              · rename_i hne
                exact hshut n ((Nat.lt_succ_iff_lt_or_eq.mp hn).resolve_right hne)
        | _ => exact absurd rfl hst
    | _ => exact absurd rfl hst

/-- What a `close` runs before it returns neither throws nor calls application code. -/
theorem shuts_exec {σ : Core} {i : Instr} (hi : i.shuts = true) :
    (exec P i σ).fails = false ∧ ∀ j ∈ (exec P i σ).push, j.shuts = true := by
  unfold Instr.shuts at hi
  split at hi
  case h_1 n =>
    refine ⟨rfl, fun j hj => ?_⟩
    simp only [exec, execSrv, closeNamespace] at hj
    split at hj
    · rw [List.mem_singleton.mp hj]
      rfl
    · obtain ⟨s, -, rfl⟩ := List.mem_map.mp hj
      rfl
  case h_2 s =>
    simp only [exec, execSrv, closeFromServer]
    split
    · exact ⟨rfl, fun j hj => absurd hj List.not_mem_nil⟩
    · refine ⟨rfl, fun j hj => ?_⟩
      rcases List.mem_cons.mp hj with rfl | hj
      · rfl
      · rw [List.mem_singleton.mp hj]
        rfl
  case h_3 n => exact ⟨rfl, fun j hj => absurd hj List.not_mem_nil⟩
  case h_4 s reason drain =>
    refine ⟨execLife_fails _ _, fun j hj => ?_⟩
    simp only [exec, execLife, teardown] at hj
    split at hj <;> cases hj
  case h_5 s w => exact ⟨execLife_fails _ _, fun j hj => absurd hj List.not_mem_nil⟩
  case h_6 => cases hi

/-- A step of a `close` shuts the namespace it is about. -/
theorem shuts_left {σ : Core} {i : Instr} (hi : i.shuts = true) {n : NspId}
    (hn : (σ.srv.namespaces n).closed = true ∨ i = .srv (.closeNamespace n)) :
    ((exec P i σ).core.srv.namespaces n).closed = true := by
  have hst : Ledger.stands i = false := by
    unfold Instr.shuts at hi
    split at hi
    case h_6 => cases hi
    all_goals rfl
  rcases hn with hn | rfl
  · exact (exec_sameNames hst).shut n hn
  · have hs : (σ.srv.setNamespace n fun N => { N with closed := true, ready := [], waiters := [] })
        |>.SameNames (exec P (.srv (.closeNamespace n)) σ).core.srv :=
      .trans (.settleWaiters .rejected (σ.srv.namespaces n).waiters (.refl _))
        (.of_eq rfl rfl rfl rfl rfl)
    refine hs.shut n ?_
    simp [Srv.setNamespace]

theorem completion_secludes {σ : Core} (h : σ.Homed) (hs : σ.srv.Shut) (s : SocketId) :
    (∀ j ∈ (completion σ s none).push, j.enlists = false) ∨
      ∃ pre l, (completion σ s none).push = pre ++ l ∧ σ.Secluded pre ∧
        ∀ j ∈ l, j.enlists = false := by
  have hopen : ¬ (σ.srv.namespaces (σ.conn.sockets s).nsp).closed = true → σ.srv.closed = false :=
    fun hn => Bool.eq_false_iff.mpr fun hc => hn (hs hc _ (h.conn.socket s))
  simp only [completion]
  split
  · split
    · exact Or.inl (by simp [Instr.enlists])
    · rename_i hn
      exact Or.inr ⟨admission s ++ [.ctl (.emitConnection s)],
        [.ctl (.dispatchClient (σ.conn.sockets s).peer "connect")], by simp,
        .admitting s _ (hopen hn) (by simp [admission]), by simp [Instr.enlists]⟩
  · split
    · exact Or.inl (by split <;> simp [Instr.enlists])
    · split
      · exact Or.inl (by simp [Instr.enlists])
      · rename_i hn
        exact Or.inr ⟨admission s ++ [.srv (.offer s)] ++ [.ctl (.emitConnection s)],
          [.conn (.completeConnectionAttempt (σ.conn.sockets s).attempt s)], by simp,
          .admitting s _ (hopen hn) (by simp [admission]), by simp [Instr.enlists]⟩

/-- `close` on a server that is open shuts all it has. -/
theorem close_secludes {σ : Core} (h : σ.Homed) (hl : σ.srv.Listed) (hb : σ.Begun)
    (hc : σ.srv.closed = false) : (exec P (.srv .close) σ).fails = false ∧
      (exec P (.srv .close) σ).post = [] ∧
      (exec P (.srv .close) σ).core.Secluded (exec P (.srv .close) σ).push := by
  have hunset : σ.srv.closePromise = .unset := by
    by_contra hp
    exact absurd (hb.promise hp) (by simp [hc])
  have hstart : σ.srv.startClose.closePromise = .unset := (startClose_promise _).trans hunset
  have hsame := Srv.SameNames.startClose σ.srv
  have hclose : close σ =
      { part := { σ.srv.startClose with
          closePromise := .pending, namespacesLeft := σ.srv.startClose.table.values.length }
        push := σ.srv.startClose.table.values.map fun n => .srv (.closeNamespace n)
        log := [.closeCalled] } := by
    unfold close
    dsimp only
    rw [if_neg (by simp [hstart])]
  have hmem : ∀ n < σ.srv.nspCount, n ∈ σ.srv.startClose.table.values := fun n hn => by
    rw [hsame.table]
    exact OMap.mem_values.mpr (hl n hn)
  simp only [exec, execSrv, hclose]
  refine ⟨trivial, trivial, .shutting _ (startClose_closed _) (fun he => ?_) (fun i hi => ?_)
    fun n hn => ?_⟩
  · have h0 := hmem 0 h.srv.root
    rw [List.map_eq_nil_iff.mp he] at h0
    cases h0
  · obtain ⟨n, -, rfl⟩ := List.mem_map.mp hi
    rfl
  · change n < σ.srv.startClose.nspCount at hn
    rw [hsame.count] at hn
    exact Or.inr (List.mem_map.mpr ⟨n, hmem n hn, rfl⟩)

/-- **Neither a `close` nor an admission is interrupted.** -/
theorem secluded_atomic (P : Platform) :
    Atomic (runtime P) CreatesAlone (fun σ => σ.Homed ∧ (σ.srv.Listed ∧ σ.Begun))
      (fun σ i => σ.Houses i ∧ (i.closing = true → σ.srv.closed = true))
      (fun σ => σ.srv.Shut) (fun _ i => i.enlists = false) Core.Secluded where
  exec σ i hr hI hi := by
    have hplain : (∀ s, i ≠ .ctl (.completion s none)) →
        ∀ j ∈ (exec P i σ).spawned, j.enlists = false := fun hne j hj =>
      Bool.eq_false_iff.mpr fun ha => by
        obtain ⟨s, hs⟩ := enlists_spawned hj ha
        exact hne s hs
    by_cases hclose : i = .srv .close
    · subst hclose
      by_cases hc : σ.srv.closed = true
      · refine Or.inl ⟨fun _ n hn => ?_, hplain (by intro _ h; cases h)⟩
        have hsame := Srv.SameNames.startClose σ.srv
        have hpart : (exec P (.srv .close) σ).core.srv.namespaces = σ.srv.startClose.namespaces ∧
            (exec P (.srv .close) σ).core.srv.nspCount = σ.srv.startClose.nspCount := by
          simp only [exec, execSrv, close]
          split <;> exact ⟨rfl, rfl⟩
        change n < (exec P (.srv .close) σ).core.srv.nspCount at hn
        rw [hpart.2, hsame.count] at hn
        change ((exec P (.srv .close) σ).core.srv.namespaces n).closed = true
        rw [hpart.1]
        exact hsame.shut n (hI hc n hn)
      · obtain ⟨hf, hp, hm⟩ := close_secludes (P := P) hr.inv.1 hr.inv.2.1 hr.inv.2.2
          (by simpa using hc)
        refine Or.inr ⟨hf, _, [], (List.append_nil _).symm, hm, fun j hj => ?_⟩
        rw [List.nil_append] at hj
        change j ∈ (exec P (.srv .close) σ).post at hj
        rw [hp] at hj
        cases hj
    · by_cases hcomp : ∃ s, i = .ctl (.completion s none)
      · obtain ⟨s, rfl⟩ := hcomp
        rcases completion_secludes hr.inv.1 hI s with hno | ⟨pre, l, hpush, hm, hl⟩
        · refine Or.inl ⟨hI, fun j hj => hno j ?_⟩
          simpa [runtime, exec, execCtl, completion, Effect.spawned] using hj
        · refine Or.inr ⟨rfl, pre, l, hpush, ?_, fun j hj => hl j ?_⟩
          · exact hm
          · simpa [runtime, exec, execCtl, completion] using hj
      · exact Or.inl ⟨shut_exec hI hclose hr.good, hplain fun s hs => hcomp ⟨s, hs⟩⟩
  stable _ _ _ _ _ hj := hj
  call σ i _ _ hc := by
    unfold Instr.enlists
    split <;> first | rfl | simp [runtime, callable] at hc
  handle σ i is his j hj := by
    rcases onThrow_handle his with rfl | ⟨a, err, rfl, -⟩
    · cases hj
    · rw [List.mem_singleton.mp hj]
      rfl
  run σ i _ _ hr hI := by
    rcases onThrow_run hr with ⟨s, rfl⟩ | ⟨s, rfl⟩ | ⟨r, rfl⟩ <;> exact hI
  mid σ i pre hr h _ := by
    have hpost : (∀ s, i ≠ .ctl (.completion s none)) →
        ∀ j ∈ (exec P i σ).spawned, j.enlists = false := fun hne j hj =>
      Bool.eq_false_iff.mpr fun ha => by
        obtain ⟨s, hs⟩ := enlists_spawned hj ha
        exact hne s hs
    generalize hst : i :: pre = stack at h
    cases h with
    | shutting _ hc hne hall hleft =>
        subst hst
        have hi := hall i List.mem_cons_self
        have hnc : ∀ s, i ≠ .ctl (.completion s none) := by
          rintro s rfl
          cases hi
        have hncl : i ≠ .srv .close := by
          rintro rfl
          cases hi
        obtain ⟨hf, hpush⟩ := shuts_exec (P := P) (σ := σ) hi
        have hcount : (exec P i σ).core.srv.nspCount = σ.srv.nspCount := by
          refine (exec_sameNames ?_).count
          unfold Instr.shuts at hi
          split at hi
          case h_6 => cases hi
          all_goals rfl
        have hc' : (exec P i σ).core.srv.closed = true := (exec_closed hncl).trans hc
        have hall' : ∀ j ∈ (exec P i σ).push ++ pre, j.shuts = true := fun j hj =>
          (List.mem_append.mp hj).elim (hpush j) fun hj => hall j (List.mem_cons_of_mem _ hj)
        have hleft' : ∀ n < (exec P i σ).core.srv.nspCount,
            ((exec P i σ).core.srv.namespaces n).closed = true ∨
              .srv (.closeNamespace n) ∈ (exec P i σ).push ++ pre := fun n hn => by
          rw [hcount] at hn
          rcases hleft n hn with hcl | hmem
          · exact Or.inl (shuts_left hi (Or.inl hcl))
          · rcases List.mem_cons.mp hmem with he | hmem
            · exact Or.inl (shuts_left hi (Or.inr he.symm))
            · exact Or.inr (List.mem_append_right _ hmem)
        by_cases hnil : (exec P i σ).push ++ pre = []
        · refine Or.inr ⟨fun _ n hn => (hleft' n hn).resolve_right ?_, fun j hj => ?_⟩
          · rw [hnil]
            exact List.not_mem_nil
          · obtain ⟨-, rfl⟩ := List.append_eq_nil_iff.mp hnil
            rw [List.append_nil] at hj
            exact hpost hnc j hj
        · exact Or.inl ⟨hf, .shutting _ hc' hnil hall' hleft',
            fun j hj => hpost hnc j (List.mem_append_right _ hj)⟩
    | admitting s l hc hl =>
        cases l with
        | nil =>
            obtain ⟨rfl, rfl⟩ := List.cons.inj hst
            refine Or.inr ⟨fun hc' => ?_, fun j hj => ?_⟩
            · cases hc.symm.trans hc'
            · rw [List.append_nil] at hj
              exact hpost (by intro _ h; cases h) j hj
        | cons j l =>
            obtain ⟨rfl, rfl⟩ := List.cons.inj hst
            have hquiet : (exec P i σ).fails = false ∧ (exec P i σ).push = [] := by
              rcases hl i List.mem_cons_self with rfl | rfl | rfl
              · exact ⟨rfl, rfl⟩
              · exact ⟨rfl, rfl⟩
              · simp only [exec, execSrv, offer]
                split <;> exact ⟨rfl, rfl⟩
            have hne : i ≠ .srv .close ∧ ∀ s, i ≠ .ctl (.completion s none) := by
              rcases hl i List.mem_cons_self with rfl | rfl | rfl <;>
                exact ⟨(by intro h; cases h), by intro _ h; cases h⟩
            refine Or.inl ⟨hquiet.1, ?_, fun j hj => hpost hne.2 j (List.mem_append_right _ hj)⟩
            change (exec P i σ).core.Secluded ((exec P i σ).push ++ _)
            rw [hquiet.2]
            exact .admitting s l ((exec_closed hne.1).trans hc)
              fun x hx => hl x (List.mem_cons_of_mem _ hx)
  ret σ i pre h happ := by cases (secluded_app h).symm.trans happ
  nonempty σ h := by
    generalize hst : ([] : List Instr) = stack at h
    cases h with
    | shutting _ _ hne => exact hne hst.symm
    | admitting s l => simp at hst

/-! ## 4. Every run -/

section Runs

variable {C : State → Action Instr → Prop} {σ : State}

theorem newServer_listed : newServer.core.srv.Listed := fun n hn => by
  obtain rfl : n = 0 := Nat.lt_one_iff.mp hn
  exact ⟨"/", rfl⟩

theorem newServer_begun : newServer.core.Begun :=
  ⟨fun hp => absurd rfl hp, fun _ hs => absurd rfl hs⟩

theorem newServer_opens : Keeps (fun σ : Core => σ.Homed ∧ (σ.srv.Listed ∧ σ.Begun))
    (fun σ i => σ.Houses i ∧ (i.closing = true → σ.srv.closed = true))
    (fun _ => (none : Option Unit)) newServer.core newServer.pending :=
  ⟨⟨newServer_homed, newServer_listed, newServer_begun⟩, fun _ hj => absurd hj List.not_mem_nil, .nil⟩

/-- **A step of an admission is taken only while the server is open.** -/
theorem reach_enlists (h : (runtime P).Reach C newServer σ)
    (hC : ∀ τ a, C τ a → (runtime P).Obeys CreatesAlone τ a) {i : Instr} {τ : State}
    (hn : (runtime P).next σ = some (i, τ)) (hi : i.enlists = true) :
    σ.core.srv.closed = false := by
  have hb : Between (fun σ : Core => σ.srv.Shut) (fun _ (i : Instr) => i.enlists = false)
      Core.Secluded σ := by
    refine h.between (secluded_atomic P) (begun_inductive P) hC ?_ newServer_opens ?_
    · exact fun τ a _ i pre k _ hm happ => by cases (secluded_app hm).symm.trans happ
    · refine Or.inl ⟨fun hc => ?_, fun _ hj => absurd hj List.not_mem_nil⟩
      cases hc
  rcases hb with ⟨-, hO⟩ | ⟨pre, k, hst, hm, -⟩
  · cases (hO i (next_mem hn).1).symm.trans hi
  · obtain ⟨-, ⟨-, hst', -⟩ | ⟨hst', -, -⟩⟩ := next_pending hn
    · cases hm with
      | shutting _ _ hne hall =>
          cases pre with
          | nil => exact absurd rfl hne
          | cons j pre =>
              obtain ⟨rfl, -⟩ := List.cons.inj (hst'.symm.trans hst)
              have hj := hall i List.mem_cons_self
              unfold Instr.enlists at hi
              split at hi
              case h_4 => cases hi
              all_goals cases hj
      | admitting s l hc => exact hc
    · rw [hst'] at hst
      obtain ⟨rfl, -⟩ := List.append_eq_nil_iff.mp hst.symm
      exact absurd hm ((secluded_atomic P).nonempty _)

theorem srv_log_keeping (P : Platform) :
    Keeping (runtime P) fun σ σ' => σ'.srv = σ.srv ∧ σ'.log = σ.log where
  refl _ := ⟨rfl, rfl⟩
  trans h h' := ⟨h'.1.trans h.1, h'.2.trans h.2⟩
  run σ i hr := by
    rcases onThrow_run hr with ⟨s, rfl⟩ | ⟨s, rfl⟩ | ⟨r, rfl⟩ <;> exact ⟨rfl, rfl⟩

/-- What a log says before the last `close`. -/
structure Quiet (σ : Core) : Prop where
  closed : .closeCalled ∈ σ.log → σ.srv.closed = true
  quiet : ∀ l₁ l₂, σ.log = l₁ ++ .closeCalled :: l₂ →
    ∀ s, .admitted s ∉ l₁ ∧ .connection s ∉ l₁

theorem records_enlists {i : Instr} {e : Event} (h : i.Records e) {s : SocketId}
    (he : e = .admitted s ∨ e = .connection s) : i.enlists = true := by
  unfold Instr.Records at h
  split at h <;> rcases he with rfl | rfl <;> simp at h <;> rfl

theorem records_close {i : Instr} (h : i.Records .closeCalled) : i = .srv .close := by
  unfold Instr.Records at h
  split at h <;> simp at h
  rfl

theorem Quiet.exec {σ : Core} (h : Quiet σ) {i : Instr}
    (hi : i.enlists = true → σ.srv.closed = false) : Quiet (exec P i σ).core := by
  obtain ⟨es, hlog, hrec⟩ := exec_log P i σ
  refine ⟨fun hmem => ?_, fun l₁ l₂ hl s => ?_⟩
  · rw [hlog] at hmem
    rcases List.mem_append.mp hmem with hmem | hmem
    · obtain rfl : i = .srv .close := records_close (hrec _ hmem)
      exact close_closed σ
    · exact exec_stays_closed i (h.closed hmem)
  · -- a step of an admission finds the server open, so that nothing older is a `close`
    have hnew : ∀ e ∈ es, e = .admitted s ∨ e = .connection s → .closeCalled ∉ es ++ σ.log := by
      intro e he hes hmem
      have hadm : i.enlists = true := records_enlists (hrec e he) hes
      rcases List.mem_append.mp hmem with hmem | hmem
      · obtain rfl : i = .srv .close := records_close (hrec _ hmem)
        cases hadm
      · cases (hi hadm).symm.trans (h.closed hmem)
    have hno : ∀ e, e = .admitted s ∨ e = .connection s → e ∉ l₁ := by
      intro e hes he
      have hcl : Event.closeCalled ∈ es ++ σ.log := by
        rw [← hlog, hl]
        exact List.mem_append_right _ List.mem_cons_self
      rw [hlog] at hl
      rcases List.append_eq_append_iff.mp hl with ⟨l, rfl, hl'⟩ | ⟨l, rfl, -⟩
      · rcases List.mem_append.mp he with he | he
        · exact hnew e he hes hcl
        · rcases hes with rfl | rfl
          · exact (h.quiet l l₂ hl' s).1 he
          · exact (h.quiet l l₂ hl' s).2 he
      · exact hnew e (List.mem_append_left _ he) hes hcl
    exact ⟨hno _ (Or.inl rfl), hno _ (Or.inr rfl)⟩

theorem reach_quiet (h : (runtime P).Reach C newServer σ)
    (hC : ∀ τ a, C τ a → (runtime P).Obeys CreatesAlone τ a) : Quiet σ.core := by
  induction h with
  | start => exact ⟨fun hm => absurd hm List.not_mem_nil, fun l₁ l₂ hl => by simp [newServer] at hl⟩
  | @step σ σ' a hr hc hs ih =>
      have hkeep : ∀ {c c' : Core}, Quiet c → c'.srv = c.srv ∧ c'.log = c.log → Quiet c' :=
        fun hq hk => ⟨by rw [hk.1, hk.2]; exact hq.closed, by rw [hk.2]; exact hq.quiet⟩
      rcases (srv_log_keeping P).step hs with ⟨i, τ, -, hn, -, hk⟩ | ⟨-, hk⟩
      · exact hkeep (ih.exec (P := P) fun hi => reach_enlists hr hC hn hi) hk
      · exact hkeep ih hk

end Runs

/-- An adapter factory that closes the server leaves the namespace it was called for open. -/
theorem closed_in_factory_admits : ∃ tr σ l₁ l₂,
    (runtime unary).Run (fun _ _ => True) newServer tr σ ∧
      σ.core.log = l₁ ++ .closeCalled :: l₂ ∧ .connection 0 ∈ l₁ := by
  obtain ⟨tr, σ, hr, hp⟩ := run_of_script (runtime unary) (fun _ _ => True) newServer 90
    [.call (.srv (.adapter [.fresh .builtin []])), .call (.srv (.of "/a")),
      .call (.srv (.factoryReturns (.fresh .builtin []))), .call (.srv .close), .ret, .ret,
      .call (.srv (.serverConnect "/a" false false)), .run, .run, .run, .run]
    (fun r => decide (r.2.core.log = [.connection 0, .admitted 0, .completed 0] ++
      .closeCalled :: [])) (by decide +kernel)
  exact ⟨tr, σ, _, _, hr, of_decide_eq_true hp, by decide⟩

end Smocket
