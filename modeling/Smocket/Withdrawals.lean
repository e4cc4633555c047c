import Smocket.Bookkeeping
import Smocket.Observers

/-
  File:      Smocket/Withdrawals.lean
  Subject:   WITHDRAWN ATTEMPTS AND THE OBSERVERS OF `nextConnection`. A server socket is offered
             once its middleware has let it in, before the `connection` listeners run; its attempt
             is completed after them.

  * `EndsUnadmitted` -- the condition: what ends a pending attempt ends it before its socket is
    admitted;
  * **`withdrawn_unserved`** -- under it nobody is given the socket of an attempt that was
    withdrawn, and the observers get the admitted sockets in order.
-/

namespace Smocket

open Ordered EventLoop EventLoop.Machine Rendezvous

variable {P : Platform}

/-! ## 1. Attempts begin pending -/

/-- In the history `tr` the attempt `a` has been completed. -/
def completedIn (tr : List (Core × Instr)) (a : AttemptId) : Prop :=
  ∃ x ∈ tr, x.1.completes x.2 = some a

theorem completedIn.mono {tr tr' : List (Core × Instr)} {a : AttemptId} (h : completedIn tr a) :
    completedIn (tr ++ tr') a := by
  obtain ⟨x, hx, ha⟩ := h
  exact ⟨x, List.mem_append_left _ hx, ha⟩

/-- The attempts of `κ'` that `κ` has not seen are pending. -/
def Conn.Opens (κ κ' : Conn) : Prop :=
  ∀ a, κ.attemptCount ≤ a → a < κ'.attemptCount → (κ'.attempts a).state = .pending

theorem Conn.Opens.of_count {κ κ' : Conn} (h : κ'.attemptCount = κ.attemptCount) : κ.Opens κ' :=
  fun _ ha ha' => absurd (h ▸ ha') (Nat.not_lt.mpr ha)

theorem begin_opens {κ κ₁ : Conn} (c : ClientId) (h : κ₁.attemptCount = κ.attemptCount) :
    κ.Opens (κ₁.beginConnectionAttempt c).1 := by
  unfold Conn.beginConnectionAttempt
  split
  · exact .of_count h
  · intro a ha ha'
    have hlast : a = κ₁.attemptCount :=
      Nat.le_antisymm (Nat.le_of_lt_succ ha') (h.trans_le ha)
    simp [Conn.setManager, Conn.setClient, Conn.newAttempt, hlast]

theorem managerFor_attemptCount (κ : Conn) (name : String) (forceNew : Bool) :
    (κ.managerFor name forceNew).1.attemptCount = κ.attemptCount := by
  unfold Conn.managerFor
  split
  · rfl
  · split
    · rfl
    · split <;> rfl

/-- Every attempt is pending when it begins. -/
theorem exec_opens (σ : Core) (i : Instr) : σ.conn.Opens (exec P i σ).core.conn := by
  cases i with
  | conn i =>
      show σ.conn.Opens (execConn P σ i).part
      cases i with
      | openClient name b f =>
          have hcount := managerFor_attemptCount σ.conn name f
          simp only [execConn, openClient]
          split
          · exact begin_opens _ hcount
          · split <;> exact .of_count hcount
      | connect c =>
          simp only [execConn, connect]
          split
          · exact .of_count rfl
          · split
            · exact .of_count rfl
            · exact begin_opens c rfl
      | admitDynamic c => exact begin_opens c rfl
      | newServerSocket a n =>
          simp only [execConn, newServerSocket]
          split <;> exact .of_count rfl
      | rejectConnectionAttempt a err =>
          simp only [execConn, rejectConnectionAttempt]
          split <;> exact .of_count rfl
      | rejectConnectionAttemptRest a err =>
          simp only [execConn, rejectConnectionAttemptRest]
          split <;> exact .of_count rfl
      | cancelConnectionAttempt c =>
          simp only [execConn, cancelConnectionAttempt]
          split
          · exact .of_count rfl
          · split <;> exact .of_count rfl
      | completeConnectionAttempt a s =>
          simp only [execConn, completeConnectionAttempt]
          split
          · exact .of_count rfl
          · split <;> exact .of_count rfl
      | markDisconnected c r =>
          simp only [execConn, markDisconnected]
          split <;> exact .of_count rfl
      | setAuth c b | attachNamespace c n | cancelConnectionAttemptRest c => exact .of_count rfl
  | _ => exact .of_count rfl

/-! ## 2. The condition -/

/-- **The condition**: no attempt is rejected or cancelled, while it is pending, after its server
    socket has been admitted. -/
def EndsUnadmitted (P : Platform) : State → Action Instr → Prop :=
  (runtime P).Obeys fun σ i => ∀ a, σ.endsAttempt i = some a →
    ∀ s, (σ.conn.attempts a).serverSocket = some s → .admitted s ∉ σ.log

instance (σ : State) (a : Action Instr) : Decidable (EndsUnadmitted P σ a) :=
  have (σ : Core) (i : Instr) : Decidable (∀ a, σ.endsAttempt i = some a →
      ∀ s, (σ.conn.attempts a).serverSocket = some s → .admitted s ∉ σ.log) :=
    inferInstanceAs (Decidable (∀ a ∈ σ.endsAttempt i,
      ∀ s ∈ (σ.conn.attempts a).serverSocket, .admitted s ∉ σ.log))
  inferInstanceAs (Decidable ((runtime P).Obeys _ σ a))

/-- The `finally` blocks leave the connections and the log alone. -/
theorem conn_keeping (P : Platform) :
    Keeping (runtime P) fun σ σ' => σ'.conn = σ.conn ∧ σ'.log = σ.log where
  refl _ := ⟨rfl, rfl⟩
  trans h h' := ⟨h'.1.trans h.1, h'.2.trans h.2⟩
  run σ i hr := by
    rcases onThrow_run hr with ⟨s, rfl⟩ | ⟨s, rfl⟩ | ⟨x, rfl⟩ <;> exact ⟨rfl, rfl⟩

/-! ## 3. Admitted, completed, offered -/

variable {C : State → Action Instr → Prop} {σ : State} {tr : List (Core × Instr)}

/-- **What the history says of attempts and offers**: the attempt of an admitted socket is pending
    or has been completed, and so has every attempt that is connected; who is offered has been
    admitted. -/
structure Enrolled (tr : List (Core × Instr)) (σ : State) : Prop where
  admitted : ∀ s, .admitted s ∈ σ.core.log →
    (σ.core.conn.attempts (σ.core.conn.sockets s).attempt).state = .pending ∨
      completedIn tr (σ.core.conn.sockets s).attempt
  connected : ∀ a < σ.core.conn.attemptCount, (σ.core.conn.attempts a).state = .connected →
    completedIn tr a
  offered : ∀ n s, s ∈ (queueIn n tr).givers → .admitted s ∈ σ.core.log

theorem queueOps_offer {σ : Core} {n : NspId} {i : Instr} {s : SocketId}
    (h : Op.offer s ∈ σ.queueOps n i) : i = .srv (.offer s) := by
  unfold Core.queueOps at h
  split at h
  · split at h
    · cases List.mem_singleton.mp h
      rfl
    · cases h
  · split at h
    · cases List.mem_singleton.mp h
    · cases h
  · split at h
    · cases List.mem_singleton.mp h
    · cases h
  · split at h
    · cases List.mem_singleton.mp h
    · cases h
  · split at h
    · obtain ⟨o, -, he⟩ := List.mem_map.mp h
      cases he
    · cases h
  · cases h

theorem mem_foldl_givers {s : SocketId} {q : Queue ObserverId SocketId}
    {ops : List (Op ObserverId SocketId)} (h : s ∈ (ops.foldl Queue.apply q).givers) :
    s ∈ q.givers ∨ Op.offer s ∈ ops := by
  induction ops generalizing q with
  | nil => exact Or.inl h
  | cons op ops ih =>
      rcases ih h with h | h
      · rcases Queue.mem_apply_givers h with h | rfl
        · exact Or.inl h
        · exact Or.inr List.mem_cons_self
      · exact Or.inr (List.mem_cons_of_mem _ h)

/-- Who has been admitted is attached to its attempt. -/
theorem reach_admitted (h : (runtime P).Reach C newServer σ) {s : SocketId}
    (hs : .admitted s ∈ σ.core.log) : σ.core.conn.Attached s := by
  have hA := (h.inv_ok (attachment_inductive P) (fun _ _ _ _ _ _ _ => trivial)
    ⟨⟨newServer_wf P, newServer_attachment⟩, nofun, .nil⟩).inv.2
  exact hA.reached s _ hs rfl

theorem Enrolled.step {σ' : State} {a : Action Instr} (h : Enrolled tr σ)
    (hr : (runtime P).Reach (EndsUnadmitted P) newServer σ) (hc : EndsUnadmitted P σ a)
    (hs : (runtime P).step σ a = some σ') : Enrolled (tr ++ (runtime P).taken σ a) σ' := by
  obtain ⟨hw, hvalid⟩ := reach_wf hr
  rcases (conn_keeping P).step hs with ⟨i, τ, rfl, hn, ht, hconn, hlog⟩ | ⟨ht, hconn, hlog⟩
  · have hv : i.Valid σ.core := hvalid i (next_mem hn).1
    have hends := hc rfl i τ hn
    rw [(next_mem hn).2] at hends
    have hE := conn_extends (P := P) hw hv
    have hnow : ∀ b, σ.core.completes i = some b →
        completedIn (tr ++ [(σ.core, i)]) b := fun b hb =>
      ⟨_, List.mem_append_right _ (List.mem_singleton_self _), hb⟩
    have hmark : ∀ c r b, i = .conn (.markDisconnected c r) →
        (σ.core.conn.clients c).connectionAttempt = some b →
        (σ.core.conn.attempts b).state ≠ .pending := by
      rintro c r b rfl hb
      exact (reach_marks hr hn).2 b hb
    rw [ht]
    refine ⟨fun s hs' => ?_, fun b hb hst => ?_, fun n s hg => ?_⟩
    · rw [hlog] at hs'
      obtain ⟨es, hes, hrec⟩ := exec_log P i σ.core
      rw [show ((runtime P).exec i σ.core).core.log = es ++ σ.core.log from hes] at hs'
      rcases List.mem_append.mp hs' with he | hold
      · -- the socket enters its roster now, and nothing happens to its attempt
        obtain rfl : i = .memb (.enter s) := records_admitted (hrec _ he)
        rw [hconn]
        rcases (reach_enrols hr hn rfl).2 rfl with hp | hcon
        · exact Or.inl hp
        · have hlt := (hv (.socket s) (List.mem_singleton_self _) : s < σ.core.conn.socketCount)
          exact Or.inr (h.connected _ (hw.conn.socket s hlt).2.1 hcon).mono
      · have hat := reach_admitted hr hold
        have hlt := hat.valid hw.conn
        rw [hconn, show ((runtime P).exec i σ.core).core.conn.sockets s = _ from hE.socketOf s hlt]
        rcases h.admitted s hold with hp | hdone
        · rcases state_exec (P := P) i (hw.conn.socket s hlt).2.1 with
            he | ⟨hc', -⟩ | ⟨he, -⟩ | ⟨c, r, rfl, hcur, -⟩
          · exact Or.inl (he.trans hp)
          · exact Or.inr (hnow _ hc')
          · exact absurd hold (hends _ he s hat)
          · exact absurd hp (hmark c r _ rfl hcur)
        · exact Or.inr hdone.mono
    · rw [hconn] at hb hst
      rcases Nat.lt_or_ge b σ.core.conn.attemptCount with hlt | hge
      · rcases state_exec (P := P) i hlt with he | ⟨hc', -⟩ | ⟨-, he | he⟩ | ⟨c, r, -, -, he⟩
        · exact (h.connected b hlt (he.symm.trans hst)).mono
        · exact hnow b hc'
        · cases he.symm.trans hst
        · cases he.symm.trans hst
        · cases he.symm.trans hst
      · cases (exec_opens _ i b hge hb).symm.trans hst
    · rw [queueIn_append, List.flatMap_singleton] at hg
      rw [hlog]
      rcases mem_foldl_givers hg with hg | ho
      · exact mem_log (h.offered n s hg)
      · obtain rfl := queueOps_offer ho
        exact mem_log ((reach_enrols hr hn rfl).1 rfl)
  · rw [ht, List.append_nil]
    refine ⟨fun s hs' => ?_, fun b hb hst => ?_, fun n s hg => ?_⟩
    · rw [hconn]
      exact h.admitted s (hlog ▸ hs')
    · rw [hconn] at hb hst
      exact h.connected b hb hst
    · rw [hlog]
      exact h.offered n s hg

theorem run_enrolled (h : (runtime P).Run (EndsUnadmitted P) newServer tr σ) : Enrolled tr σ := by
  induction h with
  | start => exact ⟨nofun, fun a ha => absurd ha (Nat.not_lt_zero a), nofun⟩
  | step hr hc hs ih => exact ih.step hr.reach hc hs

/-! ## 4. Nobody is given a withdrawn socket -/

/-- The attempt of `s` was rejected or cancelled, and its client never connected through it. -/
def Withdrawn (tr : List (Core × Instr)) (σ : State) (s : SocketId) : Prop :=
  ((σ.core.conn.attempts (σ.core.conn.sockets s).attempt).state = .rejected ∨
      (σ.core.conn.attempts (σ.core.conn.sockets s).attempt).state = .cancelled) ∧
    ¬ completedIn tr (σ.core.conn.sockets s).attempt

instance (tr : List (Core × Instr)) (a : AttemptId) : Decidable (completedIn tr a) :=
  inferInstanceAs (Decidable (∃ x ∈ tr, x.1.completes x.2 = some a))

instance (tr : List (Core × Instr)) (σ : State) (s : SocketId) : Decidable (Withdrawn tr σ s) :=
  inferInstanceAs (Decidable (_ ∧ _))

/-- Under the condition, the socket of a withdrawn attempt was never offered. -/
theorem Enrolled.unoffered (h : Enrolled tr σ) {s : SocketId} (hs : Withdrawn tr σ s) (n : NspId) :
    s ∉ (queueIn n tr).givers := by
  intro hg
  obtain ⟨hstate, hnever⟩ := hs
  rcases h.admitted s (h.offered n s hg) with hp | hdone
  · rw [hp] at hstate
    rcases hstate with he | he <;> cases he
  · exact hnever hdone

/-- **A withdrawn attempt costs no observer.** In every run in which no pending attempt is rejected
    or cancelled after its server socket has been admitted: no observer gets, or is about to get,
    the server socket of an attempt that was withdrawn, and it does not lie in `ready`. What a
    namespace keeps is what its queue leaves over, and the observers and the sockets that are
    offered meet in order. -/
theorem withdrawn_unserved (h : (runtime P).Run (EndsUnadmitted P) newServer tr σ) :
    (∀ s, Withdrawn tr σ s →
      (∀ o, σ.core.srv.observers o ≠ .resolved s ∧
          .srv (.settleObserver o (.resolved s)) ∉ σ.pending) ∧
        ∀ n, s ∉ (σ.core.srv.namespaces n).ready) ∧
    (∀ n, (σ.core.srv.namespaces n).ready = (queueIn n tr).ready ∧
      (σ.core.srv.namespaces n).waiters.map Waiter.observer = (queueIn n tr).waiting ∧
      ∀ o s, (o, s) ∈ (queueIn n tr).pairs →
        σ.core.srv.observers o = .resolved s ∨ .srv (.settleObserver o (.resolved s)) ∈ σ.queue) ∧
    ∀ o s, σ.core.srv.observers o = .resolved s → ∃ n, (o, s) ∈ (queueIn n tr).pairs := by
  have hans := run_answers h
  have henr := run_enrolled h
  refine ⟨fun s hs => ⟨fun o => ⟨fun ho => ?_, fun hj => ?_⟩, fun n hr => ?_⟩, fun n => ?_,
    hans.resolved⟩
  · obtain ⟨n, hp⟩ := hans.resolved o s ho
    exact henr.unoffered hs n (Queue.mem_givers (Or.inl hp))
  · obtain ⟨n, hp⟩ := hans.settling o s hj
    exact henr.unoffered hs n (Queue.mem_givers (Or.inl hp))
  · rw [(hans.follows n).ready] at hr
    exact henr.unoffered hs n (Queue.mem_givers (t := 0) (Or.inr hr))
  · exact ⟨(hans.follows n).ready, (hans.follows n).waiting, hans.answered n⟩

/-- The first client gives up while the middleware looks at it; the observer gets the second. -/
theorem withdrawn_unserved_second :
    ∃ tr σ, (runtime unary).Run (EndsUnadmitted unary) newServer tr σ ∧ Withdrawn tr σ 0 ∧
      σ.core.srv.observers 0 = .resolved 1 ∧ ∀ o, σ.core.srv.observers o ≠ .resolved 0 := by
  obtain ⟨tr, σ, hσ, hp⟩ := run_of_script (runtime unary) (EndsUnadmitted unary) newServer 100
    [.call (.srv (.use 0 0)), .call (.srv (.nextConnection "/")),
      .call (.srv (.serverConnect "/" false false)), .run, .ret, .call (.ctl (.clientDisconnect 0)),
      .call (.srv (.serverConnect "/" false true)), .run, .call (.life (.next 1 0 none)), .ret, .run,
      .ret, .ret]
    (fun x => decide (Withdrawn x.1 x.2 0 ∧ x.2.core.srv.observers 0 = .resolved 1))
    (by decide)
  obtain ⟨hw, ho⟩ := of_decide_eq_true hp
  exact ⟨tr, σ, hσ, hw, ho, fun o => (((withdrawn_unserved hσ).1 0 hw).1 o).1⟩

/-- A client that disconnects from inside the `connection` listener is withdrawn, and the observer
    has its server socket. No namespace has middleware here. -/
theorem cancelled_in_handler_served :
    ∃ tr σ, (runtime unary).Run (fun _ _ => True) newServer tr σ ∧ Withdrawn tr σ 0 ∧
      (σ.core.srv.namespaces 0).middleware = [] ∧ σ.core.srv.observers 0 = .resolved 0 := by
  obtain ⟨tr, σ, hσ, hp⟩ := run_of_script (runtime unary) (fun _ _ => True) newServer 100
    [.call (.srv (.nextConnection "/")), .call (.srv (.serverConnect "/" false false)), .run, .run,
      .call (.ctl (.clientDisconnect 0)), .ret, .ret]
    (fun x => decide (Withdrawn x.1 x.2 0 ∧ (x.2.core.srv.namespaces 0).middleware = [] ∧
      x.2.core.srv.observers 0 = .resolved 0))
    (by decide)
  exact ⟨tr, σ, hσ, of_decide_eq_true hp⟩

end Smocket
