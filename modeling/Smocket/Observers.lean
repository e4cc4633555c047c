import Smocket.Namespaces
import Smocket.Rendezvous
import Smocket.Stale
import Smocket.Sections
import Smocket.Traces

/-
  File:      Smocket/Observers.lean
  Subject:   WHO A `nextConnection` OBSERVER GETS. Admitted sockets are offered to the observers of
             their namespace, each side in order.

  A namespace keeps the sockets nobody asked for and the observers nobody answered; together with
  what happened they are a queue with two sides (`queueIn`), in which the k-th observer gets the
  k-th socket.

  * `exec_follows` -- the lists of a namespace follow the queue of the history;
  * `reach_asked` -- an observer waits in one place at most;
  * `run_answers` -- the observers are answered in order, each by the socket the queue gives it;
  * `admitting_atomic` -- between its entry into the roster and its offer a socket is alone.
-/

namespace Smocket

open Ordered EventLoop EventLoop.Machine Rendezvous

variable {P : Platform}

/-! ## 1. The queue of a namespace -/

/-- Whether an adapter factory returned an instance in use, so that nothing is created. -/
def Core.reusesAdapter (σ : Core) : Bool :=
  σ.srv.adapterFactory && decide (σ.srv.factoryResult = .reused)

/-- What an instruction does at the queue of namespace `n`. The observers that waited for the name
    of a new namespace ask it first. -/
def Core.queueOps (σ : Core) (n : NspId) : Instr → List (Op ObserverId SocketId)
  | .srv (.offer s) => if (σ.conn.sockets s).nsp = n then [.offer s] else []
  | .srv (.discardReady s) => if (σ.conn.sockets s).nsp = n then [.discard s] else []
  | .srv (.observe o m) => if m = n then [.take o] else []
  | .srv (.closeNamespace m) => if m = n then [.close] else []
  | .srv (.createNamespace name ..) =>
      if σ.reusesAdapter = false ∧ n = σ.srv.nspCount then
        ((σ.srv.dynamicWaiters.get? name).getD []).map .take
      else []
  | _ => []

/-- The queue of namespace `n` after a history. -/
def queueIn (n : NspId) (tr : List (Core × Instr)) : Queue ObserverId SocketId :=
  (tr.flatMap fun x => x.1.queueOps n x.2).foldl Queue.apply {}

theorem queueIn_append (n : NspId) (tr tr' : List (Core × Instr)) :
    queueIn n (tr ++ tr') =
      (tr'.flatMap fun x => x.1.queueOps n x.2).foldl Queue.apply (queueIn n tr) := by
  unfold queueIn
  rw [List.flatMap_append, List.foldl_append]

/-- The two lists of a namespace are those of a queue. -/
structure Srv.Follows (ν : Srv) (n : NspId) (q : Queue ObserverId SocketId) : Prop where
  ready : (ν.namespaces n).ready = q.ready
  waiting : (ν.namespaces n).waiters.map Waiter.observer = q.waiting

/-- A change that leaves the lists of every namespace alone. -/
structure Srv.SameQueues (ν ν' : Srv) : Prop where
  ready : ∀ n, (ν'.namespaces n).ready = (ν.namespaces n).ready
  waiters : ∀ n, (ν'.namespaces n).waiters = (ν.namespaces n).waiters

theorem Srv.SameQueues.of_eq {ν ν' : Srv} (h : ν'.namespaces = ν.namespaces) : ν.SameQueues ν' :=
  ⟨fun n => by rw [h], fun n => by rw [h]⟩

theorem Srv.SameQueues.trans {ν ν' ν'' : Srv} (h : ν.SameQueues ν') (h' : ν'.SameQueues ν'') :
    ν.SameQueues ν'' :=
  ⟨fun n => (h'.ready n).trans (h.ready n), fun n => (h'.waiters n).trans (h.waiters n)⟩

theorem Srv.SameQueues.setNamespace (ν : Srv) (n : NspId) {g : Namespace → Namespace}
    (hg : ∀ N, (g N).ready = N.ready ∧ (g N).waiters = N.waiters) :
    ν.SameQueues (ν.setNamespace n g) := by
  refine ⟨fun m => ?_, fun m => ?_⟩ <;> simp only [Srv.setNamespace, modify_apply] <;> split
  · rename_i hm
    rw [(hg _).1, hm]
  · rfl
  · rename_i hm
    rw [(hg _).2, hm]
  · rfl

/-- Settling an observer takes nobody out of a queue. -/
theorem Srv.SameQueues.settleWaiter (ν : Srv) (w : Waiter) (x : Observer) :
    ν.SameQueues (settleWaiter ν w x).1 := by
  unfold Smocket.settleWaiter
  split <;> exact .of_eq rfl

theorem Srv.SameQueues.startClose (ν : Srv) : ν.SameQueues ν.startClose :=
  List.foldlRecOn (motive := fun ν' : Srv => ν.SameQueues ν') _ _ (.of_eq rfl)
    fun _ h _ _ => ⟨h.ready, h.waiters⟩

/-- A namespace whose queues stay follows the queue it followed. -/
theorem Srv.Follows.same {ν ν' : Srv} {n : NspId} {q : Queue ObserverId SocketId}
    (h : ν.Follows n q) (hs : ν.SameQueues ν') : ν'.Follows n q :=
  ⟨(hs.ready n).trans h.ready, by rw [hs.waiters n, h.waiting]⟩

/-- The instructions that change a queue. -/
def SrvInstr.queues : SrvInstr → Bool
  | .offer _ | .discardReady _ | .observe .. | .closeNamespace _ | .createNamespace .. => true
  | _ => false

/-- Only what offers, asks, discards or closes changes a queue of a namespace. -/
theorem execSrv_sameQueues {σ : Core} {i : SrvInstr} (hi : i.queues = false) :
    σ.srv.SameQueues (execSrv P σ i).part := by
  cases i with
  | offer | discardReady | observe | closeNamespace | createNamespace => cases hi
  | adapter results =>
      refine adapter_induct (.of_eq rfl) (fun _ => .of_eq rfl)
        fun _ ν' h n r _ => h.trans (.setNamespace ν' n fun N => ?_)
      rw [Namespace.useAdapter_eq]
      exact ⟨rfl, rfl⟩
  | use n f => exact .setNamespace _ _ fun _ => ⟨rfl, rfl⟩
  | nextConnection name =>
      simp only [execSrv, nextConnection]
      split
      · exact .of_eq rfl
      · split
        · exact .of_eq rfl
        · split <;> exact .of_eq rfl
  | continuePair =>
      simp only [execSrv, continuePair]
      split
      · exact .of_eq rfl
      · split
        · exact .of_eq rfl
        · split <;> exact .of_eq rfl
  | authorized =>
      simp only [execSrv, authorized]
      split
      · exact .of_eq rfl
      · split <;> exact .of_eq rfl
  | dynamicTask =>
      simp only [execSrv, dynamicTask]
      split
      · exact .of_eq rfl
      · split <;> exact .of_eq rfl
  | dynamicAuthorized => simp only [execSrv, dynamicAuthorized]; split <;> exact .of_eq rfl
  | tryParent =>
      simp only [execSrv, tryParent]
      split
      · exact .of_eq rfl
      · split <;> exact .of_eq rfl
  | matched => simp only [execSrv, matched]; split <;> exact .of_eq rfl
  | getNamespace => simp only [execSrv, getNamespace]; split <;> exact .of_eq rfl
  | broadcast =>
      simp only [execSrv, broadcast]
      split
      · exact .of_eq rfl
      · exact .setNamespace _ _ (by intro _; rw [Namespace.trace_eq]; exact ⟨rfl, rfl⟩)
  | setDropped =>
      simp only [execSrv, setDropped]
      split
      · exact .of_eq rfl
      · exact .setNamespace _ _ fun _ => ⟨rfl, rfl⟩
  | removeSocket => exact .setNamespace _ _ fun _ => ⟨rfl, rfl⟩
  | close =>
      have hs := Srv.SameQueues.startClose σ.srv
      simp only [execSrv, close]
      split <;> exact ⟨hs.ready, hs.waiters⟩
  | closeFromServer => simp only [execSrv, closeFromServer]; split <;> exact .of_eq rfl
  | awaitClosed => simp only [execSrv, awaitClosed]; split <;> exact .of_eq rfl
  | _ => exact .of_eq rfl

theorem Srv.Follows.other {ν : Srv} {n m : NspId} {q : Queue ObserverId SocketId}
    (h : ν.Follows n q) {g : Namespace → Namespace} (hm : m ≠ n) :
    (ν.setNamespace m g).Follows n q := by
  refine ⟨?_, ?_⟩ <;> simp only [Srv.setNamespace, modify_apply, if_neg (Ne.symm hm)]
  · exact h.ready
  · exact h.waiting

theorem settleWaiters_same (x : Observer) (r : Srv × List Instr) (ws : List Waiter) :
    r.1.SameQueues (settleWaiters x r ws).1 :=
  List.foldlRecOn (motive := fun r' : Srv × List Instr => r.1.SameQueues r'.1) _ _ (.of_eq rfl)
    fun r' h w _ => h.trans (.settleWaiter r'.1 w x)

/-- Observers that ask an untouched queue wait. -/
theorem takes_wait (q : Queue ObserverId SocketId) (hr : q.ready = []) (os : List ObserverId) :
    ((os.map Op.take).foldl Queue.apply q).pairs = q.pairs ∧
      ((os.map Op.take).foldl Queue.apply q).waiting = q.waiting ++ os ∧
      ((os.map Op.take).foldl Queue.apply q).ready = [] := by
  induction os generalizing q with
  | nil => exact ⟨rfl, (List.append_nil _).symm, hr⟩
  | cons o os ih =>
      obtain ⟨hp, hw, hr'⟩ := Queue.take_waits (t := o) hr
      obtain ⟨hp', hw', hr''⟩ := ih _ hr'
      exact ⟨hp'.trans hp, by rw [List.map_cons, List.foldl_cons, hw', hw]; simp, hr''⟩

/-- **The lists of a namespace follow the queue of the history.** -/
theorem exec_follows {σ : Core} (h : σ.Homed) {i : Instr} {n : NspId}
    {q : Queue ObserverId SocketId} (hq : σ.srv.Follows n q) :
    (exec P i σ).core.srv.Follows n ((σ.queueOps n i).foldl Queue.apply q) := by
  cases i with
  | srv i =>
      cases hi : i.queues with
      | false =>
          have hops : σ.queueOps n (.srv i) = [] := by cases i <;> first | rfl | cases hi
          rw [hops]
          exact hq.same (execSrv_sameQueues hi)
      | true =>
          cases i with
          | offer s =>
              show (offer σ s).part.Follows n _
              by_cases hn : (σ.conn.sockets s).nsp = n
              · subst hn
                simp only [Core.queueOps, if_true, List.foldl_cons, List.foldl_nil]
                unfold offer
                dsimp only
                cases hw : (σ.srv.namespaces (σ.conn.sockets s).nsp).waiters with
                | nil =>
                    have hq' : q.waiting = [] := by rw [← hq.waiting, hw]; rfl
                    obtain ⟨-, hw', hr'⟩ := Queue.offer_waits (g := s) hq'
                    refine ⟨?_, ?_⟩ <;> simp only [Srv.setNamespace, modify_apply, if_true]
                    · rw [hr', hq.ready]
                    · rw [hw', hw]
                      rfl
                | cons w ws =>
                    have hq' : q.waiting = w.observer :: ws.map Waiter.observer := by
                      rw [← hq.waiting, hw]
                      rfl
                    obtain ⟨-, hw', hr'⟩ := Queue.offer_serves (g := s) hq'
                    refine Srv.Follows.same ?_ (.settleWaiter _ w _)
                    refine ⟨?_, ?_⟩ <;> simp only [Srv.setNamespace, modify_apply, if_true]
                    · rw [hr', hq.ready]
                    · rw [hw']
              · simp only [Core.queueOps, if_neg hn, List.foldl_nil]
                unfold offer
                dsimp only
                split
                · exact hq.other hn
                · exact (hq.other hn).same (.settleWaiter _ _ _)
          | discardReady s =>
              show (discardReady σ s).part.Follows n _
              by_cases hn : (σ.conn.sockets s).nsp = n
              · subst hn
                simp only [Core.queueOps, if_true, List.foldl_cons, List.foldl_nil, discardReady]
                obtain ⟨-, hw, hr⟩ := Queue.discard_spec q s
                refine ⟨?_, ?_⟩ <;> simp only [Srv.setNamespace, modify_apply, if_true]
                · rw [hr, hq.ready]
                · rw [hw, hq.waiting]
              · simp only [Core.queueOps, if_neg hn, List.foldl_nil]
                exact hq.other hn
          | observe o m =>
              show (observe σ o m).part.Follows n _
              by_cases hn : m = n
              · subst hn
                simp only [Core.queueOps, if_true, List.foldl_cons, List.foldl_nil]
                unfold observe
                cases hr : (σ.srv.namespaces m).ready with
                | nil =>
                    obtain ⟨-, hw', hr'⟩ := Queue.take_waits (t := o) (hq.ready.symm.trans hr)
                    refine ⟨?_, ?_⟩ <;> simp only [Srv.setNamespace, modify_apply, if_true]
                    · rw [hr', hr]
                    · rw [hw', List.map_append, hq.waiting]
                      rfl
                | cons s rest =>
                    obtain ⟨-, hw', hr'⟩ := Queue.take_serves (t := o) (hq.ready.symm.trans hr)
                    refine ⟨?_, ?_⟩ <;>
                      simp only [Srv.setObserver, Srv.setNamespace, modify_apply, if_true]
                    · rw [hr']
                    · rw [hw', hq.waiting]
              · simp only [Core.queueOps, if_neg hn, List.foldl_nil]
                unfold observe
                split
                · rename_i rest _
                  have h' := hq.other (g := fun N => { N with ready := rest }) hn
                  exact ⟨h'.ready, h'.waiting⟩
                · exact hq.other hn
          | closeNamespace m =>
              show (closeNamespace σ m).part.Follows n _
              have hsame := settleWaiters_same .rejected
                (σ.srv.setNamespace m fun N => { N with closed := true, ready := [], waiters := [] },
                  []) (σ.srv.namespaces m).waiters
              refine Srv.Follows.same ?_ ⟨hsame.ready, hsame.waiters⟩
              by_cases hn : m = n
              · subst hn
                simp only [Core.queueOps, if_true, List.foldl_cons, List.foldl_nil]
                obtain ⟨-, hw, hr⟩ := Queue.close_spec q
                refine ⟨?_, ?_⟩ <;> simp only [Srv.setNamespace, modify_apply, if_true]
                · rw [hr]
                · rw [hw]
                  rfl
              · simp only [Core.queueOps, if_neg hn, List.foldl_nil]
                exact hq.other hn
          | createNamespace name attachTo closed k =>
              show (createNamespace σ name attachTo closed k).part.Follows n _
              unfold createNamespace
              split
              · rename_i hre
                have hre' : σ.reusesAdapter = true := hre
                simp only [Core.queueOps, hre', Bool.true_eq_false, false_and, if_false,
                  List.foldl_nil]
                split <;> exact hq
              · rename_i hre
                have hre' : σ.reusesAdapter = false := Bool.eq_false_iff.mpr hre
                refine Srv.Follows.same (ν := σ.srv.register name
                  (σ.srv.newNamespace name attachTo closed)) ?_
                    (by cases attachTo <;> exact .of_eq rfl)
                by_cases hn : n = σ.srv.nspCount
                · simp only [Core.queueOps, hre', hn, and_self, if_true]
                  obtain ⟨hr, hw⟩ := h.srv.unborn n hn.ge
                  obtain ⟨-, hw', hr'⟩ := takes_wait q (hq.ready.symm.trans hr)
                    ((σ.srv.dynamicWaiters.get? name).getD [])
                  rw [← hq.waiting, hw] at hw'
                  obtain ⟨-, -, hready, hwaiters⟩ :=
                    σ.srv.newNamespace_spec name attachTo closed
                  refine ⟨?_, ?_⟩ <;> simp only [Srv.register, Function.update_self]
                  · rw [hr', hready]
                  · rw [hw', hwaiters]
                    simp [Function.comp_def]
                · simp only [Core.queueOps, hre', hn, and_false, if_false, List.foldl_nil]
                  refine ⟨?_, ?_⟩ <;> simp only [Srv.register, Function.update_of_ne hn]
                  · exact hq.ready
                  · exact hq.waiting
          | _ => cases hi
  | _ => exact hq

/-! ## 2. Every observer is asked in one place -/

/-- The observers that wait for a name, and those that wait in a namespace. -/
def Srv.asking (ν : Srv) : String ⊕ NspId → List ObserverId
  | .inl name => (ν.dynamicWaiters.get? name).getD []
  | .inr n => (ν.namespaces n).waiters.map Waiter.observer

/-- **An observer waits in one place, once**, and it has not settled. -/
structure Srv.Asked (ν : Srv) : Prop where
  nodup : ∀ p, (ν.asking p).Nodup
  apart : ∀ p p' o, o ∈ ν.asking p → o ∈ ν.asking p' → p = p'
  waiting : ∀ p, ∀ o ∈ ν.asking p, o < ν.observerCount ∧ ν.observers o = .waiting
  unborn : ∀ o, ν.observerCount ≤ o → ν.observers o = .waiting

/-- The observer a pending instruction will ask or settle. -/
def Instr.asks : Instr → Option ObserverId
  | .srv (.getNamespace _ _ (.observe o)) | .srv (.createNamespace _ _ _ (.observe o))
  | .srv (.createNamespaceRest _ (.observe o)) | .srv (.observe o _)
  | .srv (.settleObserver o _) => some o
  | _ => none

/-- An observer that neither waits nor has settled. -/
structure Srv.Free (ν : Srv) (o : ObserverId) : Prop where
  born : o < ν.observerCount
  waiting : ν.observers o = .waiting
  nowhere : ∀ p, o ∉ ν.asking p

/-- An observer that is about to wait waits nowhere yet. -/
def Core.AsksFree (σ : Core) (i : Instr) : Prop := ∀ o, i.asks = some o → σ.srv.Free o

/-- Whose answer an instruction may change. -/
def Core.Concerns (σ : Core) (i : Instr) (o : ObserverId) : Prop :=
  i.asks = some o ∨ (∃ p, o ∈ σ.srv.asking p) ∨ σ.srv.observerCount ≤ o

/-- A change that takes observers away from where they wait, and settles none of the others. -/
structure Srv.Dismisses (ν ν' : Srv) : Prop where
  asking : ∀ p, (ν'.asking p).Sublist (ν.asking p)
  count : ν'.observerCount = ν.observerCount
  observers : ∀ o, (∀ p, o ∉ ν.asking p) → ν'.observers o = ν.observers o
  kept : ∀ p, ∀ o ∈ ν'.asking p, ν'.observers o = ν.observers o

namespace Srv.Dismisses

variable {ν ν' : Srv}

theorem of_eq (ha : ∀ p, ν'.asking p = ν.asking p) (hc : ν'.observerCount = ν.observerCount)
    (ho : ν'.observers = ν.observers) : ν.Dismisses ν' :=
  ⟨fun p => ha p ▸ List.Sublist.refl _, hc, fun _ _ => by rw [ho], fun _ _ _ => by rw [ho]⟩

/-- A change of namespaces that leaves who waits alone. -/
theorem of_same (h : ν.SameQueues ν') (hd : ν'.dynamicWaiters = ν.dynamicWaiters)
    (hc : ν'.observerCount = ν.observerCount) (ho : ν'.observers = ν.observers) :
    ν.Dismisses ν' := by
  refine of_eq (fun p => ?_) hc ho
  cases p with
  | inl name => simp only [Srv.asking, hd]
  | inr n => simp only [Srv.asking, h.waiters n]

/-- Dismissing observers keeps the rest of them where they wait. -/
theorem asked (h : ν.Dismisses ν') (ha : ν.Asked) : ν'.Asked where
  nodup p := (ha.nodup p).sublist (h.asking p)
  apart p p' o ho ho' := ha.apart p p' o ((h.asking p).subset ho) ((h.asking p').subset ho')
  waiting p o ho := by
    obtain ⟨hlt, hw⟩ := ha.waiting p o ((h.asking p).subset ho)
    exact ⟨h.count ▸ hlt, (h.kept p o ho).trans hw⟩
  unborn o ho := by
    rw [h.count] at ho
    exact (h.observers o fun p hp => Nat.not_lt.mpr ho (ha.waiting p o hp).1).trans (ha.unborn o ho)

/-- Whoever waits nowhere is still waiting nowhere. -/
theorem free (h : ν.Dismisses ν') {o : ObserverId} (hf : ν.Free o) : ν'.Free o where
  born := h.count ▸ hf.born
  waiting := (h.observers o hf.nowhere).trans hf.waiting
  nowhere p hp := hf.nowhere p ((h.asking p).subset hp)

/-- Who waited and waits no longer is free, if it has not been settled. -/
theorem freed (h : ν.Dismisses ν') (ha : ν.Asked) {p : String ⊕ NspId} {o : ObserverId}
    (ho : o ∈ ν.asking p) (hp : o ∉ ν'.asking p) (hs : ν'.observers o = ν.observers o) :
    ν'.Free o where
  born := h.count ▸ (ha.waiting p o ho).1
  waiting := hs.trans (ha.waiting p o ho).2
  nowhere p' hp' := by
    obtain rfl := ha.apart p p' o ho ((h.asking p').subset hp')
    exact hp hp'

end Srv.Dismisses

/-- What an instruction does to the observers it does not concern: nothing. -/
structure Core.Attends (σ : Core) (i : Instr) (ν' : Srv) : Prop where
  asked : ν'.Asked
  free : ∀ o, σ.srv.Free o → i.asks ≠ some o → ν'.Free o
  kept : ∀ o, ¬ σ.Concerns i o → ν'.observers o = σ.srv.observers o

theorem Srv.Dismisses.attends {σ : Core} {i : Instr} {ν' : Srv} (h : σ.srv.Dismisses ν')
    (ha : σ.srv.Asked) : σ.Attends i ν' where
  asked := h.asked ha
  free _ hf _ := h.free hf
  kept o ho := h.observers o fun p hp => ho (Or.inr (Or.inl ⟨p, hp⟩))

/-- Settling a free observer. -/
theorem Srv.Free.settle {ν : Srv} {o : ObserverId} (hf : ν.Free o) (ha : ν.Asked) (x : Observer) :
    (ν.setObserver o x).Asked ∧ ∀ o', o' ≠ o → (ν.Free o' → (ν.setObserver o x).Free o') ∧
      (ν.setObserver o x).observers o' = ν.observers o' := by
  have hother : ∀ o', o' ≠ o → (ν.setObserver o x).observers o' = ν.observers o' :=
    fun o' ho => Function.update_of_ne ho _ _
  refine ⟨⟨ha.nodup, ha.apart, fun p o' ho' => ⟨(ha.waiting p o' ho').1, ?_⟩, fun o' ho' => ?_⟩,
    fun o' ho => ⟨fun hf' => ⟨hf'.born, (hother o' ho).trans hf'.waiting, hf'.nowhere⟩,
      hother o' ho⟩⟩
  · rw [hother o' fun he => hf.nowhere p (he ▸ ho')]
    exact (ha.waiting p o' ho').2
  · rw [hother o' fun he => Nat.not_lt.mpr ho' (he ▸ hf.born)]
    exact ha.unborn o' ho'

/-- Nobody waits twice after a free observer has been asked to wait. -/
theorem Srv.Asked.append {ν ν' : Srv} (ha : ν.Asked) {p : String ⊕ NspId} {o : ObserverId}
    (hf : ν.Free o) (hp : ν'.asking p = ν.asking p ++ [o])
    (hother : ∀ p', p' ≠ p → ν'.asking p' = ν.asking p') (hc : ν'.observerCount = ν.observerCount)
    (ho : ν'.observers = ν.observers) : ν'.Asked := by
  have hmem : ∀ {p' o'}, o' ∈ ν'.asking p' → o' ∈ ν.asking p' ∨ (p' = p ∧ o' = o) := by
    intro p' o' h
    by_cases hpp : p' = p
    · subst hpp
      rw [hp] at h
      exact (List.mem_append.mp h).imp id fun h => ⟨rfl, List.mem_singleton.mp h⟩
    · exact Or.inl (hother p' hpp ▸ h)
  refine ⟨fun p' => ?_, fun p₁ p₂ o' h₁ h₂ => ?_, fun p' o' h => ?_, fun o' h => ?_⟩
  · by_cases hpp : p' = p
    · subst hpp
      rw [hp, List.nodup_append]
      refine ⟨ha.nodup p', List.nodup_singleton o, fun a h₁ b h₂ hab => hf.nowhere p' ?_⟩
      rw [← List.mem_singleton.mp h₂, ← hab]
      exact h₁
    · rw [hother p' hpp]
      exact ha.nodup p'
  · rcases hmem h₁ with h₁ | ⟨hp₁, ho₁⟩ <;> rcases hmem h₂ with h₂ | ⟨hp₂, ho₂⟩
    · exact ha.apart p₁ p₂ o' h₁ h₂
    · exact absurd (ho₂ ▸ h₁) (hf.nowhere p₁)
    · exact absurd (ho₁ ▸ h₂) (hf.nowhere p₂)
    · exact hp₁.trans hp₂.symm
  · rw [hc, ho]
    rcases hmem h with h | ⟨rfl, rfl⟩
    · exact ha.waiting p' o' h
    · exact ⟨hf.born, hf.waiting⟩
  · rw [ho]
    exact ha.unborn o' (hc ▸ h)

/-- The instructions that move or settle an observer. -/
def SrvInstr.stirs : SrvInstr → Bool
  | .nextConnection _ | .createNamespace .. | .observe .. | .settleObserver .. | .offer _ | .close
  | .closeNamespace _ => true
  | _ => false

/-- The other instructions leave the observers alone. -/
theorem execSrv_unstirred {σ : Core} {i : SrvInstr} (hi : i.stirs = false) :
    (execSrv P σ i).part.dynamicWaiters = σ.srv.dynamicWaiters ∧
      (execSrv P σ i).part.observerCount = σ.srv.observerCount ∧
      (execSrv P σ i).part.observers = σ.srv.observers := by
  cases i with
  | nextConnection | createNamespace | observe | settleObserver | offer | close | closeNamespace =>
      cases hi
  | adapter results =>
      exact adapter_induct (motive := fun ν =>
          ν.dynamicWaiters = σ.srv.dynamicWaiters ∧ ν.observerCount = σ.srv.observerCount ∧
            ν.observers = σ.srv.observers)
        ⟨rfl, rfl, rfl⟩ (fun _ => ⟨rfl, rfl, rfl⟩) fun _ _ h _ _ _ => h
  | continuePair =>
      simp only [execSrv, continuePair]
      split
      · exact ⟨rfl, rfl, rfl⟩
      · split
        · exact ⟨rfl, rfl, rfl⟩
        · split <;> exact ⟨rfl, rfl, rfl⟩
  | authorized =>
      simp only [execSrv, authorized]
      split
      · exact ⟨rfl, rfl, rfl⟩
      · split <;> exact ⟨rfl, rfl, rfl⟩
  | dynamicTask =>
      simp only [execSrv, dynamicTask]
      split
      · exact ⟨rfl, rfl, rfl⟩
      · split <;> exact ⟨rfl, rfl, rfl⟩
  | dynamicAuthorized => simp only [execSrv, dynamicAuthorized]; split <;> exact ⟨rfl, rfl, rfl⟩
  | tryParent =>
      simp only [execSrv, tryParent]
      split
      · exact ⟨rfl, rfl, rfl⟩
      · split <;> exact ⟨rfl, rfl, rfl⟩
  | matched => simp only [execSrv, matched]; split <;> exact ⟨rfl, rfl, rfl⟩
  | getNamespace => simp only [execSrv, getNamespace]; split <;> exact ⟨rfl, rfl, rfl⟩
  | broadcast => simp only [execSrv, broadcast]; split <;> exact ⟨rfl, rfl, rfl⟩
  | setDropped => simp only [execSrv, setDropped]; split <;> exact ⟨rfl, rfl, rfl⟩
  | closeFromServer => simp only [execSrv, closeFromServer]; split <;> exact ⟨rfl, rfl, rfl⟩
  | awaitClosed => simp only [execSrv, awaitClosed]; split <;> exact ⟨rfl, rfl, rfl⟩
  | _ => exact ⟨rfl, rfl, rfl⟩

/-- Apart from these, an instruction leaves who waits alone. -/
theorem execSrv_dismisses {σ : Core} {i : SrvInstr} (hi : i.stirs = false) :
    σ.srv.Dismisses (execSrv P σ i).part := by
  obtain ⟨hd, hc, ho⟩ := execSrv_unstirred (P := P) (σ := σ) hi
  by_cases hq : i.queues = false
  · exact .of_same (execSrv_sameQueues hq) hd hc ho
  · have hdis : ∃ s, i = .discardReady s := by
      cases i with
      | discardReady s => exact ⟨s, rfl⟩
      | createNamespace | observe | offer | closeNamespace => cases hi
      | _ => exact absurd rfl hq
    obtain ⟨s, rfl⟩ := hdis
    refine .of_eq (fun p => ?_) rfl rfl
    cases p with
    | inl name => rfl
    | inr n =>
        simp only [Srv.asking, execSrv, discardReady, Srv.setNamespace, modify_apply]
        split
        · rename_i hn
          rw [hn]
        · rfl

/-- Settling waiters that no longer wait. -/
theorem settleWaiters_observers (x : Observer) (ws : List Waiter) (r : Srv × List Instr)
    {o : ObserverId} (ho : o ∉ ws.map Waiter.observer) :
    (settleWaiters x r ws).1.observers o = r.1.observers o := by
  unfold settleWaiters
  induction ws generalizing r with
  | nil => rfl
  | cons w ws ih =>
      simp only [List.map_cons, List.mem_cons, not_or] at ho
      rw [List.foldl_cons, ih _ ho.2]
      unfold settleWaiter
      split
      · rfl
      · exact Function.update_of_ne ho.1 _ _

theorem asking_setNamespace (ν : Srv) (n : NspId) (g : Namespace → Namespace)
    (p : String ⊕ NspId) : (ν.setNamespace n g).asking p =
      if p = .inr n then (g (ν.namespaces n)).waiters.map Waiter.observer else ν.asking p := by
  cases p with
  | inl name => rw [if_neg nofun]; rfl
  | inr m =>
      simp only [Srv.asking, Srv.setNamespace, modify_apply, Sum.inr.injEq]
      split <;> rfl

theorem asking_settleWaiter (ν : Srv) (w : Waiter) (x : Observer) (p : String ⊕ NspId) :
    (settleWaiter ν w x).1.asking p = ν.asking p := by
  unfold settleWaiter
  split <;> cases p <;> rfl

theorem settleWaiter_rest (ν : Srv) (w : Waiter) (x : Observer) :
    (settleWaiter ν w x).1.dynamicWaiters = ν.dynamicWaiters ∧
      (settleWaiter ν w x).1.observerCount = ν.observerCount := by
  unfold settleWaiter
  split <;> exact ⟨rfl, rfl⟩

/-- An offer dismisses the observer that waited longest. -/
theorem offer_dismisses {σ : Core} (ha : σ.srv.Asked) (s : SocketId) :
    σ.srv.Dismisses (offer σ s).part := by
  unfold offer
  dsimp only
  cases hw : (σ.srv.namespaces (σ.conn.sockets s).nsp).waiters with
  | nil =>
      refine .of_eq (fun p => ?_) rfl rfl
      rw [asking_setNamespace]
      split
      · rename_i hp
        rw [hp]
        rfl
      · rfl
  | cons w ws =>
      have hask : σ.srv.asking (.inr (σ.conn.sockets s).nsp) =
          w.observer :: ws.map Waiter.observer := by
        show (σ.srv.namespaces _).waiters.map Waiter.observer = _
        rw [hw]
        rfl
      have hw' : w.observer ∈ σ.srv.asking (.inr (σ.conn.sockets s).nsp) := by
        rw [hask]
        exact List.mem_cons_self
      have hobs : ∀ o, o ≠ w.observer →
          (settleWaiter (σ.srv.setNamespace (σ.conn.sockets s).nsp fun N =>
            { N with waiters := ws }) w (.resolved s)).1.observers o = σ.srv.observers o := by
        intro o ho
        unfold settleWaiter
        split
        · rfl
        · exact Function.update_of_ne ho _ _
      have hask' : ∀ p, (settleWaiter (σ.srv.setNamespace (σ.conn.sockets s).nsp fun N =>
            { N with waiters := ws }) w (.resolved s)).1.asking p =
          if p = .inr (σ.conn.sockets s).nsp then ws.map Waiter.observer else σ.srv.asking p :=
        fun p => (asking_settleWaiter ..).trans (asking_setNamespace ..)
      refine ⟨fun p => ?_, ?_, fun o ho => ?_, fun p o ho => ?_⟩
      · rw [hask']
        split
        · rename_i hp
          rw [hp, hask]
          exact List.sublist_cons_self _ _
        · exact List.Sublist.refl _
      · exact (settleWaiter_rest ..).2
      · exact hobs o fun he => ho _ (he ▸ hw')
      · refine hobs o fun he => ?_
        rw [hask'] at ho
        split at ho
        · rename_i hp
          have hn := ha.nodup (.inr (σ.conn.sockets s).nsp)
          rw [hask, List.nodup_cons] at hn
          exact hn.1 (he ▸ ho)
        · rename_i hp
          exact hp (ha.apart p _ o ho (he ▸ hw'))

/-- `Server.close` rejects whoever waits for a name, and only those. -/
theorem startClose_spec (ν : Srv) :
    ν.startClose.namespaces = ν.namespaces ∧ ν.startClose.dynamicWaiters = .empty ∧
      ν.startClose.observerCount = ν.observerCount ∧
      ∀ o, o ∉ ν.dynamicWaiters.values.flatten → ν.startClose.observers o = ν.observers o := by
  unfold Srv.startClose
  have hfold : ∀ (os : List ObserverId) (ν' : Srv),
      (os.foldl (fun ν o => ν.setObserver o .rejected) ν').namespaces = ν'.namespaces ∧
      (os.foldl (fun ν o => ν.setObserver o .rejected) ν').dynamicWaiters = ν'.dynamicWaiters ∧
      (os.foldl (fun ν o => ν.setObserver o .rejected) ν').observerCount = ν'.observerCount ∧
      ∀ o, o ∉ os →
        (os.foldl (fun ν o => ν.setObserver o .rejected) ν').observers o = ν'.observers o := by
    intro os
    induction os with
    | nil => exact fun ν' => ⟨rfl, rfl, rfl, fun _ _ => rfl⟩
    | cons a os ih =>
        intro ν'
        obtain ⟨h₁, h₂, h₃, h₄⟩ := ih (ν'.setObserver a .rejected)
        refine ⟨h₁, h₂, h₃, fun o ho => ?_⟩
        rw [List.mem_cons, not_or] at ho
        exact (h₄ o ho.2).trans (Function.update_of_ne ho.1 _ _)
  exact hfold _ _

theorem startClose_dismisses {ν : Srv} (ha : ν.Asked) : ν.Dismisses ν.startClose := by
  obtain ⟨hn, hd, hc, ho⟩ := startClose_spec ν
  have hflat : ∀ o, o ∈ ν.dynamicWaiters.values.flatten → ∃ name, o ∈ ν.asking (.inl name) := by
    intro o h
    obtain ⟨l, hl, hol⟩ := List.mem_flatten.mp h
    obtain ⟨name, hname⟩ := OMap.mem_values.mp hl
    exact ⟨name, by simpa [Srv.asking, hname] using hol⟩
  refine ⟨fun p => ?_, hc, fun o h => ho o fun hf => ?_, fun p o h => ho o fun hf => ?_⟩
  · cases p with
    | inl name => simp [Srv.asking, hd]
    | inr n => simp only [Srv.asking, hn]; exact List.Sublist.refl _
  · obtain ⟨name, hname⟩ := hflat o hf
    exact h _ hname
  · obtain ⟨name, hname⟩ := hflat o hf
    cases p with
    | inl name' => simp [Srv.asking, hd] at h
    | inr n =>
        simp only [Srv.asking, hn] at h
        cases ha.apart (.inl name) (.inr n) o hname h

/-- A namespace that is closed is asked by nobody. -/
theorem closeNamespace_asking (σ : Core) (n : NspId) (p : String ⊕ NspId) :
    (closeNamespace σ n).part.asking p = if p = .inr n then [] else σ.srv.asking p := by
  have hsame := settleWaiters_same .rejected
    (σ.srv.setNamespace n fun N => { N with closed := true, ready := [], waiters := [] }, [])
    (σ.srv.namespaces n).waiters
  have hdyn : (settleWaiters .rejected
      (σ.srv.setNamespace n fun N => { N with closed := true, ready := [], waiters := [] }, [])
      (σ.srv.namespaces n).waiters).1.dynamicWaiters = σ.srv.dynamicWaiters :=
    List.foldlRecOn (motive := fun r : Srv × List Instr =>
      r.1.dynamicWaiters = σ.srv.dynamicWaiters) _ _ rfl
        fun r hr w _ => (settleWaiter_rest r.1 w .rejected).1.trans hr
  cases p with
  | inl name =>
      rw [if_neg nofun]
      show ((settleWaiters _ _ _).1.dynamicWaiters.get? name).getD [] = _
      rw [hdyn]
      rfl
  | inr m =>
      show ((settleWaiters _ _ _).1.namespaces m).waiters.map Waiter.observer = _
      rw [hsame.waiters m]
      exact asking_setNamespace σ.srv n
        (fun N => { N with closed := true, ready := [], waiters := [] }) (.inr m)

theorem closeNamespace_dismisses {σ : Core} (ha : σ.srv.Asked) (n : NspId) :
    σ.srv.Dismisses (closeNamespace σ n).part := by
  have hobs : ∀ o, o ∉ σ.srv.asking (.inr n) →
      (closeNamespace σ n).part.observers o = σ.srv.observers o :=
    fun o ho => settleWaiters_observers .rejected _ _ ho
  refine ⟨fun p => ?_, ?_, fun o ho => hobs o (ho _), fun p o ho => ?_⟩
  · rw [closeNamespace_asking]
    split
    · exact List.nil_sublist _
    · exact List.Sublist.refl _
  · exact List.foldlRecOn (motive := fun r : Srv × List Instr =>
      r.1.observerCount = σ.srv.observerCount) _ _ rfl
        fun r hr w _ => (settleWaiter_rest r.1 w .rejected).2.trans hr
  · rw [closeNamespace_asking] at ho
    split at ho
    · cases ho
    · rename_i hp
      exact hobs o fun ho' => hp (ha.apart p _ o ho ho')

/-- An observer is given a socket that is ready, or waits. -/
theorem observe_attends {σ : Core} (ha : σ.srv.Asked) {o : ObserverId} (hf : σ.srv.Free o)
    (n : NspId) : σ.Attends (.srv (.observe o n)) (observe σ o n).part := by
  unfold observe
  cases hr : (σ.srv.namespaces n).ready with
  | cons s rest =>
      have hd : σ.srv.Dismisses (σ.srv.setNamespace n fun N => { N with ready := rest }) := by
        refine .of_eq (fun p => ?_) rfl rfl
        rw [asking_setNamespace]
        split
        · rename_i hp
          rw [hp]
          rfl
        · rfl
      obtain ⟨ha', hother⟩ := (hd.free hf).settle (hd.asked ha) (.resolved s)
      refine ⟨ha', fun o' hf' ho' => ?_, fun o' ho' => ?_⟩
      · exact (hother o' fun he => ho' (he ▸ rfl)).1 (hd.free hf')
      · exact (hother o' fun he => ho' (Or.inl (he ▸ rfl))).2
  | nil =>
      have hask : ∀ p, (σ.srv.setNamespace n fun N =>
            { N with waiters := N.waiters ++ [{ observer := o, transferred := false }] }).asking p =
          if p = .inr n then σ.srv.asking p ++ [o] else σ.srv.asking p := by
        intro p
        rw [asking_setNamespace]
        split
        · rename_i hp
          rw [hp, List.map_append]
          rfl
        · rfl
      refine ⟨ha.append hf (p := .inr n) ((hask _).trans (if_pos rfl))
        (fun p hp => (hask p).trans (if_neg hp)) rfl rfl, fun o' hf' ho' => ?_, fun _ _ => rfl⟩
      refine ⟨hf'.born, hf'.waiting, fun p hp => ?_⟩
      rw [hask] at hp
      split at hp
      · rcases List.mem_append.mp hp with hp | hp
        · exact hf'.nowhere p hp
        · exact ho' (List.mem_singleton.mp hp ▸ rfl)
      · exact hf'.nowhere p hp

/-- The observers that waited for a name wait in the namespace of that name. -/
theorem register_asking {ν : Srv} (name : String) (attachTo : Option ParentId)
    (closed : Bool) (p : String ⊕ NspId) :
    ((ν.register name (ν.newNamespace name attachTo closed)).addChild attachTo
        ν.nspCount).asking p =
      if p = .inl name then [] else if p = .inr ν.nspCount then ν.asking (.inl name)
      else ν.asking p := by
  have hchild : ((ν.register name (ν.newNamespace name attachTo closed)).addChild attachTo
      ν.nspCount).asking p = (ν.register name (ν.newNamespace name attachTo closed)).asking p := by
    cases attachTo <;> cases p <;> rfl
  rw [hchild]
  cases p with
  | inl name' =>
      simp only [Srv.asking, Srv.register, OMap.get?_erase, Sum.inl.injEq, reduceCtorEq, if_false]
      split
      · simp
      · simp
  | inr n =>
      simp only [Srv.asking, Srv.register, Function.update_apply, reduceCtorEq, if_false,
        Sum.inr.injEq]
      split
      · rw [(ν.newNamespace_spec name attachTo closed).2.2.2]
        simp [Function.comp_def]
      · rfl

/-- Creating a namespace, on whosever behalf. -/
theorem createNamespace_attends {σ : Core} (h : σ.Homed) (ha : σ.srv.Asked) (name : String)
    (attachTo : Option ParentId) (closed : Bool) (k : Cont) :
    (createNamespace σ name attachTo closed k).part.Asked ∧
      (∀ o, σ.srv.Free o → (createNamespace σ name attachTo closed k).part.Free o) ∧
      (createNamespace σ name attachTo closed k).part.observers = σ.srv.observers := by
  unfold createNamespace
  split
  · split <;> exact ⟨ha, fun _ hf => hf, rfl⟩
  · have hask := register_asking (ν := σ.srv) name attachTo closed
    dsimp only
    generalize hν' : (σ.srv.register name (σ.srv.newNamespace name attachTo closed)).addChild attachTo
      σ.srv.nspCount = ν' at hask ⊢
    have hobs : ν'.observers = σ.srv.observers ∧ ν'.observerCount = σ.srv.observerCount := by
      subst hν'
      cases attachTo <;> exact ⟨rfl, rfl⟩
    have hempty : σ.srv.asking (.inr σ.srv.nspCount) = [] := by
      show (σ.srv.namespaces _).waiters.map _ = _
      rw [(h.srv.unborn _ (Nat.le_refl _)).2]
      rfl
    -- who waits somewhere now waited somewhere before, and nobody else waits where they wait now
    have hfrom : ∀ {p o}, o ∈ ν'.asking p → ∃ p₀, o ∈ σ.srv.asking p₀ ∧
        ((p₀ = .inl name ∧ p = .inr σ.srv.nspCount) ∨ (p₀ = p ∧ p ≠ .inl name)) := by
      intro p o ho
      rw [hask] at ho
      split at ho
      · cases ho
      · rename_i hp
        split at ho
        · rename_i hp'
          exact ⟨_, ho, Or.inl ⟨rfl, hp'⟩⟩
        · exact ⟨p, ho, Or.inr ⟨rfl, hp⟩⟩
    refine ⟨⟨fun p => ?_, fun p p' o ho ho' => ?_, fun p o ho => ?_, fun o ho => ?_⟩,
      fun o hf => ?_, hobs.1⟩
    · rw [hask]
      split
      · exact List.nodup_nil
      · split
        · exact ha.nodup _
        · exact ha.nodup p
    · obtain ⟨q, hq, h₁⟩ := hfrom ho
      obtain ⟨q', hq', h₂⟩ := hfrom ho'
      have hqq := ha.apart q q' o hq hq'
      rcases h₁ with ⟨h₁, h₁'⟩ | ⟨h₁, h₁'⟩ <;> rcases h₂ with ⟨h₂, h₂'⟩ | ⟨h₂, h₂'⟩
      · rw [h₁', h₂']
      · exact absurd (h₂.symm.trans (hqq.symm.trans h₁)) h₂'
      · exact absurd (h₁.symm.trans (hqq.trans h₂)) h₁'
      · rw [← h₁, ← h₂, hqq]
    · obtain ⟨q, hq, -⟩ := hfrom ho
      rw [hobs.1, hobs.2]
      exact ha.waiting q o hq
    · rw [hobs.1]
      exact ha.unborn o (hobs.2 ▸ ho)
    · refine ⟨hobs.2 ▸ hf.born, by rw [hobs.1]; exact hf.waiting, fun p hp => ?_⟩
      obtain ⟨q, hq, -⟩ := hfrom hp
      exact hf.nowhere q hq

/-- The new observer of `nextConnection`. -/
theorem newObserver_free {ν : Srv} (ha : ν.Asked) :
    let ν' := { ν with observers := Function.update ν.observers ν.observerCount .waiting
                       observerCount := ν.observerCount + 1 }
    ν'.Asked ∧ ν'.Free ν.observerCount ∧ (∀ o, ν.Free o → ν'.Free o) ∧
      ν'.observers = ν.observers := by
  intro ν'
  have hobs : ν'.observers = ν.observers := by
    show Function.update ν.observers ν.observerCount .waiting = ν.observers
    rw [← ha.unborn ν.observerCount (Nat.le_refl _), Function.update_eq_self]
  have hask : ∀ p, ν'.asking p = ν.asking p := fun p => by cases p <;> rfl
  refine ⟨⟨fun p => ?_, fun p p' o ho ho' => ?_, fun p o ho => ?_, fun o ho => ?_⟩,
    ⟨Nat.lt_succ_self _, ?_, fun p hp => ?_⟩, fun o hf => ⟨?_, ?_, fun p hp => ?_⟩, hobs⟩
  · exact hask p ▸ ha.nodup p
  · exact ha.apart p p' o (hask p ▸ ho) (hask p' ▸ ho')
  · obtain ⟨hlt, hw⟩ := ha.waiting p o (hask p ▸ ho)
    exact ⟨hlt.trans (Nat.lt_succ_self _), hobs ▸ hw⟩
  · rw [hobs]
    exact ha.unborn o ((Nat.le_succ _).trans ho)
  · rw [hobs]
    exact ha.unborn _ (Nat.le_refl _)
  · exact absurd (ha.waiting p _ (hask p ▸ hp)).1 (Nat.lt_irrefl _)
  · exact hf.born.trans (Nat.lt_succ_self _)
  · rw [hobs]
    exact hf.waiting
  · exact hf.nowhere p (hask p ▸ hp)

/-- `nextConnection` makes the observer it returns. -/
theorem nextConnection_attends {σ : Core} (ha : σ.srv.Asked) (name : String) :
    σ.Attends (.srv (.nextConnection name)) (nextConnection P σ name).part := by
  obtain ⟨ha', hf, hfree, hobs⟩ := newObserver_free ha
  have hother : ∀ o, ¬ σ.Concerns (.srv (.nextConnection name)) o → o ≠ σ.srv.observerCount :=
    fun o ho he => ho (Or.inr (Or.inr (Nat.le_of_eq he.symm)))
  unfold nextConnection
  dsimp only
  split
  · obtain ⟨ha'', hset⟩ := hf.settle ha' .rejected
    refine ⟨ha'', fun o hf' _ => (hset o fun he => ?_).1 (hfree o hf'), fun o ho => ?_⟩
    · exact absurd hf'.born (he ▸ Nat.lt_irrefl _)
    · exact (hset o (hother o ho)).2.trans (congrFun hobs o)
  · split
    · exact ⟨ha', fun o hf' _ => hfree o hf', fun o _ => congrFun hobs o⟩
    · split
      · have hask : ∀ p, ({ σ.srv with
            observers := Function.update σ.srv.observers σ.srv.observerCount .waiting
            observerCount := σ.srv.observerCount + 1 }.addWaiter (normalizeNamespace name)
              σ.srv.observerCount).asking p =
            if p = .inl (normalizeNamespace name) then σ.srv.asking p ++ [σ.srv.observerCount]
            else σ.srv.asking p := by
          intro p
          cases p with
          | inl name' =>
              simp only [Srv.asking, Srv.addWaiter, OMap.get?_set, Sum.inl.injEq]
              split
              · rename_i hn
                simp [hn]
              · rfl
          | inr n => rw [if_neg nofun]; rfl
        refine ⟨ha'.append hf (p := .inl (normalizeNamespace name)) ((hask _).trans (if_pos rfl))
          (fun p hp => (hask p).trans (if_neg hp)) rfl rfl, fun o hf' _ => ?_,
          fun o _ => congrFun hobs o⟩
        have hf'' := hfree o hf'
        refine ⟨hf''.born, hf''.waiting, fun p hp => ?_⟩
        rw [hask] at hp
        split at hp
        · rcases List.mem_append.mp hp with hp | hp
          · exact hf'.nowhere p hp
          · exact absurd hf'.born (List.mem_singleton.mp hp ▸ Nat.lt_irrefl _)
        · exact hf'.nowhere p hp
      · exact ⟨ha', fun o hf' _ => hfree o hf', fun o _ => congrFun hobs o⟩

/-- **An instruction changes only the answers of the observers it concerns.** -/
theorem exec_attends {σ : Core} (h : σ.Homed) (ha : σ.srv.Asked) {i : Instr}
    (hi : σ.AsksFree i) : σ.Attends i (exec P i σ).core.srv := by
  cases i with
  | srv i =>
      cases hs : i.stirs with
      | false => exact (execSrv_dismisses hs).attends ha
      | true =>
          cases i with
          | nextConnection name => exact nextConnection_attends ha name
          | createNamespace name attachTo closed k =>
              obtain ⟨h₁, h₂, h₃⟩ := createNamespace_attends h ha name attachTo closed k
              exact ⟨h₁, fun o hf _ => h₂ o hf, fun o _ => congrFun h₃ o⟩
          | observe o n => exact observe_attends ha (hi o rfl) n
          | settleObserver o x =>
              obtain ⟨ha', hother⟩ := (hi o rfl).settle ha x
              refine ⟨ha', fun o' hf ho => ?_, fun o' ho => ?_⟩
              · exact (hother o' fun he => ho (he ▸ rfl)).1 hf
              · exact (hother o' fun he => ho (Or.inl (he ▸ rfl))).2
          | offer s => exact (offer_dismisses ha s).attends ha
          | close =>
              have hd := startClose_dismisses ha
              have hd' : σ.srv.Dismisses (close σ).part := by
                simp only [close]
                split
                · exact hd
                · exact ⟨hd.asking, hd.count, hd.observers, hd.kept⟩
              exact hd'.attends ha
          | closeNamespace n => exact (closeNamespace_dismisses ha n).attends ha
          | _ => cases hs
  | _ => exact (Srv.Dismisses.of_eq (fun _ => rfl) rfl rfl).attends ha

/-- The observers a change of a namespace's queue settles by a promise reaction. -/
theorem settleWaiters_posts (x : Observer) (ws : List Waiter) (r : Srv × List Instr) {j : Instr}
    (hj : j ∈ (settleWaiters x r ws).2) :
    j ∈ r.2 ∨ ∃ w ∈ ws, w.transferred = true ∧ j = .srv (.settleObserver w.observer x) := by
  unfold settleWaiters at hj
  induction ws generalizing r with
  | nil => exact Or.inl hj
  | cons w ws ih =>
      rw [List.foldl_cons] at hj
      rcases ih _ hj with hj | ⟨w', hw', h⟩
      · rcases List.mem_append.mp hj with hj | hj
        · exact Or.inl hj
        · unfold settleWaiter at hj
          split at hj
          · rename_i ht
            exact Or.inr ⟨w, List.mem_cons_self, ht, List.mem_singleton.mp hj⟩
          · cases hj
      · exact Or.inr ⟨w', List.mem_cons_of_mem _ hw', h⟩

/-- They keep waiting until the reaction runs. -/
theorem settleWaiters_transferred (x : Observer) (ws : List Waiter) (r : Srv × List Instr)
    (hnd : (ws.map Waiter.observer).Nodup) {w : Waiter} (hw : w ∈ ws)
    (ht : w.transferred = true) :
    (settleWaiters x r ws).1.observers w.observer = r.1.observers w.observer := by
  unfold settleWaiters
  induction ws generalizing r with
  | nil => cases hw
  | cons v ws ih =>
      rw [List.map_cons, List.nodup_cons] at hnd
      rw [List.foldl_cons]
      rcases List.mem_cons.mp hw with rfl | hw
      · refine (settleWaiters_observers x ws _ hnd.1).trans ?_
        simp [settleWaiter, ht]
      · rw [ih _ hnd.2 hw]
        unfold settleWaiter
        split
        · rfl
        · refine Function.update_of_ne (fun he => hnd.1 ?_) _ _
          rw [← he]
          exact List.mem_map_of_mem hw

/-- What an instruction leaves pending asks for a free observer, which it had or took. -/
theorem asks_spawned {σ : Core} (h : σ.Homed) (ha : σ.srv.Asked) {i j : Instr}
    (hi : σ.AsksFree i) (hj : j ∈ (exec P i σ).spawned) {o : ObserverId} (ho : j.asks = some o) :
    (exec P i σ).core.srv.Free o ∧ σ.Concerns i o := by
  have hby := spawnedBy hj
  -- an instruction that only passes its observer on
  have hpass : ∀ i' : SrvInstr, i = .srv i' → i'.stirs = false → i.asks = some o →
      (exec P i σ).core.srv.Free o ∧ σ.Concerns i o := by
    rintro i' rfl hs hask
    exact ⟨(execSrv_dismisses hs).free (hi o hask), Or.inl hask⟩
  have hfresh : ∀ {name}, i = .srv (.nextConnection name) → o = σ.srv.observerCount →
      (nextConnection P σ name).part = { σ.srv with
        observers := Function.update σ.srv.observers σ.srv.observerCount .waiting
        observerCount := σ.srv.observerCount + 1 } →
      (exec P i σ).core.srv.Free o ∧ σ.Concerns i o := by
    rintro name rfl rfl hpart
    refine ⟨?_, Or.inr (Or.inr (Nat.le_refl _))⟩
    show (nextConnection P σ name).part.Free _
    rw [hpart]
    exact (newObserver_free ha).2.1
  unfold Instr.asks at ho
  split at ho
  case h_1 name p o' =>
    obtain rfl := Option.some.inj ho
    rcases hby with ⟨hk, -⟩ | ⟨o'', name', hk, rfl⟩ | ⟨a, p', hk, -⟩
    · cases hk
    · simp only [exec, execSrv, nextConnection, Effect.spawned] at hj
      split at hj
      · simp at hj
      · split at hj
        · simp at hj
        · split at hj
          · simp at hj
          · rename_i hcl _ htab hdyn
            refine hfresh rfl (by simp at hj; exact hj.2.2) ?_
            simp only [nextConnection]
            rw [if_neg hcl, htab]
            dsimp only
            rw [if_neg hdyn]
    · cases hk
  case h_2 name p b o' =>
    obtain rfl := Option.some.inj ho
    obtain ⟨p', rfl⟩ := hby
    exact hpass _ rfl rfl rfl
  case h_3 n o' =>
    obtain rfl := Option.some.inj ho
    obtain ⟨name, p, b, rfl⟩ := hby
    exact ⟨(createNamespace_attends h ha name p b _).2.1 _ (hi _ rfl), Or.inl rfl⟩
  case h_4 o' n =>
    obtain rfl := Option.some.inj ho
    rcases hby with ⟨name, rfl⟩ | ⟨name, p, rfl⟩ | rfl
    · simp only [exec, execSrv, nextConnection, Effect.spawned] at hj
      split at hj
      · simp at hj
      · split at hj
        · rename_i hcl _ m htab
          refine hfresh rfl (by simp at hj; exact hj.1) ?_
          simp only [nextConnection]
          rw [if_neg hcl, htab]
        · split at hj <;> simp at hj
    · exact hpass _ rfl rfl rfl
    · exact hpass _ rfl rfl rfl
  case h_5 o' x =>
    obtain rfl := Option.some.inj ho
    rcases hby with ⟨s, rfl⟩ | ⟨n, rfl⟩
    · have hd := offer_dismisses ha s
      simp only [exec, execSrv, Effect.spawned] at hj ⊢
      have hask : ∃ ws, o' :: ws = σ.srv.asking (.inr (σ.conn.sockets s).nsp) ∧
          (offer σ s).part.asking (.inr (σ.conn.sockets s).nsp) = ws ∧
          (offer σ s).part.observers = σ.srv.observers := by
        unfold offer at hj ⊢
        dsimp only at hj ⊢
        cases hw : (σ.srv.namespaces (σ.conn.sockets s).nsp).waiters with
        | nil => simp [hw] at hj
        | cons w ws =>
            simp only [hw, List.nil_append] at hj ⊢
            refine ⟨ws.map Waiter.observer, ?_, ?_, ?_⟩
            · unfold settleWaiter at hj
              split at hj
              · cases List.mem_singleton.mp hj
                simp [Srv.asking, hw]
              · cases hj
            · rw [asking_settleWaiter, asking_setNamespace, if_pos rfl]
            · unfold settleWaiter at hj ⊢
              split at hj
              · rename_i ht
                rw [if_pos ht]
                rfl
              · cases hj
      obtain ⟨ws, hws, hws', hobs⟩ := hask
      have hmem : o' ∈ σ.srv.asking (.inr (σ.conn.sockets s).nsp) := hws ▸ List.mem_cons_self
      have hnd := ha.nodup (.inr (σ.conn.sockets s).nsp)
      rw [← hws, List.nodup_cons] at hnd
      exact ⟨hd.freed ha hmem (hws' ▸ hnd.1) (by rw [hobs]), Or.inr (Or.inl ⟨_, hmem⟩)⟩
    · have hd := closeNamespace_dismisses ha n
      have hj' : .srv (.settleObserver o' x) ∈ (closeNamespace σ n).post := by
        refine (List.mem_append.mp hj).resolve_left fun hp => ?_
        simp only [exec, execSrv, closeNamespace] at hp
        split at hp <;> simp at hp
      rcases settleWaiters_posts .rejected _ _ hj' with hj' | ⟨w, hw, ht, he⟩
      · cases hj'
      · obtain ⟨rfl, rfl⟩ := SrvInstr.settleObserver.inj (Instr.srv.inj he)
        have hmem : w.observer ∈ σ.srv.asking (.inr n) := List.mem_map_of_mem hw
        refine ⟨hd.freed ha hmem ?_ ?_, Or.inr (Or.inl ⟨_, hmem⟩)⟩
        · rw [closeNamespace_asking, if_pos rfl]
          exact List.not_mem_nil
        · exact settleWaiters_transferred .rejected _ _ (ha.nodup (.inr n)) hw ht
  case h_6 => cases ho

/-- The observers of one namespace are settled one by one. -/
theorem settleWaiters_apart (x : Observer) (ws : List Waiter) (ν : Srv)
    (hnd : (ws.map Waiter.observer).Nodup) :
    (settleWaiters x (ν, []) ws).2.Pairwise (Apart Instr.asks) := by
  have hgen : ∀ (ws : List Waiter) (r : Srv × List Instr), (ws.map Waiter.observer).Nodup →
      r.2.Pairwise (Apart Instr.asks) →
      (∀ j ∈ r.2, ∀ o, j.asks = some o → o ∉ ws.map Waiter.observer) →
      (settleWaiters x r ws).2.Pairwise (Apart Instr.asks) := by
    intro ws
    induction ws with
    | nil => exact fun r _ hr _ => hr
    | cons w ws ih =>
        intro r hnd hr hfree
        rw [List.map_cons, List.nodup_cons] at hnd
        refine ih _ hnd.2 ?_ fun j hj o ho => ?_
        · refine List.pairwise_append.mpr ⟨hr, ?_, fun j hj k hk o ho hko => ?_⟩
          · unfold settleWaiter
            split
            · exact List.pairwise_singleton _ _
            · exact List.Pairwise.nil
          · refine hfree j hj o ho ?_
            unfold settleWaiter at hk
            split at hk
            · rw [List.mem_singleton.mp hk] at hko
              exact Option.some.inj hko ▸ List.mem_cons_self
            · cases hk
        · rcases List.mem_append.mp hj with hj | hj
          · exact fun h => hfree j hj o ho (List.mem_cons_of_mem _ h)
          · unfold settleWaiter at hj
            split at hj
            · rw [List.mem_singleton.mp hj] at ho
              exact Option.some.inj ho ▸ hnd.1
            · cases hj
  exact hgen ws (ν, []) hnd .nil fun j hj => absurd hj List.not_mem_nil

/-- Of what an instruction leaves pending, no two ask for one observer. -/
theorem asks_apart {σ : Core} (ha : σ.srv.Asked) (i : Instr) :
    (exec P i σ).spawned.Pairwise (Apart Instr.asks) := by
  by_cases hclose : ∃ n, i = .srv (.closeNamespace n)
  · obtain ⟨n, rfl⟩ := hclose
    refine List.pairwise_append.mpr ⟨List.pairwise_of_forall_mem_list fun j hj k _ => ?_, ?_,
      fun j hj k _ => ?_⟩
    · refine Apart.of_none ?_
      simp only [exec, execSrv, closeNamespace] at hj
      split at hj
      · rw [List.mem_singleton.mp hj]
        rfl
      · obtain ⟨s, -, rfl⟩ := List.mem_map.mp hj
        rfl
    · exact settleWaiters_apart .rejected _ _ (ha.nodup (.inr n))
    · refine Apart.of_none ?_
      simp only [exec, execSrv, closeNamespace] at hj
      split at hj
      · rw [List.mem_singleton.mp hj]
        rfl
      · obtain ⟨s, -, rfl⟩ := List.mem_map.mp hj
        rfl
  · -- every other instruction leaves at most one pending that asks, and it comes last
    have hlast : ∀ j ∈ (exec P i σ).spawned.dropLast, j.asks = none := by
      intro j hj
      by_contra hne
      obtain ⟨o, ho⟩ := Option.ne_none_iff_exists'.mp hne
      have hby := spawnedBy (List.mem_of_mem_dropLast hj)
      unfold Instr.asks at ho
      split at ho
      case h_1 =>
        rcases hby with ⟨hk, -⟩ | ⟨o'', name', hk, rfl⟩ | ⟨a, p', hk, -⟩
        · cases hk
        · simp only [exec, execSrv, nextConnection, Effect.spawned] at hj
          split at hj
          · cases hj
          · split at hj
            · cases hj
            · split at hj <;> cases hj
        · cases hk
      case h_2 =>
        obtain ⟨p', rfl⟩ := hby
        simp only [exec, execSrv, getNamespace, Effect.spawned] at hj
        split at hj
        · simp [Cont.instrs] at hj
        · simp only [List.append_nil, List.dropLast_concat] at hj
          split at hj <;> simp at hj
      case h_3 =>
        obtain ⟨name, p, b, rfl⟩ := hby
        simp only [exec, execSrv, createNamespace, Effect.spawned] at hj
        split at hj
        · cases hj
        · simp only [List.append_nil, List.dropLast_concat] at hj
          split at hj <;> simp at hj
      case h_4 =>
        rcases hby with ⟨name, rfl⟩ | ⟨name, p, rfl⟩ | rfl
        · simp only [exec, execSrv, nextConnection, Effect.spawned] at hj
          split at hj
          · cases hj
          · split at hj
            · cases hj
            · split at hj <;> cases hj
        · simp only [exec, execSrv, getNamespace, Effect.spawned] at hj
          split at hj
          · simp [Cont.instrs] at hj
          · simp only [List.append_nil, List.dropLast_concat] at hj
            split at hj <;> simp at hj
        · simp [exec, execSrv, Cont.instrs, Effect.spawned] at hj
      case h_5 =>
        rcases hby with ⟨s, rfl⟩ | ⟨n, rfl⟩
        · simp only [exec, execSrv, offer, Effect.spawned] at hj
          split at hj
          · cases hj
          · unfold settleWaiter at hj
            split at hj <;> simp at hj
        · exact hclose ⟨n, rfl⟩
      case h_6 => cases ho
    rcases List.eq_nil_or_concat (exec P i σ).spawned with he | ⟨l, x, he⟩
    · rw [he]
      exact .nil
    · rw [he] at hlast ⊢
      rw [List.concat_eq_append, List.dropLast_concat] at hlast
      rw [List.concat_eq_append, List.pairwise_append]
      exact ⟨List.pairwise_of_forall_mem_list fun j hj k _ => Apart.of_none (hlast j hj),
        List.pairwise_singleton _ _, fun j hj k _ => Apart.of_none (hlast j hj)⟩

theorem callable_asks {σ : Core} {i : Instr} (hc : callable σ i = true) : i.asks = none := by
  unfold Instr.asks
  split <;> first | rfl | cases hc

theorem handle_asks {σ : Core} {i : Instr} {is : List Instr} (his : onThrow σ i = .handle is) :
    ∀ j ∈ is, j.asks = none := by
  intro j hj
  rcases onThrow_handle his with rfl | ⟨a, err, rfl, -⟩
  · cases hj
  · rw [List.mem_singleton.mp hj]
    rfl

/-- **Every observer is asked in one place**: it waits, or one pending instruction will ask it or
    settle it, or it has settled. -/
theorem asked_inductive (P : Platform) :
    Inductive (runtime P) (fun _ _ => True) (fun σ => σ.Homed ∧ σ.srv.Asked)
      (fun σ i => σ.Houses i ∧ σ.AsksFree i) Instr.asks := by
  refine Machine.Layer.inductive (homed_inductive P) (fun _ _ _ => trivial) ?_
  constructor
  case core => exact fun σ i h _ hr => (exec_attends h hr.inv hr.ok).asked
  case spawn => exact fun σ i h _ hr j hj o ho => (asks_spawned h hr.inv hr.ok hj ho).1
  case stable =>
    exact fun σ i j h _ _ hr hj ha o ho =>
      (exec_attends h hr.inv hr.ok).free o (hj o ho) fun hi => ha o hi ho
  case call =>
    intro σ i _ _ hc o ho
    rw [callable_asks hc] at ho
    cases ho
  case handle =>
    intro σ i is _ _ his j hj o ho
    rw [handle_asks his j hj] at ho
    cases ho
  case apart => exact fun σ i _ _ hr => asks_apart hr.inv i
  case fresh =>
    intro σ i j k h _ _ hr hj ha hk o ho ho'
    rcases (asks_spawned h hr.inv hr.ok hk ho).2 with hi | ⟨p, hp⟩ | hlt
    · exact ha o hi ho'
    · exact (hj o ho').nowhere p hp
    · exact Nat.not_lt.mpr hlt (hj o ho').born
  case callFresh => exact fun σ i j hc => Apart.of_none (callable_asks hc)
  case handleFree => exact fun σ i is his => handle_asks his
  case free => exact fun _ _ _ => trivial

/-- Nobody waits at the start. -/
theorem newServer_asked : newServer.core.srv.Asked where
  nodup p := by cases p <;> exact List.nodup_nil
  apart p p' o ho := by cases p <;> exact absurd ho List.not_mem_nil
  waiting p o ho := by cases p <;> exact absurd ho List.not_mem_nil
  unborn _ _ := rfl

/-- **In every run each observer waits in one place at most.** -/
theorem reach_asked {C : State → Action Instr → Prop} {σ : State}
    (h : (runtime P).Reach C newServer σ) :
    σ.core.Homed ∧ σ.core.srv.Asked ∧ ∀ j ∈ σ.pending, σ.core.AsksFree j := by
  have hk := h.inv_ok (asked_inductive P) (fun _ _ _ _ _ _ _ => trivial)
    ⟨⟨newServer_homed, newServer_asked⟩, fun _ hj => absurd hj List.not_mem_nil, .nil⟩
  exact ⟨hk.inv.1, hk.inv.2, fun j hj => (hk.ok j hj).2⟩

/-! ## 3. Who gets whom -/

/-- Closing rejects. -/
theorem startClose_rejects (ν : Srv) (o : ObserverId) :
    ν.startClose.observers o = ν.observers o ∨ ν.startClose.observers o = .rejected :=
  List.foldlRecOn (motive := fun ν' : Srv =>
    ν'.observers o = ν.observers o ∨ ν'.observers o = .rejected) _ _ (Or.inl rfl)
    fun ν' h a _ => by
      simp only [Srv.setObserver, Function.update_apply]
      split
      · exact Or.inr rfl
      · exact h

/-- A namespace that closes rejects its observers or leaves them to their reactions. -/
theorem settleWaiters_rejects (r : Srv × List Instr) (ws : List Waiter) (o : ObserverId) :
    (settleWaiters .rejected r ws).1.observers o = r.1.observers o ∨
      (settleWaiters .rejected r ws).1.observers o = .rejected :=
  List.foldlRecOn (motive := fun r' : Srv × List Instr =>
    r'.1.observers o = r.1.observers o ∨ r'.1.observers o = .rejected) _ _ (Or.inl rfl)
    fun r' h w _ => by
      unfold settleWaiter
      split
      · exact h
      · simp only [Srv.setObserver, Function.update_apply]
        split
        · exact Or.inr rfl
        · exact h

/-- The two instructions that serve: how the queue of a namespace grows, and what becomes of the
    observer it serves. -/
theorem offer_serves {σ : Core} {s : SocketId} {q : Queue ObserverId SocketId}
    (hq : σ.srv.Follows (σ.conn.sockets s).nsp q) :
    ((q.apply (.offer s)).pairs = q.pairs ∧ (offer σ s).part.observers = σ.srv.observers ∧
        (offer σ s).post = []) ∨
      ∃ o, (q.apply (.offer s)).pairs = q.pairs ++ [(o, s)] ∧
        (((offer σ s).part.observers = Function.update σ.srv.observers o (.resolved s) ∧
            (offer σ s).post = []) ∨
          ((offer σ s).part.observers = σ.srv.observers ∧
            (offer σ s).post = [.srv (.settleObserver o (.resolved s))])) := by
  unfold offer
  dsimp only
  cases hw : (σ.srv.namespaces (σ.conn.sockets s).nsp).waiters with
  | nil =>
      have hq' : q.waiting = [] := by rw [← hq.waiting, hw]; rfl
      exact Or.inl ⟨(Queue.offer_waits hq').1, rfl, rfl⟩
  | cons w ws =>
      have hq' : q.waiting = w.observer :: ws.map Waiter.observer := by rw [← hq.waiting, hw]; rfl
      refine Or.inr ⟨w.observer, (Queue.offer_serves hq').1, ?_⟩
      dsimp only
      unfold settleWaiter
      cases w.transferred with
      | true => exact Or.inr ⟨rfl, rfl⟩
      | false => exact Or.inl ⟨rfl, rfl⟩

/-- The model queue takes whoever asks as the namespace does. -/
theorem observe_serves {σ : Core} {o : ObserverId} {n : NspId} {q : Queue ObserverId SocketId}
    (hq : σ.srv.Follows n q) :
    ((q.apply (.take o)).pairs = q.pairs ∧ (observe σ o n).part.observers = σ.srv.observers) ∨
      ∃ s, (q.apply (.take o)).pairs = q.pairs ++ [(o, s)] ∧
        (observe σ o n).part.observers = Function.update σ.srv.observers o (.resolved s) := by
  unfold observe
  cases hr : (σ.srv.namespaces n).ready with
  | nil => exact Or.inl ⟨(Queue.take_waits (hq.ready.symm.trans hr)).1, rfl⟩
  | cons s rest => exact Or.inr ⟨s, (Queue.take_serves (hq.ready.symm.trans hr)).1, rfl⟩

/-- **A pair of the queue and the answer of its observer come together.** -/
theorem exec_pairs {σ : Core} (h : σ.Homed) {i : Instr} {n : NspId}
    {q : Queue ObserverId SocketId} (hq : σ.srv.Follows n q) :
    ((σ.queueOps n i).foldl Queue.apply q).pairs = q.pairs ∨
      ∃ o s, ((σ.queueOps n i).foldl Queue.apply q).pairs = q.pairs ++ [(o, s)] ∧
        ((exec P i σ).core.srv.observers o = .resolved s ∨
          .srv (.settleObserver o (.resolved s)) ∈ (exec P i σ).post) := by
  cases i with
  | srv i =>
      cases i with
      | offer s =>
          by_cases hn : (σ.conn.sockets s).nsp = n
          · subst hn
            simp only [Core.queueOps, if_true, List.foldl_cons, List.foldl_nil]
            rcases offer_serves hq with ⟨hp, -⟩ | ⟨o, hp, ⟨ho, -⟩ | ⟨-, ho⟩⟩
            · exact Or.inl hp
            · refine Or.inr ⟨o, s, hp, Or.inl ?_⟩
              show (offer σ s).part.observers o = _
              rw [ho, Function.update_self]
            · refine Or.inr ⟨o, s, hp, Or.inr ?_⟩
              show _ ∈ (offer σ s).post
              rw [ho]
              exact List.mem_singleton_self _
          · rw [show σ.queueOps n (.srv (.offer s)) = [] from if_neg hn]
            exact Or.inl rfl
      | observe o m =>
          by_cases hn : m = n
          · subst hn
            simp only [Core.queueOps, if_true, List.foldl_cons, List.foldl_nil]
            rcases observe_serves (o := o) hq with ⟨hp, -⟩ | ⟨s, hp, ho⟩
            · exact Or.inl hp
            · refine Or.inr ⟨o, s, hp, Or.inl ?_⟩
              show (observe σ o m).part.observers o = _
              rw [ho, Function.update_self]
          · rw [show σ.queueOps n (.srv (.observe o m)) = [] from if_neg hn]
            exact Or.inl rfl
      | discardReady s =>
          simp only [Core.queueOps]
          split
          · exact Or.inl (Queue.discard_spec q s).1
          · exact Or.inl rfl
      | closeNamespace m =>
          simp only [Core.queueOps]
          split
          · exact Or.inl (Queue.close_spec q).1
          · exact Or.inl rfl
      | createNamespace name attachTo closed k =>
          simp only [Core.queueOps]
          split
          · rename_i hn
            have hr : q.ready = [] := by rw [← hq.ready, (h.srv.unborn n hn.2.ge).1]
            exact Or.inl (takes_wait q hr _).1
          · exact Or.inl rfl
      | _ => exact Or.inl rfl
  | _ => exact Or.inl rfl

/-- Nobody is answered otherwise. -/
theorem exec_resolves {σ : Core} {i : Instr} {o : ObserverId} {s : SocketId}
    {q : NspId → Queue ObserverId SocketId} (hq : ∀ n, σ.srv.Follows n (q n))
    (hr : (exec P i σ).core.srv.observers o = .resolved s ∨
      .srv (.settleObserver o (.resolved s)) ∈ (exec P i σ).spawned) :
    σ.srv.observers o = .resolved s ∨ i = .srv (.settleObserver o (.resolved s)) ∨
      ∃ n, (o, s) ∈ ((σ.queueOps n i).foldl Queue.apply (q n)).pairs := by
  rcases hr with hr | hj
  · cases i with
    | srv i =>
        by_cases hs : i.stirs = false
        · exact Or.inl (by rwa [show (exec P (.srv i) σ).core.srv.observers = σ.srv.observers from
            (execSrv_unstirred hs).2.2] at hr)
        · cases i with
          | offer t =>
              have hr' : (offer σ t).part.observers o = .resolved s := hr
              rcases offer_serves (hq (σ.conn.sockets t).nsp) with ⟨-, ho, -⟩ |
                ⟨o', hp, ⟨ho, -⟩ | ⟨ho, -⟩⟩
              · exact Or.inl (by rwa [ho] at hr')
              · rw [ho, Function.update_apply] at hr'
                split at hr'
                · rename_i he
                  cases hr'
                  refine Or.inr (Or.inr ⟨(σ.conn.sockets s).nsp, ?_⟩)
                  simp only [Core.queueOps, if_true, List.foldl_cons, List.foldl_nil, hp, he]
                  exact List.mem_append_right _ (List.mem_singleton_self _)
                · exact Or.inl hr'
              · exact Or.inl (by rwa [ho] at hr')
          | observe o' n =>
              have hr' : (observe σ o' n).part.observers o = .resolved s := hr
              rcases observe_serves (o := o') (hq n) with ⟨-, ho⟩ | ⟨t, hp, ho⟩
              · exact Or.inl (by rwa [ho] at hr')
              · rw [ho, Function.update_apply] at hr'
                split at hr'
                · rename_i he
                  cases hr'
                  refine Or.inr (Or.inr ⟨n, ?_⟩)
                  simp only [Core.queueOps, if_true, List.foldl_cons, List.foldl_nil, hp, he]
                  exact List.mem_append_right _ (List.mem_singleton_self _)
                · exact Or.inl hr'
          | settleObserver o' x =>
              have hr' : Function.update σ.srv.observers o' x o = .resolved s := hr
              rw [Function.update_apply] at hr'
              split at hr'
              · rename_i he
                exact Or.inr (Or.inl (by rw [he, hr']))
              · exact Or.inl hr'
          | nextConnection name =>
              refine Or.inl ?_
              have hr' : (nextConnection P σ name).part.observers o = .resolved s := hr
              have hset : ∀ ν : Srv,
                  ν.observers = Function.update σ.srv.observers σ.srv.observerCount .waiting →
                  ν.observers o = .resolved s → σ.srv.observers o = .resolved s := by
                intro ν hν ho
                rw [hν, Function.update_apply] at ho
                split at ho
                · cases ho
                · exact ho
              simp only [nextConnection] at hr'
              split at hr'
              · simp only [Srv.setObserver, Function.update_apply] at hr'
                split at hr'
                · cases hr'
                · exact hr'
              · split at hr'
                · exact hset _ rfl hr'
                · split at hr' <;> exact hset _ rfl hr'
          | createNamespace name attachTo closed k =>
              refine Or.inl ?_
              have hr' : (createNamespace σ name attachTo closed k).part.observers o =
                .resolved s := hr
              simp only [createNamespace] at hr'
              split at hr'
              · split at hr' <;> exact hr'
              · cases attachTo <;> exact hr'
          | close =>
              refine Or.inl ?_
              have hr' : (close σ).part.observers o = .resolved s := hr
              have hclose : (close σ).part.observers o = σ.srv.startClose.observers o := by
                simp only [close]
                split <;> rfl
              rw [hclose] at hr'
              rcases startClose_rejects σ.srv o with ho | ho <;> rw [ho] at hr'
              · exact hr'
              · cases hr'
          | closeNamespace n =>
              refine Or.inl ?_
              have hr' : (closeNamespace σ n).part.observers o = .resolved s := hr
              simp only [closeNamespace] at hr'
              rcases settleWaiters_rejects (σ.srv.setNamespace n fun N =>
                { N with closed := true, ready := [], waiters := [] }, [])
                (σ.srv.namespaces n).waiters o with ho | ho <;> rw [ho] at hr'
              · exact hr'
              · cases hr'
          | _ => exact absurd rfl hs
    | _ => exact Or.inl hr
  · rcases spawnedBy hj with ⟨t, rfl⟩ | ⟨n, rfl⟩
    · have hj' : .srv (.settleObserver o (.resolved s)) ∈ (offer σ t).post := by
        refine (List.mem_append.mp hj).resolve_left fun hp => ?_
        simp only [exec, execSrv, offer] at hp
        split at hp <;> cases hp
      rcases offer_serves (hq (σ.conn.sockets t).nsp) with ⟨-, -, he⟩ |
        ⟨o', hp, ⟨-, he⟩ | ⟨-, he⟩⟩ <;> rw [he] at hj'
      · cases hj'
      · cases hj'
      · cases List.mem_singleton.mp hj'
        refine Or.inr (Or.inr ⟨(σ.conn.sockets s).nsp, ?_⟩)
        simp only [Core.queueOps, if_true, List.foldl_cons, List.foldl_nil, hp]
        exact List.mem_append_right _ (List.mem_singleton_self _)
    · have hj' : .srv (.settleObserver o (.resolved s)) ∈ (closeNamespace σ n).post := by
        refine (List.mem_append.mp hj).resolve_left fun hp => ?_
        simp only [exec, execSrv, closeNamespace] at hp
        split at hp <;> simp at hp
      rcases settleWaiters_posts .rejected _ _ hj' with hj' | ⟨w, -, -, he⟩
      · cases hj'
      · cases he

/-- **Who has been answered, after the history `tr`**: the observers the queues have served, with
    the sockets that served them, at once or by a reaction that is due. -/
structure Answers (tr : List (Core × Instr)) (σ : State) : Prop where
  follows : ∀ n, σ.core.srv.Follows n (queueIn n tr)
  resolved : ∀ o s, σ.core.srv.observers o = .resolved s → ∃ n, (o, s) ∈ (queueIn n tr).pairs
  settling : ∀ o s, .srv (.settleObserver o (.resolved s)) ∈ σ.pending →
    ∃ n, (o, s) ∈ (queueIn n tr).pairs
  answered : ∀ n o s, (o, s) ∈ (queueIn n tr).pairs →
    σ.core.srv.observers o = .resolved s ∨ .srv (.settleObserver o (.resolved s)) ∈ σ.queue

/-- The `finally` blocks leave the server alone. -/
theorem server_keeping (P : Platform) :
    Keeping (runtime P) fun σ σ' => σ'.srv = σ.srv where
  refl _ := rfl
  trans h h' := h'.trans h
  run σ i hr := by
    rcases onThrow_run hr with ⟨s, rfl⟩ | ⟨s, rfl⟩ | ⟨r, rfl⟩ <;> rfl

variable {C : State → Action Instr → Prop} {σ : State} {tr : List (Core × Instr)}

/-- One step of a run serves whom the queue of its trace serves. -/
theorem Answers.step {σ' : State} {a : Action Instr} (h : Answers tr σ)
    (hr : (runtime P).Reach C newServer σ) (hs : (runtime P).step σ a = some σ') :
    Answers (tr ++ (runtime P).taken σ a) σ' := by
  obtain ⟨hhome, hask, hfree⟩ := reach_asked hr
  have hpend : ∀ o s, .srv (.settleObserver o (.resolved s)) ∈ σ'.pending →
      .srv (.settleObserver o (.resolved s)) ∈ σ.pending ∨ ∃ i τ, a = .run ∧
        (runtime P).next σ = some (i, τ) ∧
        .srv (.settleObserver o (.resolved s)) ∈ (exec P i σ.core).spawned := by
    intro o s hj
    rcases pending_cases hs hj with hj | ⟨i, τ, rfl, hn, hj⟩ | ⟨-, hc⟩ | ⟨c, i, is, his, hj⟩
    · exact Or.inl hj
    · exact Or.inr ⟨i, τ, rfl, hn, (next_mem hn).2 ▸ hj⟩
    · cases hc
    · cases handle_asks his _ hj
  rcases (server_keeping P).step hs with ⟨i, τ, rfl, hn, ht, hsrv⟩ | ⟨ht, hsrv⟩
  · rw [ht]
    have hi := hfree i (next_mem hn).1
    have hq : ∀ n, queueIn n (tr ++ [(σ.core, i)]) =
        (σ.core.queueOps n i).foldl Queue.apply (queueIn n tr) := fun n => by
      rw [queueIn_append, List.flatMap_singleton]
    have hgrow : ∀ n o s, (o, s) ∈ (queueIn n tr).pairs →
        (o, s) ∈ (queueIn n (tr ++ [(σ.core, i)])).pairs := fun n o s hp => by
      rw [hq]
      rcases exec_pairs (P := P) hhome (i := i) (h.follows n) with he | ⟨o', s', he, -⟩ <;> rw [he]
      · exact hp
      · exact List.mem_append_left _ hp
    have hnew : ∀ o s, (exec P i σ.core).core.srv.observers o = .resolved s ∨
        .srv (.settleObserver o (.resolved s)) ∈ (exec P i σ.core).spawned →
        ∃ n, (o, s) ∈ (queueIn n (tr ++ [(σ.core, i)])).pairs := fun o s ho => by
      rcases exec_resolves h.follows ho with ho | rfl | ⟨n, hp⟩
      · obtain ⟨n, hp⟩ := h.resolved o s ho
        exact ⟨n, hgrow n o s hp⟩
      · obtain ⟨n, hp⟩ := h.settling o s (next_mem hn).1
        exact ⟨n, hgrow n o s hp⟩
      · exact ⟨n, hq n ▸ hp⟩
    refine ⟨fun n => ?_, fun o s ho => ?_, fun o s hj => ?_, fun n o s hp => ?_⟩
    · rw [hsrv, hq]
      exact exec_follows hhome (h.follows n)
    · rw [hsrv] at ho
      exact hnew o s (Or.inl ho)
    · rcases hpend o s hj with hj | ⟨i', τ', -, hn', hj⟩
      · obtain ⟨n, hp⟩ := h.settling o s hj
        exact ⟨n, hgrow n o s hp⟩
      · rw [hn, Option.some.injEq, Prod.mk.injEq] at hn'
        obtain ⟨rfl, rfl⟩ := hn'
        exact hnew o s (Or.inr hj)
    · rw [hq] at hp
      have hold : (o, s) ∈ (queueIn n tr).pairs →
          σ'.core.srv.observers o = .resolved s ∨
            .srv (.settleObserver o (.resolved s)) ∈ σ'.queue := fun hp => by
        rcases h.answered n o s hp with ho | hj
        · refine Or.inl ?_
          rw [hsrv]
          refine ((exec_attends hhome hask hi).kept o ?_).trans ho
          rintro (hc | ⟨p, hc⟩ | hc)
          · rw [(hi o hc).waiting] at ho
            cases ho
          · rw [(hask.waiting p o hc).2] at ho
            cases ho
          · rw [hask.unborn o hc] at ho
            cases ho
        · rcases queue_stays hs hj with hj | ⟨-, τ', hn'⟩
          · exact Or.inr hj
          · rw [hn, Option.some.injEq, Prod.mk.injEq] at hn'
            obtain ⟨rfl, -⟩ := hn'
            refine Or.inl ?_
            rw [hsrv]
            exact Function.update_self ..
      rcases exec_pairs (P := P) hhome (i := i) (h.follows n) with he | ⟨o', s', he, hans⟩
      · exact hold (he ▸ hp)
      · rw [he] at hp
        rcases List.mem_append.mp hp with hp | hp
        · exact hold hp
        · cases List.mem_singleton.mp hp
          rcases hans with ho | hj
          · exact Or.inl (by rw [hsrv]; exact ho)
          · exact Or.inr (post_waits hn hs hj)
  · rw [ht, List.append_nil]
    refine ⟨fun n => hsrv ▸ h.follows n, fun o s ho => h.resolved o s (hsrv ▸ ho),
      fun o s hj => ?_, fun n o s hp => ?_⟩
    · rcases hpend o s hj with hj | ⟨i, τ, rfl, hn, -⟩
      · exact h.settling o s hj
      · simp [taken, hn] at ht
    · rcases h.answered n o s hp with ho | hj
      · exact Or.inl (hsrv ▸ ho)
      · rcases queue_stays hs hj with hj | ⟨rfl, τ, hn⟩
        · exact Or.inr hj
        · simp [taken, hn] at ht

/-- **In every run the observers are answered in order**, each by the socket the queue of its
    namespace gives it. -/
theorem run_answers (h : (runtime P).Run C newServer tr σ) : Answers tr σ := by
  induction h with
  | start =>
      refine ⟨fun n => ⟨rfl, rfl⟩, fun o s ho => (by cases ho), fun o s hj => ?_,
        fun n o s hp => (by cases hp)⟩
      exact absurd hj List.not_mem_nil
  | step hr _ hs ih => exact ih.step hr.reach hs

/-! ## 4. Offered, admitted, completed -/

/-- The steps of an admission up to the offer, from the roster on. The attempt is pending, or
    connected where the middleware completed once more. -/
inductive Core.Admitting (σ : Core) : List Instr → Prop where
  | enter (s : SocketId) (l : List Instr)
      (h : (σ.conn.attempts (σ.conn.sockets s).attempt).state = .pending ∨
        (σ.conn.attempts (σ.conn.sockets s).attempt).state = .connected)
      (hl : ∀ j ∈ l, j = .life (.markConnected s) ∨ j = .srv (.offer s)) :
      σ.Admitting (.memb (.enter s) :: l)
  | entered (s : SocketId) (i : Instr) (l : List Instr) (h : .admitted s ∈ σ.log)
      (hl : ∀ j ∈ i :: l, j = .life (.markConnected s) ∨ j = .srv (.offer s)) :
      σ.Admitting (i :: l)

/-- The socket an instruction enters into a roster or offers. -/
def Instr.enrols : Instr → Option SocketId
  | .memb (.enter s) | .srv (.offer s) => some s
  | _ => none

/-- A socket enters the roster once its chain has completed. -/
theorem enrols_spawned {σ : Core} {i j : Instr} (hj : j ∈ (exec P i σ).spawned) {s : SocketId}
    (hs : j.enrols = some s) : i = .ctl (.completion s none) := by
  have hby := spawnedBy hj
  unfold Instr.enrols at hs
  split at hs
  · exact Option.some.inj hs ▸ hby
  · exact Option.some.inj hs ▸ hby
  · cases hs

/-- What a completed chain pushes admits the socket before it calls anything else. -/
theorem completion_admitting (σ : Core) (s : SocketId) :
    (∀ j ∈ (completion σ s none).push, j.enrols = none) ∨
      ∃ pre l, (completion σ s none).push = pre ++ l ∧ σ.Admitting pre ∧
        ∀ j ∈ l, j.enrols = none := by
  simp only [completion]
  split
  · rename_i hc
    split
    · exact Or.inl (by simp [Instr.enrols])
    · refine Or.inr ⟨admission s, [.ctl (.emitConnection s),
        .ctl (.dispatchClient (σ.conn.sockets s).peer "connect")], rfl, ?_, by simp [Instr.enrols]⟩
      refine .enter s _ (Or.inr ?_) (by simp)
      simp only [Conn.isConnectionAttemptConnected, Bool.and_eq_true, decide_eq_true_eq] at hc
      exact hc.1.1.2
  · split
    · exact Or.inl (by split <;> simp [Instr.enrols])
    · rename_i hp
      split
      · exact Or.inl (by simp [Instr.enrols])
      · refine Or.inr ⟨admission s ++ [.srv (.offer s)], [.ctl (.emitConnection s),
          .conn (.completeConnectionAttempt (σ.conn.sockets s).attempt s)], by simp, ?_,
          by simp [Instr.enrols]⟩
        refine .enter s _ (Or.inl ?_) (by simp)
        simp only [Bool.not_eq_true', Bool.not_eq_false, Conn.isConnectionAttemptPending,
          Bool.and_eq_true, decide_eq_true_eq] at hp
        exact hp.2

theorem admitting_app {σ : Core} {i : Instr} {pre : List Instr} (h : σ.Admitting (i :: pre)) :
    isApp i = false := by
  cases h with
  | enter => rfl
  | entered s _ _ _ hl => rcases hl i List.mem_cons_self with rfl | rfl <;> rfl

/-- Between the roster and the offer nothing fails and nothing is called. -/
theorem admitting_exec {σ : Core} {i : Instr} {pre : List Instr} (h : σ.Admitting (i :: pre)) :
    (exec P i σ).fails = false ∧ (exec P i σ).push = [] ∧
      (∀ j ∈ (exec P i σ).post, j.enrols = none) ∧
      (pre = [] ∨ (exec P i σ).core.Admitting pre) := by
  have hpost : ∀ j ∈ (exec P i σ).post, j.enrols = none := by
    intro j hj
    by_contra hne
    obtain ⟨s, hs⟩ := Option.ne_none_iff_exists'.mp hne
    obtain rfl := enrols_spawned (List.mem_append_right _ hj) hs
    cases h with
    | entered t _ _ _ hl => rcases hl _ List.mem_cons_self with he | he <;> cases he
  cases h with
  | enter s l h hl =>
      refine ⟨rfl, rfl, hpost, ?_⟩
      cases pre with
      | nil => exact Or.inl rfl
      | cons j l => exact Or.inr (.entered s j l List.mem_cons_self hl)
  | entered s _ _ hlog hl =>
      have hrest : pre = [] ∨ (exec P i σ).core.Admitting pre := by
        cases pre with
        | nil => exact Or.inl rfl
        | cons j l =>
            exact Or.inr (.entered s j l (mem_log hlog) fun x hx => hl x (List.mem_cons_of_mem _ hx))
      rcases hl i List.mem_cons_self with rfl | rfl
      · exact ⟨rfl, rfl, hpost, hrest⟩
      · have hquiet : (exec P (.srv (.offer s)) σ).fails = false ∧
            (exec P (.srv (.offer s)) σ).push = [] := by
          simp only [exec, execSrv, offer]
          split <;> exact ⟨rfl, rfl⟩
        exact ⟨hquiet.1, hquiet.2, hpost, hrest⟩

/-- **Between its entry into the roster and its offer nothing happens.** -/
theorem admitting_atomic (P : Platform) :
    Atomic (runtime P) (fun _ _ => True) (Core.Wf P) (fun σ i => i.Valid σ) (fun _ => True)
      (fun _ i => i.enrols = none) Core.Admitting where
  exec σ i _ _ hi := by
    by_cases hc : ∃ s, i = .ctl (.completion s none)
    · obtain ⟨s, rfl⟩ := hc
      rcases completion_admitting σ s with h | ⟨pre, l, hpush, hp, hl⟩
      · exact Or.inl ⟨trivial, by simpa [runtime, exec, execCtl, completion, Effect.spawned] using h⟩
      · exact Or.inr ⟨rfl, pre, l, hpush, hp, by simpa [runtime, exec, execCtl, completion] using hl⟩
    · refine Or.inl ⟨trivial, fun j hj => ?_⟩
      by_contra hne
      obtain ⟨s, hs⟩ := Option.ne_none_iff_exists'.mp hne
      exact hc ⟨s, enrols_spawned hj hs⟩
  stable _ _ _ _ _ hj := hj
  call σ i _ _ hc := by
    unfold Instr.enrols
    split <;> first | rfl | simp [runtime, callable] at hc
  handle σ i is his j hj := by
    rcases onThrow_handle his with rfl | ⟨a, err, rfl, -⟩
    · cases hj
    · rw [List.mem_singleton.mp hj]
      rfl
  run _ _ _ _ _ _ := trivial
  mid σ i pre _ h _ := by
    obtain ⟨hf, hpush, hpost, rfl | hm⟩ := admitting_exec (P := P) h
    · refine Or.inr ⟨trivial, fun j hj => hpost j ?_⟩
      simpa [runtime, Effect.spawned, hpush] using hj
    · refine Or.inl ⟨hf, ?_, hpost⟩
      rw [show ((runtime P).exec i σ).push = [] from hpush]
      exact hm
  ret σ i pre h happ := by cases (admitting_app h).symm.trans happ
  nonempty σ := nofun

/-- A socket is offered after it has been admitted, and admitted while its attempt is pending or
    connected. -/
theorem reach_enrols {τ : State} {i : Instr} {s : SocketId}
    (h : (runtime P).Reach C newServer σ) (hn : (runtime P).next σ = some (i, τ))
    (hs : i.enrols = some s) :
    (i = .srv (.offer s) → .admitted s ∈ σ.core.log) ∧
      (i = .memb (.enter s) →
        (σ.core.conn.attempts (σ.core.conn.sockets s).attempt).state = .pending ∨
          (σ.core.conn.attempts (σ.core.conn.sockets s).attempt).state = .connected) := by
  have hb : Between (fun _ => True) (fun _ (i : Instr) => i.enrols = none) Core.Admitting σ := by
    refine h.between (admitting_atomic P) (valid_inductive P) (fun _ _ _ _ _ _ _ => trivial) ?_
      ⟨newServer_wf P, nofun, .nil⟩ ?_
    · exact fun τ a _ i pre k _ hm happ => by cases (admitting_app hm).symm.trans happ
    · exact Or.inl ⟨trivial, fun _ hj => absurd hj List.not_mem_nil⟩
  have hno : i.enrols ≠ none := by rw [hs]; nofun
  rcases hb with ⟨-, hO⟩ | ⟨pre, k, hst, hm, hO⟩
  · exact absurd (hO i (next_mem hn).1) hno
  · cases pre with
    | nil => cases hm
    | cons j pre =>
        obtain ⟨-, ⟨-, hst', -⟩ | ⟨hst', -, -⟩⟩ := next_pending hn
        · obtain ⟨rfl, -⟩ := List.cons.inj (hst'.symm.trans hst)
          cases hm with
          | enter t l ht hl =>
              obtain rfl := Option.some.inj hs
              exact ⟨nofun, fun _ => ht⟩
          | entered t _ _ hlog hl =>
              rcases hl i List.mem_cons_self with rfl | rfl
              · cases hs
              · obtain rfl := Option.some.inj hs
                exact ⟨fun _ => hlog, nofun⟩
        · rw [hst] at hst'
          cases hst'

end Smocket
