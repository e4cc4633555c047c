import Smocket.Delays
import Mathlib.Data.List.Infix

/-
  File:      Smocket/Streams.lean
  Subject:   WHAT A STREAM KEEPS: the deliveries of a sid, from `scheduleDelivery` to their run.

  * `flowing_dues`, **`streams_advance`** -- every queue has its next callback, and nothing that was
    scheduled is lost, while no exception leaves `run` or the loop of `removeSocket` too early;
    `stream_stranded` for an exception that does;
  * `InOrder`, `run_in_order` -- what has run, what is being drained and what is queued, in the
    order in which it was scheduled;
  * **`delays_in_order`** -- each delivery once, in order, on time, and what `removeSocket` leaves.
-/

namespace Smocket.Delay

open EventLoop EventLoop.Machine

/-! ## 1. Callbacks wait in the queue of the loop -/

section Steps

variable {c : Core} {i : Instr} {C : Config Core Instr → Action Instr → Prop}
  {σ σ' : Config Core Instr}

theorem exec_fails (i : Instr) (c : Core) : (exec i c).fails = false := by
  have hpump : ∀ (c : Core) (sid : String), (pump c sid).fails = false := fun c sid => by
    rcases pump_cases c sid with ⟨-, h⟩ | ⟨_, -, -, h⟩ | ⟨_, _, _, -, -, -, h⟩ |
      ⟨_, _, _, -, -, h⟩ <;> rw [h]
  cases i with
  | scheduleDelivery sid =>
      simp only [exec, scheduleDelivery]
      split
      · rfl
      · exact hpump _ sid
  | removeSocket sid =>
      simp only [exec, removeSocket]
      split <;> rfl
  | expire r =>
      simp only [exec]
      split <;> rfl
  | run r =>
      simp only [exec, run]
      split <;> rfl
  | runRest r =>
      simp only [exec]
      split
      · exact hpump c r.sid
      · rfl
  | _ => rfl

/-- `run` is posted, never called. -/
theorem exec_push (r : Run) : .run r ∉ (exec i c).push := by
  cases i with
  | scheduleDelivery sid =>
      simp only [exec, scheduleDelivery]
      split
      · exact List.not_mem_nil
      · rw [(pump_log _ sid).2.2.2]
        exact List.not_mem_nil
  | removeSocket sid =>
      simp only [exec, removeSocket]
      split <;> simp
  | expire r' =>
      simp only [exec]
      split <;> exact List.not_mem_nil
  | run r' =>
      simp only [exec, run]
      split <;> simp
  | runRest r' =>
      simp only [exec]
      split
      · rw [(pump_log c r'.sid).2.2.2]
        exact List.not_mem_nil
      · exact List.not_mem_nil
  | drain sid e => simp [exec]
  | _ => exact List.not_mem_nil

/-- The entry a delivery gets. -/
def Core.entry (c : Core) (sid : String) : Entry :=
  ⟨c.deliveryCount, c.now + (c.delays sid).getD 0⟩

/-- What an instruction records. -/
def Instr.records (c : Core) : Instr → List Event
  | .scheduleDelivery sid => [.scheduled sid (c.entry sid)]
  | .removeSocket sid => [.removing sid]
  | .run r => if c.owns r then [.ran r.sid r.head c.now false] else []
  | .drain sid e => [.ran sid e c.now true]
  | _ => []

theorem exec_log (i : Instr) (c : Core) : (exec i c).core.log = c.log ++ i.records c := by
  cases i with
  | setDelay sid ms =>
      simp only [exec, setDelay]
      split <;> exact (List.append_nil _).symm
  | scheduleDelivery sid =>
      cases hq : c.queues sid with
      | none =>
          rw [exec, scheduleDelivery_none hq, (pump_log _ sid).1]
          rfl
      | some q =>
          simp only [exec, scheduleDelivery, hq]
          rfl
  | removeSocket sid =>
      simp only [exec, removeSocket]
      split <;> rfl
  | expire r =>
      simp only [exec]
      split <;> exact (List.append_nil _).symm
  | run r =>
      simp only [exec, run, Instr.records]
      split
      · rfl
      · exact (List.append_nil _).symm
  | runRest r =>
      simp only [exec]
      split
      · exact (pump_log c r.sid).1.trans (List.append_nil _).symm
      · exact (List.append_nil _).symm
  | drain sid e => rfl
  | _ => exact (List.append_nil _).symm

/-- A delivery is queued as it is scheduled. -/
theorem scheduleDelivery_queue (c : Core) (sid : String) :
    ∃ q, (scheduleDelivery c sid).core.queues sid = some q ∧ c.entry sid ∈ q.entries := by
  cases hq : c.queues sid with
  | none =>
      refine ⟨⟨c.queueCount, [c.entry sid]⟩, ?_, List.mem_singleton_self _⟩
      rw [scheduleDelivery_none hq, pump_keeps fun q h => ?_]
      · exact opened_self ..
      · rw [opened_self, Option.some.injEq] at h
        exact h ▸ List.cons_ne_nil _ _
  | some q =>
      refine ⟨⟨q.ident, q.entries ++ [c.entry sid]⟩, ?_,
        List.mem_append_right _ (List.mem_singleton_self _)⟩
      simp only [scheduleDelivery, hq]
      exact Function.update_self sid _ c.queues

theorem no_handler (c : Core) (i : Instr) (is : List Instr) :
    delaying.onThrow c i ≠ .handle is := by
  cases i <;> nofun

theorem unwind_sublist : ∀ (k : List Instr) (c : Core), (delaying.unwind c k).2.Sublist k
  | [], _ => .slnil
  | i :: k, c => by
      rw [Machine.unwind]
      split
      · exact List.Sublist.refl _
      · split
        · exact (unwind_sublist k c).cons i
        · exact (unwind_sublist k _).cons i
        · rename_i is his
          exact absurd his (no_handler c i is)

theorem run_waits (h : delaying.Reach C ⟨.initial, [], []⟩ σ) (r : Run) : .run r ∉ σ.stack := by
  induction h with
  | start => exact List.not_mem_nil
  | step _ _ hs ih =>
      rcases step_cases hs with ⟨i, τ, rfl, hn, rfl⟩ | ⟨i, rfl, -, hc, rfl⟩ | ⟨i, k, rfl, hst, -, rfl⟩ |
        ⟨i, k, rfl, hst, -, rfl⟩
      · have hτ : .run r ∉ τ.stack := by
          obtain ⟨-, ⟨-, hst, -⟩ | ⟨-, hst, -⟩⟩ := next_pending hn
          · exact fun h => ih (hst ▸ List.mem_cons_of_mem _ h)
          · exact hst ▸ List.not_mem_nil
        unfold execute
        dsimp only
        split
        · exact fun h => hτ ((unwind_sublist _ _).subset h)
        · exact fun h => (List.mem_append.mp h).elim (exec_push r) hτ
      · intro h
        rcases List.mem_cons.mp h with rfl | h
        · cases hc
        · exact ih h
      · exact fun h => ih (hst ▸ List.mem_cons_of_mem _ h)
      · exact fun h => ih (hst ▸ List.mem_cons_of_mem _ ((unwind_sublist _ _).subset h))

theorem sound_initial : Sound .initial where
  numbered _ _ h := nomatch h
  timers _ h := absurd h List.not_mem_nil
  apart := List.nodup_nil
  scheduled _ _ h := nomatch h
  cancelled _ h := absurd h List.not_mem_nil
  punctual _ _ _ h := absurd h List.not_mem_nil

/-- Only `run` is posted. -/
theorem exec_post {j : Instr} (hj : j ∈ (exec i c).post) : ∃ r, j = .run r := by
  have hpump : ∀ (c : Core) (sid : String), j ∈ (pump c sid).post → ∃ r, j = .run r :=
    fun c sid hj => by
      obtain ⟨-, q, head, rest, -, -, -, rfl⟩ := pump_spawned (List.mem_append_right _ hj)
      exact ⟨_, rfl⟩
  cases i with
  | scheduleDelivery sid =>
      simp only [exec, scheduleDelivery] at hj
      split at hj
      · cases hj
      · exact hpump _ sid hj
  | removeSocket sid =>
      simp only [exec, removeSocket] at hj
      split at hj <;> cases hj
  | expire r =>
      simp only [exec] at hj
      split at hj
      · exact ⟨r, List.mem_singleton.mp hj⟩
      · cases hj
  | run r =>
      simp only [exec, run] at hj
      split at hj <;> cases hj
  | runRest r =>
      simp only [exec] at hj
      split at hj
      · exact hpump c r.sid hj
      · cases hj
  | _ => cases hj

theorem queue_runs (h : delaying.Reach C ⟨.initial, [], []⟩ σ) :
    ∀ j ∈ σ.queue, ∃ r, j = .run r := by
  induction h with
  | start => exact fun _ h => absurd h List.not_mem_nil
  | step _ _ hs ih =>
      rcases step_cases hs with ⟨i, τ, rfl, hn, rfl⟩ | ⟨i, rfl, -, -, rfl⟩ | ⟨i, k, rfl, -, -, rfl⟩ |
        ⟨i, k, rfl, -, -, rfl⟩
      · have hτ : ∀ j ∈ τ.queue, ∃ r, j = .run r := by
          obtain ⟨-, ⟨-, -, hq⟩ | ⟨-, -, hq⟩⟩ := next_pending hn
          · exact fun j hj => ih j (hq ▸ hj)
          · exact fun j hj => ih j (hq ▸ List.mem_cons_of_mem _ hj)
        have hpost : ∀ j ∈ τ.queue ++ (delaying.exec i τ.core).post, ∃ r, j = .run r := fun j hj =>
          (List.mem_append.mp hj).elim (hτ j) exec_post
        unfold execute
        dsimp only
        split <;> exact hpost
      · exact ih
      · exact ih
      · exact ih

/-- An exception drops what is on the stack. -/
theorem dropped_stack {a : Action Instr} {j : Instr} (hj : j ∈ delaying.dropped σ a) :
    j ∈ σ.stack := by
  cases a with
  | run =>
      rw [dropped] at hj
      cases hn : delaying.next σ with
      | none =>
          rw [hn] at hj
          cases hj
      | some x =>
          rw [hn] at hj
          simp only [Option.elim_some] at hj
          rw [show (delaying.exec x.1 x.2.core).fails = false from exec_fails ..] at hj
          cases hj
  | throw => exact List.mem_of_mem_tail (passed_mem _ _ hj)
  | call i => cases hj
  | ret => cases hj

theorem reach_sound (h : delaying.Reach C ⟨.initial, [], []⟩ σ) :
    Keeps Sound Live turn σ.core σ.pending :=
  Reach.inv_ok sound_inductive (fun _ _ _ _ _ _ _ => trivial)
    ⟨sound_initial, fun _ ht => absurd ht List.not_mem_nil, .nil⟩ h

end Steps

/-! ## 2. No stream is stranded -/

/-- The queue `n` of `sid` has no callback on the timer. -/
def Idle (c : Core) (t : String × Nat) : Prop :=
  (∃ q, c.queues t.1 = some q ∧ q.ident = t.2) ∧
    ∀ t' ∈ c.timers, ¬ (t'.run.sid = t.1 ∧ t'.run.ident = t.2)

/-- The callback, pending or running its head, is that of the queue `n` of `sid`. -/
def Advances : Instr → String × Nat → Prop
  | .run r, t | .runRest r, t => r.sid = t.1 ∧ r.ident = t.2
  | _, _ => False

/-- What has been scheduled, has not run and is in no queue. -/
def Detached (c : Core) (t : String × Entry) : Prop :=
  .scheduled t.1 t.2 ∈ c.log ∧ (∀ time removal, .ran t.1 t.2 time removal ∉ c.log) ∧
    ∀ q, c.queues t.1 = some q → t.2 ∉ q.entries

/-- `removeSocket` has still to run the delivery. -/
def Drains (i : Instr) (t : String × Entry) : Prop := i = .drain t.1 t.2

/-- No exception leaves `run` while its queue is still the one in `queues`, nor `removeSocket` while
    entries are still to be drained. -/
def Contained (σ : Config Core Instr) (a : Action Instr) : Prop :=
  ∀ j ∈ delaying.dropped σ a, match j with
    | .runRest r => σ.core.owns r = false
    | .drain .. => False
    | _ => True

instance (σ : Config Core Instr) (a : Action Instr) : Decidable (Contained σ a) :=
  have : DecidablePred fun j : Instr => match j with
      | .runRest r => σ.core.owns r = false
      | .drain .. => False
      | _ => True := fun j => by
    cases j <;> dsimp only <;> infer_instance
  List.decidableBAll ..

section Dues

variable {c : Core} {i : Instr} {C : Config Core Instr → Action Instr → Prop}
  {σ σ' : Config Core Instr}

/-- What `pump` does for the queue it is called for. -/
theorem pump_advances {sid : String} {n : Nat} (h : Idle (pump c sid).core (sid, n)) :
    ∃ j ∈ (pump c sid).spawned, Advances j (sid, n) := by
  obtain ⟨⟨q, hq, hid⟩, ht⟩ := h
  rcases pump_cases c sid with ⟨hn, hp⟩ | ⟨q', -, -, hp⟩ | ⟨q', head, rest, hq', -, -, hp⟩ |
    ⟨q', head, rest, hq', -, hp⟩
  · rw [pump_back hq] at hn
    cases hn
  · rw [hp] at hq
    simp at hq
  · rw [pump_back hq, Option.some.injEq] at hq'
    rw [hp]
    exact ⟨_, List.mem_singleton_self _, rfl, hq' ▸ hid⟩
  · rw [pump_back hq, Option.some.injEq] at hq'
    rw [hp] at ht
    exact absurd ⟨rfl, hq' ▸ hid⟩ (ht _ (List.mem_append_right _ (List.mem_singleton_self _)))

/-- `pump` leaves the other queues. -/
theorem pump_idle {sid : String} {t : String × Nat} (h : Idle (pump c sid).core t) : Idle c t := by
  obtain ⟨⟨q, hq, hid⟩, ht⟩ := h
  refine ⟨⟨q, pump_back hq, hid⟩, fun t' ht' => ht t' ?_⟩
  rcases pump_timers c sid with ⟨h, -⟩ | ⟨_, _, _, -, -, -, h, -⟩ <;> rw [h]
  · exact ht'
  · exact List.mem_append_left _ ht'

/-- **A queue without a callback gets one, from the instruction that left it so.** -/
theorem exec_idle {t : String × Nat} (h : Idle (exec i c).core t) :
    (∃ j ∈ (exec i c).spawned, Advances j t) ∨ (Idle c t ∧ ¬ Advances i t) := by
  obtain ⟨sid, n⟩ := t
  cases i with
  | setDelay sid' ms =>
      simp only [exec, setDelay] at h
      split at h <;> exact Or.inr ⟨h, id⟩
  | scheduleDelivery sid' =>
      cases hq : c.queues sid' with
      | none =>
          rw [exec, scheduleDelivery_none hq] at h ⊢
          by_cases hs : sid = sid'
          · subst hs
            exact Or.inl (pump_advances h)
          · obtain ⟨⟨q, hq', hid⟩, ht⟩ := pump_idle h
            exact Or.inr ⟨⟨⟨q, (Function.update_of_ne hs ..).symm.trans hq', hid⟩, ht⟩, id⟩
      | some q =>
          simp only [exec, scheduleDelivery, hq] at h
          obtain ⟨⟨q', hq', hid⟩, ht⟩ := h
          dsimp only at hq'
          refine Or.inr ⟨⟨?_, ht⟩, id⟩
          by_cases hs : sid = sid'
          · subst hs
            rw [Function.update_self, Option.some.injEq] at hq'
            subst hq'
            exact ⟨q, hq, hid⟩
          · rw [Function.update_of_ne hs] at hq'
            exact ⟨q', hq', hid⟩
  | removeSocket sid' =>
      simp only [exec, removeSocket] at h
      split at h
      · exact Or.inr ⟨h, id⟩
      · obtain ⟨⟨q', hq', hid⟩, ht⟩ := h
        refine Or.inr ⟨⟨⟨q', ?_, hid⟩, ht⟩, id⟩
        by_cases hs : sid = sid'
        · subst hs
          simp at hq'
        · simpa [hs] using hq'
  | expire r =>
      simp only [exec] at h ⊢
      split at h
      · rename_i hdue
        rw [if_pos hdue]
        by_cases hr : r.sid = sid ∧ r.ident = n
        · exact Or.inl ⟨_, List.mem_singleton_self _, hr⟩
        · refine Or.inr ⟨⟨h.1, fun t' ht' htr => ?_⟩, id⟩
          refine h.2 t' (List.mem_filter.mpr ⟨ht', decide_eq_true fun heq => hr ?_⟩) htr
          exact heq ▸ htr
      · exact Or.inr ⟨h, id⟩
  | run r =>
      cases hown : c.owns r with
      | false =>
          simp only [exec, run, hown] at h
          refine Or.inr ⟨h, fun hr => ?_⟩
          obtain ⟨⟨q, hq, hid⟩, -⟩ := h
          rw [owns_iff.mpr ⟨q, hr.1 ▸ hq, hid.trans hr.2.symm⟩] at hown
          cases hown
      | true =>
          simp only [exec, run, hown, if_true] at h ⊢
          by_cases hr : r.sid = sid ∧ r.ident = n
          · exact Or.inl ⟨.runRest r, by simp [Effect.spawned], hr⟩
          · refine Or.inr ⟨⟨?_, h.2⟩, hr⟩
            obtain ⟨q, hq, hid⟩ := h.1
            dsimp only at hq
            by_cases hs : sid = r.sid
            · subst hs
              obtain ⟨q', hq', hid'⟩ := owns_iff.mp hown
              rw [Function.update_self, hq', Option.map_some, Option.some.injEq] at hq
              subst hq
              exact absurd ⟨rfl, hid'.symm.trans hid⟩ hr
            · rw [Function.update_of_ne hs] at hq
              exact ⟨q, hq, hid⟩
  | runRest r =>
      cases hown : c.owns r with
      | false =>
          simp only [exec, hown] at h
          refine Or.inr ⟨h, fun hr => ?_⟩
          obtain ⟨⟨q, hq, hid⟩, -⟩ := h
          rw [owns_iff.mpr ⟨q, hr.1 ▸ hq, hid.trans hr.2.symm⟩] at hown
          cases hown
      | true =>
          simp only [exec, hown, if_true] at h ⊢
          by_cases hr : r.sid = sid ∧ r.ident = n
          · obtain ⟨rfl, rfl⟩ := hr
            exact Or.inl (pump_advances h)
          · exact Or.inr ⟨pump_idle h, hr⟩
  | _ => exact Or.inr ⟨h, id⟩

/-- **What leaves a queue runs, or waits to be drained.** -/
theorem exec_detached (hl : Live c i) {t : String × Entry} (h : Detached (exec i c).core t) :
    (∃ j ∈ (exec i c).spawned, Drains j t) ∨ (Detached c t ∧ ¬ Drains i t) := by
  obtain ⟨sid, e⟩ := t
  obtain ⟨hsched, hran, hqueue⟩ := h
  dsimp only at hsched hran hqueue
  rw [exec_log] at hsched hran
  have hran' : ∀ time removal, .ran sid e time removal ∉ c.log := fun time removal h =>
    hran time removal (List.mem_append_left _ h)
  have hd : ¬ Drains i (sid, e) := by
    rintro rfl
    exact hran c.now true (List.mem_append_right _ (List.mem_singleton_self _))
  -- what has just been scheduled is in the queue
  have hold : .scheduled sid e ∈ c.log := (List.mem_append.mp hsched).resolve_right fun h => by
    cases i with
    | scheduleDelivery sid' =>
        cases List.mem_singleton.mp h
        obtain ⟨q, hq, he⟩ := scheduleDelivery_queue c sid
        exact hqueue q hq he
    | removeSocket | drain => cases List.mem_singleton.mp h
    | run r =>
        simp only [Instr.records] at h
        split at h
        · cases List.mem_singleton.mp h
        · cases h
    | _ => cases h
  by_cases hin : ∃ q, c.queues sid = some q ∧ e ∈ q.entries
  · obtain ⟨q, hq, he⟩ := hin
    have hstep := exec_queue i c sid
    generalize ho : (exec i c).core.queues sid = o at hstep
    cases hstep with
    | same => exact absurd he (hqueue q (ho.trans hq))
    | extend q' e' h' =>
        rw [hq, Option.some.injEq] at h'
        subst h'
        exact absurd (List.mem_append_left _ he) (hqueue _ ho)
    | new e' h' =>
        rw [hq] at h'
        cases h'
    | shift q' r hi hr h' hq' =>
        rw [hq, Option.some.injEq] at h'
        subst h' hi hr
        obtain ⟨rest, hrest⟩ := hl.2.2.2 q hq hq'
        rw [hrest] at he
        rcases List.mem_cons.mp he with rfl | he
        · refine absurd (List.mem_append_right _ ?_) (hran c.now false)
          rw [Instr.records, if_pos (owns_iff.mpr ⟨q, hq, hq'⟩)]
          exact List.mem_singleton_self _
        · refine absurd ?_ (hqueue _ ho)
          rw [hrest]
          exact he
    | gone h' =>
        rcases h' with rfl | ⟨q', hq', hnil⟩
        · refine Or.inl ⟨.drain sid e, ?_, rfl⟩
          simp only [exec, removeSocket, hq, Effect.spawned]
          simp [he]
        · rw [hq, Option.some.injEq] at hq'
          subst hq'
          rw [hnil] at he
          cases he
  · exact Or.inr ⟨⟨hold, hran', fun q hq he => hin ⟨q, hq, he⟩⟩, hd⟩

theorem idle_dues : Dues delaying (fun _ => True) Idle Advances where
  frame i t h := by
    cases i with
    | app => exact h.elim
    | _ => rfl
  exec σ τ i t _ _ _ h := by
    rcases exec_idle h with ⟨j, hj, hp⟩ | h
    · exact Or.inl ⟨j, List.mem_append_left _ hj, hp⟩
    · exact Or.inr h
  fails σ τ i t _ _ hf := by
    rw [show (delaying.exec i σ.core).fails = false from exec_fails i σ.core] at hf
    cases hf
  run c i t hr h := by
    cases i with
    | finish => exact h
    | _ => cases hr

theorem detached_dues :
    Dues delaying (fun σ => ∀ i τ, delaying.next σ = some (i, τ) → Live σ.core i) Detached Drains where
  frame i t h := h ▸ rfl
  exec σ τ i t hk hn _ h := by
    rcases exec_detached (hk i τ hn) h with ⟨j, hj, hp⟩ | h
    · exact Or.inl ⟨j, List.mem_append_left _ hj, hp⟩
    · exact Or.inr h
  fails σ τ i t _ _ hf := by
    rw [show (delaying.exec i σ.core).fails = false from exec_fails i σ.core] at hf
    cases hf
  run c i t hr h := by
    cases i with
    | finish => exact h
    | _ => cases hr

/-- **What the streams owe.** Every queue has its next callback: running its head, waiting in the
    queue of the loop or on the timer, where it has not been cancelled. And every delivery that was
    scheduled has run, is queued, or is being drained. -/
structure Flowing (σ : Config Core Instr) : Prop where
  wakeup : ∀ sid q, σ.core.queues sid = some q →
    (∃ r : Run, r.sid = sid ∧ r.ident = q.ident ∧ .runRest r ∈ σ.stack) ∨
      ∃ r : Run, r.sid = sid ∧ r.ident = q.ident ∧ (∃ rest, q.entries = r.head :: rest) ∧
        (.run r ∈ σ.queue ∨ ∃ t ∈ σ.core.timers, t.run = r ∧ r ∉ σ.core.cancelled)
  kept : ∀ sid e, .scheduled sid e ∈ σ.core.log →
    (∃ time removal, .ran sid e time removal ∈ σ.core.log) ∨
      (∃ q, σ.core.queues sid = some q ∧ e ∈ q.entries) ∨ .drain sid e ∈ σ.stack

/-- **No stream is stranded and no delivery lost in any run** whose exceptions leave neither `run`
    while its queue is in place nor `removeSocket` while entries are still to be drained. -/
theorem streams_advance (h : delaying.Reach Contained ⟨.initial, [], []⟩ σ) : Flowing σ := by
  have hidle := Reach.dues idle_dues (fun _ _ _ => trivial) (fun τ a hr hc j hj t hp hi => by
      have hj' := hc j hj
      cases j with
      | run r => exact run_waits hr r (dropped_stack hj)
      | runRest r =>
          obtain ⟨⟨q, hq, hid⟩, -⟩ := hi
          have hown : τ.core.owns r = true := owns_iff.mpr ⟨q, hp.1 ▸ hq, hid.trans hp.2.symm⟩
          exact Bool.noConfusion (hown.symm.trans hj')
      | _ => exact hp)
    (fun t ht => by
      obtain ⟨⟨q, hq, -⟩, -⟩ := ht
      cases hq) h
  have hdetached := Reach.dues detached_dues
    (fun τ hr _ i ρ hn => ((reach_sound hr).ok i (next_mem hn).1))
    (fun τ a _ hc j hj t hp _ => by
      have hj' := hc j hj
      rw [hp] at hj'
      exact hj')
    (fun t ht => absurd ht.1 List.not_mem_nil) h
  have hsound := reach_sound h
  constructor
  · intro sid q hq
    by_cases hi : Idle σ.core (sid, q.ident)
    · obtain ⟨j, hj, hp⟩ := hidle _ hi
      cases j with
      | run r =>
          obtain ⟨rfl, hid⟩ := hp
          refine Or.inr ⟨r, rfl, hid, (hsound.ok _ hj).2.2.2 q hq hid.symm, Or.inl ?_⟩
          exact (List.mem_append.mp hj).resolve_left (run_waits h r)
      | runRest r =>
          refine Or.inl ⟨r, hp.1, hp.2, (List.mem_append.mp hj).resolve_right fun hj => ?_⟩
          obtain ⟨r', hr'⟩ := queue_runs h _ hj
          cases hr'
      | _ => exact hp.elim
    · have htimer : ∃ t ∈ σ.core.timers, t.run.sid = sid ∧ t.run.ident = q.ident := by
        by_contra hn
        exact hi ⟨⟨q, hq, rfl⟩, fun t ht hr => hn ⟨t, ht, hr⟩⟩
      obtain ⟨t, ht, rfl, hid⟩ := htimer
      refine Or.inr ⟨t.run, rfl, hid, (hsound.inv.timers t ht).2.2 q hq hid.symm,
        Or.inr ⟨t, ht, rfl, fun hc => ?_⟩⟩
      have hown := (hsound.inv.cancelled _ hc).2
      rw [owns_iff.mpr ⟨q, hq, hid.symm⟩] at hown
      cases hown
  · intro sid e hs
    by_cases hd : Detached σ.core (sid, e)
    · obtain ⟨j, hj, rfl⟩ := hdetached _ hd
      refine Or.inr (Or.inr ((List.mem_append.mp hj).resolve_right fun hj => ?_))
      obtain ⟨r', hr'⟩ := queue_runs h _ hj
      cases hr'
    · by_contra hn
      refine hd ⟨hs, fun time removal hr => hn (Or.inl ⟨time, removal, hr⟩), fun q hq he => ?_⟩
      exact hn (Or.inr (Or.inl ⟨q, hq, he⟩))

/-- A socket is removed while two deliveries of another one are queued; its own delivery throws. -/
theorem streams_advance_last : ∃ σ, delaying.Reach Contained ⟨.initial, [], []⟩ σ ∧
    .ran "left" ⟨0, 20⟩ 0 true ∈ σ.core.log ∧ σ.core.queues "stays" = some ⟨1, [⟨2, 0⟩]⟩ ∧
      Flowing σ := by
  obtain ⟨σ, hr, hσ⟩ := reach_of_script delaying Contained ⟨.initial, [], []⟩ 40
    [.call (.setDelay "left" (some 20)), .call (.scheduleDelivery "left"),
      .call (.scheduleDelivery "stays"), .call (.scheduleDelivery "stays"),
      .call (.removeSocket "left"), .throw, .run, .ret]
    (fun σ => decide (.ran "left" ⟨0, 20⟩ 0 true ∈ σ.core.log ∧
      σ.core.queues "stays" = some ⟨1, [⟨2, 0⟩]⟩)) (by decide +kernel)
  obtain ⟨hran, hq⟩ := of_decide_eq_true hσ
  exact ⟨σ, hr, hran, hq, streams_advance hr⟩

/-- The first of two deliveries throws: its queue stays behind with the second, and nothing is left
    to run it. -/
theorem stream_stranded :
    ¬ ∀ σ, delaying.Reach (fun _ _ => True) ⟨.initial, [], []⟩ σ → Flowing σ := by
  intro hall
  obtain ⟨σ, hr, hσ⟩ := reach_of_script delaying (fun _ _ => True) ⟨.initial, [], []⟩ 40
    [.call (.scheduleDelivery "s"), .call (.scheduleDelivery "s"), .run, .throw]
    (fun σ => decide (σ.core.queues "s" = some ⟨0, [⟨1, 0⟩]⟩ ∧ σ.stack = [] ∧ σ.queue = [] ∧
      σ.core.timers = [])) (by decide +kernel)
  obtain ⟨hq, hstack, hqueue, htimers⟩ := of_decide_eq_true hσ
  rcases (hall σ hr).wakeup "s" _ hq with ⟨r, -, -, h⟩ | ⟨r, -, -, -, h | ⟨t, h, -⟩⟩
  · rw [hstack] at h
    cases h
  · rw [hqueue] at h
    cases h
  · rw [htimers] at h
    cases h

end Dues

/-! ## 3. The order of a stream -/

/-- The deliveries scheduled for `sid`, in their order. -/
def scheduledOf (sid : String) (log : List Event) : List Entry :=
  log.filterMap fun
    | .scheduled sid' e => if sid' = sid then some e else none
    | _ => none

/-- The deliveries of `sid` that have started, in their order. -/
def ranOf (sid : String) (log : List Event) : List Entry :=
  log.filterMap fun
    | .ran sid' e _ _ => if sid' = sid then some e else none
    | _ => none

/-- The deliveries of `sid` that a `removeSocket` among the instructions has still to run. -/
def draining (sid : String) (l : List Instr) : List Entry :=
  l.filterMap fun
    | .drain sid' e => if sid' = sid then some e else none
    | _ => none

def queued (sid : String) (c : Core) : List Entry := ((c.queues sid).map Queue.entries).getD []

section Order

variable {c : Core} {i : Instr} {sid : String}

theorem scheduledOf_append (l l' : List Event) :
    scheduledOf sid (l ++ l') = scheduledOf sid l ++ scheduledOf sid l' := List.filterMap_append ..

theorem ranOf_append (l l' : List Event) : ranOf sid (l ++ l') = ranOf sid l ++ ranOf sid l' :=
  List.filterMap_append ..

theorem draining_append (l l' : List Instr) :
    draining sid (l ++ l') = draining sid l ++ draining sid l' := List.filterMap_append ..

theorem queued_pump (c : Core) (sid' : String) : queued sid (pump c sid').core = queued sid c := by
  rcases pump_cases c sid' with ⟨-, h⟩ | ⟨q, hq, he, h⟩ | ⟨_, _, _, -, -, -, h⟩ |
    ⟨_, _, _, -, -, h⟩ <;> rw [h]
  · by_cases hs : sid = sid'
    · subst hs
      simp [queued, hq, he]
    · simp [queued, hs]
  · rfl

theorem queued_schedule (c : Core) (sid' : String) :
    queued sid (scheduleDelivery c sid').core =
      queued sid c ++ if sid' = sid then [c.entry sid'] else [] := by
  cases hq : c.queues sid' with
  | none =>
      rw [scheduleDelivery_none hq, queued_pump]
      by_cases hs : sid' = sid
      · subst hs
        simp [queued, hq, Core.opened, Core.entry]
      · simp [queued, Core.opened, Ne.symm hs, hs]
  | some q =>
      simp only [scheduleDelivery, hq]
      by_cases hs : sid' = sid
      · subst hs
        simp [queued, hq, Core.entry]
      · simp [queued, Ne.symm hs, hs]

/-- `removeSocket` takes over what is queued. -/
theorem queued_remove (sid : String) (c : Core) (sid' : String) :
    draining sid (removeSocket c sid').push ++ queued sid (removeSocket c sid').core =
        queued sid c ∧
      (sid' = sid → queued sid (removeSocket c sid').core = []) ∧
      (sid' ≠ sid → draining sid (removeSocket c sid').push = []) := by
  have hmap : ∀ l : List Entry, draining sid (l.map (Instr.drain sid')) = if sid' = sid then l else [] :=
    fun l => by
      by_cases hs : sid' = sid <;> simp [draining, List.filterMap_map, hs]
  cases hq : c.queues sid' with
  | none =>
      simp only [removeSocket, hq]
      refine ⟨rfl, ?_, fun _ => rfl⟩
      rintro rfl
      simp [queued, Core.record, hq]
  | some q =>
      simp only [removeSocket, hq, draining_append, hmap]
      by_cases hs : sid' = sid
      · subst hs
        simp [queued, hq, draining]
      · simp [queued, hs, Ne.symm hs, draining]

/-- `run` takes its head off the queue. -/
theorem queued_run {r : Run} (hown : c.owns r = true) (hh : c.Heads r) :
    queued sid c = (if r.sid = sid then [r.head] else []) ++ queued sid (run c r).core := by
  obtain ⟨q, hq, hid⟩ := owns_iff.mp hown
  obtain ⟨rest, he⟩ := hh q hq hid
  simp only [run, hown, if_true]
  by_cases hs : r.sid = sid
  · subst hs
    simp [queued, hq, he]
  · simp [queued, hs, Ne.symm hs]

/-- The deliveries of a sid: have run, are being drained, are queued. -/
def stream (sid : String) (c : Core) (stack : List Instr) : List Entry :=
  ranOf sid c.log ++ draining sid stack ++ queued sid c

/-- A socket is removed once. -/
def FirstRemoval (c : Core) : Instr → Prop
  | .removeSocket sid => .removing sid ∉ c.log
  | _ => True

instance (c : Core) : ∀ i : Instr, Decidable (FirstRemoval c i)
  | .removeSocket sid => inferInstanceAs (Decidable (.removing sid ∉ c.log))
  | .app _ | .setDelay .. | .scheduleDelivery _ | .advance _ | .expire _ | .run _ | .runRest _
  | .drain .. | .finish .. => isTrue trivial

/-- **One instruction appends to a stream what it schedules**, and moves the rest forward: `k` is
    the stack below it. -/
theorem exec_stream (hl : Live c i) {k : List Instr} (hrun : ∀ r, i = .run r → k = [])
    (hremove : ∀ sid', i = .removeSocket sid' → draining sid' k = []) :
    stream sid (exec i c).core ((exec i c).push ++ k) =
      stream sid c (i :: k) ++ scheduledOf sid (i.records c) := by
  have hlog := exec_log i c
  unfold stream
  rw [hlog, ranOf_append, draining_append]
  cases i with
  | setDelay sid' ms =>
      simp only [exec, setDelay]
      split <;> simp [draining, Instr.records, ranOf, scheduledOf, queued]
  | scheduleDelivery sid' =>
      have hpush : (scheduleDelivery c sid').push = [] := by
        unfold scheduleDelivery
        split
        · rfl
        · exact (pump_log _ sid').2.2.2
      simp only [exec, hpush, queued_schedule]
      by_cases hs : sid' = sid <;> simp [draining, Instr.records, ranOf, scheduledOf, hs]
  | removeSocket sid' =>
      obtain ⟨hq, hthis, hother⟩ := queued_remove sid c sid'
      have hcons : draining sid (.removeSocket sid' :: k) = draining sid k := rfl
      simp only [exec, hcons]
      by_cases hs : sid' = sid
      · have hk := hremove sid' rfl
        rw [hs] at hk
        rw [← hq, hk, hthis hs]
        simp [Instr.records, ranOf, scheduledOf]
      · have hq' := hother hs
        rw [hq', List.nil_append] at hq
        rw [hq', hq]
        simp [Instr.records, ranOf, scheduledOf]
  | expire r =>
      simp only [exec]
      split <;> simp [draining, Instr.records, ranOf, scheduledOf, queued]
  | run r =>
      obtain rfl := hrun r rfl
      cases hown : c.owns r with
      | false => simp [exec, run, hown, draining, Instr.records, ranOf, scheduledOf]
      | true =>
          rw [queued_run hown hl.2.2.2]
          have hpush : (run c r).push = [.app r.head.delivery, .runRest r] := by
            simp only [run, hown, if_true]
          simp only [exec, hpush]
          by_cases hs : r.sid = sid <;>
            simp [draining, Instr.records, hown, ranOf, scheduledOf, hs]
  | runRest r =>
      cases hown : c.owns r with
      | false => simp [exec, hown, draining, Instr.records, ranOf, scheduledOf]
      | true =>
          simp only [exec, hown, if_true, (pump_log c r.sid).2.2.2, queued_pump]
          simp [draining, Instr.records, ranOf, scheduledOf]
  | drain sid' e =>
      have hq : queued sid (c.record (.ran sid' e c.now true)) = queued sid c := rfl
      simp only [exec, hq]
      by_cases hs : sid' = sid <;> simp [draining, Instr.records, ranOf, scheduledOf, hs]
  | app d => simp [exec, draining, Instr.records, ranOf, scheduledOf, queued]
  | advance ms => simp [exec, draining, Instr.records, ranOf, scheduledOf, queued]
  | finish sid' r => simp [exec, draining, Instr.records, ranOf, scheduledOf, queued]

/-- Deliveries return, and each socket is removed once. -/
def Calm (σ : Config Core Instr) (a : Action Instr) : Prop :=
  a ≠ .throw ∧ delaying.Obeys FirstRemoval σ a

instance (σ : Config Core Instr) (a : Action Instr) : Decidable (Calm σ a) :=
  inferInstanceAs (Decidable (_ ∧ _))

/-- No `removeSocket` has entries to drain below its end. -/
def Sealed (l : List Instr) : Prop :=
  l.Pairwise fun i j => ∀ sid r e, i = .finish sid r → j ≠ .drain sid e

/-- **The invariant of the streams**, over the heap and the stack. -/
structure InOrder (σ : Config Core Instr) : Prop where
  order : ∀ sid, scheduledOf sid σ.core.log = stream sid σ.core σ.stack
  drains : ∀ sid, draining sid σ.stack ≠ [] → .removing sid ∈ σ.core.log
  sealed : Sealed σ.stack

variable {C : Config Core Instr → Action Instr → Prop} {σ σ' : Config Core Instr}

theorem mem_draining {l : List Instr} {e : Entry} : e ∈ draining sid l ↔ .drain sid e ∈ l := by
  unfold draining
  rw [List.mem_filterMap]
  constructor
  · rintro ⟨j, hj, he⟩
    cases j with
    | drain sid' e' =>
        dsimp only at he
        split at he
        · rename_i hs
          rwa [← hs, ← Option.some.inj he]
        · cases he
    | _ => cases he
  · exact fun h => ⟨_, h, by simp⟩

theorem drain_of_draining {l : List Instr} (h : draining sid l ≠ []) : ∃ e, .drain sid e ∈ l := by
  obtain ⟨e, he⟩ := List.exists_mem_of_ne_nil _ h
  exact ⟨e, mem_draining.mp he⟩

theorem draining_cons (i : Instr) (l : List Instr) :
    draining sid (i :: l) = draining sid [i] ++ draining sid l := draining_append [i] l

/-- Only `removeSocket` pushes deliveries to drain and an end, the end last. -/
theorem exec_sealed (i : Instr) (c : Core) : Sealed (exec i c).push ∧
    ∀ j ∈ (exec i c).push, (∃ sid e, j = .drain sid e) ∨ (∃ sid r, j = .finish sid r) →
      ∃ sid, i = .removeSocket sid ∧ ((∃ e, j = .drain sid e) ∨ ∃ r, j = .finish sid r) := by
  have hfew : ∀ l : List Instr, (∀ j ∈ l, ∀ sid r, j ≠ .finish sid r) → Sealed l := fun l hl =>
    List.pairwise_of_forall_mem_list fun j hj _ _ sid r e h => absurd h (hl j hj sid r)
  have hnil : ∀ l : List Instr, l = [] → Sealed l ∧ ∀ j ∈ l,
      (∃ sid e, j = .drain sid e) ∨ (∃ sid r, j = .finish sid r) →
        ∃ sid, i = .removeSocket sid ∧ ((∃ e, j = .drain sid e) ∨ ∃ r, j = .finish sid r) :=
    fun l hl => by
      subst hl
      exact ⟨.nil, fun j hj => absurd hj List.not_mem_nil⟩
  cases i with
  | scheduleDelivery sid =>
      refine hnil _ ?_
      simp only [exec, scheduleDelivery]
      split
      · rfl
      · exact (pump_log _ sid).2.2.2
  | removeSocket sid =>
      simp only [exec, removeSocket]
      split
      · refine ⟨List.pairwise_singleton .., fun j hj _ => ⟨sid, rfl, Or.inr ⟨none, ?_⟩⟩⟩
        exact List.mem_singleton.mp hj
      · rename_i q _
        dsimp only
        constructor
        · refine List.pairwise_append.mpr ⟨hfew _ fun j hj sid r h => ?_,
            List.pairwise_singleton .., fun j hj j' hj' sid r e h h' => ?_⟩
          · obtain ⟨e, -, rfl⟩ := List.mem_map.mp hj
            cases h
          · rw [List.mem_singleton.mp hj'] at h'
            cases h'
        · intro j hj _
          rcases List.mem_append.mp hj with hj | hj
          · obtain ⟨e, -, rfl⟩ := List.mem_map.mp hj
            exact ⟨sid, rfl, Or.inl ⟨e, rfl⟩⟩
          · exact ⟨sid, rfl, Or.inr ⟨c.scheduled sid, List.mem_singleton.mp hj⟩⟩
  | expire r =>
      refine hnil _ ?_
      simp only [exec]
      split <;> rfl
  | run r =>
      simp only [exec, run]
      split
      · refine ⟨hfew _ fun j hj sid r h => ?_, fun j hj h => ?_⟩
        · subst h
          simp at hj
        · rcases h with ⟨sid, e, rfl⟩ | ⟨sid, r, rfl⟩ <;> simp at hj
      · exact hnil _ rfl
  | runRest r =>
      refine hnil _ ?_
      simp only [exec]
      split
      · exact (pump_log c r.sid).2.2.2
      · rfl
  | drain sid e =>
      refine ⟨List.pairwise_singleton .., fun j hj h => ?_⟩
      rw [List.mem_singleton.mp hj] at h
      rcases h with ⟨_, _, h⟩ | ⟨_, _, h⟩ <;> cases h
  | _ => exact hnil _ rfl

/-- What an instruction needs of the stack below it, for the streams. -/
structure Clear (c : Core) (i : Instr) (k : List Instr) : Prop where
  run : ∀ r, i = .run r → k = []
  remove : ∀ sid, i = .removeSocket sid → draining sid k = []

theorem exec_in_order {k q q' : List Instr} (hl : Live c i) (hk : Clear c i k)
    (h : InOrder ⟨c, i :: k, q⟩) : InOrder ⟨(exec i c).core, (exec i c).push ++ k, q'⟩ := by
  have hlog := exec_log i c
  obtain ⟨hpush, hends⟩ := exec_sealed i c
  refine ⟨fun sid => ?_, fun sid hd => ?_, ?_⟩
  · rw [exec_stream hl hk.run hk.remove, hlog, scheduledOf_append, h.order sid]
  · obtain ⟨e, he⟩ := drain_of_draining hd
    dsimp only
    rw [hlog]
    rcases List.mem_append.mp he with he | he
    · obtain ⟨sid', rfl, ⟨e', hj⟩ | ⟨r, hj⟩⟩ := hends _ he (Or.inl ⟨sid, e, rfl⟩)
      · cases hj
        exact List.mem_append_right _ (List.mem_singleton_self _)
      · cases hj
    · exact List.mem_append_left _
        (h.drains sid (List.ne_nil_of_mem (mem_draining.mpr (List.mem_cons_of_mem i he))))
  · refine List.pairwise_append.mpr ⟨hpush, (List.pairwise_cons.mp h.sealed).2, ?_⟩
    intro j hj j' hj' sid r e hf hd
    obtain ⟨sid', hi, ⟨e', hj''⟩ | ⟨r', hj''⟩⟩ := hends j hj (Or.inr ⟨sid, r, hf⟩)
    · rw [hf] at hj''
      cases hj''
    · rw [hf] at hj''
      cases hj''
      exact absurd (hk.remove sid hi) (List.ne_nil_of_mem (mem_draining.mpr (hd ▸ hj')))

/-- The instruction a calm run executes, as it stands on the stack. -/
theorem calm_next {τ : Config Core Instr} (h : delaying.Reach Calm ⟨.initial, [], []⟩ σ)
    (ho : InOrder σ) (hc : Calm σ .run) (hn : delaying.next σ = some (i, τ)) :
    τ.core = σ.core ∧ Live σ.core i ∧ Clear σ.core i τ.stack ∧
      (∀ sid, draining sid (i :: τ.stack) = draining sid σ.stack) ∧
      InOrder ⟨σ.core, i :: τ.stack, τ.queue⟩ := by
  obtain ⟨hi, hcore⟩ := next_mem hn
  have hlive := (reach_sound h).ok i hi
  have hfirst : FirstRemoval σ.core i :=
    hcore ▸ hc.2 rfl i τ hn
  obtain ⟨-, ⟨-, hst, -⟩ | ⟨hst, hst', hq⟩⟩ := next_pending hn
  · have hk : Clear σ.core i τ.stack := by
      refine ⟨fun r hr => ?_, fun sid hs => ?_⟩
      · exact absurd (hr ▸ hst ▸ List.mem_cons_self) (run_waits h r)
      · subst hs
        by_contra hd
        refine hfirst (ho.drains sid ?_)
        rw [hst, draining_cons]
        exact List.append_ne_nil_of_right_ne_nil _ hd
    refine ⟨hcore, hlive, hk, fun sid => by rw [hst], ?_⟩
    exact ⟨fun sid => (ho.order sid).trans (by rw [hst]), fun sid hd => ho.drains sid (hst ▸ hd),
      hst ▸ ho.sealed⟩
  · obtain ⟨r, rfl⟩ := queue_runs h i (hq ▸ List.mem_cons_self)
    have hd : ∀ sid, draining sid [.run r] = draining sid σ.stack := fun sid => by
      rw [hst]
      rfl
    rw [hst']
    refine ⟨hcore, hlive, ⟨fun _ _ => rfl, fun _ _ => rfl⟩, hd, ⟨fun sid => ?_, fun sid hd' => ?_,
      List.pairwise_singleton ..⟩⟩
    · rw [ho.order sid, stream, stream, ← hd sid]
    · exact absurd rfl hd'

/-- **What has run, what is being drained and what is queued, in every run** whose deliveries return
    and whose sockets are removed once. -/
theorem run_in_order (h : delaying.Reach Calm ⟨.initial, [], []⟩ σ) : InOrder σ := by
  induction h with
  | start => exact ⟨fun _ => rfl, fun _ h => absurd rfl h, .nil⟩
  | @step σ σ' a hr hc hs ih =>
      rcases step_cases hs with ⟨i, τ, rfl, hn, rfl⟩ | ⟨i, rfl, -, hcall, rfl⟩ |
        ⟨i, k, rfl, hst, happ, rfl⟩ | ⟨i, k, rfl, -, -, -⟩
      · obtain ⟨hcore, hl, hk, -, ho⟩ := calm_next hr ih hc hn
        unfold execute
        dsimp only
        have hsound : (delaying.exec i τ.core).fails = false := exec_fails ..
        rw [if_neg (by rw [hsound]; nofun), hcore]
        exact exec_in_order hl hk ho
      · have hi : ∀ sid, draining sid [i] = [] := fun sid => by
          cases i <;> first | rfl | cases hcall
        have hd : ∀ sid, draining sid (i :: σ.stack) = draining sid σ.stack := fun sid => by
          rw [draining_cons, hi, List.nil_append]
        refine ⟨fun sid => ?_, fun sid h => ih.drains sid (hd sid ▸ h),
          List.pairwise_cons.mpr ⟨fun j _ sid r e hf => ?_, ih.sealed⟩⟩
        · rw [stream, hd]
          exact ih.order sid
        · subst hf
          cases hcall
      · have hd : ∀ sid, draining sid σ.stack = draining sid k := fun sid => by
          rw [hst]
          cases i <;> first | rfl | cases happ
        refine ⟨fun sid => ?_, fun sid h => ih.drains sid (hd sid ▸ h), ?_⟩
        · rw [ih.order sid, stream, stream, hd]
        · exact (List.pairwise_cons.mp (hst ▸ ih.sealed)).2
      · exact absurd rfl hc.1

/-- What has run or is being drained. -/
def front (sid : String) (c : Core) (stack : List Instr) : List Entry :=
  ranOf sid c.log ++ draining sid stack

/-- The front of a stream only moves forward. -/
theorem exec_front (sid : String) {k : List Instr} (hk : Clear c i k) :
    front sid c (i :: k) <+: front sid (exec i c).core ((exec i c).push ++ k) := by
  have hlog := exec_log i c
  have hquiet : ∀ {l : List Instr} {m : List Event}, draining sid (i :: k) = draining sid (l ++ k) →
      ranOf sid m = [] →
        ranOf sid c.log ++ draining sid (i :: k) <+: ranOf sid (c.log ++ m) ++ draining sid (l ++ k) :=
    fun {l m} hd hm => by
      rw [ranOf_append, hm, List.append_nil, hd]
  unfold front
  rw [hlog]
  cases i with
  | setDelay sid' ms =>
      have hpush : (exec (.setDelay sid' ms) c).push = [] := rfl
      rw [hpush]
      exact hquiet rfl rfl
  | scheduleDelivery sid' =>
      have hpush : (exec (.scheduleDelivery sid') c).push = [] := by
        simp only [exec, scheduleDelivery]
        split
        · rfl
        · exact (pump_log _ sid').2.2.2
      rw [hpush]
      exact hquiet rfl rfl
  | removeSocket sid' =>
      by_cases hs : sid' = sid
      · have hd : draining sid (.removeSocket sid' :: k) = [] := hs ▸ hk.remove sid' rfl
        rw [hd, List.append_nil, ranOf_append, List.append_assoc]
        exact List.prefix_append ..
      · refine hquiet ?_ rfl
        rw [draining_append]
        simp only [exec]
        rw [(queued_remove _ c sid').2.2 hs]
        rfl
  | expire r =>
      simp only [exec]
      split <;> exact hquiet rfl rfl
  | run r =>
      obtain rfl := hk.run r rfl
      rw [show draining sid [.run r] = [] from rfl, List.append_nil, ranOf_append, List.append_assoc]
      exact List.prefix_append ..
  | runRest r =>
      simp only [exec]
      split
      · rw [(pump_log c r.sid).2.2.2]
        exact hquiet rfl rfl
      · exact hquiet rfl rfl
  | drain sid' e =>
      have heq : ranOf sid c.log ++ draining sid (.drain sid' e :: k) =
          ranOf sid (c.log ++ Instr.records c (.drain sid' e)) ++
            draining sid ((exec (.drain sid' e) c).push ++ k) := by
        rw [ranOf_append]
        by_cases hs : sid' = sid <;> simp [exec, draining, Instr.records, ranOf, hs]
      rw [heq]
  | app d => exact hquiet rfl rfl
  | advance ms => exact hquiet rfl rfl
  | finish sid' r => exact hquiet rfl rfl

/-- A step of a calm run moves the streams forward. -/
theorem step_front {a : Action Instr} (hr : delaying.Reach Calm ⟨.initial, [], []⟩ σ)
    (hc : Calm σ a) (hs : delaying.step σ a = some σ') :
    front sid σ.core σ.stack <+: front sid σ'.core σ'.stack := by
  rcases step_cases hs with ⟨i, τ, rfl, hn, rfl⟩ | ⟨i, rfl, -, hcall, rfl⟩ |
    ⟨i, k, rfl, hst, happ, rfl⟩ | ⟨i, k, rfl, -, -, -⟩
  · obtain ⟨hcore, -, hk, hd, -⟩ := calm_next hr (run_in_order hr) hc hn
    have hfront := exec_front sid hk
    unfold execute
    dsimp only
    rw [if_neg (by rw [show (delaying.exec i τ.core).fails = false from exec_fails ..]; nofun), hcore]
    rw [front, hd] at hfront
    exact hfront
  · have hi : draining sid [i] = [] := by cases i <;> first | rfl | cases hcall
    rw [front, front, draining_cons, hi, List.nil_append]
  · have hi : draining sid [i] = [] := by cases i <;> first | rfl | cases happ
    rw [front, front, hst, draining_cons, hi, List.nil_append]
  · exact absurd rfl hc.1

theorem run_front (sid : String) {tr : List (Core × Instr)}
    (hr : delaying.Reach Calm ⟨.initial, [], []⟩ σ) (h : delaying.Run Calm σ tr σ') :
    front sid σ.core σ.stack <+: front sid σ'.core σ'.stack := by
  induction h with
  | start => exact List.prefix_rfl
  | step h hc hs ih => exact ih.trans (step_front (hr.trans h.reach) hc hs)

/-- Deliveries are numbered as they are scheduled. -/
structure Numbered (c : Core) : Prop where
  below : ∀ sid, ∀ e ∈ scheduledOf sid c.log, e.delivery < c.deliveryCount
  rising : ∀ sid, (scheduledOf sid c.log).Pairwise fun e e' => e.delivery < e'.delivery

theorem exec_deliveryCount (i : Instr) (c : Core) : (exec i c).core.deliveryCount =
    c.deliveryCount + match i with
      | .scheduleDelivery _ => 1
      | _ => 0 := by
  have hpump : ∀ (c : Core) (sid : String), (pump c sid).core.deliveryCount = c.deliveryCount :=
    fun c sid => by
      rcases pump_cases c sid with ⟨-, h⟩ | ⟨_, -, -, h⟩ | ⟨_, _, _, -, -, -, h⟩ |
        ⟨_, _, _, -, -, h⟩ <;> rw [h]
  cases i with
  | setDelay sid ms =>
      simp only [exec, setDelay]
      split <;> rfl
  | scheduleDelivery sid =>
      cases hq : c.queues sid with
      | none =>
          rw [exec, scheduleDelivery_none hq, hpump]
          rfl
      | some q => simp only [exec, scheduleDelivery, hq]
  | removeSocket sid =>
      simp only [exec, removeSocket]
      split <;> rfl
  | expire r =>
      simp only [exec]
      split <;> rfl
  | run r =>
      simp only [exec, run]
      split <;> rfl
  | runRest r =>
      simp only [exec]
      split
      · exact hpump c r.sid
      · rfl
  | _ => rfl

theorem records_scheduled {e : Entry} (h : e ∈ scheduledOf sid (i.records c)) :
    scheduledOf sid (i.records c) = [e] ∧ e.delivery = c.deliveryCount ∧ i = .scheduleDelivery sid := by
  cases i with
  | scheduleDelivery sid' =>
      by_cases hs : sid' = sid
      · subst hs
        simp only [Instr.records, scheduledOf, List.filterMap_cons, if_true, List.filterMap_nil,
          List.mem_singleton] at h ⊢
        exact ⟨h ▸ rfl, h ▸ rfl, trivial⟩
      · simp [Instr.records, scheduledOf, hs] at h
  | run r =>
      simp only [Instr.records] at h
      split at h <;> cases h
  | _ => cases h

theorem Numbered.exec (h : Numbered c) (i : Instr) : Numbered (exec i c).core := by
  have hlog := exec_log i c
  have hcount := exec_deliveryCount i c
  constructor
  · intro sid e he
    rw [hlog, scheduledOf_append] at he
    rw [hcount]
    rcases List.mem_append.mp he with he | he
    · exact (h.below sid e he).trans_le (Nat.le_add_right _ _)
    · obtain ⟨-, hd, rfl⟩ := records_scheduled he
      rw [hd]
      exact Nat.lt_succ_self _
  · intro sid
    rw [hlog, scheduledOf_append]
    refine List.pairwise_append.mpr ⟨h.rising sid, ?_, fun e he e' he' => ?_⟩
    · cases hl : scheduledOf sid (i.records c) with
      | nil => exact .nil
      | cons e l =>
          obtain ⟨hone, -, -⟩ := records_scheduled (hl ▸ List.mem_cons_self)
          rw [← hl, hone]
          exact List.pairwise_singleton ..
    · rw [(records_scheduled he').2.1]
      exact h.below sid e he

/-- What the loop of `removeSocket` finds when it is over: of the sid nothing is drained any
    more. -/
theorem finish_drained {τ : Config Core Instr} {r : Option Run} (h : InOrder σ)
    (hn : delaying.next σ = some (.finish sid r, τ)) : draining sid σ.stack = [] := by
  by_contra hd
  obtain ⟨e, he⟩ := drain_of_draining hd
  obtain ⟨-, ⟨-, hst, -⟩ | ⟨hst, -, -⟩⟩ := next_pending hn
  · rw [hst] at he
    rcases List.mem_cons.mp he with he | he
    · cases he
    · have hsealed : Sealed (.finish sid r :: τ.stack) := hst ▸ h.sealed
      exact (List.pairwise_cons.mp hsealed).1 _ he sid r e rfl rfl
  · rw [hst] at he
    cases he

/-- An exception changes what has been cancelled, and nothing else. -/
theorem keeping_cancelled : Keeping delaying fun c c' => ∃ l, c' = { c with cancelled := l } where
  refl c := ⟨c.cancelled, rfl⟩
  trans := by
    rintro c _ _ ⟨l, rfl⟩ ⟨l', rfl⟩
    exact ⟨l', rfl⟩
  run c i h := by
    cases i with
    | finish sid r => exact ⟨_, rfl⟩
    | _ => cases h

theorem reach_numbered (h : delaying.Reach C ⟨.initial, [], []⟩ σ) : Numbered σ.core := by
  induction h with
  | start => exact ⟨fun _ _ h => absurd h List.not_mem_nil, fun _ => .nil⟩
  | step _ _ hs ih =>
      rcases keeping_cancelled.step hs with ⟨i, _, -, -, -, l, hc⟩ | ⟨-, l, hc⟩
      · rw [hc]
        exact ⟨(ih.exec i).below, (ih.exec i).rising⟩
      · rw [hc]
        exact ⟨ih.below, ih.rising⟩

/-- A queue is made by `scheduleDelivery`. -/
theorem exec_unqueued (h : (exec i c).core.queues sid ≠ none) :
    c.queues sid ≠ none ∨ i = .scheduleDelivery sid := by
  have hback : ∀ {c : Core} {sid' : String}, (pump c sid').core.queues sid ≠ none →
      c.queues sid ≠ none := fun hp => by
    obtain ⟨q, hq⟩ := Option.ne_none_iff_exists'.mp hp
    rw [pump_back hq]
    exact Option.some_ne_none q
  cases i with
  | setDelay sid' ms =>
      simp only [exec, setDelay] at h
      split at h <;> exact Or.inl h
  | scheduleDelivery sid' =>
      by_cases hs : sid' = sid
      · exact Or.inr (hs ▸ rfl)
      · refine Or.inl ?_
        cases hq : c.queues sid' with
        | none =>
            rw [exec, scheduleDelivery_none hq] at h
            simpa [Core.opened, Ne.symm hs] using hback h
        | some q => simpa [exec, scheduleDelivery, hq, Ne.symm hs] using h
  | removeSocket sid' =>
      simp only [exec, removeSocket] at h
      split at h
      · exact Or.inl h
      · by_cases hs : sid = sid'
        · simp [hs] at h
        · exact Or.inl (by simpa [hs] using h)
  | expire r =>
      simp only [exec] at h
      split at h <;> exact Or.inl h
  | run r =>
      simp only [exec, run] at h
      split at h
      · by_cases hs : sid = r.sid
        · subst hs
          refine Or.inl fun hn => ?_
          simp [hn] at h
        · exact Or.inl (by simpa [hs] using h)
      · exact Or.inl h
  | runRest r =>
      simp only [exec] at h
      split at h
      · exact Or.inl (hback h)
      · exact Or.inl h
  | _ => exact Or.inl h

/-- A delay is made by `setDelay`. -/
theorem exec_undelayed (h : (exec i c).core.delays sid ≠ none) :
    c.delays sid ≠ none ∨ ∃ ms, 0 < ms ∧ i = .setDelay sid (some ms) := by
  have hpump : ∀ (c : Core) (sid' : String), (pump c sid').core.delays = c.delays := fun c sid' => by
    rcases pump_cases c sid' with ⟨-, h⟩ | ⟨_, -, -, h⟩ | ⟨_, _, _, -, -, -, h⟩ |
      ⟨_, _, _, -, -, h⟩ <;> rw [h]
  have herase : ∀ {sid' : String}, Function.update c.delays sid' none sid ≠ none →
      c.delays sid ≠ none := fun {sid'} hu => by
    by_cases hs : sid = sid'
    · simp [hs] at hu
    · simpa [hs] using hu
  cases i with
  | setDelay sid' ms =>
      cases ms with
      | none => exact Or.inl h
      | some ms =>
          simp only [exec, setDelay] at h
          by_cases hms : ms ≤ 0
          · rw [if_pos hms] at h
            exact Or.inl (herase h)
          · by_cases hs : sid = sid'
            · exact Or.inr ⟨ms, not_le.mp hms, hs ▸ rfl⟩
            · exact Or.inl (by simpa [hs] using h)
  | scheduleDelivery sid' =>
      simp only [exec, scheduleDelivery] at h
      split at h
      · exact Or.inl h
      · rw [hpump] at h
        exact Or.inl h
  | removeSocket sid' =>
      simp only [exec, removeSocket] at h
      split at h <;> exact Or.inl (herase h)
  | expire r =>
      simp only [exec] at h
      split at h <;> exact Or.inl h
  | run r =>
      simp only [exec, run] at h
      split at h <;> exact Or.inl h
  | runRest r =>
      simp only [exec] at h
      split at h
      · rw [hpump] at h
        exact Or.inl h
      · exact Or.inl h
  | _ => exact Or.inl h

/-- Of a removed sid there is only what has been made since. -/
structure Cleared (sid : String) (tr : List (Core × Instr)) (c : Core) : Prop where
  queues : c.queues sid ≠ none → ∃ x ∈ tr, x.2 = .scheduleDelivery sid
  delays : c.delays sid ≠ none → ∃ x ∈ tr, ∃ ms, 0 < ms ∧ x.2 = .setDelay sid (some ms)

theorem run_cleared {tr : List (Core × Instr)} (h : delaying.Run C σ tr σ')
    (hq : σ.core.queues sid = none) (hd : σ.core.delays sid = none) : Cleared sid tr σ'.core := by
  induction h with
  | start => exact ⟨fun h => absurd hq h, fun h => absurd hd h⟩
  | step _ _ hs ih =>
      have hback : ∀ {tr tr' : List (Core × Instr)} {p : Core × Instr → Prop},
          (∃ x ∈ tr, p x) → ∃ x ∈ tr ++ tr', p x := fun ⟨x, hx, hp⟩ =>
        ⟨x, List.mem_append_left _ hx, hp⟩
      rcases keeping_cancelled.step hs with ⟨i, _, -, -, ht, l, hc⟩ | ⟨ht, l, hc⟩
      · rw [hc]
        refine ⟨fun h' => ?_, fun h' => ?_⟩
        · rcases exec_unqueued h' with h' | rfl
          · exact hback (ih.queues h')
          · exact ⟨_, List.mem_append_right _ (ht ▸ List.mem_singleton_self _), rfl⟩
        · rcases exec_undelayed h' with h' | ⟨ms, hms, rfl⟩
          · exact hback (ih.delays h')
          · exact ⟨_, List.mem_append_right _ (ht ▸ List.mem_singleton_self _), ms, hms, rfl⟩
      · rw [hc, ht, List.append_nil]
        exact ⟨ih.queues, ih.delays⟩

/-- A callback whose queue is gone does nothing, ever. -/
theorem run_gone {tr : List (Core × Instr)} (h : delaying.Run C σ tr σ') {r : Run}
    (hr : r.ident < σ.core.queueCount ∧ σ.core.owns r = false) :
    r.ident < σ'.core.queueCount ∧ σ'.core.owns r = false := by
  induction h with
  | start => exact hr
  | step _ _ hs ih =>
      rcases keeping_cancelled.step hs with ⟨i, _, -, -, -, l, hc⟩ | ⟨-, l, hc⟩
      · rw [hc]
        exact owns_gone ih
      · rw [hc]
        exact ih

/-- What `removeSocket` leaves of the sid in the heap. -/
theorem removeSocket_clears (c : Core) (sid : String) :
    (removeSocket c sid).core.queues sid = none ∧ (removeSocket c sid).core.delays sid = none ∧
      (removeSocket c sid).core.queueCount = c.queueCount ∧
      scheduledOf sid (removeSocket c sid).core.log = scheduledOf sid c.log := by
  unfold removeSocket
  have hlog : scheduledOf sid (c.log ++ [.removing sid]) = scheduledOf sid c.log := by
    rw [scheduledOf_append]
    exact List.append_nil _
  split
  · rename_i hq
    exact ⟨hq, Function.update_self .., rfl, hlog⟩
  · exact ⟨Function.update_self .., Function.update_self .., rfl, hlog⟩

/-- What a removal of `sid` in the heap `c` means for the rest of the run. -/
structure Removed (sid : String) (c : Core) (tr : List (Core × Instr)) : Prop where
  /-- what was queued has run when `removeSocket` returns -/
  ran : ∀ tr₁ c' r tr₂, tr = tr₁ ++ (c', .finish sid r) :: tr₂ → ∀ e ∈ queued sid c, e ∈ ranOf sid c'.log
  /-- and what is there then was made by the deliveries it has run -/
  cleared : ∀ tr₁ c' r tr₂, tr = tr₁ ++ (c', .finish sid r) :: tr₂ → Cleared sid tr₁ c' ∧
    (c'.scheduled sid ≠ none → ∃ x ∈ tr₁, x.2 = .scheduleDelivery sid)
  /-- a callback of a queue the sid had before does nothing any more -/
  stale : ∀ x ∈ tr, ∀ r, x.2 = .run r → r.sid = sid → r.ident < c.queueCount →
    exec x.2 x.1 = { core := x.1 }

/-- **Each delivery once, in order, on time.** -/
structure Delivered (tr : List (Core × Instr)) (c : Core) : Prop where
  once : ∀ sid, (ranOf sid c.log).Pairwise fun e e' => e.delivery < e'.delivery
  order : ∀ sid, ranOf sid c.log <+: scheduledOf sid c.log
  punctual : ∀ sid e time, .ran sid e time false ∈ c.log → e.fireAt ≤ time
  removed : ∀ tr₁ c' sid tr₂, tr = tr₁ ++ (c', .removeSocket sid) :: tr₂ → Removed sid c' tr₂

theorem run_removed {tr₁ tr₂ : List (Core × Instr)}
    (h : delaying.Run Calm ⟨.initial, [], []⟩ (tr₁ ++ (c, .removeSocket sid) :: tr₂) σ) :
    Removed sid c tr₂ := by
  obtain ⟨σ₁, τ, σ₂, h₁, hc, rfl, hn, hs, h₂⟩ := h.split
  have hr₁ := h₁.reach
  have hr₂ := hr₁.step hc hs
  obtain ⟨hqueues, hdelays, hcount, hlog⟩ := removeSocket_clears σ₁.core sid
  obtain ⟨i, τ', hn', l, hcore⟩ : ∃ i τ', delaying.next σ₁ = some (i, τ') ∧
      ∃ l, σ₂.core = { (exec i σ₁.core).core with cancelled := l } := by
    rcases keeping_cancelled.step hs with ⟨i, τ', -, hn', -, l, hl⟩ | ⟨ht, -⟩
    · exact ⟨i, τ', hn', l, hl⟩
    · simp [taken, hn] at ht
  rw [hn, Option.some.injEq, Prod.mk.injEq] at hn'
  obtain ⟨rfl, rfl⟩ := hn'
  have hq₂ : σ₂.core.queues sid = none := by
    rw [hcore]
    exact hqueues
  have hd₂ : σ₂.core.delays sid = none := by
    rw [hcore]
    exact hdelays
  constructor
  · intro tr₃ c' r tr₄ htr e he
    subst htr
    obtain ⟨σ₃, τ₃, -, h₃, -, rfl, hn₃, -, -⟩ := h₂.split
    have hr₃ := hr₂.trans h₃.reach
    have hnone : queued sid σ₂.core = [] := by
      unfold queued
      rw [hq₂]
      rfl
    have hmem : e ∈ front sid σ₂.core σ₂.stack := by
      have horder := (run_in_order hr₂).order sid
      rw [stream, hnone, List.append_nil] at horder
      have hlog₂ : scheduledOf sid σ₂.core.log = scheduledOf sid σ₁.core.log := by
        rw [hcore]
        exact hlog
      rw [front, ← horder, hlog₂, (run_in_order hr₁).order sid]
      exact List.mem_append_right _ he
    have hfront := (run_front sid hr₂ h₃).subset hmem
    rwa [front, finish_drained (run_in_order hr₃) hn₃, List.append_nil] at hfront
  · intro tr₃ c' r tr₄ htr
    subst htr
    obtain ⟨σ₃, τ₃, -, h₃, -, rfl, -, -, -⟩ := h₂.split
    have hcleared := run_cleared h₃ hq₂ hd₂
    refine ⟨hcleared, fun hsched => hcleared.queues ?_⟩
    obtain ⟨r', hr'⟩ := Option.ne_none_iff_exists'.mp hsched
    obtain ⟨hrs, hown⟩ := (reach_sound (hr₂.trans h₃.reach)).inv.scheduled sid r' hr'
    obtain ⟨q, hq, -⟩ := owns_iff.mp hown
    rw [← hrs, hq]
    exact Option.some_ne_none q
  · intro x hx r hxr hrs hlt
    obtain ⟨tr₃, tr₄, rfl⟩ := List.append_of_mem hx
    obtain ⟨σ₃, τ₃, -, h₃, -, hx₁, -, -, -⟩ := h₂.split
    have hgone : r.ident < σ₂.core.queueCount ∧ σ₂.core.owns r = false := by
      refine ⟨?_, Bool.eq_false_iff.mpr fun hown => ?_⟩
      · rw [hcore]
        exact hlt.trans_eq hcount.symm
      · obtain ⟨q, hq, -⟩ := owns_iff.mp hown
        rw [hrs, hq₂] at hq
        cases hq
    rw [hxr, ← hx₁, exec, run, (run_gone h₃ hgone).2]
    rfl

end Order

end Smocket.Delay
