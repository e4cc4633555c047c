import Smocket.Dues
import Smocket.Traces
import Mathlib.Algebra.Order.Ring.Rat
import Mathlib.Data.List.Nodup

/-
  File:      Smocket/Delays.lean
  Subject:   `DelayingAdapter` (`adapters.ts`): a FIFO queue for each sid, of which only the head is
             ever scheduled, on the timer or as a microtask.

  A delivery is whatever the application hands over: it may call the adapter again, and it may
  throw. The timer runs what it was given at most once, not before its time, possibly late and
  possibly after it was cancelled. Queues are told apart by identity.

  * `exec`, `delaying` -- the machine;
  * `sound_inductive` -- of each queue at most one callback is outstanding, and it has the queue's
    head.
-/

namespace Smocket.Delay

open EventLoop EventLoop.Machine

/-! ## 1. The adapter -/

/-- A queued delivery; deliveries are numbered as they are scheduled. -/
structure Entry where
  delivery : Nat
  fireAt : ℚ
  deriving DecidableEq

/-- A queue object. -/
structure Queue where
  ident : Nat
  entries : List Entry
  deriving DecidableEq

/-- The closure `run` of `pump`. -/
structure Run where
  sid : String
  ident : Nat
  head : Entry
  deriving DecidableEq

/-- What `timer.schedule` was given, and from when on it may run. -/
structure Timer where
  run : Run
  due : ℚ
  deriving DecidableEq

/-- What is recorded, for the statements only. -/
inductive Event where
  | scheduled (sid : String) (e : Entry)
  /-- a delivery starts, at a time, called by `run` or by `removeSocket` -/
  | ran (sid : String) (e : Entry) (time : ℚ) (removal : Bool)
  /-- `removeSocket` is called -/
  | removing (sid : String)
  deriving DecidableEq

structure Core where
  /-- `timer.now()` -/
  now : ℚ
  delays : String → Option ℚ
  queues : String → Option Queue
  scheduled : String → Option Run
  /-- given to `timer.schedule` and not run -/
  timers : List Timer
  /-- given to `timer.cancel` -/
  cancelled : List Run
  deliveryCount : Nat
  queueCount : Nat
  log : List Event

inductive Instr where
  /-- a delivery runs -/
  | app (delivery : Nat)
  /-- a delay that is not finite is none -/
  | setDelay (sid : String) (ms : Option ℚ)
  | scheduleDelivery (sid : String)
  | removeSocket (sid : String)
  /-- time passes -/
  | advance (ms : ℚ)
  /-- the host takes a callback of the timer that is due -/
  | expire (r : Run)
  | run (r : Run)
  /-- `run` after the delivery of its head -/
  | runRest (r : Run)
  /-- the loop of `removeSocket`, at one entry -/
  | drain (sid : String) (e : Entry)
  /-- the end of `removeSocket` -/
  | finish (sid : String) (scheduled : Option Run)
  deriving DecidableEq

def Core.record (c : Core) (e : Event) : Core := { c with log := c.log ++ [e] }

/-- Non-positive values clear the delay. -/
def setDelay (c : Core) (sid : String) (ms : Option ℚ) : Core :=
  match ms with
  | none => c
  | some ms => { c with delays := Function.update c.delays sid (if ms ≤ 0 then none else some ms) }

/-- `pump`, with the microtask it posts. -/
def pump (c : Core) (sid : String) : Effect Core Instr :=
  match c.queues sid with
  | none => { core := c }
  | some queue =>
      match queue.entries with
      | [] => { core := { c with queues := Function.update c.queues sid none } }
      | head :: _ =>
          let run : Run := ⟨sid, queue.ident, head⟩
          let wait := head.fireAt - c.now
          if wait ≤ 0 then { core := c, post := [.run run] }
          else
            { core := { c with
                scheduled := Function.update c.scheduled sid (some run)
                timers := c.timers ++ [⟨run, c.now + wait⟩] } }

def scheduleDelivery (c : Core) (sid : String) : Effect Core Instr :=
  let entry : Entry := ⟨c.deliveryCount, c.now + (c.delays sid).getD 0⟩
  let c' := { c.record (.scheduled sid entry) with deliveryCount := c.deliveryCount + 1 }
  match c.queues sid with
  | some queue =>
      { core := { c' with
          queues := Function.update c.queues sid
            (some { queue with entries := queue.entries ++ [entry] }) } }
  | none =>
      pump { c' with
        queues := Function.update c.queues sid (some ⟨c.queueCount, [entry]⟩)
        queueCount := c.queueCount + 1 } sid

/-- `this.queues.get(sid) === queue`. -/
def Core.owns (c : Core) (r : Run) : Bool :=
  (c.queues r.sid).any fun queue => decide (queue.ident = r.ident)

/-- `run` up to the delivery of its head. -/
def run (c : Core) (r : Run) : Effect Core Instr :=
  if c.owns r then
    { core := { c.record (.ran r.sid r.head c.now false) with
        scheduled := Function.update c.scheduled r.sid none
        queues := Function.update c.queues r.sid
          ((c.queues r.sid).map fun queue => { queue with entries := queue.entries.tail }) }
      push := [.app r.head.delivery, .runRest r] }
  else { core := c }

def removeSocket (c : Core) (sid : String) : Effect Core Instr :=
  let c' := { c.record (.removing sid) with delays := Function.update c.delays sid none }
  match c.queues sid with
  | none => { core := c', push := [.finish sid none] }
  | some queue =>
      { core := { c' with
          queues := Function.update c.queues sid none
          scheduled := Function.update c.scheduled sid none }
        push := queue.entries.map (.drain sid) ++ [.finish sid (c.scheduled sid)] }

/-- Execute one instruction. -/
def exec : Instr → Core → Effect Core Instr
  | .app _, c => { core := c }
  | .setDelay sid ms, c => { core := setDelay c sid ms }
  | .scheduleDelivery sid, c => scheduleDelivery c sid
  | .removeSocket sid, c => removeSocket c sid
  | .advance ms, c => { core := { c with now := c.now + max ms 0 } }
  | .expire r, c =>
      if c.timers.any fun t => decide (t.run = r ∧ t.due ≤ c.now) then
        { core := { c with timers := c.timers.filter fun t => decide (t.run ≠ r) }, post := [.run r] }
      else { core := c }
  | .run r, c => run c r
  | .runRest r, c => if c.owns r then pump c r.sid else { core := c }
  | .drain sid e, c =>
      { core := c.record (.ran sid e c.now true), push := [.app e.delivery] }
  | .finish _ scheduled, c => { core := { c with cancelled := scheduled.toList ++ c.cancelled } }

/-- The machine: `removeSocket` ends in a `finally` block. -/
def delaying : Machine Core Instr where
  isApp
    | .app _ => true
    | _ => false
  exec := exec
  onThrow
    | _, .finish .. => .run
    | _, _ => .skip
  callable
    | _, .setDelay .. | _, .scheduleDelivery _ | _, .removeSocket _ | _, .advance _
    | _, .expire _ => true
    | _, _ => false

/-- `new DelayingAdapter(timer)`. -/
def Core.initial : Core where
  now := 0
  delays _ := none
  queues _ := none
  scheduled _ := none
  timers := []
  cancelled := []
  deliveryCount := 0
  queueCount := 0
  log := []

/-! ## 2. What one instruction does to a queue -/

section Steps

variable {c : Core} {i : Instr}

/-- The four things `pump` can do. -/
theorem pump_cases (c : Core) (sid : String) :
    (c.queues sid = none ∧ pump c sid = { core := c }) ∨
    (∃ q, c.queues sid = some q ∧ q.entries = [] ∧
      pump c sid = { core := { c with queues := Function.update c.queues sid none } }) ∨
    (∃ q head rest, c.queues sid = some q ∧ q.entries = head :: rest ∧ head.fireAt ≤ c.now ∧
      pump c sid = { core := c, post := [.run ⟨sid, q.ident, head⟩] }) ∨
    (∃ q head rest, c.queues sid = some q ∧ q.entries = head :: rest ∧
      pump c sid = { core := { c with
        scheduled := Function.update c.scheduled sid (some ⟨sid, q.ident, head⟩)
        timers := c.timers ++ [⟨⟨sid, q.ident, head⟩, head.fireAt⟩] } }) := by
  unfold pump
  cases hq : c.queues sid with
  | none => exact Or.inl ⟨rfl, rfl⟩
  | some q =>
      dsimp only
      cases he : q.entries with
      | nil => exact Or.inr (Or.inl ⟨q, rfl, he, rfl⟩)
      | cons head rest =>
          dsimp only
          split
          · rename_i hw
            exact Or.inr (Or.inr (Or.inl ⟨q, head, rest, rfl, he, sub_nonpos.mp hw, rfl⟩))
          · refine Or.inr (Or.inr (Or.inr ⟨q, head, rest, rfl, he, ?_⟩))
            rw [add_sub_cancel]

theorem owns_iff {r : Run} :
    c.owns r = true ↔ ∃ q, c.queues r.sid = some q ∧ q.ident = r.ident := by
  rw [Core.owns, Option.any_eq_true]
  simp

/-- What one instruction makes of the queue at `sid`. -/
inductive QueueStep (c : Core) (i : Instr) (sid : String) : Option Queue → Prop
  | same : QueueStep c i sid (c.queues sid)
  | extend (q : Queue) (e : Entry) (h : c.queues sid = some q) :
      QueueStep c i sid (some ⟨q.ident, q.entries ++ [e]⟩)
  | new (e : Entry) (h : c.queues sid = none)
      (hc : (exec i c).core.queueCount = c.queueCount + 1) :
      QueueStep c i sid (some ⟨c.queueCount, [e]⟩)
  | shift (q : Queue) (r : Run) (hi : i = .run r) (hr : r.sid = sid) (h : c.queues sid = some q)
      (hq : q.ident = r.ident) : QueueStep c i sid (some ⟨q.ident, q.entries.tail⟩)
  | gone (h : i = .removeSocket sid ∨ ∃ q, c.queues sid = some q ∧ q.entries = []) :
      QueueStep c i sid none

theorem pump_queue (c : Core) (i : Instr) (sid sid' : String) :
    QueueStep c i sid' ((pump c sid).core.queues sid') := by
  rcases pump_cases c sid with ⟨-, h⟩ | ⟨q, hq, he, h⟩ | ⟨q, head, rest, -, -, -, h⟩ |
    ⟨q, head, rest, -, -, h⟩ <;> rw [h]
  · exact .same
  · dsimp only
    by_cases hs : sid' = sid
    · subst hs
      rw [Function.update_self]
      exact .gone (Or.inr ⟨q, hq, he⟩)
    · rw [Function.update_of_ne hs]
      exact .same
  · exact .same
  · exact .same

theorem pump_count (c : Core) (sid : String) : (pump c sid).core.queueCount = c.queueCount := by
  rcases pump_cases c sid with ⟨-, h⟩ | ⟨_, -, -, h⟩ | ⟨_, _, _, -, -, -, h⟩ |
    ⟨_, _, _, -, -, h⟩ <;> rw [h]

/-- A queue that is not empty stays. -/
theorem pump_keeps {c : Core} {sid : String} (h : ∀ q, c.queues sid = some q → q.entries ≠ []) :
    (pump c sid).core.queues = c.queues := by
  rcases pump_cases c sid with ⟨-, hp⟩ | ⟨q, hq, he, -⟩ | ⟨q, head, rest, -, -, -, hp⟩ |
    ⟨q, head, rest, -, -, hp⟩
  · rw [hp]
  · exact absurd he (h q hq)
  · rw [hp]
  · rw [hp]

theorem exec_queue (i : Instr) (c : Core) (sid : String) :
    QueueStep c i sid ((exec i c).core.queues sid) := by
  cases i with
  | setDelay sid' ms =>
      simp only [exec, setDelay]
      split <;> exact .same
  | scheduleDelivery sid' =>
      simp only [exec, scheduleDelivery]
      cases hq : c.queues sid' with
      | some q =>
          dsimp only
          by_cases hs : sid = sid'
          · subst hs
            rw [Function.update_self]
            exact .extend q _ hq
          · rw [Function.update_of_ne hs]
            exact .same
      | none =>
          dsimp only
          rw [pump_keeps fun q h => by
            simp only [Function.update_self, Option.some.injEq] at h
            rw [← h]
            exact List.cons_ne_nil _ _]
          dsimp only
          by_cases hs : sid = sid'
          · subst hs
            rw [Function.update_self]
            refine .new _ hq ?_
            simp only [exec, scheduleDelivery, hq, pump_count]
          · rw [Function.update_of_ne hs]
            exact .same
  | removeSocket sid' =>
      simp only [exec, removeSocket]
      split
      · exact .same
      · dsimp only
        by_cases hs : sid = sid'
        · subst hs
          rw [Function.update_self]
          exact .gone (Or.inl rfl)
        · rw [Function.update_of_ne hs]
          exact .same
  | expire r =>
      simp only [exec]
      split <;> exact .same
  | run r =>
      simp only [exec, run]
      split
      · rename_i hr
        dsimp only
        by_cases hs : sid = r.sid
        · subst hs
          obtain ⟨q, hq, hid⟩ := owns_iff.mp hr
          rw [Function.update_self, hq]
          exact .shift q r rfl rfl hq hid
        · rw [Function.update_of_ne hs]
          exact .same
      · exact .same
  | runRest r =>
      simp only [exec]
      split
      · exact pump_queue c _ r.sid sid
      · exact .same
  | _ => exact .same

/-- Numbers of queues only grow, and an identity does not come back. -/
theorem exec_count (i : Instr) (c : Core) : c.queueCount ≤ (exec i c).core.queueCount := by
  cases i with
  | setDelay sid ms =>
      simp only [exec, setDelay]
      split <;> exact le_rfl
  | scheduleDelivery sid =>
      simp only [exec, scheduleDelivery]
      split
      · exact le_rfl
      · rw [pump_count]
        exact Nat.le_succ _
  | removeSocket sid =>
      simp only [exec, removeSocket]
      split <;> exact le_rfl
  | expire r =>
      simp only [exec]
      split <;> exact le_rfl
  | run r =>
      simp only [exec, run]
      split <;> exact le_rfl
  | runRest r =>
      simp only [exec]
      split
      · exact (pump_count c r.sid).ge
      · exact le_rfl
  | _ => exact le_rfl

theorem owns_back {r : Run} (hr : r.ident < c.queueCount) (h : (exec i c).core.owns r = true) :
    c.owns r = true := by
  obtain ⟨q, hq, hid⟩ := owns_iff.mp h
  have hstep := exec_queue i c r.sid
  rw [hq] at hstep
  generalize ho : some q = o at hstep
  cases hstep with
  | same => exact owns_iff.mpr ⟨q, ho.symm, hid⟩
  | extend q' e h' =>
      cases ho
      exact owns_iff.mpr ⟨q', h', hid⟩
  | new e h' hc =>
      cases ho
      exact absurd hid (Nat.ne_of_gt hr)
  | shift q' r' hi hr' h' hq' =>
      cases ho
      exact owns_iff.mpr ⟨q', h', hid⟩
  | gone => cases ho

/-! ## 3. The outstanding callback of a queue -/

/-- If the queue is still there, its head is the one the callback was made for. -/
def Core.Heads (c : Core) (r : Run) : Prop :=
  ∀ q, c.queues r.sid = some q → q.ident = r.ident → ∃ rest, q.entries = r.head :: rest

/-- The queues that have a callback on the timer. -/
def Core.timed (c : Core) : List Nat := c.timers.map fun t => t.run.ident

/-- The invariant of the heap. -/
structure Sound (c : Core) : Prop where
  numbered : ∀ sid q, c.queues sid = some q → q.ident < c.queueCount
  timers : ∀ t ∈ c.timers, t.due = t.run.head.fireAt ∧ t.run.ident < c.queueCount ∧ c.Heads t.run
  apart : c.timed.Nodup
  scheduled : ∀ sid r, c.scheduled sid = some r → r.sid = sid ∧ c.owns r = true
  cancelled : ∀ r ∈ c.cancelled, r.ident < c.queueCount ∧ c.owns r = false
  punctual : ∀ sid e t, .ran sid e t false ∈ c.log → e.fireAt ≤ t

/-- What is known of a pending instruction. -/
def Live (c : Core) : Instr → Prop
  | .run r => r.ident < c.queueCount ∧ r.ident ∉ c.timed ∧ r.head.fireAt ≤ c.now ∧ c.Heads r
  | .runRest r => r.ident < c.queueCount ∧ r.ident ∉ c.timed ∧
      ∀ r', c.scheduled r.sid = some r' → r'.ident ≠ r.ident
  | .finish _ scheduled => ∀ r ∈ scheduled, r.ident < c.queueCount ∧ c.owns r = false
  | _ => True

/-- Of each queue one callback at most is pending or running. -/
def turn : Instr → Option Nat
  | .run r | .runRest r => some r.ident
  | _ => none

/-- The callback keeps its head while no callback of its queue executes. -/
theorem Heads.exec {r : Run} (h : c.Heads r) (hr : r.ident < c.queueCount)
    (hi : ∀ r', i = .run r' → r'.ident ≠ r.ident) : (exec i c).core.Heads r := by
  intro q hq hid
  have hstep := exec_queue i c r.sid
  rw [hq] at hstep
  generalize ho : some q = o at hstep
  cases hstep with
  | same => exact h q ho.symm hid
  | extend q' e h' =>
      cases ho
      obtain ⟨rest, he⟩ := h q' h' hid
      exact ⟨rest ++ [e], by rw [he]; rfl⟩
  | new e h' hc =>
      cases ho
      exact absurd hid (Nat.ne_of_gt hr)
  | shift q' r' hi' hr' h' hq' =>
      cases ho
      exact absurd (hq'.symm.trans hid) (hi r' hi')
  | gone => cases ho

theorem exec_now (i : Instr) (c : Core) : c.now ≤ (exec i c).core.now := by
  have hpump : ∀ (c : Core) (sid : String), (pump c sid).core.now = c.now := fun c sid => by
    rcases pump_cases c sid with ⟨-, h⟩ | ⟨_, -, -, h⟩ | ⟨_, _, _, -, -, -, h⟩ |
      ⟨_, _, _, -, -, h⟩ <;> rw [h]
  cases i with
  | advance ms => exact le_add_of_nonneg_right (le_max_right ms 0)
  | setDelay sid ms =>
      simp only [exec, setDelay]
      split <;> exact le_rfl
  | scheduleDelivery sid =>
      simp only [exec, scheduleDelivery]
      split
      · exact le_rfl
      · exact (hpump _ sid).ge
  | removeSocket sid =>
      simp only [exec, removeSocket]
      split <;> exact le_rfl
  | expire r =>
      simp only [exec]
      split <;> exact le_rfl
  | run r =>
      simp only [exec, run]
      split <;> exact le_rfl
  | runRest r =>
      simp only [exec]
      split
      · exact (hpump c r.sid).ge
      · exact le_rfl
  | _ => exact le_rfl

/-- The state `scheduleDelivery` pumps in: the new queue is in place. -/
def Core.opened (c : Core) (sid : String) (entry : Entry) : Core :=
  { c.record (.scheduled sid entry) with
    deliveryCount := c.deliveryCount + 1
    queues := Function.update c.queues sid (some ⟨c.queueCount, [entry]⟩)
    queueCount := c.queueCount + 1 }

theorem opened_self (c : Core) (sid : String) (entry : Entry) :
    (c.opened sid entry).queues sid = some ⟨c.queueCount, [entry]⟩ := Function.update_self ..

/-- What `pump` gives to the timer. -/
theorem pump_timers (c : Core) (sid : String) :
    ((pump c sid).core.timers = c.timers ∧ (pump c sid).core.scheduled = c.scheduled) ∨
      ∃ q head rest, c.queues sid = some q ∧ q.entries = head :: rest ∧
        (pump c sid).core.queues = c.queues ∧
        (pump c sid).core.timers = c.timers ++ [⟨⟨sid, q.ident, head⟩, head.fireAt⟩] ∧
        (pump c sid).core.scheduled = Function.update c.scheduled sid (some ⟨sid, q.ident, head⟩) := by
  rcases pump_cases c sid with ⟨-, h⟩ | ⟨_, -, -, h⟩ | ⟨_, _, _, -, -, -, h⟩ |
    ⟨q, head, rest, hq, he, h⟩ <;> rw [h]
  · exact Or.inl ⟨rfl, rfl⟩
  · exact Or.inl ⟨rfl, rfl⟩
  · exact Or.inl ⟨rfl, rfl⟩
  · exact Or.inr ⟨q, head, rest, hq, he, rfl, rfl, rfl⟩

/-- What `pump` posts. -/
theorem pump_spawned {sid : String} {t : Instr} (ht : t ∈ (pump c sid).spawned) :
    (pump c sid).core = c ∧ ∃ q head rest, c.queues sid = some q ∧ q.entries = head :: rest ∧
      head.fireAt ≤ c.now ∧ t = .run ⟨sid, q.ident, head⟩ := by
  rcases pump_cases c sid with ⟨-, h⟩ | ⟨_, -, -, h⟩ | ⟨q, head, rest, hq, he, hw, h⟩ |
    ⟨q, head, rest, hq, he, h⟩ <;> rw [h] at ht ⊢
  · cases ht
  · cases ht
  · exact ⟨rfl, q, head, rest, hq, he, hw, List.mem_singleton.mp ht⟩
  · cases ht

theorem pump_log (c : Core) (sid : String) :
    (pump c sid).core.log = c.log ∧ (pump c sid).core.cancelled = c.cancelled ∧
      (pump c sid).core.now = c.now ∧ (pump c sid).push = [] := by
  rcases pump_cases c sid with ⟨-, h⟩ | ⟨_, -, -, h⟩ | ⟨_, _, _, -, -, -, h⟩ |
    ⟨_, _, _, -, -, h⟩ <;> rw [h] <;> exact ⟨rfl, rfl, rfl, rfl⟩

/-- A callback made for the head of a queue has its head. -/
theorem Heads.made {sid : String} {q : Queue} {head : Entry} {rest : List Entry}
    (hq : c.queues sid = some q) (he : q.entries = head :: rest) :
    c.Heads ⟨sid, q.ident, head⟩ := fun q' hq' _ => by
  rw [hq, Option.some.injEq] at hq'
  exact ⟨rest, hq' ▸ he⟩

/-- `pump` only takes queues away. -/
theorem pump_back {sid sid' : String} {q : Queue} (h : (pump c sid).core.queues sid' = some q) :
    c.queues sid' = some q := by
  rcases pump_cases c sid with ⟨-, hp⟩ | ⟨_, -, -, hp⟩ | ⟨_, _, _, -, -, -, hp⟩ |
    ⟨_, _, _, -, -, hp⟩ <;> rw [hp] at h
  · exact h
  · by_cases hs : sid' = sid
    · subst hs
      simp at h
    · simpa [hs] using h
  · exact h
  · exact h

/-- `pump` is sound where its queue has no callback outstanding. -/
theorem Sound.pump (h : Sound c) {sid : String}
    (ho : ∀ q, c.queues sid = some q → q.ident ∉ c.timed ∧ c.scheduled sid = none) :
    Sound (pump c sid).core := by
  obtain ⟨hlog, hcancelled, -, -⟩ := pump_log c sid
  have hheads : ∀ {r : Run}, c.Heads r → (Delay.pump c sid).core.Heads r := fun hr q hq hid =>
    hr q (pump_back hq) hid
  constructor
  · intro sid' q hq
    rw [pump_count]
    exact h.numbered sid' q (pump_back hq)
  · intro t ht
    rw [pump_count]
    rcases pump_timers c sid with ⟨htimers, -⟩ | ⟨q, head, rest, hq, he, -, htimers, -⟩
    · rw [htimers] at ht
      obtain ⟨h₁, h₂, h₃⟩ := h.timers t ht
      exact ⟨h₁, h₂, hheads h₃⟩
    · rw [htimers] at ht
      rcases List.mem_append.mp ht with ht | ht
      · obtain ⟨h₁, h₂, h₃⟩ := h.timers t ht
        exact ⟨h₁, h₂, hheads h₃⟩
      · rw [List.mem_singleton.mp ht]
        exact ⟨rfl, h.numbered sid q hq, hheads (Heads.made hq he)⟩
  · rcases pump_timers c sid with ⟨htimers, -⟩ | ⟨q, head, rest, hq, he, -, htimers, -⟩
    · rw [Core.timed, htimers]
      exact h.apart
    · rw [Core.timed, htimers, List.map_append]
      refine List.Nodup.append h.apart (List.nodup_singleton _) fun n hn hn' => ?_
      rw [List.mem_singleton.mp hn'] at hn
      exact (ho q hq).1 hn
  · intro sid' r hr
    rcases pump_timers c sid with
      ⟨-, hsched⟩ | ⟨q, head, rest, hq, he, hqueues, -, hsched⟩
    · rw [hsched] at hr
      obtain ⟨hrs, hown⟩ := h.scheduled sid' r hr
      refine ⟨hrs, ?_⟩
      obtain ⟨q, hq, hid⟩ := owns_iff.mp hown
      rcases pump_cases c sid with ⟨-, hp⟩ | ⟨q', hq', -, hp⟩ | ⟨_, _, _, -, -, -, hp⟩ |
        ⟨_, _, _, -, -, hp⟩ <;> rw [hp]
      · exact hown
      · have hne : r.sid ≠ sid := fun hs => by
          rw [hrs] at hs
          rw [hs, (ho q' hq').2] at hr
          cases hr
        exact owns_iff.mpr ⟨q, by simpa [hne] using hq, hid⟩
      · exact hown
      · exact owns_iff.mpr ⟨q, hq, hid⟩
    · rw [hsched] at hr
      by_cases hs : sid' = sid
      · subst hs
        rw [Function.update_self, Option.some.injEq] at hr
        rw [← hr]
        exact ⟨rfl, owns_iff.mpr ⟨q, by rw [hqueues]; exact hq, rfl⟩⟩
      · rw [Function.update_of_ne hs] at hr
        obtain ⟨hrs, hown⟩ := h.scheduled sid' r hr
        obtain ⟨q', hq', hid⟩ := owns_iff.mp hown
        exact ⟨hrs, owns_iff.mpr ⟨q', by rw [hqueues]; exact hq', hid⟩⟩
  · intro r hr
    rw [hcancelled] at hr
    obtain ⟨hlt, hown⟩ := h.cancelled r hr
    rw [pump_count]
    refine ⟨hlt, Bool.eq_false_iff.mpr fun h' => ?_⟩
    obtain ⟨q, hq, hid⟩ := owns_iff.mp h'
    rw [owns_iff.mpr ⟨q, pump_back hq, hid⟩] at hown
    cases hown
  · rw [hlog]
    exact h.punctual

/-- A queue that is gone does not come back. -/
theorem owns_gone {r : Run} (hr : r.ident < c.queueCount ∧ c.owns r = false) :
    r.ident < (exec i c).core.queueCount ∧ (exec i c).core.owns r = false :=
  ⟨hr.1.trans_le (exec_count i c), Bool.eq_false_iff.mpr fun h' => by
    rw [owns_back hr.1 h'] at hr
    cases hr.2⟩

theorem Sound.numbers (h : Sound c) (i : Instr) (sid : String) (q : Queue)
    (hq : (Delay.exec i c).core.queues sid = some q) :
    q.ident < (Delay.exec i c).core.queueCount := by
  have hstep := exec_queue i c sid
  rw [hq] at hstep
  generalize ho : some q = o at hstep
  cases hstep with
  | same => exact (h.numbered sid q ho.symm).trans_le (exec_count i c)
  | extend q' e h' =>
      cases ho
      exact (h.numbered sid q' h').trans_le (exec_count i c)
  | new e h' hc =>
      cases ho
      rw [hc]
      exact Nat.lt_succ_self _
  | shift q' r hi hr h' hq' =>
      cases ho
      exact (h.numbered sid q' h').trans_le (exec_count i c)
  | gone => cases ho

/-- A new queue is in place. -/
theorem Sound.opened (h : Sound c) {sid : String} (hq : c.queues sid = none) (entry : Entry) :
    Sound (c.opened sid entry) := by
  have hself := opened_self c sid entry
  have hother : ∀ {sid'}, sid' ≠ sid → (c.opened sid entry).queues sid' = c.queues sid' :=
    fun hs => Function.update_of_ne hs ..
  have howns : ∀ {r : Run}, r.ident < c.queueCount → (c.opened sid entry).owns r = true →
      c.owns r = true := fun {r} hr hown => by
    obtain ⟨q, hq', hid⟩ := owns_iff.mp hown
    by_cases hs : r.sid = sid
    · rw [hs, hself, Option.some.injEq] at hq'
      rw [← hid, ← hq'] at hr
      exact absurd hr (Nat.lt_irrefl _)
    · rw [hother hs] at hq'
      exact owns_iff.mpr ⟨q, hq', hid⟩
  constructor
  · intro sid' q hq'
    by_cases hs : sid' = sid
    · rw [hs, hself, Option.some.injEq] at hq'
      rw [← hq']
      exact Nat.lt_succ_self _
    · rw [hother hs] at hq'
      exact (h.numbered sid' q hq').trans (Nat.lt_succ_self _)
  · intro t ht
    obtain ⟨h₁, h₂, h₃⟩ := h.timers t ht
    refine ⟨h₁, h₂.trans (Nat.lt_succ_self _), fun q hq' hid => ?_⟩
    by_cases hs : t.run.sid = sid
    · rw [hs, hself, Option.some.injEq] at hq'
      rw [← hid, ← hq'] at h₂
      exact absurd h₂ (Nat.lt_irrefl _)
    · rw [hother hs] at hq'
      exact h₃ q hq' hid
  · exact h.apart
  · intro sid' r hr
    obtain ⟨hrs, hown⟩ := h.scheduled sid' r hr
    obtain ⟨q, hq', hid⟩ := owns_iff.mp hown
    have hs : r.sid ≠ sid := fun hs => by
      rw [hs, hq] at hq'
      cases hq'
    exact ⟨hrs, owns_iff.mpr ⟨q, (hother hs).trans hq', hid⟩⟩
  · intro r hr
    obtain ⟨hlt, hown⟩ := h.cancelled r hr
    refine ⟨hlt.trans (Nat.lt_succ_self _), Bool.eq_false_iff.mpr fun h' => ?_⟩
    rw [howns hlt h'] at hown
    cases hown
  · intro sid' e t ht
    rcases List.mem_append.mp ht with ht | ht
    · exact h.punctual sid' e t ht
    · cases List.mem_singleton.mp ht

theorem scheduleDelivery_none {sid : String} (hq : c.queues sid = none) :
    scheduleDelivery c sid =
      pump (c.opened sid ⟨c.deliveryCount, c.now + (c.delays sid).getD 0⟩) sid := by
  unfold scheduleDelivery
  rw [hq]
  rfl

/-- What is opened has no callback yet. -/
theorem Sound.unscheduled (h : Sound c) {sid : String} (hq : c.queues sid = none) (entry : Entry) :
    ∀ q, (c.opened sid entry).queues sid = some q →
      q.ident ∉ (c.opened sid entry).timed ∧ (c.opened sid entry).scheduled sid = none := by
  intro q hq'
  have hself := opened_self c sid entry
  rw [hself, Option.some.injEq] at hq'
  subst hq'
  refine ⟨fun hn => ?_, ?_⟩
  · obtain ⟨t, ht, htn⟩ := List.mem_map.mp hn
    have hlt := (h.timers t ht).2.1
    dsimp only at htn
    omega
  · cases hs : c.scheduled sid with
    | none => exact hs
    | some r =>
        obtain ⟨hrs, hown⟩ := h.scheduled sid r hs
        obtain ⟨q, hq', -⟩ := owns_iff.mp hown
        rw [hrs, hq] at hq'
        cases hq'

theorem Sound.exec (h : Sound c) (hl : Live c i) : Sound (exec i c).core := by
  cases i with
  | app d => exact h
  | setDelay sid ms =>
      simp only [Delay.exec, setDelay]
      split
      · exact h
      · exact ⟨h.numbered, h.timers, h.apart, h.scheduled, h.cancelled, h.punctual⟩
  | scheduleDelivery sid =>
      cases hq : c.queues sid with
      | none =>
          rw [Delay.exec, scheduleDelivery_none hq]
          exact (h.opened hq _).pump (h.unscheduled hq _)
      | some q =>
          have hcore : (Delay.exec (.scheduleDelivery sid) c).core =
              { c.record (.scheduled sid ⟨c.deliveryCount, c.now + (c.delays sid).getD 0⟩) with
                deliveryCount := c.deliveryCount + 1
                queues := Function.update c.queues sid (some { q with
                  entries := q.entries ++ [⟨c.deliveryCount, c.now + (c.delays sid).getD 0⟩] }) } := by
            simp only [Delay.exec, scheduleDelivery, hq]
          refine ⟨h.numbers _, fun t ht => ?_, ?_, fun sid' r hr => ?_, fun r hr => ?_,
            fun sid' e t ht => ?_⟩
          · rw [hcore] at ht
            obtain ⟨h₁, h₂, h₃⟩ := h.timers t ht
            exact ⟨h₁, h₂.trans_le (exec_count _ c), Heads.exec h₃ h₂ nofun⟩
          · rw [hcore]
            exact h.apart
          · rw [hcore] at hr
            obtain ⟨hrs, hown⟩ := h.scheduled sid' r hr
            obtain ⟨q', hq', hid⟩ := owns_iff.mp hown
            refine ⟨hrs, owns_iff.mpr ?_⟩
            rw [hcore]
            by_cases hs : r.sid = sid
            · rw [hs, hq, Option.some.injEq] at hq'
              subst hq'
              refine ⟨⟨q.ident, q.entries ++ [⟨c.deliveryCount, c.now + (c.delays sid).getD 0⟩]⟩,
                ?_, hid⟩
              rw [hs]
              exact Function.update_self sid _ c.queues
            · exact ⟨q', (Function.update_of_ne hs ..).trans hq', hid⟩
          · rw [hcore] at hr
            exact owns_gone (h.cancelled r hr)
          · rw [hcore] at ht
            rcases List.mem_append.mp ht with ht | ht
            · exact h.punctual sid' e t ht
            · cases List.mem_singleton.mp ht
  | removeSocket sid =>
      have hlog : (Delay.exec (.removeSocket sid) c).core.log = c.log ++ [.removing sid] ∧
          (Delay.exec (.removeSocket sid) c).core.timers = c.timers ∧
          (Delay.exec (.removeSocket sid) c).core.cancelled = c.cancelled := by
        simp only [Delay.exec, removeSocket]
        split <;> exact ⟨rfl, rfl, rfl⟩
      refine ⟨h.numbers _, fun t ht => ?_, ?_, fun sid' r hr => ?_, fun r hr => ?_,
        fun sid' e t ht => ?_⟩
      · obtain ⟨h₁, h₂, h₃⟩ := h.timers t (hlog.2.1 ▸ ht)
        exact ⟨h₁, h₂.trans_le (exec_count _ c), Heads.exec h₃ h₂ nofun⟩
      · rw [Core.timed, hlog.2.1]
        exact h.apart
      · cases hq : c.queues sid with
        | none =>
            simp only [Delay.exec, removeSocket, hq] at hr ⊢
            exact h.scheduled sid' r hr
        | some q =>
            simp only [Delay.exec, removeSocket, hq] at hr ⊢
            have hs : sid' ≠ sid := fun hs => by
              rw [hs, Function.update_self] at hr
              cases hr
            rw [Function.update_of_ne hs] at hr
            obtain ⟨hrs, hown⟩ := h.scheduled sid' r hr
            obtain ⟨q', hq', hid⟩ := owns_iff.mp hown
            exact ⟨hrs, owns_iff.mpr ⟨q', (Function.update_of_ne (hrs ▸ hs) ..).trans hq', hid⟩⟩
      · exact owns_gone (h.cancelled r (hlog.2.2 ▸ hr))
      · rw [hlog.1] at ht
        rcases List.mem_append.mp ht with ht | ht
        · exact h.punctual sid' e t ht
        · cases List.mem_singleton.mp ht
  | advance ms => exact ⟨h.numbered, h.timers, h.apart, h.scheduled, h.cancelled, h.punctual⟩
  | expire r =>
      simp only [Delay.exec]
      split
      · exact ⟨h.numbered, fun t ht => h.timers t (List.mem_filter.mp ht).1,
          h.apart.sublist (List.filter_sublist.map _), h.scheduled, h.cancelled, h.punctual⟩
      · exact h
  | run r =>
      cases hown : c.owns r with
      | false =>
          simp only [Delay.exec, Delay.run, hown]
          exact h
      | true =>
          have hcore : (Delay.exec (.run r) c).core =
              { c.record (.ran r.sid r.head c.now false) with
                scheduled := Function.update c.scheduled r.sid none
                queues := Function.update c.queues r.sid
                  ((c.queues r.sid).map fun queue =>
                    { queue with entries := queue.entries.tail }) } := by
            simp only [Delay.exec, Delay.run, hown, if_true]
          refine ⟨h.numbers _, fun t ht => ?_, ?_, fun sid r' hr => ?_, fun r' hr => ?_,
            fun sid e t ht => ?_⟩
          · rw [hcore] at ht
            obtain ⟨h₁, h₂, h₃⟩ := h.timers t ht
            refine ⟨h₁, h₂.trans_le (exec_count _ c), Heads.exec h₃ h₂ fun r' hr' hid => ?_⟩
            cases hr'
            exact hl.2.1 (hid ▸ List.mem_map_of_mem ht)
          · rw [hcore]
            exact h.apart
          · rw [hcore] at hr
            have hs : sid ≠ r.sid := fun hs => by
              simp [hs] at hr
            obtain ⟨hrs, hown'⟩ := h.scheduled sid r' (by simpa [hs] using hr)
            obtain ⟨q', hq', hid⟩ := owns_iff.mp hown'
            refine ⟨hrs, owns_iff.mpr ⟨q', ?_, hid⟩⟩
            rw [hcore]
            exact (Function.update_of_ne (hrs ▸ hs) ..).trans hq'
          · rw [hcore] at hr
            exact owns_gone (h.cancelled r' hr)
          · rw [hcore] at ht
            rcases List.mem_append.mp ht with ht | ht
            · exact h.punctual sid e t ht
            · cases List.mem_singleton.mp ht
              exact hl.2.2.1
  | runRest r =>
      simp only [Delay.exec]
      split
      · rename_i hown
        refine h.pump fun q hq => ?_
        obtain ⟨q', hq', hid⟩ := owns_iff.mp hown
        rw [hq, Option.some.injEq] at hq'
        subst hq'
        refine ⟨hid ▸ hl.2.1, ?_⟩
        cases hs : c.scheduled r.sid with
        | none => rfl
        | some r' =>
            obtain ⟨hrs, hown'⟩ := h.scheduled r.sid r' hs
            obtain ⟨q'', hq'', hid'⟩ := owns_iff.mp hown'
            rw [hrs, hq, Option.some.injEq] at hq''
            subst hq''
            exact absurd (hid'.symm.trans hid) (hl.2.2 r' hs)
      · exact h
  | drain sid e =>
      refine ⟨h.numbered, h.timers, h.apart, h.scheduled, h.cancelled, fun sid' e' t ht => ?_⟩
      rcases List.mem_append.mp ht with ht | ht
      · exact h.punctual sid' e' t ht
      · cases List.mem_singleton.mp ht
  | finish sid s =>
      refine ⟨h.numbered, h.timers, h.apart, h.scheduled, fun r hr => ?_, h.punctual⟩
      rcases List.mem_append.mp hr with hr | hr
      · exact hl r (Option.mem_toList.mp hr)
      · exact h.cancelled r hr

/-- Which queues get a callback on the timer. -/
theorem exec_timed {n : Nat} (hn : n ∈ (exec i c).core.timed) :
    n ∈ c.timed ∨ n = c.queueCount ∨ ∃ r, i = .runRest r ∧ n = r.ident := by
  have hpump : ∀ (c' : Core) (sid : String), n ∈ (pump c' sid).core.timed →
      n ∈ c'.timed ∨ ∃ q, c'.queues sid = some q ∧ n = q.ident := fun c' sid hn => by
    rcases pump_timers c' sid with ⟨ht, -⟩ | ⟨q, head, rest, hq, -, -, ht, -⟩
    · rw [Core.timed, ht] at hn
      exact Or.inl hn
    · rw [Core.timed, ht, List.map_append] at hn
      exact (List.mem_append.mp hn).imp_right fun h => ⟨q, hq, List.mem_singleton.mp h⟩
  cases i with
  | setDelay sid ms =>
      simp only [exec, setDelay] at hn
      split at hn <;> exact Or.inl hn
  | scheduleDelivery sid =>
      cases hq : c.queues sid with
      | none =>
          rw [exec, scheduleDelivery_none hq] at hn
          rcases hpump _ sid hn with hn | ⟨q, hq', rfl⟩
          · exact Or.inl hn
          · rw [opened_self, Option.some.injEq] at hq'
            exact Or.inr (Or.inl (hq' ▸ rfl))
      | some q =>
          simp only [exec, scheduleDelivery, hq] at hn
          exact Or.inl hn
  | removeSocket sid =>
      simp only [exec, removeSocket] at hn
      split at hn <;> exact Or.inl hn
  | expire r =>
      simp only [exec] at hn
      split at hn
      · exact Or.inl ((List.filter_sublist.map _).subset hn)
      · exact Or.inl hn
  | run r =>
      simp only [exec, run] at hn
      split at hn <;> exact Or.inl hn
  | runRest r =>
      simp only [exec] at hn
      split at hn
      · rename_i hown
        obtain ⟨q, hq, hid⟩ := owns_iff.mp hown
        rcases hpump _ _ hn with hn | ⟨q', hq', rfl⟩
        · exact Or.inl hn
        · rw [hq, Option.some.injEq] at hq'
          exact Or.inr (Or.inr ⟨r, rfl, hq' ▸ hid⟩)
      · exact Or.inl hn
  | _ => exact Or.inl hn

/-- Which callbacks get an entry in `scheduled`. -/
theorem exec_scheduled {sid : String} {r' : Run} (hr : (exec i c).core.scheduled sid = some r') :
    c.scheduled sid = some r' ∨ r'.ident = c.queueCount ∨ ∃ r, i = .runRest r ∧ r'.ident = r.ident := by
  have hpump : ∀ (c' : Core) (sid' : String), (pump c' sid').core.scheduled sid = some r' →
      c'.scheduled sid = some r' ∨ ∃ q, c'.queues sid' = some q ∧ r'.ident = q.ident :=
    fun c' sid' hr => by
      rcases pump_timers c' sid' with ⟨-, ht⟩ | ⟨q, head, rest, hq, -, -, -, ht⟩
      · rw [ht] at hr
        exact Or.inl hr
      · rw [ht] at hr
        by_cases hs : sid = sid'
        · rw [hs, Function.update_self, Option.some.injEq] at hr
          exact Or.inr ⟨q, hq, hr ▸ rfl⟩
        · rw [Function.update_of_ne hs] at hr
          exact Or.inl hr
  have herase : ∀ {f : String → Option Run} {sid' : String},
      Function.update f sid' none sid = some r' → f sid = some r' := fun {f sid'} hr => by
    by_cases hs : sid = sid'
    · rw [hs, Function.update_self] at hr
      cases hr
    · rwa [Function.update_of_ne hs] at hr
  cases i with
  | setDelay sid' ms =>
      simp only [exec, setDelay] at hr
      split at hr <;> exact Or.inl hr
  | scheduleDelivery sid' =>
      cases hq : c.queues sid' with
      | none =>
          rw [exec, scheduleDelivery_none hq] at hr
          rcases hpump _ sid' hr with hr | ⟨q, hq', hid⟩
          · exact Or.inl hr
          · rw [opened_self, Option.some.injEq] at hq'
            exact Or.inr (Or.inl (hid.trans (hq' ▸ rfl)))
      | some q =>
          simp only [exec, scheduleDelivery, hq] at hr
          exact Or.inl hr
  | removeSocket sid' =>
      simp only [exec, removeSocket] at hr
      split at hr
      · exact Or.inl hr
      · exact Or.inl (herase hr)
  | expire r =>
      simp only [exec] at hr
      split at hr <;> exact Or.inl hr
  | run r =>
      simp only [exec, run] at hr
      split at hr
      · exact Or.inl (herase hr)
      · exact Or.inl hr
  | runRest r =>
      simp only [exec] at hr
      split at hr
      · rename_i hown
        obtain ⟨q, hq, hid⟩ := owns_iff.mp hown
        rcases hpump _ _ hr with hr | ⟨q', hq', hid'⟩
        · exact Or.inl hr
        · rw [hq, Option.some.injEq] at hq'
          exact Or.inr (Or.inr ⟨r, rfl, hid'.trans (hq' ▸ hid)⟩)
      · exact Or.inl hr
  | _ => exact Or.inl hr

/-- What is known of a pending instruction stays known. -/
theorem Live.stable {t : Instr} (ht : Live c t) (ha : Apart turn i t) : Live (exec i c).core t := by
  have htimed : ∀ {r : Run}, turn t = some r.ident → r.ident < c.queueCount → r.ident ∉ c.timed →
      r.ident ∉ (exec i c).core.timed := fun {r} hr hlt hn h => by
    rcases exec_timed h with hold | hnew | ⟨r', rfl, hid⟩
    · exact hn hold
    · exact absurd hnew (Nat.ne_of_lt hlt)
    · exact ha r'.ident rfl (hr.trans (congrArg some hid))
  cases t with
  | run r =>
      obtain ⟨hlt, hn, hnow, hh⟩ := ht
      refine ⟨hlt.trans_le (exec_count i c), htimed rfl hlt hn, hnow.trans (exec_now i c),
        Heads.exec hh hlt fun r' hi hid => ?_⟩
      subst hi
      exact ha r'.ident rfl (congrArg some hid.symm)
  | runRest r =>
      obtain ⟨hlt, hn, hs⟩ := ht
      refine ⟨hlt.trans_le (exec_count i c), htimed rfl hlt hn, fun r' hr' => ?_⟩
      rcases exec_scheduled hr' with hr' | hid | ⟨r'', rfl, hid⟩
      · exact hs r' hr'
      · exact fun h => absurd (h.symm.trans hid) (Nat.ne_of_lt hlt)
      · exact fun h => ha r''.ident rfl (congrArg some (h.symm.trans hid))
  | finish sid s => exact fun r hr => owns_gone (ht r hr)
  | _ => trivial

/-- The callback `pump` posts. -/
theorem Sound.pump_live (h : Sound c) {sid : String}
    (ho : ∀ q, c.queues sid = some q → q.ident ∉ c.timed) :
    ∀ t ∈ (Delay.pump c sid).spawned, Live (Delay.pump c sid).core t ∧
      ∃ q, c.queues sid = some q ∧ turn t = some q.ident := by
  intro t ht
  obtain ⟨hcore, q, head, rest, hq, he, hnow, rfl⟩ := pump_spawned ht
  rw [hcore]
  exact ⟨⟨h.numbered sid q hq, ho q hq, hnow, Heads.made hq he⟩, q, hq, rfl⟩

/-- What an instruction leaves pending. -/
theorem exec_live (h : Sound c) (hl : Live c i) :
    ∀ t ∈ (exec i c).spawned, Live (exec i c).core t := by
  intro t ht
  cases i with
  | scheduleDelivery sid =>
      cases hq : c.queues sid with
      | none =>
          rw [exec, scheduleDelivery_none hq] at ht ⊢
          exact ((h.opened hq _).pump_live (fun q hq' => (h.unscheduled hq _ q hq').1) t ht).1
      | some q =>
          simp only [exec, scheduleDelivery, hq] at ht
          cases ht
  | removeSocket sid =>
      cases hq : c.queues sid with
      | none =>
          simp only [exec, removeSocket, hq] at ht ⊢
          rw [List.mem_singleton.mp ht]
          exact nofun
      | some q =>
          simp only [exec, removeSocket, hq, Effect.spawned, List.append_nil] at ht ⊢
          rcases List.mem_append.mp ht with ht | ht
          · obtain ⟨e, -, rfl⟩ := List.mem_map.mp ht
            trivial
          · rw [List.mem_singleton.mp ht]
            intro r hr
            obtain ⟨hrs, hown⟩ := h.scheduled sid r hr
            obtain ⟨q', hq', hid⟩ := owns_iff.mp hown
            refine ⟨hid ▸ h.numbered _ q' hq', Bool.eq_false_iff.mpr fun hown' => ?_⟩
            obtain ⟨q'', hq'', -⟩ := owns_iff.mp hown'
            rw [hrs] at hq''
            simp at hq''
  | expire r =>
      simp only [exec] at ht ⊢
      split at ht
      · rename_i hdue
        rw [if_pos hdue, List.mem_singleton.mp ht]
        obtain ⟨t', ht', hdue'⟩ := List.any_eq_true.mp hdue
        obtain ⟨rfl, hnow⟩ := of_decide_eq_true hdue'
        obtain ⟨h₁, h₂, h₃⟩ := h.timers t' ht'
        refine ⟨h₂, fun hn => ?_, h₁ ▸ hnow, h₃⟩
        obtain ⟨t'', ht'', hid⟩ := List.mem_map.mp hn
        obtain ⟨ht'', hne⟩ := List.mem_filter.mp ht''
        have heq := List.inj_on_of_nodup_map h.apart ht'' ht' hid
        exact of_decide_eq_true hne (heq ▸ rfl)
      · cases ht
  | run r =>
      cases hown : c.owns r with
      | false =>
          simp only [exec, run, hown] at ht
          cases ht
      | true =>
          simp only [exec, run, hown, if_true] at ht ⊢
          rcases List.mem_cons.mp ht with rfl | ht
          · trivial
          · rw [List.mem_singleton.mp ht]
            exact ⟨hl.1, hl.2.1, fun r' hr' => by simp at hr'⟩
  | runRest r =>
      cases hown : c.owns r with
      | false =>
          simp only [exec, hown] at ht
          cases ht
      | true =>
          simp only [exec, hown, if_true] at ht ⊢
          refine (h.pump_live (fun q hq => ?_) t ht).1
          obtain ⟨q', hq', hid⟩ := owns_iff.mp hown
          rw [hq, Option.some.injEq] at hq'
          exact hq' ▸ hid ▸ hl.2.1
  | drain sid e =>
      rw [List.mem_singleton.mp ht]
      trivial
  | _ => cases ht

/-- The turns of what an instruction leaves pending are its own, new, or come off the timer. -/
theorem exec_turns (i : Instr) (c : Core) :
    (exec i c).spawned.Pairwise (Apart turn) ∧
      ∀ t ∈ (exec i c).spawned, turn t = none ∨ turn t = turn i ∨ turn t = some c.queueCount ∨
        ∃ n ∈ c.timed, turn t = some n := by
  have hpump : ∀ (c' : Core) (sid : String), (pump c' sid).spawned.Pairwise (Apart turn) ∧
      ∀ t ∈ (pump c' sid).spawned, ∃ q, c'.queues sid = some q ∧ turn t = some q.ident :=
    fun c' sid => by
      rcases pump_cases c' sid with ⟨-, h⟩ | ⟨_, -, -, h⟩ | ⟨q, head, rest, hq, -, -, h⟩ |
        ⟨_, _, _, -, -, h⟩ <;> rw [h]
      · exact ⟨.nil, (by intro _ h; cases h)⟩
      · exact ⟨.nil, (by intro _ h; cases h)⟩
      · refine ⟨List.pairwise_singleton .., fun t ht => ⟨q, hq, ?_⟩⟩
        rw [List.mem_singleton.mp ht]
        rfl
      · exact ⟨.nil, (by intro _ h; cases h)⟩
  have hnone : ∀ l : List Instr, (∀ t ∈ l, turn t = none) → l.Pairwise (Apart turn) :=
    fun l hl => List.pairwise_of_forall_mem_list fun t ht _ _ => Apart.of_none (hl t ht)
  cases i with
  | scheduleDelivery sid =>
      cases hq : c.queues sid with
      | none =>
          rw [exec, scheduleDelivery_none hq]
          refine ⟨(hpump _ sid).1, fun t ht => ?_⟩
          obtain ⟨q, hq', htq⟩ := (hpump _ sid).2 t ht
          rw [opened_self, Option.some.injEq] at hq'
          exact Or.inr (Or.inr (Or.inl (htq.trans (hq' ▸ rfl))))
      | some q =>
          simp only [exec, scheduleDelivery, hq]
          exact ⟨.nil, (by intro _ h; cases h)⟩
  | removeSocket sid =>
      simp only [exec, removeSocket]
      split
      · exact ⟨List.pairwise_singleton .., fun t ht => by
          rw [List.mem_singleton.mp ht]
          exact Or.inl rfl⟩
      · rename_i q hq
        have hl : ∀ t ∈ q.entries.map (Instr.drain sid) ++ [.finish sid (c.scheduled sid)],
            turn t = none := fun t ht => by
          rcases List.mem_append.mp ht with ht | ht
          · obtain ⟨e, -, rfl⟩ := List.mem_map.mp ht
            rfl
          · rw [List.mem_singleton.mp ht]
            rfl
        simp only [Effect.spawned, List.append_nil]
        exact ⟨hnone _ hl, fun t ht => Or.inl (hl t ht)⟩
  | expire r =>
      simp only [exec]
      split
      · rename_i hdue
        refine ⟨List.pairwise_singleton .., fun t ht => ?_⟩
        rw [List.mem_singleton.mp ht]
        obtain ⟨t', ht', hdue'⟩ := List.any_eq_true.mp hdue
        obtain ⟨rfl, -⟩ := of_decide_eq_true hdue'
        exact Or.inr (Or.inr (Or.inr ⟨_, List.mem_map_of_mem ht', rfl⟩))
      · exact ⟨.nil, (by intro _ h; cases h)⟩
  | run r =>
      simp only [exec, run]
      split
      · refine ⟨?_, ?_⟩ <;> simp [Effect.spawned, Apart, turn]
      · exact ⟨.nil, (by intro _ h; cases h)⟩
  | runRest r =>
      simp only [exec]
      split
      · rename_i hown
        refine ⟨(hpump c r.sid).1, fun t ht => ?_⟩
        obtain ⟨q, hq, htq⟩ := (hpump c r.sid).2 t ht
        obtain ⟨q', hq', hid⟩ := owns_iff.mp hown
        rw [hq, Option.some.injEq] at hq'
        exact Or.inr (Or.inl (htq.trans (congrArg some (hq' ▸ hid))))
      · exact ⟨.nil, (by intro _ h; cases h)⟩
  | drain sid e =>
      refine ⟨List.pairwise_singleton .., fun t ht => ?_⟩
      rw [List.mem_singleton.mp ht]
      exact Or.inl rfl
  | _ => exact ⟨.nil, (by intro _ h; cases h)⟩

theorem sound_inductive : Inductive delaying (fun _ _ => True) Sound Live turn where
  core _ _ h := h.inv.exec h.ok
  spawn _ _ h := exec_live h.inv h.ok
  stable _ _ _ _ ht ha := ht.stable ha
  call _ i _ hc := by
    cases i <;> trivial
  handle c i _ _ _ h := by
    cases i <;> cases h
  apart c i _ := (exec_turns i c).1
  fresh c i t k h ht ha hk := by
    intro n hn hnt
    have hold : n < c.queueCount ∧ n ∉ c.timed := by
      cases t with
      | run r =>
          cases hnt
          exact ⟨ht.1, ht.2.1⟩
      | runRest r =>
          cases hnt
          exact ⟨ht.1, ht.2.1⟩
      | _ => cases hnt
    rcases (exec_turns i c).2 k hk with h' | h' | h' | ⟨m, hm, h'⟩ <;> rw [hn] at h'
    · cases h'
    · exact ha n h'.symm hnt
    · cases h'
      exact Nat.lt_irrefl _ hold.1
    · cases h'
      exact hold.2 hm
  callFresh _ i _ _ hc _ := by
    refine Apart.of_none ?_
    cases i <;> first | rfl | cases hc
  handleFree c i _ h := by
    cases i <;> cases h
  free _ _ _ := trivial

end Steps

end Smocket.Delay
