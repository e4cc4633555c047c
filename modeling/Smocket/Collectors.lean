import Smocket.Dues
import Mathlib.Data.Finset.Card
import Mathlib.Data.List.Range
import Mathlib.Data.List.TakeWhile

/-
  File:      Smocket/Collectors.lean
  Subject:   BROADCASTS THAT COLLECT ACKNOWLEDGEMENTS: one counter, one flag and one array for each
             call, updated by the recipients' answers and by one timer.

  An operator's `emit` with a trailing callback sends its packet to the recipients of the moment,
  each with its own one-shot acknowledgement; a dynamic parent does so once for every child. What
  the recipients, the observers and the adapter do is left to the application.

  * `exec`, `collecting` -- the machine;
  * `exec_other`, `exec_fixed`, `exec_events` -- what one instruction leaves, fixes and records;
  * `settlement_inductive` -- no collector calls its callback twice, and the callback of a direct
    `emit` has one collector.
-/

namespace Smocket.Collect

open EventLoop EventLoop.Machine

/-! ## 1. Collectors -/

/-- The trailing callback of one `emit` of an operator, or of a dynamic parent. -/
inductive Callback where
  | emit (m : Nat)
  | parent (m : Nat)
  deriving DecidableEq, Repr

/-- Which of the calls it came with. -/
def Callback.number : Callback → Nat
  | .emit m | .parent m => m

/-- The variables of one call of `collect`. An answer without a value has none to contribute. -/
structure Collector (V : Type) where
  /-- `recipients.length` -/
  recipients : Nat
  callback : Callback
  responses : List (Option V)
  settled : Bool
  remaining : Nat
  /-- the timer is armed -/
  timer : Bool

/-- One call of a callback: with an error or `null`, and the responses. -/
structure Invocation (V : Type) where
  collector : Nat
  callback : Callback
  error : Bool
  responses : List (Option V)
  deriving DecidableEq

/-- What is recorded, for the statements only. -/
inductive Event (V : Type) where
  /-- an answer of recipient `k` has passed its guards and encodes -/
  | acknowledged (j k : Nat) (answer : List V)
  /-- the answer has arrived -/
  | answered (j k : Nat) (received : List V)
  /-- the timer has fired -/
  | fired (j : Nat)
  | invoked (i : Invocation V)
  deriving DecidableEq

structure Core (V : Type) where
  /-- how many sockets an operator selects at present -/
  selected : Nat → Nat
  /-- the operators over a parent's children, in the order of its set -/
  children : Nat → List Nat
  collectors : Nat → Collector V
  collectorCount : Nat
  callbackCount : Nat
  /-- the observers of recipient `k` have been shown its `answer` -/
  offered : Nat → Nat → Bool
  /-- the acknowledgement function of recipient `k` exists -/
  created : Nat → Nat → Bool
  acked : Nat → Nat → Bool
  log : List (Event V)

variable {V : Type}

def Core.setCollector (c : Core V) (j : Nat) (f : Collector V → Collector V) : Core V :=
  { c with collectors := fun j' => if j' = j then f (c.collectors j') else c.collectors j' }

def Core.record (c : Core V) (e : Event V) : Core V := { c with log := c.log ++ [e] }

/-- The call of the collecting callback, with the array as it is. -/
def Core.invoke (c : Core V) (j : Nat) (error : Bool) : Core V :=
  c.record (.invoked ⟨j, (c.collectors j).callback, error, (c.collectors j).responses⟩)

/-- No `collect` has been entered with the callback. -/
def Core.Unclaimed (c : Core V) (cb : Callback) : Prop :=
  ∀ j < c.collectorCount, (c.collectors j).callback ≠ cb

instance (c : Core V) (cb : Callback) : Decidable (c.Unclaimed cb) :=
  inferInstanceAs (Decidable (∀ j < c.collectorCount, (c.collectors j).callback ≠ cb))

/-! ## 2. Instructions -/

/-- Application code. -/
inductive App where
  /-- the data is encoded, the adapter filters the recipients and is shown the trace -/
  | routing
  /-- the outgoing observers of recipient `k`, shown its `answer` -/
  | outgoing (j k : Nat)
  /-- the adapter takes the delivery to recipient `k` -/
  | scheduling (j k : Nat)
  | callback (cb : Callback)
  deriving DecidableEq

inductive Instr (V : Type) where
  | app (x : App)
  /-- `operator.emit(event, ...data, callback)` -/
  | emit (o : Nat) (reserved : Bool)
  /-- `parent.emit(event, ...data, callback)`, on the parent itself or narrowed -/
  | parentEmit (p : Nat) (reserved : Bool)
  /-- the loop over the parent's children, at the `i`-th -/
  | parentLoop (m p i : Nat) (reserved : Bool)
  /-- `BroadcastOperator.emit` with the callback `cb` -/
  | broadcast (cb : Callback) (o : Nat) (reserved : Bool)
  | collect (cb : Callback) (o : Nat)
  | sendBroadcast (j k : Nat)
  | sendEncoded (j k : Nat)
  /-- recipient `k` calls its acknowledgement function; `active` is what the guard answers -/
  | acknowledge (j k : Nat) (answer : List V) (active : Bool)
  /-- `answer(...received)` of recipient `k` -/
  | answer (j k : Nat) (received : List V)
  /-- the timer of the collector -/
  | timeout (j : Nat)
  /-- `callback(null, [])` -/
  | emptyCallback (j : Nat)
  /-- sockets join, leave, connect or disconnect: the operator selects `n` from now on -/
  | select (o n : Nat)
  /-- a child namespace is created -/
  | addChild (p o : Nat)
  deriving DecidableEq

/-- `ClientSocket.consumeAcknowledgementBeforeEncoding`: the recipients of a broadcast are the
    clients of server sockets. -/
def consumeAcknowledgementBeforeEncoding : Bool := true

section Exec

variable (encodePayload : List V → Option (List V))

/-- `collect`, up to the loop over the recipients. -/
def collect (c : Core V) (cb : Callback) (o : Nat) : Effect (Core V) (Instr V) :=
  let j := c.collectorCount
  let n := c.selected o
  let c' := { c.setCollector j fun _ => ⟨n, cb, [], false, n, n ≠ 0⟩ with collectorCount := j + 1 }
  if n = 0 then { core := c', post := [.emptyCallback j] }
  else { core := c', push := (List.range n).map (.sendBroadcast j) }

/-- The function that `sendEncoded` appends to the arguments. -/
def acknowledge (c : Core V) (j k : Nat) (answer : List V) (active : Bool) :
    Effect (Core V) (Instr V) :=
  if c.acked j k || !active then { core := c }
  else
    let acked (c : Core V) : Core V :=
      { c with acked := fun j' k' => if j' = j ∧ k' = k then true else c.acked j' k' }
    match encodePayload answer with
    | none => { core := if consumeAcknowledgementBeforeEncoding then acked c else c, fails := true }
    | some response =>
        { core := (acked c).record (.acknowledged j k answer), post := [.answer j k response] }

/-- `answer` of one recipient. -/
def answer (c : Core V) (j k : Nat) (received : List V) : Effect (Core V) (Instr V) :=
  let c := c.record (.answered j k received)
  if (c.collectors j).settled then { core := c }
  else
    let c := c.setCollector j fun x =>
      { x with responses := x.responses ++ [received.head?], remaining := x.remaining - 1 }
    if (c.collectors j).remaining = 0 then
      { core := (c.setCollector j fun x => { x with settled := true, timer := false }).invoke j false
        push := [.app (.callback (c.collectors j).callback)] }
    else { core := c }

/-- The timer, unless it has been cleared. -/
def timeout (c : Core V) (j : Nat) : Effect (Core V) (Instr V) :=
  if (c.collectors j).timer then
    let c := (c.setCollector j fun x => { x with timer := false }).record (.fired j)
    if (c.collectors j).settled then { core := c }
    else
      { core := (c.setCollector j fun x => { x with settled := true }).invoke j true
        push := [.app (.callback (c.collectors j).callback)] }
  else { core := c }

/-- Execute one instruction. The guards and the decoding in `sendEncoded` may throw: what follows is
    what follows when the observers before them do. -/
def exec : Instr V → Core V → Effect (Core V) (Instr V)
  | .app _, c => { core := c }
  | .emit o reserved, c =>
      { core := { c with callbackCount := c.callbackCount + 1 }
        push := [.broadcast (.emit c.callbackCount) o reserved] }
  | .parentEmit p reserved, c =>
      { core := { c with callbackCount := c.callbackCount + 1 }
        push := [.parentLoop c.callbackCount p 0 reserved] }
  | .parentLoop m p i reserved, c =>
      match (c.children p)[i]? with
      | none => { core := c }
      | some o =>
          { core := c
            push := [.broadcast (.parent m) o reserved, .parentLoop m p (i + 1) reserved] }
  | .broadcast cb o reserved, c =>
      if reserved then { core := c, fails := true }
      else { core := c, push := [.app .routing, .collect cb o] }
  | .collect cb o, c => collect c cb o
  | .sendBroadcast j k, c =>
      { core := { c with offered := fun j' k' => if j' = j ∧ k' = k then true else c.offered j' k' }
        push := [.app (.outgoing j k), .sendEncoded j k] }
  | .sendEncoded j k, c =>
      { core := { c with created := fun j' k' => if j' = j ∧ k' = k then true else c.created j' k' }
        push := [.app (.scheduling j k)] }
  | .acknowledge j k answer active, c => acknowledge encodePayload c j k answer active
  | .answer j k received, c => answer c j k received
  | .timeout j, c => timeout c j
  | .emptyCallback j, c =>
      { core := c.record (.invoked ⟨j, (c.collectors j).callback, false, []⟩)
        push := [.app (.callback (c.collectors j).callback)] }
  | .select o n, c =>
      { core := { c with selected := fun o' => if o' = o then n else c.selected o' } }
  | .addChild p o, c =>
      { core := { c with children := fun p' => if p' = p then c.children p' ++ [o] else c.children p' } }

/-- What application code, or the host, may call. Where `observing`, the outgoing observers call the
    `answer` they are shown, which no acknowledgement guards. -/
def callable (observing : Bool) (c : Core V) : Instr V → Bool
  | .emit .. | .parentEmit .. | .select .. | .addChild .. => true
  | .acknowledge j k _ _ => c.created j k
  | .answer j k _ => observing && c.offered j k
  | .timeout j => (c.collectors j).timer
  | _ => false

/-- The machine. No exception is caught on its way to the application. -/
def collecting (observing : Bool) : Machine (Core V) (Instr V) where
  isApp
    | .app _ => true
    | _ => false
  exec := exec encodePayload
  onThrow _ _ := .skip
  callable := callable observing

end Exec

/-- Nothing has been emitted. -/
def Core.initial : Core V where
  selected _ := 0
  children _ := []
  collectors _ := ⟨0, .emit 0, [], false, 0, false⟩
  collectorCount := 0
  callbackCount := 0
  offered _ _ := false
  created _ _ := false
  acked _ _ := false
  log := []

/-! ## 3. The history of a collector -/

/-- The collector an event is about. -/
def Event.collector : Event V → Nat
  | .acknowledged j _ _ | .answered j _ _ | .fired j => j
  | .invoked i => i.collector

/-- What has happened to collector `j`. -/
def Core.history (c : Core V) (j : Nat) : List (Event V) :=
  c.log.filter fun e => decide (e.collector = j)

def Event.isFired : Event V → Bool
  | .fired _ => true
  | _ => false

def Event.answer? : Event V → Option (Nat × List V)
  | .answered _ k received => some (k, received)
  | _ => none

def Event.call? : Event V → Option (Invocation V)
  | .invoked i => some i
  | _ => none

/-- The answers, with their recipients, in the order of their arrival. -/
def answers (h : List (Event V)) : List (Nat × List V) := h.filterMap Event.answer?

/-- The answers that have arrived before the timer fired. -/
def heard (h : List (Event V)) : List (Nat × List V) :=
  (h.takeWhile (!·.isFired)).filterMap Event.answer?

/-- The timer has fired. -/
def fired (h : List (Event V)) : Bool := h.any Event.isFired

/-- How the callback was called. -/
def calls (h : List (Event V)) : List (Invocation V) := h.filterMap Event.call?

section Histories

variable (h : List (Event V)) (e : Event V)

theorem answers_concat : answers (h ++ [e]) = answers h ++ e.answer?.toList := by
  cases he : e.answer? <;> simp [answers, he]

theorem calls_concat : calls (h ++ [e]) = calls h ++ e.call?.toList := by
  cases he : e.call? <;> simp [calls, he]

theorem fired_concat : fired (h ++ [e]) = (fired h || e.isFired) := by simp [fired]

/-- What arrives after the timer is not heard. -/
theorem heard_concat : heard (h ++ [e]) = heard h ++ if fired h then [] else e.answer?.toList := by
  have hall : (∀ x ∈ h, (!x.isFired) = true) ↔ fired h = false := by simp [fired]
  unfold heard
  cases hf : fired h with
  | true =>
      have hn : ¬ ∀ x ∈ h, (!x.isFired) = true := fun hx => by
        rw [hall.mp hx] at hf
        cases hf
      rw [List.takeWhile_append, if_neg (fun hl => hn (List.takeWhile_eq_self_iff.mp
        ((List.takeWhile_prefix _).eq_of_length hl)))]
      simp
  | false =>
      have hself := List.takeWhile_eq_self_iff.mpr (hall.mpr hf)
      rw [List.takeWhile_append, if_pos (by rw [hself]), hself, List.filterMap_append]
      cases e <;> simp [Event.isFired, Event.answer?]

theorem heard_sublist : (heard h).Sublist (answers h) :=
  (List.takeWhile_prefix _).sublist.filterMap _

end Histories

@[simp] theorem history_record (c : Core V) (e : Event V) (j : Nat) :
    (c.record e).history j = c.history j ++ if e.collector = j then [e] else [] := by
  by_cases h : e.collector = j <;> simp [Core.history, Core.record, h]

theorem history_own {c : Core V} {e : Event V} {j : Nat} (h : e.collector = j) :
    (c.record e).history j = c.history j ++ [e] := by
  rw [history_record, if_pos h]

theorem mem_history {c : Core V} {e : Event V} {j : Nat} :
    e ∈ c.history j ↔ e ∈ c.log ∧ e.collector = j := by
  simp [Core.history]

@[simp] theorem history_setCollector (c : Core V) (j j' : Nat) (f : Collector V → Collector V) :
    (c.setCollector j f).history j' = c.history j' := rfl

@[simp] theorem collectors_record (c : Core V) (e : Event V) :
    (c.record e).collectors = c.collectors := rfl

@[simp] theorem setCollector_same (c : Core V) (j : Nat) (f : Collector V → Collector V) :
    (c.setCollector j f).collectors j = f (c.collectors j) := if_pos rfl

theorem setCollector_other {c : Core V} {j j' : Nat} {f : Collector V → Collector V} (h : j' ≠ j) :
    (c.setCollector j f).collectors j' = c.collectors j' := if_neg h

/-! ## 4. What one instruction does to a collector -/

/-- The collector an instruction works for. -/
def Instr.collector? : Instr V → Option Nat
  | .acknowledge j .. | .answer j .. | .timeout j | .emptyCallback j => some j
  | _ => none

section Steps

variable {c : Core V} {j k : Nat}

/-- An answer that comes too late. -/
theorem answer_settled {received : List V} (hs : (c.collectors j).settled = true) :
    (answer c j k received).core.collectors = c.collectors ∧
      (answer c j k received).core.history j = c.history j ++ [.answered j k received] := by
  simp [answer, hs, Event.collector]

/-- An answer that others are still due after. -/
theorem answer_open {received : List V} (hs : (c.collectors j).settled = false)
    (hr : (c.collectors j).remaining - 1 ≠ 0) :
    (answer c j k received).core.collectors j =
        { c.collectors j with
          responses := (c.collectors j).responses ++ [received.head?]
          remaining := (c.collectors j).remaining - 1 } ∧
      (answer c j k received).core.history j = c.history j ++ [.answered j k received] := by
  simp [answer, hs, hr, Event.collector]

/-- The last answer. -/
theorem answer_last {received : List V} (hs : (c.collectors j).settled = false)
    (hr : (c.collectors j).remaining - 1 = 0) :
    (answer c j k received).core.collectors j =
        { c.collectors j with
          responses := (c.collectors j).responses ++ [received.head?]
          remaining := 0, settled := true, timer := false } ∧
      (answer c j k received).core.history j = c.history j ++
        [.answered j k received, .invoked ⟨j, (c.collectors j).callback, false,
          (c.collectors j).responses ++ [received.head?]⟩] := by
  simp [answer, hs, hr, Core.invoke, Event.collector]

/-- A timer that fires on an open collector. -/
theorem timeout_open (ht : (c.collectors j).timer = true) (hs : (c.collectors j).settled = false) :
    (timeout c j).core.collectors j = { c.collectors j with settled := true, timer := false } ∧
      (timeout c j).core.history j = c.history j ++
        [.fired j, .invoked ⟨j, (c.collectors j).callback, true, (c.collectors j).responses⟩] := by
  simp [timeout, ht, hs, Core.invoke, Event.collector]

/-- A timer that fires on a settled one. -/
theorem timeout_settled (ht : (c.collectors j).timer = true)
    (hs : (c.collectors j).settled = true) :
    (timeout c j).core.collectors j = { c.collectors j with timer := false } ∧
      (timeout c j).core.history j = c.history j ++ [.fired j] := by
  simp [timeout, ht, hs, Event.collector]

/-- A cleared timer. -/
theorem timeout_cleared (ht : (c.collectors j).timer = false) :
    (timeout c j).core.collectors = c.collectors ∧
      (timeout c j).core.history j = c.history j := by
  simp [timeout, ht]

variable {encodePayload : List V → Option (List V)}

/-- What an acknowledgement leaves of a collector: its history alone may grow. -/
theorem acknowledge_same {answer : List V} {active : Bool} :
    (acknowledge encodePayload c j k answer active).core.collectors = c.collectors ∧
      (acknowledge encodePayload c j k answer active).core.collectorCount = c.collectorCount := by
  unfold acknowledge
  split
  · exact ⟨rfl, rfl⟩
  · dsimp only
    split <;> exact ⟨rfl, rfl⟩

/-- The acknowledgement is posted, or nothing is. -/
theorem acknowledge_cases {answer : List V} {active : Bool} :
    ((acknowledge encodePayload c j k answer active).core.log = c.log ∧
        (acknowledge encodePayload c j k answer active).post = []) ∨
      (c.acked j k = false ∧
        (acknowledge encodePayload c j k answer active).core.acked j k = true ∧
        (acknowledge encodePayload c j k answer active).core.log =
          c.log ++ [.acknowledged j k answer] ∧
        ∃ response, encodePayload answer = some response ∧
          (acknowledge encodePayload c j k answer active).post = [.answer j k response]) := by
  unfold acknowledge
  split
  · exact Or.inl ⟨rfl, rfl⟩
  · rename_i h
    dsimp only
    split
    · exact Or.inl ⟨rfl, rfl⟩
    · rename_i response hr
      exact Or.inr ⟨Bool.eq_false_iff.mpr fun ha => h (by simp [ha]), if_pos ⟨rfl, rfl⟩, rfl,
        response, hr, rfl⟩

/-- An acknowledgement leaves nothing on the stack. -/
theorem acknowledge_spawned {answer : List V} {active : Bool} :
    (acknowledge encodePayload c j k answer active).spawned =
      (acknowledge encodePayload c j k answer active).post := by
  unfold acknowledge
  split
  · rfl
  · dsimp only
    split <;> rfl

theorem history_of_log {c' : Core V} (h : c'.log = c.log) (j : Nat) :
    c'.history j = c.history j := by
  rw [Core.history, Core.history, h]

theorem history_of_concat {c' : Core V} {e : Event V} (h : c'.log = c.log ++ [e]) (j : Nat) :
    c'.history j = c.history j ++ if e.collector = j then [e] else [] := by
  by_cases he : e.collector = j <;> simp [Core.history, h, he]

theorem acknowledge_history {answer : List V} {active : Bool} (j' : Nat) :
    (acknowledge encodePayload c j k answer active).core.history j' = c.history j' ∨
      (j' = j ∧ (acknowledge encodePayload c j k answer active).core.history j' =
        c.history j' ++ [.acknowledged j k answer]) := by
  rcases @acknowledge_cases V c j k encodePayload answer active with ⟨h, -⟩ | ⟨-, -, h, -⟩
  · exact Or.inl (history_of_log h j')
  · rw [history_of_concat h]
    by_cases hj : j = j'
    · exact Or.inr ⟨hj.symm, congrArg (c.history j' ++ ·) (if_pos hj)⟩
    · exact Or.inl ((congrArg (c.history j' ++ ·) (if_neg hj)).trans (List.append_nil _))

/-- **An instruction leaves the collectors it does not work for.** -/
theorem exec_other (encodePayload : List V → Option (List V)) {i : Instr V} {j : Nat}
    (hi : i.collector? ≠ some j)
    (hc : c.collectorCount ≤ j → (exec encodePayload i c).core.collectorCount ≤ j) :
    (exec encodePayload i c).core.collectors j = c.collectors j ∧
      (exec encodePayload i c).core.history j = c.history j := by
  cases i with
  | parentLoop m p i reserved =>
      simp only [exec]
      split <;> exact ⟨rfl, rfl⟩
  | broadcast cb o reserved =>
      simp only [exec]
      split <;> exact ⟨rfl, rfl⟩
  | collect cb o =>
      have hj : j ≠ c.collectorCount := fun h => by
        have := hc h.ge
        simp only [exec, collect] at this
        split at this <;> exact absurd (h ▸ this) (Nat.not_succ_le_self _)
      simp only [exec, collect]
      split <;> exact ⟨if_neg hj, rfl⟩
  | acknowledge j' k answer active =>
      have hj : j ≠ j' := fun h => hi (h ▸ rfl)
      exact ⟨congrFun acknowledge_same.1 j,
        (acknowledge_history j).resolve_right fun h => hj h.1⟩
  | answer j' k received =>
      have hj : j ≠ j' := fun h => hi (h ▸ rfl)
      simp only [exec, answer]
      split
      · simp [Event.collector, Ne.symm hj]
      · split <;> simp [Core.invoke, Event.collector, setCollector_other hj, Ne.symm hj]
  | timeout j' =>
      have hj : j ≠ j' := fun h => hi (h ▸ rfl)
      simp only [exec, timeout]
      split
      · split <;> simp [Core.invoke, Event.collector, setCollector_other hj, Ne.symm hj]
      · exact ⟨rfl, rfl⟩
  | emptyCallback j' =>
      have hj : j' ≠ j := fun h => hi (h ▸ rfl)
      simp [exec, Event.collector, hj]
  | _ => exact ⟨rfl, rfl⟩

/-- A new collector starts where the table ends. -/
theorem collect_new (cb : Callback) (o : Nat) :
    (collect c cb o).core.collectors c.collectorCount =
        ⟨c.selected o, cb, [], false, c.selected o, decide (c.selected o ≠ 0)⟩ ∧
      (collect c cb o).core.history c.collectorCount = c.history c.collectorCount ∧
      (collect c cb o).core.collectorCount = c.collectorCount + 1 := by
  unfold collect
  dsimp only
  split <;> exact ⟨if_pos rfl, rfl, rfl⟩

/-- The events an instruction may record. -/
def Instr.Records : Instr V → Event V → Prop
  | .acknowledge j k a _, e => e = .acknowledged j k a
  | .answer j k received, e => e = .answered j k received ∨ ∃ i, e = .invoked i ∧ i.collector = j
  | .timeout j, e => e = .fired j ∨ ∃ i, e = .invoked i ∧ i.collector = j
  | .emptyCallback j, e => ∃ i, e = .invoked i ∧ i.collector = j
  | _, _ => False

theorem exec_events {i : Instr V} {e : Event V}
    (he : e ∈ (exec encodePayload i c).core.log) : e ∈ c.log ∨ i.Records e := by
  have hrec : ∀ {c' : Core V} {e' : Event V}, e ∈ (c'.record e').log → e ∈ c'.log ∨ e = e' :=
    fun he => (List.mem_append.mp he).imp_right List.mem_singleton.mp
  cases i with
  | acknowledge j k answer active =>
      rw [exec] at he
      rcases @acknowledge_cases V c j k encodePayload answer active with ⟨h, -⟩ | ⟨-, -, h, -⟩
      · exact Or.inl (h ▸ he)
      · rw [h] at he
        exact (List.mem_append.mp he).imp_right List.mem_singleton.mp
  | answer j k received =>
      simp only [exec, answer] at he
      repeat' split at he
      · exact (hrec he).imp_right Or.inl
      · rcases hrec he with he | rfl
        · exact (hrec he).imp_right Or.inl
        · exact Or.inr (Or.inr ⟨_, rfl, rfl⟩)
      · exact (hrec he).imp_right Or.inl
  | timeout j =>
      simp only [exec, timeout] at he
      repeat' split at he
      · exact (hrec he).imp_right Or.inl
      · rcases hrec he with he | rfl
        · exact (hrec he).imp_right Or.inl
        · exact Or.inr (Or.inr ⟨_, rfl, rfl⟩)
      · exact Or.inl he
  | emptyCallback j =>
      rcases hrec he with he | rfl
      · exact Or.inl he
      · exact Or.inr ⟨_, rfl, rfl⟩
  | parentLoop | broadcast | collect =>
      simp only [exec, collect] at he
      split at he <;> exact Or.inl he
  | _ => exact Or.inl he

/-- `answer` records the answer, whatever it makes of it. -/
theorem answer_records {received : List V} :
    .answered j k received ∈ (answer c j k received).core.log := by
  have hthis : Event.answered j k received ∈ (c.record (.answered j k received)).log :=
    List.mem_append_right _ (List.mem_singleton_self _)
  simp only [answer]
  repeat' split
  · exact hthis
  · exact List.mem_append_left _ hthis
  · exact hthis

/-- What was fixed when a collector was made stays. -/
theorem exec_fixed (encodePayload : List V → Option (List V)) (i : Instr V) {j : Nat}
    (hj : j < c.collectorCount) :
    ((exec encodePayload i c).core.collectors j).recipients = (c.collectors j).recipients ∧
      ((exec encodePayload i c).core.collectors j).callback = (c.collectors j).callback := by
  by_cases hi : i.collector? = some j
  · cases i with
    | acknowledge j' k answer active =>
        rw [exec, acknowledge_same.1]
        exact ⟨rfl, rfl⟩
    | answer j' k received =>
        obtain rfl := Option.some.inj hi
        rw [exec]
        cases hs : (c.collectors j').settled with
        | true =>
            rw [(answer_settled hs).1]
            exact ⟨rfl, rfl⟩
        | false =>
            by_cases hr : (c.collectors j').remaining - 1 = 0
            · rw [(answer_last hs hr).1]
              exact ⟨rfl, rfl⟩
            · rw [(answer_open hs hr).1]
              exact ⟨rfl, rfl⟩
    | timeout j' =>
        obtain rfl := Option.some.inj hi
        rw [exec]
        cases ht : (c.collectors j').timer with
        | false =>
            rw [(timeout_cleared ht).1]
            exact ⟨rfl, rfl⟩
        | true =>
            cases hs : (c.collectors j').settled with
            | true =>
                rw [(timeout_settled ht hs).1]
                exact ⟨rfl, rfl⟩
            | false =>
                rw [(timeout_open ht hs).1]
                exact ⟨rfl, rfl⟩
    | emptyCallback j' => exact ⟨rfl, rfl⟩
    | _ => cases hi
  · rw [(exec_other encodePayload hi fun h => absurd hj (Nat.not_lt.mpr h)).1]
    exact ⟨rfl, rfl⟩

/-- The tables that only grow. -/
structure Grows (c c' : Core V) : Prop where
  collectors : c.collectorCount ≤ c'.collectorCount
  callbacks : c.callbackCount ≤ c'.callbackCount
  acked : ∀ j k, c.acked j k = true → c'.acked j k = true
  log : c.log <+: c'.log

theorem Grows.refl (c : Core V) : Grows c c := ⟨le_rfl, le_rfl, fun _ _ h => h, List.prefix_rfl⟩

theorem Grows.trans {c c' c'' : Core V} (h : Grows c c') (h' : Grows c' c'') : Grows c c'' :=
  ⟨h.collectors.trans h'.collectors, h.callbacks.trans h'.callbacks,
    fun j k ha => h'.acked j k (h.acked j k ha), h.log.trans h'.log⟩

theorem exec_grows (encodePayload : List V → Option (List V)) (i : Instr V) (c : Core V) :
    Grows c (exec encodePayload i c).core := by
  cases i with
  | emit => exact { Grows.refl c with callbacks := Nat.le_succ _ }
  | parentEmit => exact { Grows.refl c with callbacks := Nat.le_succ _ }
  | parentLoop =>
      simp only [exec]
      split <;> exact Grows.refl c
  | broadcast =>
      simp only [exec]
      split <;> exact Grows.refl c
  | collect cb o =>
      simp only [exec, collect]
      split <;> exact { Grows.refl c with collectors := Nat.le_succ _ }
  | acknowledge j k answer active =>
      have hset : ∀ j' k', c.acked j' k' = true →
          (if j' = j ∧ k' = k then true else c.acked j' k') = true := fun j' k' h => by
        split
        · rfl
        · exact h
      simp only [exec, acknowledge]
      split
      · exact Grows.refl c
      · split
        · exact { Grows.refl c with acked := hset }
        · exact { Grows.refl c with acked := hset, log := List.prefix_append .. }
  | answer j k received =>
      simp only [exec, answer]
      split
      · exact { Grows.refl c with log := List.prefix_append .. }
      · split
        · exact { Grows.refl c with log := (List.prefix_append ..).trans (List.prefix_append ..) }
        · exact { Grows.refl c with log := List.prefix_append .. }
  | timeout j =>
      simp only [exec, timeout]
      repeat' split
      · exact { Grows.refl c with log := List.prefix_append .. }
      · exact { Grows.refl c with log := (List.prefix_append ..).trans (List.prefix_append ..) }
      · exact Grows.refl c
  | emptyCallback j => exact { Grows.refl c with log := List.prefix_append .. }
  | _ => exact { Grows.refl c with }

end Steps

/-! ## 5. At most one call of the callback -/

/-- What one collector and its history keep, whoever calls `answer`. -/
structure Settling (x : Collector V) (h : List (Event V)) : Prop where
  once : (calls h).length ≤ 1
  still : x.recipients ≠ 0 → x.settled = false → calls h = []
  timer : x.timer = true → x.recipients ≠ 0
  told : ∀ i ∈ calls h, i.callback = x.callback

/-- The invariant of the heap: of every collector, and of the callbacks they were made for. -/
structure Settlement (c : Core V) : Prop where
  settling : ∀ j < c.collectorCount, Settling (c.collectors j) (c.history j)
  fresh : ∀ j, c.collectorCount ≤ j → c.history j = [] ∧ (c.collectors j).timer = false ∧
    ∀ k, c.offered j k = false ∧ c.created j k = false ∧ c.acked j k = false
  within : ∀ j k, c.offered j k = true ∨ c.created j k = true → k < (c.collectors j).recipients
  numbered : ∀ j < c.collectorCount, (c.collectors j).callback.number < c.callbackCount
  direct : ∀ j < c.collectorCount, ∀ j' < c.collectorCount, ∀ m,
    (c.collectors j).callback = .emit m → (c.collectors j').callback = .emit m → j = j'

/-- What is known of a pending instruction. -/
def Pending (c : Core V) : Instr V → Prop
  | .parentLoop m _ _ _ => m < c.callbackCount
  | .broadcast cb .. | .collect cb _ =>
      cb.number < c.callbackCount ∧ ∀ m, cb = .emit m → c.Unclaimed cb
  | .sendBroadcast j k | .sendEncoded j k | .acknowledge j k .. | .answer j k _ =>
      j < c.collectorCount ∧ k < (c.collectors j).recipients
  | .timeout j => j < c.collectorCount ∧ (c.collectors j).recipients ≠ 0
  | .emptyCallback j =>
      j < c.collectorCount ∧ (c.collectors j).recipients = 0 ∧ calls (c.history j) = []
  | _ => True

/-- A direct callback is on its way to one collector; an empty collector reports once. -/
def right : Instr V → Option (Nat ⊕ Nat)
  | .broadcast (.emit m) .. | .collect (.emit m) _ => some (.inl m)
  | .emptyCallback j => some (.inr j)
  | _ => none

section Settlement

variable {encodePayload : List V → Option (List V)} {c : Core V}

/-- What a call adds to the history of an open collector. -/
theorem Settling.close {x x' : Collector V} {h : List (Event V)} {e : Event V} {i : Invocation V}
    (hc : calls h = []) (he : e.call? = none) (hi : i.callback = x.callback)
    (hcb : x'.callback = x.callback) (hs : x'.settled = true) (ht : x'.timer = false) :
    Settling x' (h ++ [e, .invoked i]) := by
  have hcalls : calls (h ++ [e, .invoked i]) = [i] := by
    rw [List.append_cons, calls_concat, calls_concat, hc, he]
    rfl
  constructor
  · rw [hcalls]
    exact le_rfl
  · intro _ h'
    rw [hs] at h'
    cases h'
  · intro h'
    rw [ht] at h'
    cases h'
  · intro i' hi'
    rw [hcalls] at hi'
    rw [List.mem_singleton.mp hi', hi, hcb]

/-- What does not call the callback leaves it uncalled. -/
theorem Settling.keep {x x' : Collector V} {h : List (Event V)} {e : Event V}
    (hx : Settling x h) (he : e.call? = none) (hcb : x'.callback = x.callback)
    (hr : x'.recipients = x.recipients) (hs : x'.settled = x.settled)
    (ht : x'.timer = true → x.timer = true) : Settling x' (h ++ [e]) := by
  have hcalls : calls (h ++ [e]) = calls h := by
    rw [calls_concat, he]
    exact List.append_nil _
  constructor
  · rw [hcalls]
    exact hx.once
  · rw [hcalls, hr, hs]
    exact hx.still
  · rw [hr]
    exact fun h' => hx.timer (ht h')
  · rw [hcalls, hcb]
    exact hx.told

/-- The collector an instruction works for. -/
theorem exec_settling {i : Instr V} {j : Nat} (hi : i.collector? = some j) (hp : Pending c i)
    (hx : Settling (c.collectors j) (c.history j)) :
    Settling ((exec encodePayload i c).core.collectors j)
      ((exec encodePayload i c).core.history j) := by
  cases i with
  | acknowledge j' k answer active =>
      rw [exec, acknowledge_same.1]
      rcases acknowledge_history j with hh | ⟨-, hh⟩
      · rw [hh]
        exact hx
      · rw [hh]
        exact hx.keep rfl rfl rfl rfl id
  | answer j' k received =>
      obtain rfl := Option.some.inj hi
      have hn : (c.collectors j').recipients ≠ 0 := Nat.ne_of_gt (Nat.zero_lt_of_lt hp.2)
      rw [exec]
      cases hs : (c.collectors j').settled with
      | true =>
          rw [(answer_settled hs).1, (answer_settled hs).2]
          exact hx.keep rfl rfl rfl rfl id
      | false =>
          by_cases hr : (c.collectors j').remaining - 1 = 0
          · rw [(answer_last hs hr).1, (answer_last hs hr).2]
            exact .close (hx.still hn hs) rfl rfl rfl rfl rfl
          · rw [(answer_open hs hr).1, (answer_open hs hr).2]
            exact hx.keep rfl rfl rfl rfl id
  | timeout j' =>
      obtain rfl := Option.some.inj hi
      rw [exec]
      cases ht : (c.collectors j').timer with
      | false =>
          rw [(timeout_cleared ht).1, (timeout_cleared ht).2]
          exact hx
      | true =>
          cases hs : (c.collectors j').settled with
          | true =>
              rw [(timeout_settled ht hs).1, (timeout_settled ht hs).2]
              exact hx.keep rfl rfl rfl rfl nofun
          | false =>
              rw [(timeout_open ht hs).1, (timeout_open ht hs).2]
              exact .close (hx.still hp.2 hs) rfl rfl rfl rfl rfl
  | emptyCallback j' =>
      obtain rfl := Option.some.inj hi
      have hh : (exec encodePayload (.emptyCallback j') c).core.history j' =
          c.history j' ++ [.invoked ⟨j', (c.collectors j').callback, false, []⟩] := by
        simp [exec, Event.collector]
      have hcalls : calls ((exec encodePayload (.emptyCallback j') c).core.history j') =
          [⟨j', (c.collectors j').callback, false, []⟩] := by
        rw [hh, calls_concat, hp.2.2]
        rfl
      refine ⟨hcalls ▸ le_rfl, fun hn => absurd hp.2.1 hn, hx.timer, fun i hi => ?_⟩
      rw [hcalls] at hi
      rw [List.mem_singleton.mp hi]
      rfl
  | _ => cases hi

/-- A collector is old, or the instruction has just made it. -/
theorem exec_table {i : Instr V} {j : Nat}
    (hj : j < (exec encodePayload i c).core.collectorCount) :
    j < c.collectorCount ∨ ∃ cb o, i = .collect cb o ∧ j = c.collectorCount := by
  cases i with
  | collect cb o =>
      rw [exec, (collect_new cb o).2.2] at hj
      rcases Nat.lt_succ_iff_lt_or_eq.mp hj with hj | rfl
      · exact Or.inl hj
      · exact Or.inr ⟨cb, o, rfl, rfl⟩
  | acknowledge =>
      rw [exec, acknowledge_same.2] at hj
      exact Or.inl hj
  | parentLoop | broadcast | answer | timeout =>
      simp only [exec, answer, timeout] at hj
      repeat' split at hj
      all_goals exact Or.inl hj
  | _ => exact Or.inl hj

/-- What the recipients and their observers have been given, and who has answered. -/
theorem exec_flags (encodePayload : List V → Option (List V)) (i : Instr V) (j k : Nat) :
    ((exec encodePayload i c).core.offered j k = true →
        c.offered j k = true ∨ i = .sendBroadcast j k) ∧
      ((exec encodePayload i c).core.created j k = true →
        c.created j k = true ∨ i = .sendEncoded j k) ∧
      ((exec encodePayload i c).core.acked j k = true →
        c.acked j k = true ∨ ∃ answer active, i = .acknowledge j k answer active) := by
  have hset : ∀ {f : Nat → Nat → Bool} {j' k' : Nat},
      (if j = j' ∧ k = k' then true else f j k) = true → f j k = true ∨ j' = j ∧ k' = k :=
    fun h => by
      split at h
      · rename_i h'
        exact Or.inr ⟨h'.1.symm, h'.2.symm⟩
      · exact Or.inl h
  cases i with
  | sendBroadcast j' k' =>
      refine ⟨fun h => (hset h).imp_right ?_, Or.inl, Or.inl⟩
      rintro ⟨rfl, rfl⟩
      rfl
  | sendEncoded j' k' =>
      refine ⟨Or.inl, fun h => (hset h).imp_right ?_, Or.inl⟩
      rintro ⟨rfl, rfl⟩
      rfl
  | acknowledge j' k' answer active =>
      have hi : j' = j ∧ k' = k → ∃ answer' active', Instr.acknowledge j' k' answer active =
          .acknowledge j k answer' active' := by
        rintro ⟨rfl, rfl⟩
        exact ⟨_, _, rfl⟩
      simp only [exec, acknowledge]
      split
      · exact ⟨Or.inl, Or.inl, Or.inl⟩
      · split <;> exact ⟨Or.inl, Or.inl, fun h => (hset h).imp_right hi⟩
  | parentLoop | broadcast | answer | timeout =>
      simp only [exec, answer, timeout]
      repeat' split
      all_goals exact ⟨Or.inl, Or.inl, Or.inl⟩
  | collect =>
      simp only [exec, collect]
      split <;> exact ⟨Or.inl, Or.inl, Or.inl⟩
  | _ => exact ⟨Or.inl, Or.inl, Or.inl⟩

/-- An instruction works for a collector that has been made. -/
theorem Pending.lt {i : Instr V} {j : Nat} (hp : Pending c i) (hi : i.collector? = some j) :
    j < c.collectorCount := by
  cases i <;> cases hi <;> exact hp.1

theorem Settlement.exec (hI : Settlement c) {i : Instr V} (hp : Pending c i) :
    Settlement (exec encodePayload i c).core := by
  have hg := exec_grows encodePayload i c
  constructor
  · intro j hj
    rcases exec_table hj with hj | ⟨cb, o, rfl, rfl⟩
    · by_cases hi : i.collector? = some j
      · exact exec_settling hi hp (hI.settling j hj)
      · obtain ⟨hc, hh⟩ := exec_other encodePayload hi
          fun h => absurd hj (Nat.not_lt.mpr h)
        rw [hc, hh]
        exact hI.settling j hj
    · rw [Collect.exec, (collect_new cb o).1, (collect_new cb o).2.1, (hI.fresh _ le_rfl).1]
      exact ⟨Nat.zero_le 1, fun _ _ => rfl, fun h => by simpa using h, nofun⟩
  · intro j hj
    have hj' := hg.collectors.trans hj
    have hi : i.collector? ≠ some j := fun h => absurd (hp.lt h) (Nat.not_lt.mpr hj')
    obtain ⟨hc, hh⟩ := exec_other encodePayload hi fun _ => hj
    rw [hc, hh]
    obtain ⟨h₁, h₂, h₃⟩ := hI.fresh j hj'
    refine ⟨h₁, h₂, fun k => ?_⟩
    obtain ⟨ho, hcr, ha⟩ := exec_flags (c := c) encodePayload i j k
    obtain ⟨ho', hcr', ha'⟩ := h₃ k
    refine ⟨?_, ?_, ?_⟩
    · rw [Bool.eq_false_iff]
      rintro h
      rcases ho h with h | rfl
      · exact absurd h (by simp [ho'])
      · exact absurd hp.1 (Nat.not_lt.mpr hj')
    · rw [Bool.eq_false_iff]
      rintro h
      rcases hcr h with h | rfl
      · exact absurd h (by simp [hcr'])
      · exact absurd hp.1 (Nat.not_lt.mpr hj')
    · rw [Bool.eq_false_iff]
      rintro h
      rcases ha h with h | ⟨_, _, rfl⟩
      · exact absurd h (by simp [ha'])
      · exact absurd hp.1 (Nat.not_lt.mpr hj')
  · intro j k h
    have hjk : j < c.collectorCount ∧ k < (c.collectors j).recipients := by
      obtain ⟨ho, hcr, -⟩ := exec_flags (c := c) encodePayload i j k
      have hold : c.offered j k = true ∨ c.created j k = true →
          j < c.collectorCount ∧ k < (c.collectors j).recipients := fun h' => by
        refine ⟨Nat.lt_of_not_le fun hj => ?_, hI.within j k h'⟩
        obtain ⟨h₁, h₂, -⟩ := (hI.fresh j hj).2.2 k
        rw [h₁, h₂] at h'
        exact h'.elim nofun nofun
      rcases h with h | h
      · rcases ho h with h | rfl
        · exact hold (Or.inl h)
        · exact hp
      · rcases hcr h with h | rfl
        · exact hold (Or.inr h)
        · exact hp
    rw [(exec_fixed encodePayload i hjk.1).1]
    exact hjk.2
  · intro j hj
    rcases exec_table hj with hj | ⟨cb, o, rfl, rfl⟩
    · rw [(exec_fixed encodePayload i hj).2]
      exact (hI.numbered j hj).trans_le hg.callbacks
    · rw [Collect.exec, (collect_new cb o).1]
      exact hp.1.trans_le hg.callbacks
  · intro j hj j' hj' m hm hm'
    rcases exec_table hj with hold | ⟨cb, o, rfl, rfl⟩
    · rw [(exec_fixed encodePayload i hold).2] at hm
      rcases exec_table hj' with hold' | ⟨cb, o, rfl, rfl⟩
      · rw [(exec_fixed encodePayload i hold').2] at hm'
        exact hI.direct j hold j' hold' m hm hm'
      · rw [Collect.exec, (collect_new cb o).1] at hm'
        exact absurd (hm.trans hm'.symm) (hp.2 m hm' j hold)
    · rw [Collect.exec, (collect_new cb o).1] at hm
      rcases exec_table hj' with hold' | ⟨-, -, -, rfl⟩
      · rw [(exec_fixed encodePayload _ hold').2] at hm'
        exact absurd (hm'.trans hm.symm) (hp.2 m hm j' hold')
      · rfl

/-- What is known of a pending instruction stays known. -/
theorem Pending.stable {i t : Instr V} (hp : Pending c i) (ht : Pending c t)
    (ha : Apart right i t) : Pending (exec encodePayload i c).core t := by
  have hg := exec_grows encodePayload i c
  have hat : ∀ {j : Nat}, j < c.collectorCount →
      j < (exec encodePayload i c).core.collectorCount := fun h => h.trans_le hg.collectors
  have hcb : ∀ {cb : Callback}, (cb.number < c.callbackCount ∧ ∀ m, cb = .emit m → c.Unclaimed cb) →
      (∀ m o, cb = .emit m → i ≠ .collect cb o) →
      cb.number < (exec encodePayload i c).core.callbackCount ∧
        ∀ m, cb = .emit m → (exec encodePayload i c).core.Unclaimed cb := fun h hne => by
    refine ⟨h.1.trans_le hg.callbacks, fun m hm j hj => ?_⟩
    rcases exec_table hj with hold | ⟨cb', o, rfl, rfl⟩
    · rw [(exec_fixed encodePayload i hold).2]
      exact h.2 m hm j hold
    · rw [exec, (collect_new cb' o).1]
      rintro rfl
      exact hne m o hm rfl
  cases t with
  | parentLoop m p i reserved => exact lt_of_lt_of_le ht hg.callbacks
  | broadcast cb o reserved =>
      refine hcb ht fun m o' hm hi => ?_
      subst hm hi
      exact ha (.inl m) rfl rfl
  | collect cb o =>
      refine hcb ht fun m o' hm hi => ?_
      subst hm hi
      exact ha (.inl m) rfl rfl
  | sendBroadcast j k | sendEncoded j k | acknowledge j k answer active | answer j k received =>
      exact ⟨hat ht.1, (exec_fixed encodePayload i ht.1).1 ▸ ht.2⟩
  | timeout j => exact ⟨hat ht.1, (exec_fixed encodePayload i ht.1).1 ▸ ht.2⟩
  | emptyCallback j =>
      refine ⟨hat ht.1, (exec_fixed encodePayload i ht.1).1 ▸ ht.2.1, ?_⟩
      by_cases hi : i.collector? = some j
      · cases i with
        | acknowledge j' k answer active =>
            rw [exec]
            rcases acknowledge_history j with hh | ⟨-, hh⟩
            · rw [hh]
              exact ht.2.2
            · rw [hh, calls_concat, ht.2.2]
              rfl
        | answer j' k received =>
            obtain rfl := Option.some.inj hi
            exact absurd (ht.2.1 ▸ hp.2) (Nat.not_lt_zero k)
        | timeout j' =>
            obtain rfl := Option.some.inj hi
            exact absurd ht.2.1 hp.2
        | emptyCallback j' => exact absurd hi (ha (.inr j') rfl ∘ by intro h; cases h; rfl)
        | _ => cases hi
      · rw [(exec_other encodePayload hi fun h => absurd ht.1 (Nat.not_lt.mpr h)).2]
        exact ht.2.2
  | _ => trivial

/-- What an instruction leaves pending. -/
theorem exec_pending (hI : Settlement c) {i : Instr V} (hp : Pending c i) :
    ∀ t ∈ (exec encodePayload i c).spawned, Pending (exec encodePayload i c).core t := by
  intro t ht
  cases i with
  | emit o reserved =>
      rw [List.mem_singleton.mp ht]
      refine ⟨Nat.lt_succ_self _, fun m hm j hj hcb => ?_⟩
      have hlt := hI.numbered j hj
      change (c.collectors j).callback = _ at hcb
      rw [hcb] at hlt
      exact Nat.lt_irrefl _ hlt
  | parentEmit p reserved =>
      rw [List.mem_singleton.mp ht]
      exact Nat.lt_succ_self _
  | parentLoop m p i reserved =>
      simp only [exec] at ht ⊢
      split at ht
      · cases ht
      · rcases List.mem_cons.mp ht with rfl | ht
        · exact ⟨hp, nofun⟩
        · rw [List.mem_singleton.mp ht]
          exact hp
  | broadcast cb o reserved =>
      cases reserved with
      | true => cases ht
      | false =>
          rcases List.mem_cons.mp ht with rfl | ht
          · trivial
          · rw [List.mem_singleton.mp ht]
            exact hp
  | collect cb o =>
      obtain ⟨hnew, hh, hcount⟩ := collect_new (c := c) cb o
      simp only [exec] at ht ⊢
      have hlt : c.collectorCount < (collect c cb o).core.collectorCount := by omega
      by_cases hn : c.selected o = 0
      · rw [collect, if_pos hn] at ht
        rw [List.mem_singleton.mp ht]
        refine ⟨hlt, ?_, ?_⟩
        · rw [hnew]
          exact hn
        · rw [hh, (hI.fresh _ le_rfl).1]
          rfl
      · rw [collect, if_neg hn] at ht
        simp only [Effect.spawned, List.append_nil] at ht
        obtain ⟨k, hk, rfl⟩ := List.mem_map.mp ht
        refine ⟨hlt, ?_⟩
        rw [hnew]
        exact List.mem_range.mp hk
  | sendBroadcast j k =>
      rcases List.mem_cons.mp ht with rfl | ht
      · trivial
      · rw [List.mem_singleton.mp ht]
        exact hp
  | sendEncoded j k =>
      rw [List.mem_singleton.mp ht]
      trivial
  | acknowledge j k answer active =>
      simp only [exec] at ht ⊢
      have hfixed := exec_fixed encodePayload (.acknowledge j k answer active) hp.1
      have hlt := hp.1.trans_le (exec_grows encodePayload (.acknowledge j k answer active) c).1
      rw [exec] at hfixed hlt
      unfold acknowledge at ht
      split at ht
      · cases ht
      · dsimp only at ht
        split at ht
        · cases ht
        · rw [List.mem_singleton.mp ht]
          exact ⟨hlt, hfixed.1 ▸ hp.2⟩
  | answer j k received =>
      simp only [exec, answer] at ht
      repeat' split at ht
      · cases ht
      · rw [List.mem_singleton.mp ht]
        trivial
      · cases ht
  | timeout j =>
      simp only [exec, timeout] at ht
      repeat' split at ht
      · cases ht
      · rw [List.mem_singleton.mp ht]
        trivial
      · cases ht
  | emptyCallback j =>
      rw [List.mem_singleton.mp ht]
      trivial
  | _ => cases ht

/-- The rights of what an instruction leaves pending are its own, or new. -/
theorem exec_rights {i : Instr V} :
    (exec encodePayload i c).spawned.Pairwise (Apart right) ∧
      ∀ t ∈ (exec encodePayload i c).spawned, right t = none ∨ right t = right i ∨
        right t = some (.inl c.callbackCount) ∨ right t = some (.inr c.collectorCount) := by
  cases i with
  | emit o reserved => exact ⟨List.pairwise_singleton .., by simp [exec, Effect.spawned, right]⟩
  | parentLoop m p i reserved =>
      simp only [exec]
      split
      · exact ⟨.nil, (by intro _ h; cases h)⟩
      · exact ⟨by simp [Effect.spawned, Apart, right], by simp [Effect.spawned, right]⟩
  | broadcast cb o reserved =>
      simp only [exec]
      split
      · exact ⟨.nil, (by intro _ h; cases h)⟩
      · refine ⟨by simp [Effect.spawned, Apart, right], ?_⟩
        cases cb <;> simp [Effect.spawned, right]
  | collect cb o =>
      simp only [exec, collect]
      split
      · exact ⟨List.pairwise_singleton .., by simp [Effect.spawned, right]⟩
      · have hnone : ∀ t ∈ (List.range (c.selected o)).map (Instr.sendBroadcast (V := V)
            c.collectorCount), right t = none := fun t ht => by
          obtain ⟨k, -, rfl⟩ := List.mem_map.mp ht
          rfl
        simp only [Effect.spawned, List.append_nil]
        exact ⟨List.pairwise_of_forall_mem_list fun t ht _ _ => Apart.of_none (hnone t ht),
          fun t ht => Or.inl (hnone t ht)⟩
  | sendBroadcast j k => exact ⟨by simp [exec, Effect.spawned, Apart, right],
      by simp [exec, Effect.spawned, right]⟩
  | acknowledge j k answer active =>
      simp only [exec, acknowledge]
      split
      · exact ⟨.nil, (by intro _ h; cases h)⟩
      · split
        · exact ⟨.nil, (by intro _ h; cases h)⟩
        · exact ⟨List.pairwise_singleton .., by simp [Effect.spawned, right]⟩
  | answer j k received =>
      simp only [exec, answer]
      repeat' split
      · exact ⟨.nil, (by intro _ h; cases h)⟩
      · exact ⟨List.pairwise_singleton .., by simp [Effect.spawned, right]⟩
      · exact ⟨.nil, (by intro _ h; cases h)⟩
  | timeout j =>
      simp only [exec, timeout]
      repeat' split
      · exact ⟨.nil, (by intro _ h; cases h)⟩
      · exact ⟨List.pairwise_singleton .., by simp [Effect.spawned, right]⟩
      · exact ⟨.nil, (by intro _ h; cases h)⟩
  | _ => exact ⟨by simp [exec, Effect.spawned], by simp [exec, Effect.spawned, right]⟩

/-- A pending instruction holds no right that is still to be given. -/
theorem Pending.right_old {t : Instr V} (ht : Pending c t) :
    right t ≠ some (.inl c.callbackCount) ∧ right t ≠ some (.inr c.collectorCount) := by
  cases t with
  | broadcast cb o reserved | collect cb o =>
      cases cb with
      | emit m =>
          refine ⟨fun h => ?_, nofun⟩
          cases h
          exact Nat.lt_irrefl _ ht.1
      | parent m => exact ⟨nofun, nofun⟩
  | emptyCallback j =>
      refine ⟨nofun, fun h => ?_⟩
      cases h
      exact Nat.lt_irrefl _ ht.1
  | _ => exact ⟨nofun, nofun⟩

theorem settlement_inductive (observing : Bool) :
    Inductive (collecting encodePayload observing) (fun _ _ => True) Settlement Pending right where
  core _ _ h := h.inv.exec h.ok
  spawn _ _ h := exec_pending h.inv h.ok
  stable _ _ _ h ht ha := h.ok.stable ht ha
  call c i hI hc := by
    cases i with
    | acknowledge j k answer active =>
        refine ⟨Nat.lt_of_not_le fun hj => ?_, hI.within j k (Or.inr hc)⟩
        exact absurd hc (by simp [callable, collecting, ((hI.fresh j hj).2.2 k).2.1])
    | answer j k received =>
        have ho : c.offered j k = true := (Bool.and_eq_true_iff.mp hc).2
        refine ⟨Nat.lt_of_not_le fun hj => ?_, hI.within j k (Or.inl ho)⟩
        exact absurd ho (by simp [((hI.fresh j hj).2.2 k).1])
    | timeout j =>
        have hj : j < c.collectorCount := Nat.lt_of_not_le fun hj => by
          exact absurd hc (by simp [callable, collecting, (hI.fresh j hj).2.1])
        exact ⟨hj, (hI.settling j hj).timer hc⟩
    | emit | parentEmit | select | addChild | app => trivial
    | _ => cases hc
  handle _ _ _ _ _ h := nomatch h
  apart _ _ _ := exec_rights.1
  fresh c i t k h ht ha hk := by
    intro r hr hrt
    rcases exec_rights.2 k hk with h' | h' | h' | h'
    · rw [h'] at hr
      cases hr
    · exact ha r (h' ▸ hr) hrt
    · rw [h'] at hr
      exact ht.right_old.1 (hrt.trans hr.symm)
    · rw [h'] at hr
      exact ht.right_old.2 (hrt.trans hr.symm)
  callFresh c i t hI hc _ := by
    refine Apart.of_none ?_
    cases i <;> first | rfl | cases hc
  handleFree _ _ _ h := nomatch h
  free _ _ _ := trivial

end Settlement

end Smocket.Collect
