import Mathlib.Data.List.Basic

/-
  File:      Smocket/EventLoop.lean
  Subject:   A RUN-TO-COMPLETION EVENT LOOP: a heap, a stack of pending instructions and a FIFO
             queue of tasks. Library: nothing here names the program that runs on it.

  Synchronous code that calls back into application code is cut into instructions at the calls.
  An instruction changes the heap, pushes what is left of its function onto the stack and posts
  tasks to the queue. While an application frame lies on top of the stack the application decides
  what happens: it calls into the program, returns, or throws.

  * `Machine`, `Config`, `Action`, `Machine.step` -- the machine and its steps;
  * `Machine.Reach` -- what a run reaches whose steps all meet a condition;
  * `Machine.step_cases` -- the inversion: the four things a step can do;
  * `Machine.Reach.inv_ok` -- the rule for an invariant of the heap together with a fact about
    every pending instruction.
-/

namespace EventLoop

/-! ## 1. Machines and their steps -/

/-- What one instruction does: the new heap, the instructions that run next (before anything
    already on the stack), the tasks it posts, and whether it throws instead of finishing. -/
structure Effect (Core Instr : Type) where
  core : Core
  push : List Instr := []
  post : List Instr := []
  fails : Bool := false

/-- What an instruction leaves pending, if it does not throw. -/
def Effect.spawned {Core Instr : Type} (e : Effect Core Instr) : List Instr := e.push ++ e.post

/-- What an exception does as it passes a pending instruction: drop it, run it (a `finally`
    block), or stop there and continue with a handler. -/
inductive Handler (Instr : Type) where
  | skip
  | run
  | handle (is : List Instr)

/-- A program for the loop. -/
structure Machine (Core Instr : Type) where
  /-- the instructions that stand for running application code -/
  isApp : Instr → Bool
  exec : Instr → Core → Effect Core Instr
  onThrow : Core → Instr → Handler Instr
  /-- what application code, or the host between two tasks, may call -/
  callable : Core → Instr → Bool

/-- A state of the loop. -/
structure Config (Core Instr : Type) where
  core : Core
  stack : List Instr := []
  queue : List Instr := []

/-- The instructions still to be executed: the rest of the running task, then the queue. -/
def Config.pending {Core Instr : Type} (σ : Config Core Instr) : List Instr := σ.stack ++ σ.queue

/-- One step is one of: execute the next instruction; a call, a return or an exception of the
    application code on top of the stack. -/
inductive Action (Instr : Type) where
  | run
  | call (i : Instr)
  | ret
  | throw
  deriving DecidableEq

namespace Machine

variable {Core Instr : Type} (M : Machine Core Instr)

/-- Propagate an exception to the nearest application frame, running the `finally` blocks on the
    way, or to the nearest handler. -/
def unwind : Core → List Instr → Core × List Instr
  | c, [] => (c, [])
  | c, i :: k =>
      if M.isApp i then (c, i :: k)
      else match M.onThrow c i with
        | .skip => unwind c k
        | .run => unwind (M.exec i c).core k
        | .handle is => (c, is ++ k)

/-- Execute `i`, which has been taken off the stack or the queue of `σ`. -/
def execute (i : Instr) (σ : Config Core Instr) : Config Core Instr :=
  let e := M.exec i σ.core
  if e.fails then
    ⟨(M.unwind e.core σ.stack).1, (M.unwind e.core σ.stack).2, σ.queue ++ e.post⟩
  else ⟨e.core, e.push ++ σ.stack, σ.queue ++ e.post⟩

/-- The instruction a `run` step executes, and the configuration without it: the top of the
    stack, or on an empty stack the head of the queue. Application frames wait. -/
def next (σ : Config Core Instr) : Option (Instr × Config Core Instr) :=
  match σ.stack with
  | i :: k => if M.isApp i then none else some (i, { σ with stack := k })
  | [] =>
      match σ.queue with
      | [] => none
      | t :: q => some (t, { σ with queue := q })

/-- Application code is running: on the top level or in a frame on top of the stack. -/
def inApp (σ : Config Core Instr) : Bool :=
  match σ.stack with
  | [] => true
  | i :: _ => M.isApp i

def step (σ : Config Core Instr) : Action Instr → Option (Config Core Instr)
  | .run => (M.next σ).map fun p => M.execute p.1 p.2
  | .call i => if M.inApp σ && M.callable σ.core i then some { σ with stack := i :: σ.stack } else none
  | .ret =>
      match σ.stack with
      | i :: k => if M.isApp i then some { σ with stack := k } else none
      | [] => none
  | .throw =>
      match σ.stack with
      | i :: k =>
          if M.isApp i then some ⟨(M.unwind σ.core k).1, (M.unwind σ.core k).2, σ.queue⟩ else none
      | [] => none

/-- **What a run from `σ₀` reaches whose steps all meet the condition `C`.** -/
inductive Reach (C : Config Core Instr → Action Instr → Prop) (σ₀ : Config Core Instr) :
    Config Core Instr → Prop where
  | start : Reach C σ₀ σ₀
  | step {σ σ' : Config Core Instr} {a : Action Instr} (h : Reach C σ₀ σ) (hc : C σ a)
      (hs : M.step σ a = some σ') : Reach C σ₀ σ'

/-- The run that follows a script: instructions execute until application code is on top, which
    takes the next action of the script. A condition is checked before every step. -/
def play (C : Config Core Instr → Action Instr → Bool) :
    Nat → List (Action Instr) → Config Core Instr → Option (Config Core Instr)
  | 0, _, _ => none
  | n + 1, as, σ =>
      match M.inApp σ, as with
      | true, [] => some σ
      | true, a :: as => if C σ a then (M.step σ a).bind (play C n as) else none
      | false, as => if C σ .run then (M.step σ .run).bind (play C n as) else none

variable {M}

theorem reach_of_play {C : Config Core Instr → Action Instr → Bool} {σ₀ : Config Core Instr}
    (n : Nat) (as : List (Action Instr)) (σ σ' : Config Core Instr)
    (h : M.Reach (fun τ a => C τ a = true) σ₀ σ) (hp : M.play C n as σ = some σ') :
    M.Reach (fun τ a => C τ a = true) σ₀ σ' := by
  induction n generalizing as σ with
  | zero => cases hp
  | succ n ih =>
      unfold play at hp
      split at hp
      · exact Option.some.inj hp ▸ h
      · split at hp
        · rename_i hc
          obtain ⟨τ, hs, hp'⟩ := Option.bind_eq_some_iff.mp hp
          exact ih _ τ (.step h hc hs) hp'
        · cases hp
      · split at hp
        · rename_i hc
          obtain ⟨τ, hs, hp'⟩ := Option.bind_eq_some_iff.mp hp
          exact ih _ τ (.step h hc hs) hp'
        · cases hp

/-- A script that ends in a state with property `p` shows that such a state can be reached. -/
theorem reach_of_script (M : Machine Core Instr) (C : Config Core Instr → Action Instr → Prop)
    [∀ τ a, Decidable (C τ a)] (σ₀ : Config Core Instr) (n : Nat) (as : List (Action Instr))
    (p : Config Core Instr → Bool)
    (h : (M.play (fun τ a => decide (C τ a)) n as σ₀).any p = true) :
    ∃ σ, M.Reach C σ₀ σ ∧ p σ = true := by
  obtain ⟨σ, hσ, hp⟩ := (Option.any_eq_true _ _).mp h
  have hr := reach_of_play n as σ₀ σ .start hσ
  refine ⟨σ, ?_, hp⟩
  clear hσ hp
  induction hr with
  | start => exact .start
  | step _ hc hs ih => exact .step ih (of_decide_eq_true hc) hs

theorem Reach.trans {C : Config Core Instr → Action Instr → Prop} {σ₀ σ τ : Config Core Instr}
    (h : M.Reach C σ₀ σ) (h' : M.Reach C σ τ) : M.Reach C σ₀ τ := by
  induction h' with
  | start => exact h
  | step _ hc hs ih => exact .step ih hc hs

/-- A condition that every step of a run turns out to meet. -/
theorem Reach.upgrade {C C' : Config Core Instr → Action Instr → Prop} {σ₀ σ : Config Core Instr}
    (hC : ∀ τ a, M.Reach C σ₀ τ → C τ a → C' τ a) (h : M.Reach C σ₀ σ) : M.Reach C' σ₀ σ := by
  induction h with
  | start => exact .start
  | step hr hc hs ih => exact .step ih (hC _ _ hr hc) hs

/-- A weaker condition admits more runs. -/
theorem Reach.mono {C C' : Config Core Instr → Action Instr → Prop} {σ₀ σ : Config Core Instr}
    (hC : ∀ τ a, C τ a → C' τ a) (h : M.Reach C σ₀ σ) : M.Reach C' σ₀ σ := by
  induction h with
  | start => exact .start
  | step _ hc hs ih => exact .step ih (hC _ _ hc) hs

/-! ## 2. The inversion of a step -/

theorem next_pending {σ τ : Config Core Instr} {i : Instr} (h : M.next σ = some (i, τ)) :
    σ.core = τ.core ∧
      ((M.isApp i = false ∧ σ.stack = i :: τ.stack ∧ σ.queue = τ.queue) ∨
        (σ.stack = [] ∧ τ.stack = [] ∧ σ.queue = i :: τ.queue)) := by
  unfold next at h
  split at h
  · rename_i j k hstack
    split at h
    · cases h
    · rename_i hj
      simp only [Option.some.injEq, Prod.mk.injEq] at h
      obtain ⟨rfl, rfl⟩ := h
      exact ⟨rfl, Or.inl ⟨by simpa using hj, hstack, rfl⟩⟩
  · rename_i hstack
    split at h
    · cases h
    · rename_i t q hqueue
      simp only [Option.some.injEq, Prod.mk.injEq] at h
      obtain ⟨rfl, rfl⟩ := h
      exact ⟨rfl, Or.inr ⟨hstack, hstack, hqueue⟩⟩

/-- What a step executes was pending. -/
theorem next_mem {σ τ : Config Core Instr} {i : Instr} (h : M.next σ = some (i, τ)) :
    i ∈ σ.pending ∧ τ.core = σ.core := by
  obtain ⟨hc, ⟨-, hst, -⟩ | ⟨hst, -, hq⟩⟩ := next_pending h
  · exact ⟨by simp [Config.pending, hst], hc.symm⟩
  · exact ⟨by simp [Config.pending, hst, hq], hc.symm⟩

/-- **The four things a step can do.** -/
theorem step_cases {σ σ' : Config Core Instr} {a : Action Instr} (h : M.step σ a = some σ') :
    (∃ i τ, a = .run ∧ M.next σ = some (i, τ) ∧ σ' = M.execute i τ) ∨
    (∃ i, a = .call i ∧ M.inApp σ = true ∧ M.callable σ.core i = true ∧
      σ' = { σ with stack := i :: σ.stack }) ∨
    (∃ i k, a = .ret ∧ σ.stack = i :: k ∧ M.isApp i = true ∧ σ' = { σ with stack := k }) ∨
    (∃ i k, a = .throw ∧ σ.stack = i :: k ∧ M.isApp i = true ∧
      σ' = ⟨(M.unwind σ.core k).1, (M.unwind σ.core k).2, σ.queue⟩) := by
  cases a with
  | run =>
      obtain ⟨⟨i, τ⟩, hn, rfl⟩ := Option.map_eq_some_iff.mp h
      exact Or.inl ⟨i, τ, rfl, hn, rfl⟩
  | call i =>
      simp only [step] at h
      split at h
      · rename_i hc
        simp only [Bool.and_eq_true] at hc
        exact Or.inr (Or.inl ⟨i, rfl, hc.1, hc.2, (Option.some.inj h).symm⟩)
      · cases h
  | ret =>
      simp only [step] at h
      split at h
      · rename_i i k hstack
        split at h
        · rename_i happ
          exact Or.inr (Or.inr (Or.inl ⟨i, k, rfl, hstack, happ, (Option.some.inj h).symm⟩))
        · cases h
      · cases h
  | throw =>
      simp only [step] at h
      split at h
      · rename_i i k hstack
        split at h
        · rename_i happ
          exact Or.inr (Or.inr (Or.inr ⟨i, k, rfl, hstack, happ, (Option.some.inj h).symm⟩))
        · cases h
      · cases h

/-- A task waits until it is executed. -/
theorem queue_stays {σ σ' : Config Core Instr} {a : Action Instr} (hs : M.step σ a = some σ')
    {j : Instr} (hj : j ∈ σ.queue) :
    j ∈ σ'.queue ∨ (a = .run ∧ ∃ τ, M.next σ = some (j, τ)) := by
  rcases step_cases hs with ⟨i, τ, rfl, hn, rfl⟩ | ⟨i, rfl, -, -, rfl⟩ | ⟨i, k, rfl, -, -, rfl⟩ |
    ⟨i, k, rfl, -, -, rfl⟩
  · have hτ : j ∈ τ.queue ∨ j = i := by
      obtain ⟨-, ⟨-, -, hq⟩ | ⟨-, -, hq⟩⟩ := next_pending hn
      · exact Or.inl (hq ▸ hj)
      · rw [hq] at hj
        exact (List.mem_cons.mp hj).symm
    rcases hτ with hτ | rfl
    · refine Or.inl ?_
      unfold execute
      dsimp only
      split <;> exact List.mem_append_left _ hτ
    · exact Or.inr ⟨rfl, τ, hn⟩
  · exact Or.inl hj
  · exact Or.inl hj
  · exact Or.inl hj

/-- What an instruction posts waits. -/
theorem post_waits {σ σ' τ : Config Core Instr} {i j : Instr} (hn : M.next σ = some (i, τ))
    (hs : M.step σ .run = some σ') (hj : j ∈ (M.exec i σ.core).post) : j ∈ σ'.queue := by
  rcases step_cases hs with ⟨i', τ', -, hn', rfl⟩ | ⟨i, ha, -⟩ | ⟨i, k, ha, -⟩ | ⟨i, k, ha, -⟩
  · rw [hn, Option.some.injEq, Prod.mk.injEq] at hn'
    obtain ⟨rfl, rfl⟩ := hn'
    rw [(next_pending hn).1] at hj
    unfold execute
    dsimp only
    split <;> exact List.mem_append_right _ hj
  · cases ha
  · cases ha
  · cases ha

/-- What an instruction leaves pending waits, if it does not throw. -/
theorem spawned_waits {σ σ' τ : Config Core Instr} {i j : Instr} (hn : M.next σ = some (i, τ))
    (hs : M.step σ .run = some σ') (hf : (M.exec i σ.core).fails = false)
    (hj : j ∈ (M.exec i σ.core).spawned) : j ∈ σ'.pending := by
  rcases step_cases hs with ⟨i', τ', -, hn', rfl⟩ | ⟨i, ha, -⟩ | ⟨i, k, ha, -⟩ | ⟨i, k, ha, -⟩
  · rw [hn, Option.some.injEq, Prod.mk.injEq] at hn'
    obtain ⟨rfl, rfl⟩ := hn'
    rw [(next_pending hn).1] at hj hf
    unfold execute
    dsimp only
    rw [if_neg (by simp [hf])]
    rcases List.mem_append.mp hj with hj | hj
    · exact List.mem_append_left _ (List.mem_append_left _ hj)
    · exact List.mem_append_right _ (List.mem_append_right _ hj)
  · cases ha
  · cases ha
  · cases ha

/-! ## 3. Invariants of the heap and of the pending instructions -/

/-- Two instructions hold different rights. A right is exclusive: of the pending instructions at
    most one holds it. -/
def Apart {Right : Type} (right : Instr → Option Right) (i j : Instr) : Prop :=
  ∀ t, right i = some t → right j ≠ some t

theorem Apart.symm {Right : Type} {right : Instr → Option Right} {i j : Instr}
    (h : Apart right i j) : Apart right j i := fun t hj hi => h t hi hj

theorem Apart.of_none {Right : Type} {right : Instr → Option Right} {i j : Instr}
    (h : right i = none) : Apart right i j := fun t hi => by rw [h] at hi; cases hi

/-- Instruction `i` is about to execute: the invariant of the heap, the fact about `i`, and what the
    run promises of the instructions it executes. -/
structure Ready (Good : Core → Instr → Prop) (I : Core → Prop) (Ok : Core → Instr → Prop)
    (c : Core) (i : Instr) : Prop where
  inv : I c
  ok : Ok c i
  good : Good c i

/-- An invariant `I` of the heap, a fact `Ok` about each pending instruction and rights of pending
    instructions that keep each other up while only `Good` instructions execute: the hypotheses of
    the rule `Reach.inv_ok`. -/
structure Inductive (M : Machine Core Instr) (Good : Core → Instr → Prop) (I : Core → Prop)
    (Ok : Core → Instr → Prop) {Right : Type} (right : Instr → Option Right) : Prop where
  core : ∀ c i, Ready Good I Ok c i → I (M.exec i c).core
  spawn : ∀ c i, Ready Good I Ok c i → ∀ j ∈ (M.exec i c).spawned, Ok (M.exec i c).core j
  stable : ∀ c i j, Ready Good I Ok c i → Ok c j → Apart right i j → Ok (M.exec i c).core j
  call : ∀ c i, I c → M.callable c i = true → Ok c i
  handle : ∀ c i is, I c → Ok c i → M.onThrow c i = .handle is → ∀ j ∈ is, Ok c j
  apart : ∀ c i, Ready Good I Ok c i → (M.exec i c).spawned.Pairwise (Apart right)
  fresh : ∀ c i j k, Ready Good I Ok c i → Ok c j → Apart right i j → k ∈ (M.exec i c).spawned →
    Apart right k j
  callFresh : ∀ c i j, I c → M.callable c i = true → Ok c j → Apart right i j
  handleFree : ∀ c i is, M.onThrow c i = .handle is → ∀ j ∈ is, right j = none
  free : ∀ c i, M.onThrow c i = .run → Good c i

/-- Without rights, four hypotheses fall away. -/
theorem Inductive.of_facts {Good : Core → Instr → Prop} {I : Core → Prop}
    {Ok : Core → Instr → Prop}
    (core : ∀ c i, Ready Good I Ok c i → I (M.exec i c).core)
    (spawn : ∀ c i, Ready Good I Ok c i → ∀ j ∈ (M.exec i c).spawned, Ok (M.exec i c).core j)
    (stable : ∀ c i j, Ready Good I Ok c i → Ok c j → Ok (M.exec i c).core j)
    (call : ∀ c i, I c → M.callable c i = true → Ok c i)
    (handle : ∀ c i is, I c → Ok c i → M.onThrow c i = .handle is → ∀ j ∈ is, Ok c j)
    (free : ∀ c i, M.onThrow c i = .run → Good c i) :
    Inductive M Good I Ok fun _ => (none : Option Unit) where
  core := core
  spawn := spawn
  stable := fun c i j h hj _ => stable c i j h hj
  call := call
  handle := handle
  apart := fun _ _ _ => List.pairwise_of_forall fun _ _ => Apart.of_none rfl
  fresh := fun _ _ _ _ _ _ _ _ => Apart.of_none rfl
  callFresh := fun _ _ _ _ _ _ => Apart.of_none rfl
  handleFree := fun _ _ _ _ _ _ => rfl
  free := free

variable {Good : Core → Instr → Prop} {I : Core → Prop} {Ok : Core → Instr → Prop} {Right : Type}
  {right : Instr → Option Right}

/-- An inductive invariant stays one when fewer instructions execute. -/
theorem Inductive.restrict {Good' : Core → Instr → Prop} (h : Inductive M Good I Ok right)
    (hG : ∀ c i, Good' c i → Good c i) (hfree : ∀ c i, M.onThrow c i = .run → Good' c i) :
    Inductive M Good' I Ok right := by
  have hr : ∀ {c i}, Ready Good' I Ok c i → Ready Good I Ok c i := fun h =>
    ⟨h.inv, h.ok, hG _ _ h.good⟩
  exact
    { core := fun c i h' => h.core c i (hr h')
      spawn := fun c i h' => h.spawn c i (hr h')
      stable := fun c i j h' => h.stable c i j (hr h')
      call := h.call
      handle := h.handle
      apart := fun c i h' => h.apart c i (hr h')
      fresh := fun c i j k h' => h.fresh c i j k (hr h')
      callFresh := h.callFresh
      handleFree := h.handleFree
      free := hfree }

/-- The invariant, the facts and the rights, for a heap and a list of pending instructions. -/
structure Keeps (I : Core → Prop) (Ok : Core → Instr → Prop) (right : Instr → Option Right)
    (c : Core) (l : List Instr) : Prop where
  inv : I c
  ok : ∀ j ∈ l, Ok c j
  apart : l.Pairwise (Apart right)

theorem Keeps.sublist {c : Core} {l l' : List Instr} (h : Keeps I Ok right c l)
    (hl : l'.Sublist l) : Keeps I Ok right c l' :=
  ⟨h.inv, fun j hj => h.ok j (hl.subset hj), h.apart.sublist hl⟩

theorem Keeps.perm {c : Core} {l l' : List Instr} (h : Keeps I Ok right c l) (hl : l.Perm l') :
    Keeps I Ok right c l' :=
  ⟨h.inv, fun j hj => h.ok j (hl.mem_iff.mpr hj),
    (hl.pairwise_iff fun h => Apart.symm h).mp h.apart⟩

/-- One instruction, executed: what is left of the list, with what it leaves pending. -/
theorem Inductive.exec (hM : Inductive M Good I Ok right) {c : Core} {i : Instr} {l : List Instr}
    (h : Keeps I Ok right c (i :: l)) (hg : Good c i) :
    Keeps I Ok right (M.exec i c).core ((M.exec i c).spawned ++ l) := by
  have hi : Ready Good I Ok c i := ⟨h.inv, h.ok i List.mem_cons_self, hg⟩
  have hl : ∀ j ∈ l, Ok c j := fun j hj => h.ok j (List.mem_cons_of_mem _ hj)
  have hap : ∀ j ∈ l, Apart right i j := (List.pairwise_cons.mp h.apart).1
  refine ⟨hM.core c i hi, fun j hj => ?_, ?_⟩
  · rcases List.mem_append.mp hj with hj | hj
    · exact hM.spawn c i hi j hj
    · exact hM.stable c i j hi (hl j hj) (hap j hj)
  · rw [List.pairwise_append]
    exact ⟨hM.apart c i hi, (List.pairwise_cons.mp h.apart).2, fun k hk j hj =>
      hM.fresh c i j k hi (hl j hj) (hap j hj) hk⟩

/-- Unwinding keeps all three, for the stack together with any list left alone (the queue). -/
theorem Inductive.unwind (hM : Inductive M Good I Ok right) (q : List Instr) :
    ∀ (k : List Instr) (c : Core), Keeps I Ok right c (k ++ q) →
      Keeps I Ok right (M.unwind c k).1 ((M.unwind c k).2 ++ q)
  | [], c, h => h
  | i :: k, c, h => by
      have hk : Keeps I Ok right c (k ++ q) := h.sublist (List.sublist_cons_self _ _)
      rw [Machine.unwind]
      split
      · exact h
      · split
        · exact hM.unwind q k c hk
        · rename_i hr
          exact hM.unwind q k _ ((hM.exec h (hM.free c i hr)).sublist (List.sublist_append_right _ _))
        · rename_i is his
          refine ⟨h.inv, fun j hj => ?_, ?_⟩
          · rw [List.append_assoc] at hj
            rcases List.mem_append.mp hj with hj | hj
            · exact hM.handle c i is h.inv (h.ok i List.mem_cons_self) his j hj
            · exact hk.ok j hj
          · have hfree := hM.handleFree c i is his
            rw [List.append_assoc, List.pairwise_append]
            exact ⟨List.pairwise_of_forall_mem_list fun a ha b _ => Apart.of_none (hfree a ha),
              hk.apart, fun a ha b _ => Apart.of_none (hfree a ha)⟩

theorem Inductive.execute (hM : Inductive M Good I Ok right) {σ : Config Core Instr} {i : Instr}
    (h : Keeps I Ok right σ.core (i :: σ.pending)) (hg : Good σ.core i) :
    Keeps I Ok right (M.execute i σ).core (M.execute i σ).pending := by
  have h' := hM.exec h hg
  unfold Machine.execute
  dsimp only
  split
  · have hpost : Keeps I Ok right (M.exec i σ.core).core ((M.exec i σ.core).post ++ σ.pending) :=
      h'.sublist (List.Sublist.append_right (List.sublist_append_right _ _) _)
    refine hM.unwind _ _ _ (hpost.perm ?_)
    exact List.perm_append_comm.trans (by simp [Config.pending])
  · refine h'.perm ?_
    simp only [Effect.spawned, Config.pending, List.append_assoc]
    exact List.Perm.append_left _ (List.perm_append_comm.trans (by simp))

theorem Keeps.next {σ τ : Config Core Instr} {i : Instr} (h : Keeps I Ok right σ.core σ.pending)
    (hn : M.next σ = some (i, τ)) : Keeps I Ok right τ.core (i :: τ.pending) := by
  obtain ⟨hc, ⟨_, hs, hq⟩ | ⟨hs, hs', hq⟩⟩ := next_pending hn
  · rw [← hc]
    simpa [Config.pending, hs, hq] using h
  · rw [← hc]
    simpa [Config.pending, hs, hs', hq] using h

/-- The instructions a step executes are good. -/
def Obeys (M : Machine Core Instr) (Good : Core → Instr → Prop) (σ : Config Core Instr)
    (a : Action Instr) : Prop :=
  a = .run → ∀ i τ, M.next σ = some (i, τ) → Good τ.core i

instance (Good : Core → Instr → Prop) [∀ c i, Decidable (Good c i)] (σ : Config Core Instr)
    (a : Action Instr) : Decidable (M.Obeys Good σ a) :=
  match a with
  | .run =>
      match h : M.next σ with
      | none => isTrue fun _ i τ h' => by rw [h] at h'; cases h'
      | some (i, τ) => decidable_of_iff (Good τ.core i)
          ⟨fun hg _ j ρ h' => by rw [h] at h'; cases h'; exact hg, fun ho => ho rfl i τ h⟩
  | .call _ | .ret | .throw => isTrue nofun

theorem Inductive.step (hM : Inductive M Good I Ok right) {σ σ' : Config Core Instr}
    {a : Action Instr} (h : Keeps I Ok right σ.core σ.pending) (hg : M.Obeys Good σ a)
    (hs : M.step σ a = some σ') : Keeps I Ok right σ'.core σ'.pending := by
  rcases step_cases hs with ⟨i, τ, ha, hn, rfl⟩ | ⟨i, -, -, hc, rfl⟩ | ⟨i, k, -, hk, -, rfl⟩ |
    ⟨i, k, -, hk, -, rfl⟩
  · exact hM.execute (h.next hn) (hg ha i τ hn)
  · refine ⟨h.inv, fun j hj => ?_, List.pairwise_cons.mpr ⟨fun j hj => ?_, h.apart⟩⟩
    · rcases List.mem_cons.mp hj with rfl | hj
      · exact hM.call _ j h.inv hc
      · exact h.ok j hj
    · exact hM.callFresh _ i j h.inv hc (h.ok j hj)
  · refine h.sublist ?_
    simp only [Config.pending, hk]
    exact List.sublist_cons_self _ _
  · refine hM.unwind _ k _ (h.sublist ?_)
    simp only [Config.pending, hk]
    exact List.sublist_cons_self _ _

/-- **The rule**: an inductive invariant holds in every reachable configuration. -/
theorem Reach.inv_ok {C : Config Core Instr → Action Instr → Prop} {σ₀ σ : Config Core Instr}
    (hM : Inductive M Good I Ok right) (hC : ∀ τ a, C τ a → M.Obeys Good τ a)
    (h₀ : Keeps I Ok right σ₀.core σ₀.pending) (h : M.Reach C σ₀ σ) :
    Keeps I Ok right σ.core σ.pending := by
  induction h with
  | start => exact h₀
  | step _ hc hs ih => exact hM.step ih (hC _ _ hc) hs

/-! ## 4. Layers -/

/-- A second invariant, proved with the first one at hand: `Inductive` for `I₂` and `Ok₂`, whose
    hypotheses also have `I₁` and `Ok₁`. -/
structure Layer (M : Machine Core Instr) (Good : Core → Instr → Prop) (I₁ : Core → Prop)
    (Ok₁ : Core → Instr → Prop) (I₂ : Core → Prop) (Ok₂ : Core → Instr → Prop) {Right : Type}
    (right : Instr → Option Right) : Prop where
  core : ∀ c i, I₁ c → Ok₁ c i → Ready Good I₂ Ok₂ c i → I₂ (M.exec i c).core
  spawn : ∀ c i, I₁ c → Ok₁ c i → Ready Good I₂ Ok₂ c i →
    ∀ j ∈ (M.exec i c).spawned, Ok₂ (M.exec i c).core j
  stable : ∀ c i j, I₁ c → Ok₁ c i → Ok₁ c j → Ready Good I₂ Ok₂ c i → Ok₂ c j →
    Apart right i j → Ok₂ (M.exec i c).core j
  call : ∀ c i, I₁ c → I₂ c → M.callable c i = true → Ok₂ c i
  handle : ∀ c i is, I₂ c → Ok₂ c i → M.onThrow c i = .handle is → ∀ j ∈ is, Ok₂ c j
  apart : ∀ c i, I₁ c → Ok₁ c i → Ready Good I₂ Ok₂ c i →
    (M.exec i c).spawned.Pairwise (Apart right)
  fresh : ∀ c i j k, I₁ c → Ok₁ c i → Ok₁ c j → Ready Good I₂ Ok₂ c i → Ok₂ c j →
    Apart right i j → k ∈ (M.exec i c).spawned → Apart right k j
  callFresh : ∀ c i j, M.callable c i = true → Apart right i j
  handleFree : ∀ c i is, M.onThrow c i = .handle is → ∀ j ∈ is, right j = none
  free : ∀ c i, M.onThrow c i = .run → Good c i

/-- Without rights, four hypotheses fall away. -/
theorem Layer.of_facts {I₁ I₂ : Core → Prop} {Ok₁ Ok₂ : Core → Instr → Prop}
    (core : ∀ c i, I₁ c → Ok₁ c i → Ready Good I₂ Ok₂ c i → I₂ (M.exec i c).core)
    (spawn : ∀ c i, I₁ c → Ok₁ c i → Ready Good I₂ Ok₂ c i →
      ∀ j ∈ (M.exec i c).spawned, Ok₂ (M.exec i c).core j)
    (stable : ∀ c i j, I₁ c → Ok₁ c i → Ok₁ c j → Ready Good I₂ Ok₂ c i → Ok₂ c j →
      Ok₂ (M.exec i c).core j)
    (call : ∀ c i, I₁ c → I₂ c → M.callable c i = true → Ok₂ c i)
    (handle : ∀ c i is, I₂ c → Ok₂ c i → M.onThrow c i = .handle is → ∀ j ∈ is, Ok₂ c j)
    (free : ∀ c i, M.onThrow c i = .run → Good c i) :
    Layer M Good I₁ Ok₁ I₂ Ok₂ fun _ => (none : Option Unit) where
  core := core
  spawn := spawn
  stable := fun c i j h hi hj hr ho _ => stable c i j h hi hj hr ho
  call := call
  handle := handle
  apart := fun _ _ _ _ _ => List.pairwise_of_forall fun _ _ => Apart.of_none rfl
  fresh := fun _ _ _ _ _ _ _ _ _ _ _ => Apart.of_none rfl
  callFresh := fun _ _ _ _ => Apart.of_none rfl
  handleFree := fun _ _ _ _ _ _ => rfl
  free := free

theorem Layer.inductive {Good₁ : Core → Instr → Prop} {I₁ I₂ : Core → Prop}
    {Ok₁ Ok₂ : Core → Instr → Prop} (h₁ : Inductive M Good₁ I₁ Ok₁ fun _ => (none : Option Unit))
    (hG : ∀ c i, Good c i → Good₁ c i) (h₂ : Layer M Good I₁ Ok₁ I₂ Ok₂ right) :
    Inductive M Good (fun c => I₁ c ∧ I₂ c) (fun c i => Ok₁ c i ∧ Ok₂ c i) right := by
  have r₁ : ∀ {c i}, Ready Good (fun c => I₁ c ∧ I₂ c) (fun c i => Ok₁ c i ∧ Ok₂ c i) c i →
      Ready Good₁ I₁ Ok₁ c i := fun h => ⟨h.inv.1, h.ok.1, hG _ _ h.good⟩
  have r₂ : ∀ {c i}, Ready Good (fun c => I₁ c ∧ I₂ c) (fun c i => Ok₁ c i ∧ Ok₂ c i) c i →
      Ready Good I₂ Ok₂ c i := fun h => ⟨h.inv.2, h.ok.2, h.good⟩
  constructor
  case core => exact fun c i h => ⟨h₁.core c i (r₁ h), h₂.core c i h.inv.1 h.ok.1 (r₂ h)⟩
  case spawn =>
    exact fun c i h j hj =>
      ⟨h₁.spawn c i (r₁ h) j hj, h₂.spawn c i h.inv.1 h.ok.1 (r₂ h) j hj⟩
  case stable =>
    exact fun c i j h hj ha => ⟨h₁.stable c i j (r₁ h) hj.1 (Apart.of_none rfl),
      h₂.stable c i j h.inv.1 h.ok.1 hj.1 (r₂ h) hj.2 ha⟩
  case call => exact fun c i h hc => ⟨h₁.call c i h.1 hc, h₂.call c i h.1 h.2 hc⟩
  case handle =>
    exact fun c i is hI hi his j hj =>
      ⟨h₁.handle c i is hI.1 hi.1 his j hj, h₂.handle c i is hI.2 hi.2 his j hj⟩
  case apart => exact fun c i h => h₂.apart c i h.inv.1 h.ok.1 (r₂ h)
  case fresh =>
    exact fun c i j k h hj ha hk => h₂.fresh c i j k h.inv.1 h.ok.1 hj.1 (r₂ h) hj.2 ha hk
  case callFresh => exact fun c i j _ hc _ => h₂.callFresh c i j hc
  case handleFree => exact h₂.handleFree
  case free => exact h₂.free

end Machine

end EventLoop
