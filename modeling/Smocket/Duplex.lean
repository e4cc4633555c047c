import Smocket.Orders

/-
  File:      Smocket/Duplex.lean
  Subject:   TWO EVENT LOOPS JOINED BY TWO FIFO CHANNELS. Library: nothing here names the programs
             at the ends.

  A channel is the receiver's queue: what one end has sent since its last step is appended to the
  queue of the other, as tasks that handle the messages. Each end keeps its own invariants
  (`Lined.enqueue`); what joins them is that an end has taken a prefix of what the other has sent,
  and that the rest waits in its queue (`Fifo`).

  * `Duplex`, `Duplex.step`, `Duplex.Reach` -- the joined programs and their runs;
  * `Takes` -- what makes a machine the receiving end of a channel;
  * `Takes.own`, `Takes.other` -- a step of either end keeps the channel.
-/

namespace EventLoop

/-! ## 1. The joined programs -/

/-- Two programs, what each has sent so far, and the task that handles a message of the other. An
    application cannot call what stands for the other end. -/
structure Duplex (Core₁ Instr₁ Core₂ Instr₂ Msg : Type) where
  left : Machine Core₁ Instr₁
  right : Machine Core₂ Instr₂
  sentLeft : Core₁ → List Msg
  sentRight : Core₂ → List Msg
  takeLeft : Msg → Instr₁
  takeRight : Msg → Instr₂
  outsideLeft : Instr₁ → Bool
  outsideRight : Instr₂ → Bool

/-- A state of both ends. -/
structure Joint (Core₁ Instr₁ Core₂ Instr₂ : Type) where
  left : Config Core₁ Instr₁
  right : Config Core₂ Instr₂

/-- A step of either end. -/
inductive Turn (Instr₁ Instr₂ : Type) where
  | left (a : Action Instr₁)
  | right (a : Action Instr₂)

/-- The action does not stand for the other end. -/
def Action.inside {Instr : Type} (outside : Instr → Bool) : Action Instr → Bool
  | .call i => !outside i
  | _ => true

/-- Append the tasks for what has been sent lately. -/
def Config.enqueue {Core Instr Msg : Type} (σ : Config Core Instr) (take : Msg → Instr)
    (old new : List Msg) : Config Core Instr :=
  { σ with queue := σ.queue ++ (new.drop old.length).map take }

namespace Duplex

variable {Core₁ Instr₁ Core₂ Instr₂ Msg : Type} (D : Duplex Core₁ Instr₁ Core₂ Instr₂ Msg)

def step (σ : Joint Core₁ Instr₁ Core₂ Instr₂) :
    Turn Instr₁ Instr₂ → Option (Joint Core₁ Instr₁ Core₂ Instr₂)
  | .left a =>
      if a.inside D.outsideLeft then
        (D.left.step σ.left a).map fun τ =>
          ⟨τ, σ.right.enqueue D.takeRight (D.sentLeft σ.left.core) (D.sentLeft τ.core)⟩
      else none
  | .right a =>
      if a.inside D.outsideRight then
        (D.right.step σ.right a).map fun τ =>
          ⟨σ.left.enqueue D.takeLeft (D.sentRight σ.right.core) (D.sentRight τ.core), τ⟩
      else none

/-- What a run of both ends reaches whose steps all meet the condition `C`. -/
inductive Reach (C : Joint Core₁ Instr₁ Core₂ Instr₂ → Turn Instr₁ Instr₂ → Prop)
    (σ₀ : Joint Core₁ Instr₁ Core₂ Instr₂) : Joint Core₁ Instr₁ Core₂ Instr₂ → Prop where
  | start : Reach C σ₀ σ₀
  | step {σ σ' : Joint Core₁ Instr₁ Core₂ Instr₂} {a : Turn Instr₁ Instr₂} (h : Reach C σ₀ σ)
      (hc : C σ a) (hs : D.step σ a = some σ') : Reach C σ₀ σ'

/-- The run that takes these turns. -/
def play (C : Joint Core₁ Instr₁ Core₂ Instr₂ → Turn Instr₁ Instr₂ → Bool) :
    List (Turn Instr₁ Instr₂) → Joint Core₁ Instr₁ Core₂ Instr₂ →
      Option (Joint Core₁ Instr₁ Core₂ Instr₂)
  | [], σ => some σ
  | a :: as, σ => if C σ a then (D.step σ a).bind (play C as) else none

variable {D}

theorem reach_of_turns (C : Joint Core₁ Instr₁ Core₂ Instr₂ → Turn Instr₁ Instr₂ → Prop)
    [∀ τ a, Decidable (C τ a)] {σ₀ : Joint Core₁ Instr₁ Core₂ Instr₂}
    (as : List (Turn Instr₁ Instr₂)) (p : Joint Core₁ Instr₁ Core₂ Instr₂ → Bool)
    (h : (D.play (fun τ a => decide (C τ a)) as σ₀).any p = true) :
    ∃ σ, D.Reach C σ₀ σ ∧ p σ = true := by
  have run : ∀ (as : List (Turn Instr₁ Instr₂)) (σ σ' : Joint Core₁ Instr₁ Core₂ Instr₂),
      D.Reach C σ₀ σ → D.play (fun τ a => decide (C τ a)) as σ = some σ' → D.Reach C σ₀ σ' := by
    intro as
    induction as with
    | nil => exact fun σ σ' hr hp => Option.some.inj hp ▸ hr
    | cons a as ih =>
        intro σ σ' hr hp
        unfold play at hp
        split at hp
        · rename_i hc
          obtain ⟨τ, hs, hp⟩ := Option.bind_eq_some_iff.mp hp
          exact ih τ σ' (.step hr (of_decide_eq_true hc) hs) hp
        · cases hp
  obtain ⟨σ, hσ, hp⟩ := (Option.any_eq_true _ _).mp h
  exact ⟨σ, run as σ₀ σ .start hσ, hp⟩

/-- The two things a step of the joined programs can do. -/
theorem step_cases {σ σ' : Joint Core₁ Instr₁ Core₂ Instr₂} {t : Turn Instr₁ Instr₂}
    (h : D.step σ t = some σ') :
    (∃ a τ, t = .left a ∧ a.inside D.outsideLeft = true ∧ D.left.step σ.left a = some τ ∧
      σ' = ⟨τ, σ.right.enqueue D.takeRight (D.sentLeft σ.left.core) (D.sentLeft τ.core)⟩) ∨
    (∃ a τ, t = .right a ∧ a.inside D.outsideRight = true ∧ D.right.step σ.right a = some τ ∧
      σ' = ⟨σ.left.enqueue D.takeLeft (D.sentRight σ.right.core) (D.sentRight τ.core), τ⟩) := by
  cases t with
  | left a =>
      simp only [step] at h
      split at h
      · rename_i hin
        obtain ⟨τ, hs, rfl⟩ := Option.map_eq_some_iff.mp h
        exact Or.inl ⟨a, τ, rfl, hin, hs, rfl⟩
      · cases h
  | right a =>
      simp only [step] at h
      split at h
      · rename_i hin
        obtain ⟨τ, hs, rfl⟩ := Option.map_eq_some_iff.mp h
        exact Or.inr ⟨a, τ, rfl, hin, hs, rfl⟩
      · cases h

end Duplex

/-! ## 2. One end of a channel -/

namespace Machine

variable {Core Instr Msg : Type} {M : Machine Core Instr}

/-- Messages of the other end may join the queue. -/
theorem Lined.enqueue {I : Core → Prop} {Ok : Core → Instr → Prop} {Rel : Instr → Instr → Prop}
    {σ : Config Core Instr} {take : Msg → Instr} {old new : List Msg}
    (h : Lined I Ok Rel σ.core σ.pending) (hok : ∀ m ∈ new.drop old.length, Ok σ.core (take m))
    (hrel : ∀ i m, Rel i (take m)) :
    Lined I Ok Rel (σ.enqueue take old new).core (σ.enqueue take old new).pending := by
  have hp : (σ.enqueue take old new).pending = σ.pending ++ (new.drop old.length).map take :=
    (List.append_assoc ..).symm
  rw [hp]
  refine ⟨h.inv, fun j hj => ?_, ?_⟩
  · rcases List.mem_append.mp hj with hj | hj
    · exact h.ok j hj
    · obtain ⟨m, hm, rfl⟩ := List.mem_map.mp hj
      exact hok m hm
  · refine List.pairwise_append.mpr ⟨h.rel, ?_, fun i _ j hj => ?_⟩
    · refine List.pairwise_of_forall_mem_list fun i _ j hj => ?_
      obtain ⟨m, -, rfl⟩ := List.mem_map.mp hj
      exact hrel i m
    · obtain ⟨m, -, rfl⟩ := List.mem_map.mp hj
      exact hrel i m

/-- The machine takes messages from its queue, and records in `received` what it has taken. -/
structure Takes (M : Machine Core Instr) (take : Msg → Instr) (outside : Instr → Bool)
    (received : Core → List Msg) : Prop where
  taking : ∀ c m, received (M.exec (take m) c).core = received c ++ [m]
  other : ∀ c i, (∀ m, i ≠ take m) → received (M.exec i c).core = received c
  push : ∀ c i j, j ∈ (M.exec i c).push → (∀ m, j ≠ take m) ∧ outside j = false
  call : ∀ c i, M.callable c i = true → ∀ m, i ≠ take m
  handle : ∀ c i is, M.onThrow c i = .handle is → ∀ j ∈ is, (∀ m, j ≠ take m) ∧ outside j = false
  post : ∀ c i, outside i = false → (M.exec i c).post = []
  kept : ∀ m, outside (take m) = false

/-- The stack holds no message, and what is taken and what waits make up what was sent. -/
structure Fifo (take : Msg → Instr) (outside : Instr → Bool) (received : Core → List Msg)
    (sent : List Msg) (σ : Config Core Instr) : Prop where
  stack : ∀ j ∈ σ.stack, (∀ m, j ≠ take m) ∧ outside j = false
  channel : ∃ waiting, sent = received σ.core ++ waiting ∧ σ.queue = waiting.map take

variable {take : Msg → Instr} {outside : Instr → Bool} {received : Core → List Msg}

theorem Takes.unwind (hT : Takes M take outside received) :
    ∀ (k : List Instr) (c : Core), (∀ j ∈ k, (∀ m, j ≠ take m) ∧ outside j = false) →
      received (M.unwind c k).1 = received c ∧
        ∀ j ∈ (M.unwind c k).2, (∀ m, j ≠ take m) ∧ outside j = false
  | [], c, _ => ⟨rfl, nofun⟩
  | i :: k, c, h => by
      have hi := h i List.mem_cons_self
      have hk := fun j hj => h j (List.mem_cons_of_mem i hj)
      rw [Machine.unwind]
      split
      · exact ⟨rfl, h⟩
      · split
        · exact hT.unwind k c hk
        · obtain ⟨hr, hs⟩ := hT.unwind k (M.exec i c).core hk
          exact ⟨hr.trans (hT.other c i hi.1), hs⟩
        · rename_i is his
          refine ⟨rfl, fun j hj => ?_⟩
          exact (List.mem_append.mp hj).elim (hT.handle c i is his j) (hk j)

/-- What an instruction off the stack, or a message off the queue, leaves of the channel. -/
theorem Takes.execute (hT : Takes M take outside received) {i : Instr} {τ : Config Core Instr}
    {waiting sent : List Msg} (hi : outside i = false)
    (hst : ∀ j ∈ τ.stack, (∀ m, j ≠ take m) ∧ outside j = false)
    (hs : sent = received (M.exec i τ.core).core ++ waiting) (hq : τ.queue = waiting.map take) :
    Fifo take outside received sent (M.execute i τ) := by
  have hpost : τ.queue ++ (M.exec i τ.core).post = waiting.map take := by
    rw [hT.post _ i hi, List.append_nil, hq]
  unfold Machine.execute
  dsimp only
  split
  · obtain ⟨hr, hst'⟩ := hT.unwind τ.stack (M.exec i τ.core).core hst
    exact ⟨hst', waiting, by rw [hs, ← hr], hpost⟩
  · refine ⟨fun j hj => ?_, waiting, hs, hpost⟩
    exact (List.mem_append.mp hj).elim (hT.push _ i j) (hst j)

/-- **A step of the receiving end.** -/
theorem Takes.own (hT : Takes M take outside received) {sent : List Msg} {σ σ' : Config Core Instr}
    {a : Action Instr} (h : Fifo take outside received sent σ) (ha : a.inside outside = true)
    (hs : M.step σ a = some σ') : Fifo take outside received sent σ' := by
  obtain ⟨hst, waiting, hsent, hq⟩ := h
  rcases step_cases hs with ⟨i, τ, rfl, hn, rfl⟩ | ⟨i, rfl, -, hc, rfl⟩ | ⟨i, k, -, hk, -, rfl⟩ |
    ⟨i, k, -, hk, -, rfl⟩
  · obtain ⟨hcore, ⟨-, hstack, hqueue⟩ | ⟨hstack, hstack', hqueue⟩⟩ := next_pending hn
    · have hi := hst i (hstack ▸ List.mem_cons_self)
      refine hT.execute hi.2
        (fun j hj => hst j (hstack ▸ List.mem_cons_of_mem _ hj)) ?_ (hqueue ▸ hq)
      rw [hT.other _ i hi.1, ← hcore, hsent]
    · rw [hqueue] at hq
      cases waiting with
      | nil => cases hq
      | cons m waiting =>
          rw [List.map_cons, List.cons.injEq] at hq
          obtain ⟨rfl, hq⟩ := hq
          refine hT.execute (hT.kept m) (by simp [hstack']) ?_ hq
          rw [hT.taking, ← hcore, hsent, List.append_assoc, List.singleton_append]
  · refine ⟨fun j hj => ?_, waiting, hsent, hq⟩
    rcases List.mem_cons.mp hj with rfl | hj
    · exact ⟨hT.call _ j hc, by simpa [Action.inside] using ha⟩
    · exact hst j hj
  · exact ⟨fun j hj => hst j (hk ▸ List.mem_cons_of_mem _ hj), waiting, hsent, hq⟩
  · obtain ⟨hr, hst'⟩ := hT.unwind k σ.core fun j hj => hst j (hk ▸ List.mem_cons_of_mem _ hj)
    exact ⟨hst', waiting, by rw [hsent, ← hr], hq⟩

/-- **A step of the sending end.** -/
theorem Fifo.other {old new : List Msg} {σ : Config Core Instr}
    (h : Fifo take outside received old σ) (hnew : old <+: new) :
    Fifo take outside received new (σ.enqueue take old new) := by
  obtain ⟨hst, waiting, hsent, hq⟩ := h
  obtain ⟨more, rfl⟩ := hnew
  refine ⟨hst, waiting ++ more, ?_, ?_⟩
  · rw [hsent, List.append_assoc]
    rfl
  · simp [Config.enqueue, hq]

/-- What has been sent stays sent. -/
theorem sent_step {sent : Core → List Msg} (hsent : ∀ c i, sent c <+: sent (M.exec i c).core)
    {σ σ' : Config Core Instr} {a : Action Instr} (h : M.step σ a = some σ') :
    sent σ.core <+: sent σ'.core := by
  have hunwind : ∀ (k : List Instr) (c : Core), sent c <+: sent (M.unwind c k).1 := by
    intro k
    induction k with
    | nil => exact fun _ => List.prefix_rfl
    | cons i k ih =>
        intro c
        rw [Machine.unwind]
        split
        · exact List.prefix_rfl
        · split
          · exact ih c
          · exact (hsent c i).trans (ih _)
          · exact List.prefix_rfl
  rcases step_cases h with ⟨i, τ, -, hn, rfl⟩ | ⟨_, -, -, -, rfl⟩ | ⟨_, _, -, -, -, rfl⟩ |
    ⟨_, k, -, -, -, rfl⟩
  · rw [(next_pending hn).1]
    unfold Machine.execute
    dsimp only
    split
    · exact (hsent τ.core i).trans (hunwind _ _)
    · exact hsent τ.core i
  · exact List.prefix_rfl
  · exact List.prefix_rfl
  · exact hunwind k σ.core

/-- Nothing pending stands for the other end. -/
theorem inside_step {outside : Instr → Bool}
    (hspawn : ∀ c i, ∀ j ∈ (M.exec i c).spawned, outside j = false)
    (hhandle : ∀ c i is, M.onThrow c i = .handle is → ∀ j ∈ is, outside j = false)
    {σ σ' : Config Core Instr} {a : Action Instr} (h : ∀ j ∈ σ.pending, outside j = false)
    (ha : a.inside outside = true) (hs : M.step σ a = some σ') :
    ∀ j ∈ σ'.pending, outside j = false := by
  have hunwind : ∀ (k : List Instr) (c : Core), (∀ j ∈ k, outside j = false) →
      ∀ j ∈ (M.unwind c k).2, outside j = false := by
    intro k
    induction k with
    | nil => exact fun _ _ _ => nofun
    | cons i k ih =>
        intro c hk
        rw [Machine.unwind]
        split
        · exact hk
        · have hk := fun j hj => hk j (List.mem_cons_of_mem i hj)
          split
          · exact ih c hk
          · exact ih _ hk
          · rename_i is his
            exact fun j hj => (List.mem_append.mp hj).elim (hhandle c i is his j) (hk j)
  rcases step_cases hs with ⟨i, τ, rfl, hn, rfl⟩ | ⟨i, rfl, -, -, rfl⟩ | ⟨i, k, -, hst, -, rfl⟩ |
    ⟨i, k, -, hst, -, rfl⟩
  · have hτ : ∀ j ∈ τ.pending, outside j = false := by
      obtain ⟨-, ⟨-, hst, hq⟩ | ⟨hst, hst', hq⟩⟩ := next_pending hn
      · exact fun j hj => h j (by simpa [Config.pending, hst, hq] using Or.inr (by
          simpa [Config.pending] using hj))
      · exact fun j hj => h j (by simpa [Config.pending, hst, hst', hq] using Or.inr (by
          simpa [Config.pending, hst'] using hj))
    have hq : ∀ j ∈ τ.queue ++ (M.exec i τ.core).post, outside j = false := fun j hj =>
      (List.mem_append.mp hj).elim (fun hj => hτ j (List.mem_append_right _ hj))
        fun hj => hspawn _ i j (List.mem_append_right _ hj)
    have hst : ∀ j ∈ τ.stack, outside j = false := fun j hj => hτ j (List.mem_append_left _ hj)
    unfold Machine.execute
    dsimp only
    split
    · exact fun j hj => (List.mem_append.mp hj).elim (hunwind _ _ hst j) (hq j)
    · refine fun j hj => (List.mem_append.mp hj).elim (fun hj => ?_) (hq j)
      exact (List.mem_append.mp hj).elim (fun hj => hspawn _ i j (List.mem_append_left _ hj)) (hst j)
  · refine fun j hj => (List.mem_cons.mp hj).elim (fun he => ?_) (h j)
    rw [he]
    simpa [Action.inside] using ha
  · exact fun j hj => h j (by simpa [Config.pending, hst] using Or.inr (by
      simpa [Config.pending] using hj))
  · have hk : ∀ j ∈ k, outside j = false := fun j hj => h j (by simp [Config.pending, hst, hj])
    refine fun j hj => (List.mem_append.mp hj).elim (hunwind k _ hk j) fun hj => ?_
    exact h j (List.mem_append_right _ hj)

end Machine

/-! ## 3. Runs of both ends -/

namespace Duplex

open Machine

variable {Core₁ Instr₁ Core₂ Instr₂ Msg : Type} {D : Duplex Core₁ Instr₁ Core₂ Instr₂ Msg}
  {C : Joint Core₁ Instr₁ Core₂ Instr₂ → Turn Instr₁ Instr₂ → Prop}
  {σ₀ σ : Joint Core₁ Instr₁ Core₂ Instr₂}

/-- What the left end keeps whatever it is sent. -/
theorem Reach.lined_left {Good Ok : Core₁ → Instr₁ → Prop} {I : Core₁ → Prop}
    {Rel : Instr₁ → Instr₁ → Prop} (hL : D.left.Line Good I Ok Rel)
    (hC : ∀ τ a, C τ (.left a) → D.left.Obeys Good τ.left a) (hok : ∀ c m, Ok c (D.takeLeft m))
    (hrel : ∀ i m, Rel i (D.takeLeft m)) (h₀ : Lined I Ok Rel σ₀.left.core σ₀.left.pending)
    (h : D.Reach C σ₀ σ) : Lined I Ok Rel σ.left.core σ.left.pending := by
  induction h with
  | start => exact h₀
  | step _ hc hs ih =>
      rcases step_cases hs with ⟨a, τ, rfl, -, hτ, rfl⟩ | ⟨a, τ, rfl, -, hτ, rfl⟩
      · exact hL.step ih (hC _ a hc) hτ
      · exact ih.enqueue (fun m _ => hok _ m) hrel

/-- What the right end keeps whatever it is sent. -/
theorem Reach.lined_right {Good Ok : Core₂ → Instr₂ → Prop} {I : Core₂ → Prop}
    {Rel : Instr₂ → Instr₂ → Prop} (hL : D.right.Line Good I Ok Rel)
    (hC : ∀ τ a, C τ (.right a) → D.right.Obeys Good τ.right a) (hok : ∀ c m, Ok c (D.takeRight m))
    (hrel : ∀ i m, Rel i (D.takeRight m)) (h₀ : Lined I Ok Rel σ₀.right.core σ₀.right.pending)
    (h : D.Reach C σ₀ σ) : Lined I Ok Rel σ.right.core σ.right.pending := by
  induction h with
  | start => exact h₀
  | step _ hc hs ih =>
      rcases step_cases hs with ⟨a, τ, rfl, -, hτ, rfl⟩ | ⟨a, τ, rfl, -, hτ, rfl⟩
      · exact ih.enqueue (fun m _ => hok _ m) hrel
      · exact hL.step ih (hC _ a hc) hτ

/-- **The left end has taken a prefix of what the right end has sent, and the rest waits.** -/
theorem Reach.fifo_left {received : Core₁ → List Msg}
    (hT : Takes D.left D.takeLeft D.outsideLeft received)
    (hsent : ∀ c i, D.sentRight c <+: D.sentRight (D.right.exec i c).core)
    (h₀ : Fifo D.takeLeft D.outsideLeft received (D.sentRight σ₀.right.core) σ₀.left)
    (h : D.Reach C σ₀ σ) :
    Fifo D.takeLeft D.outsideLeft received (D.sentRight σ.right.core) σ.left := by
  induction h with
  | start => exact h₀
  | step _ _ hs ih =>
      rcases step_cases hs with ⟨a, τ, -, ha, hτ, rfl⟩ | ⟨a, τ, -, -, hτ, rfl⟩
      · exact hT.own ih ha hτ
      · exact ih.other (sent_step hsent hτ)

end Duplex

end EventLoop
