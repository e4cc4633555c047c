import Smocket.EventLoop

/-
  File:      Smocket/Grounds.lean
  Subject:   WHAT ONLY A TASK CAN START. Library: instructions that lie at the bottom of the stack
             whenever they are pending, so that nothing else waits on the stack when they execute.

  * `Machine.Grounded` -- the hypotheses: tasks `T`, which are only ever posted, instructions `B`
    that only tasks and each other push, and among them instructions `S` that execute at once;
  * `Machine.Rooted`, `Reach.rooted` -- the stacks of a run;
  * `Rooted.next` -- when an instruction of `T` or `B` executes, the rest of the stack is empty;
  * `Reach.prompt` -- what is true when an instruction of `S` is pushed is true when it executes;
  * `Machine.Headed`, `Reach.headed`, `Headed.pushed` -- the same for instructions that are pushed
    on top of anything;
  * `step_above` -- what lies under an application frame stays there until the frame returns or
    throws.
-/

namespace EventLoop

namespace Machine

variable {Core Instr : Type} {M : Machine Core Instr} {T B S idle : Instr → Prop}

/-- Calls of the kind `idle` are made between two tasks only. -/
def Idles (idle : Instr → Prop) (σ : Config Core Instr) (a : Action Instr) : Prop :=
  ∀ i, a = .call i → idle i → σ.stack = []

instance (idle : Instr → Prop) [DecidablePred idle] (σ : Config Core Instr) (a : Action Instr) :
    Decidable (Idles idle σ a) :=
  match a with
  | .call i => decidable_of_iff (idle i → σ.stack.isEmpty = true)
      ⟨fun h j hj hi => List.isEmpty_iff.mp (h (by cases hj; exact hi)),
        fun h hi => List.isEmpty_iff.mpr (h i rfl hi)⟩
  | .run | .ret | .throw => isTrue nofun

structure Grounded (M : Machine Core Instr) (T B S idle : Instr → Prop) : Prop where
  subset : ∀ i, S i → B i ∧ M.isApp i = false
  push : ∀ c i j, j ∈ (M.exec i c).push → B j → B i ∨ T i
  last : ∀ c i pre j k, (M.exec i c).push = pre ++ j :: k → B j → k = []
  sole : ∀ c i j, j ∈ (M.exec i c).push → S j → (M.exec i c).push = [j]
  task : ∀ c i j, j ∈ (M.exec i c).push → ¬ T j
  post : ∀ c i j, j ∈ (M.exec i c).post → ¬ B j
  call : ∀ c i, M.callable c i = true → ¬ T i ∧ (B i → idle i)
  handle : ∀ c i is, M.onThrow c i = .handle is → ∀ j ∈ is, ¬ B j ∧ ¬ T j

/-- The stack of such a run: what is of `B` is at its bottom, and alone on it if it is of `S`. -/
structure Rooted (T B S : Instr → Prop) (σ : Config Core Instr) : Prop where
  bottom : ∀ pre j k, σ.stack = pre ++ j :: k → B j → k = []
  sole : ∀ j ∈ σ.stack, S j → σ.stack = [j]
  stack : ∀ j ∈ σ.stack, ¬ T j
  queue : ∀ j ∈ σ.queue, ¬ B j

/-- **When such an instruction executes, nothing else is on the stack.** -/
theorem Rooted.next {σ τ : Config Core Instr} {i : Instr} (h : Rooted T B S σ)
    (hn : M.next σ = some (i, τ)) (hi : B i ∨ T i) : τ.stack = [] := by
  obtain ⟨-, ⟨-, hst, -⟩ | ⟨-, hst, -⟩⟩ := next_pending hn
  · rcases hi with hi | hi
    · exact h.bottom [] i τ.stack hst hi
    · exact absurd hi (h.stack i (hst ▸ List.mem_cons_self))
  · exact hst

/-- The rest of a stack, without the instruction on top. -/
theorem Rooted.tail {c c' : Core} {i : Instr} {k q q' : List Instr}
    (h : Rooted T B S ⟨c, i :: k, q⟩) (hq : ∀ j ∈ q', ¬ B j) : Rooted T B S ⟨c', k, q'⟩ where
  bottom pre j l hk hj := by
    dsimp only at hk
    exact h.bottom (i :: pre) j l (by rw [hk]; rfl) hj
  sole j hj hS := by
    have := h.sole j (List.mem_cons_of_mem i hj) hS
    obtain ⟨-, rfl⟩ := List.cons.inj this
    cases hj
  stack j hj := h.stack j (List.mem_cons_of_mem i hj)
  queue := hq

theorem Rooted.append {c c' : Core} {is k q q' : List Instr} (h : Rooted T B S ⟨c, k, q⟩)
    (his : ∀ j ∈ is, ¬ B j ∧ ¬ T j) (hS : ∀ j, S j → B j) (hkS : ∀ j ∈ k, S j → is = [])
    (hq : ∀ j ∈ q', ¬ B j) : Rooted T B S ⟨c', is ++ k, q'⟩ where
  bottom pre j l hk hj := by
    dsimp only at hk
    rcases List.append_eq_append_iff.mp hk with ⟨as, rfl, hk'⟩ | ⟨bs, rfl, hk'⟩
    · exact h.bottom as j l hk' hj
    · cases bs with
      | nil => exact h.bottom [] j l (by simpa using hk'.symm) hj
      | cons b bs =>
          obtain ⟨rfl, -⟩ := List.cons.inj hk'
          exact absurd hj (his j (by simp)).1
  sole j hj hjS := by
    rcases List.mem_append.mp hj with hj | hj
    · exact absurd (hS j hjS) (his j hj).1
    · dsimp only
      rw [hkS j hj hjS, List.nil_append]
      exact h.sole j hj hjS
  stack j hj := (List.mem_append.mp hj).elim (fun hj => (his j hj).2) (h.stack j)
  queue := hq

/-- Beneath the instruction that executes there is none of `S`. -/
theorem Rooted.beneath {σ τ : Config Core Instr} {i : Instr} (h : Rooted T B S σ)
    (hn : M.next σ = some (i, τ)) : ∀ j ∈ τ.stack, ¬ S j := by
  obtain ⟨-, ⟨-, hst, -⟩ | ⟨-, hst, -⟩⟩ := next_pending hn
  · intro j hj hjS
    have hk := (List.cons.inj (hst ▸ h.sole j (hst ▸ List.mem_cons_of_mem i hj) hjS)).2
    rw [hk] at hj
    cases hj
  · simp [hst]

/-- Nor is there beneath an application frame. -/
theorem Rooted.under {σ : Config Core Instr} {i : Instr} {k : List Instr} (h : Rooted T B S σ)
    (hst : σ.stack = i :: k) : ∀ j ∈ k, ¬ S j := by
  intro j hj hjS
  have hk := (List.cons.inj (hst ▸ h.sole j (hst ▸ List.mem_cons_of_mem i hj) hjS)).2
  rw [hk] at hj
  cases hj

theorem Grounded.unwind_free (hM : Grounded M T B S idle) :
    ∀ (k : List Instr) (c : Core), (∀ j ∈ k, ¬ S j) → ∀ j ∈ (M.unwind c k).2, ¬ S j
  | [], _, h => h
  | i :: k, c, h => by
      have hk := fun j hj => h j (List.mem_cons_of_mem i hj)
      rw [Machine.unwind]
      split
      · exact h
      · split
        · exact hM.unwind_free k c hk
        · exact hM.unwind_free k _ hk
        · rename_i is his
          intro j hj hjS
          rcases List.mem_append.mp hj with hj | hj
          · exact (hM.handle c i is his j hj).1 (hM.subset j hjS).1
          · exact hk j hj hjS

theorem Grounded.unwind (hM : Grounded M T B S idle) :
    ∀ (k : List Instr) (c c' : Core) (q : List Instr), Rooted T B S ⟨c', k, q⟩ →
      (∀ j ∈ k, ¬ S j) → Rooted T B S ⟨(M.unwind c k).1, (M.unwind c k).2, q⟩
  | [], c, c', q, h, _ => ⟨h.bottom, h.sole, h.stack, h.queue⟩
  | i :: k, c, c', q, h, hS => by
      have hk : ∀ c', Rooted T B S ⟨c', k, q⟩ := fun c' => h.tail h.queue
      have hSk := fun j hj => hS j (List.mem_cons_of_mem i hj)
      rw [Machine.unwind]
      split
      · exact ⟨h.bottom, h.sole, h.stack, h.queue⟩
      · split
        · exact hM.unwind k c c q (hk c) hSk
        · exact hM.unwind k _ c q (hk c) hSk
        · rename_i is his
          exact (hk c).append (hM.handle c i is his) (fun j hj => (hM.subset j hj).1)
            (fun j hj hjS => absurd hjS (hSk j hj)) h.queue

theorem Grounded.step (hM : Grounded M T B S idle) {σ σ' : Config Core Instr} {a : Action Instr}
    (h : Rooted T B S σ) (ha : Idles idle σ a) (hs : M.step σ a = some σ') :
    Rooted T B S σ' := by
  rcases step_cases hs with ⟨i, τ, rfl, hn, rfl⟩ | ⟨i, rfl, happ, hc, rfl⟩ |
    ⟨i, k, rfl, hst, happ, rfl⟩ | ⟨i, k, rfl, hst, happ, rfl⟩
  · have hτ : Rooted T B S τ := by
      obtain ⟨-, ⟨-, hst, hq⟩ | ⟨-, hst, hq⟩⟩ := next_pending hn
      · have h' : Rooted T B S ⟨σ.core, i :: τ.stack, τ.queue⟩ := by
          rw [← hst, ← hq]
          exact h
        exact h'.tail h'.queue
      · refine ⟨by simp [hst], by simp [hst], by simp [hst], fun j hj => h.queue j ?_⟩
        rw [hq]
        exact List.mem_cons_of_mem _ hj
    have hempty : B i ∨ T i → τ.stack = [] := h.next hn
    have hqueue : ∀ j ∈ τ.queue ++ (M.exec i τ.core).post, ¬ B j := fun j hj =>
      (List.mem_append.mp hj).elim (hτ.queue j) (hM.post _ i j)
    have hS := h.beneath hn
    unfold Machine.execute
    dsimp only
    split
    · have hτ' : Rooted T B S ⟨τ.core, τ.stack, τ.queue ++ (M.exec i τ.core).post⟩ :=
        ⟨hτ.bottom, hτ.sole, hτ.stack, hqueue⟩
      exact hM.unwind _ _ _ _ hτ' hS
    · refine ⟨fun pre j k hk hj => ?_, fun j hj hjS => ?_, fun j hj => ?_, hqueue⟩ <;>
        dsimp only at *
      · rcases List.append_eq_append_iff.mp hk with ⟨as, rfl, hk'⟩ | ⟨bs, hp, hk'⟩
        · exact hτ.bottom as j k hk' hj
        · cases bs with
          | nil => exact hτ.bottom [] j k (by simpa using hk'.symm) hj
          | cons b bs =>
              obtain ⟨rfl, hrest⟩ := List.cons.inj hk'
              have hb := hM.last _ i pre j bs hp hj
              have hi := hM.push _ i j (by rw [hp]; simp) hj
              rw [hrest, hb, hempty hi]
              rfl
      · rcases List.mem_append.mp hj with hj | hj
        · have hi := hM.push _ i j hj (hM.subset j hjS).1
          rw [hempty hi, List.append_nil]
          exact hM.sole _ i j hj hjS
        · exact absurd hjS (hS j hj)
      · exact (List.mem_append.mp hj).elim (hM.task _ i j) (hτ.stack j)
  · obtain ⟨hT, hB⟩ := hM.call _ i hc
    have hnoS : ∀ j ∈ σ.stack, ¬ S j := fun j hj hjS => by
      have hst := h.sole j hj hjS
      rw [inApp, hst] at happ
      dsimp only at happ
      rw [(hM.subset j hjS).2] at happ
      cases happ
    refine ⟨fun pre j k hk hj => ?_, fun j hj hjS => ?_, fun j hj => ?_, h.queue⟩ <;>
      dsimp only at *
    · cases pre with
      | nil =>
          obtain ⟨rfl, rfl⟩ := List.cons.inj hk
          exact ha i rfl (hB hj)
      | cons p pre => exact h.bottom pre j k (List.cons.inj hk).2 hj
    · rcases List.mem_cons.mp hj with rfl | hj
      · rw [ha j rfl (hB (hM.subset j hjS).1)]
      · exact absurd hjS (hnoS j hj)
    · rcases List.mem_cons.mp hj with rfl | hj
      · exact hT
      · exact h.stack j hj
  · have h' : Rooted T B S ⟨σ.core, i :: k, σ.queue⟩ := by
      rw [← hst]
      exact h
    exact h'.tail h.queue
  · have h' : Rooted T B S ⟨σ.core, i :: k, σ.queue⟩ := by
      rw [← hst]
      exact h
    exact hM.unwind k _ σ.core _ (h'.tail h.queue) (h.under hst)

variable {C : Config Core Instr → Action Instr → Prop} {σ₀ σ : Config Core Instr}

/-- **The rule for the bottom of the stack.** -/
theorem Reach.rooted (hM : Grounded M T B S idle) (hC : ∀ τ a, C τ a → Idles idle τ a)
    (h₀ : Rooted T B S σ₀) (h : M.Reach C σ₀ σ) : Rooted T B S σ := by
  induction h with
  | start => exact h₀
  | step _ hc hs ih => exact hM.step ih (hC _ _ hc) hs

/-- **The rule for what executes at once.** -/
theorem Reach.prompt {Pr : Core → Instr → Prop} (hM : Grounded M T B S idle)
    (hC : ∀ τ a, C τ a → Idles idle τ a) (h₀ : Rooted T B S σ₀)
    (hpush : ∀ c i j, (S i → Pr c i) → j ∈ (M.exec i c).push → S j → Pr (M.exec i c).core j)
    (hcall : ∀ c i, M.callable c i = true → S i → Pr c i) (hp₀ : ∀ j ∈ σ₀.stack, S j → Pr σ₀.core j)
    (h : M.Reach C σ₀ σ) : ∀ j ∈ σ.stack, S j → Pr σ.core j := by
  induction h with
  | start => exact hp₀
  | @step σ σ' a hr hc hs ih =>
      have hR := hr.rooted hM hC h₀
      rcases step_cases hs with ⟨i, τ, rfl, hn, rfl⟩ | ⟨i, rfl, happ, hcall', rfl⟩ |
        ⟨i, k, rfl, hst, happ, rfl⟩ | ⟨i, k, rfl, hst, happ, rfl⟩
      · have hτS := hR.beneath hn
        have hi : S i → Pr τ.core i := fun hi => by
          obtain ⟨hcore, ⟨-, hst, -⟩ | ⟨-, -, hq⟩⟩ := next_pending hn
          · exact hcore ▸ ih i (hst ▸ List.mem_cons_self) hi
          · exact absurd (hM.subset i hi).1 (hR.queue i (hq ▸ List.mem_cons_self))
        intro j hj hjS
        unfold Machine.execute at hj ⊢
        dsimp only at hj ⊢
        split at hj
        · exact absurd hjS (hM.unwind_free _ _ hτS j hj)
        · rename_i hf
          rw [if_neg hf]
          rcases List.mem_append.mp hj with hj | hj
          · exact hpush _ i j hi hj hjS
          · exact absurd hjS (hτS j hj)
      · intro j hj hjS
        rcases List.mem_cons.mp hj with rfl | hj
        · exact hcall _ j hcall' hjS
        · exact ih j hj hjS
      · intro j hj hjS
        exact ih j (hst ▸ List.mem_cons_of_mem i hj) hjS
      · intro j hj hjS
        exact absurd hjS (hM.unwind_free k _ (hR.under hst) j hj)

/-- Instructions `H` that are pushed in front and executed next, with what is then true of them. -/
structure Headed (M : Machine Core Instr) (H : Instr → Prop) (Pr : Core → Instr → Prop) : Prop where
  app : ∀ i, H i → M.isApp i = false
  head : ∀ c i j, j ∈ (M.exec i c).push.head? → H j → Pr (M.exec i c).core j
  tail : ∀ c i j, j ∈ (M.exec i c).push.tail → ¬ H j
  post : ∀ c i j, j ∈ (M.exec i c).post → ¬ H j
  call : ∀ c i, M.callable c i = true → ¬ H i
  handle : ∀ c i is, M.onThrow c i = .handle is → ∀ j ∈ is, ¬ H j

theorem Headed.unwind {H : Instr → Prop} {Pr : Core → Instr → Prop} (hM : Headed M H Pr) :
    ∀ (k : List Instr) (c : Core), (∀ j ∈ k, ¬ H j) → ∀ j ∈ (M.unwind c k).2, ¬ H j
  | [], _, h => h
  | i :: k, c, h => by
      have hk := fun j hj => h j (List.mem_cons_of_mem i hj)
      rw [Machine.unwind]
      split
      · exact h
      · split
        · exact hM.unwind k c hk
        · exact hM.unwind k _ hk
        · rename_i is his
          exact fun j hj => (List.mem_append.mp hj).elim (hM.handle c i is his j) (hk j)

/-- **The rule for what is executed next.** -/
theorem Reach.headed {H : Instr → Prop} {Pr : Core → Instr → Prop} (hM : Headed M H Pr)
    (h₀ : ∀ j ∈ σ₀.pending, ¬ H j) (h : M.Reach C σ₀ σ) :
    (∀ j ∈ σ.stack.head?, H j → Pr σ.core j) ∧ ∀ j ∈ σ.stack.tail ++ σ.queue, ¬ H j := by
  have hfree : ∀ {τ : Config Core Instr}, (∀ j ∈ τ.pending, ¬ H j) →
      (∀ j ∈ τ.stack.head?, H j → Pr τ.core j) ∧ ∀ j ∈ τ.stack.tail ++ τ.queue, ¬ H j :=
    fun {τ} hτ => ⟨fun j hj hH => absurd hH (hτ j (List.mem_append_left _ (List.mem_of_mem_head? hj))),
      fun j hj => hτ j ((List.mem_append.mp hj).elim
        (fun hj => List.mem_append_left _ (List.mem_of_mem_tail hj)) (List.mem_append_right _))⟩
  induction h with
  | start => exact hfree h₀
  | @step σ σ' a _ _ hs ih =>
      -- an application frame on top is none of them, so that none is pending at all
      have happ : ∀ {i k}, σ.stack = i :: k → M.isApp i = true → ∀ j ∈ σ.pending, ¬ H j := by
        intro i k hst hi j hj hH
        rw [Config.pending, hst, List.cons_append] at hj
        rcases List.mem_cons.mp hj with rfl | hj
        · rw [hM.app j hH] at hi
          cases hi
        · exact ih.2 j (by rwa [hst]) hH
      rcases step_cases hs with ⟨i, τ, rfl, hn, rfl⟩ | ⟨i, rfl, hin, hc, rfl⟩ |
        ⟨i, k, rfl, hst, hi, rfl⟩ | ⟨i, k, rfl, hst, hi, rfl⟩
      · have hτ : ∀ j ∈ τ.pending, ¬ H j := by
          obtain ⟨-, ⟨-, hst, hq⟩ | ⟨hst, hst', hq⟩⟩ := next_pending hn
          · simpa [Config.pending, hst, hq] using ih.2
          · exact fun j hj => ih.2 j (by
              simpa [Config.pending, hst, hst', hq] using Or.inr hj)
        have hqueue : ∀ j ∈ τ.queue ++ (M.exec i τ.core).post, ¬ H j := fun j hj =>
          (List.mem_append.mp hj).elim (fun hj => hτ j (List.mem_append_right _ hj))
            (hM.post _ i j)
        unfold Machine.execute
        dsimp only
        split
        · exact hfree fun j hj => (List.mem_append.mp hj).elim
            (hM.unwind _ _ (fun j hj => hτ j (List.mem_append_left _ hj)) j) (hqueue j)
        · cases hp : (M.exec i τ.core).push with
          | nil =>
              exact hfree fun j hj => (List.mem_append.mp hj).elim
                (fun hj => hτ j (List.mem_append_left _ hj)) (hqueue j)
          | cons p ps =>
              refine ⟨fun j hj hH => hM.head _ i j ?_ hH, fun j hj => ?_⟩
              · simpa [hp] using hj
              · simp only [List.cons_append, List.tail_cons, List.mem_append] at hj
                rcases hj with (hj | hj) | hj | hj
                · exact hM.tail τ.core i j (by rw [hp]; exact hj)
                · exact hτ j (List.mem_append_left _ hj)
                · exact hqueue j (List.mem_append_left _ hj)
                · exact hqueue j (List.mem_append_right _ hj)
      · refine hfree fun j hj => ?_
        rcases List.mem_cons.mp hj with rfl | hj
        · exact hM.call _ _ hc
        · cases hst : σ.stack with
          | nil => exact ih.2 j (by simpa [Config.pending, hst] using hj)
          | cons i' k => exact happ hst (by simpa [inApp, hst] using hin) j hj
      · exact hfree fun j hj => happ hst hi j (by
          simpa [Config.pending, hst] using Or.inr (List.mem_append.mp hj))
      · refine hfree fun j hj => ?_
        rcases List.mem_append.mp hj with hj | hj
        · exact hM.unwind k _ (fun j hj => happ hst hi j (by simp [Config.pending, hst, hj])) j hj
        · exact happ hst hi j (by simp [Config.pending, hj])

/-- What is pending of `H` has just been pushed. -/
theorem Headed.pushed {H : Instr → Prop} {Pr : Core → Instr → Prop} (hM : Headed M H Pr)
    {σ' : Config Core Instr} {a : Action Instr} (h : ∀ j ∈ σ.stack.tail ++ σ.queue, ¬ H j)
    (hs : M.step σ a = some σ') {j : Instr} (hj : j ∈ σ'.pending) (hH : H j) :
    ∃ i τ, a = .run ∧ M.next σ = some (i, τ) ∧ (M.exec i σ.core).fails = false ∧
      (M.exec i σ.core).push.head? = some j := by
  -- an application frame on top is none of them, so that none is pending at all
  have hfree : ∀ {i k}, σ.stack = i :: k → M.isApp i = true → ∀ j ∈ σ.pending, ¬ H j := by
    intro i k hst hi j hj hH
    rw [Config.pending, hst, List.cons_append] at hj
    rcases List.mem_cons.mp hj with rfl | hj
    · rw [hM.app j hH] at hi
      cases hi
    · exact h j (by rwa [hst]) hH
  rcases step_cases hs with ⟨i, τ, rfl, hn, rfl⟩ | ⟨i, rfl, hin, hc, rfl⟩ |
    ⟨i, k, rfl, hst, hi, rfl⟩ | ⟨i, k, rfl, hst, hi, rfl⟩
  · have hτ : ∀ j ∈ τ.pending, ¬ H j := by
      obtain ⟨-, ⟨-, hst, hq⟩ | ⟨hst, hst', hq⟩⟩ := next_pending hn
      · simpa [Config.pending, hst, hq] using h
      · exact fun j hj => h j (by simpa [Config.pending, hst, hst', hq] using Or.inr hj)
    have hqueue : j ∉ τ.queue ++ (M.exec i τ.core).post := fun hj =>
      (List.mem_append.mp hj).elim (fun hj => hτ j (List.mem_append_right _ hj) hH)
        fun hj => hM.post _ i j hj hH
    refine ⟨i, τ, rfl, hn, ?_⟩
    rw [(next_pending hn).1]
    unfold Machine.execute at hj
    dsimp only at hj
    split at hj
    · rcases List.mem_append.mp hj with hj | hj
      · exact absurd hH (hM.unwind _ _ (fun j hj => hτ j (List.mem_append_left _ hj)) j hj)
      · exact absurd hj hqueue
    · rename_i hf
      refine ⟨by simpa using hf, ?_⟩
      rcases List.mem_append.mp hj with hj | hj
      · rcases List.mem_append.mp hj with hj | hj
        · cases hp : (M.exec i τ.core).push with
          | nil =>
              rw [hp] at hj
              cases hj
          | cons p ps =>
              rw [hp] at hj
              rcases List.mem_cons.mp hj with rfl | hj
              · rfl
              · exact absurd hH (hM.tail τ.core i j (by rwa [hp]))
        · exact absurd hH (hτ j (List.mem_append_left _ hj))
      · exact absurd hj hqueue
  · rcases List.mem_cons.mp hj with rfl | hj
    · exact absurd hH (hM.call _ _ hc)
    · cases hst : σ.stack with
      | nil => exact absurd hH (h j (by simpa [Config.pending, hst] using hj))
      | cons i' k => exact absurd hH (hfree hst (by simpa [inApp, hst] using hin) j hj)
  · exact absurd hH (hfree hst hi j (by
      simpa [Config.pending, hst] using Or.inr (List.mem_append.mp hj)))
  · rcases List.mem_append.mp hj with hj | hj
    · exact absurd hH (hM.unwind k _
        (fun j hj => hfree hst hi j (by simp [Config.pending, hst, hj])) j hj)
    · exact absurd hH (hfree hst hi j (by simp [Config.pending, hj]))

/-- What is pending of `H` is executed next. -/
theorem Headed.due {H : Instr → Prop} {Pr : Core → Instr → Prop} (hM : Headed M H Pr)
    {σ' : Config Core Instr} {a : Action Instr} (h : ∀ j ∈ σ.stack.tail ++ σ.queue, ¬ H j)
    (hs : M.step σ a = some σ') {j : Instr} (hj : j ∈ σ.pending) (hH : H j) :
    a = .run ∧ ∃ τ, M.next σ = some (j, τ) := by
  have happ := hM.app j hH
  cases hst : σ.stack with
  | nil => exact absurd hH (h j (by simpa [Config.pending, hst] using hj))
  | cons i k =>
      rw [Config.pending, hst, List.cons_append] at hj
      rcases List.mem_cons.mp hj with rfl | hj
      · rcases step_cases hs with ⟨i, τ, rfl, hn, -⟩ | ⟨i, rfl, hin, -, -⟩ |
          ⟨i, k', rfl, hst', hi, -⟩ | ⟨i, k', rfl, hst', hi, -⟩
        · exact ⟨rfl, { σ with stack := k }, by simp [next, hst, happ]⟩
        · simp [inApp, hst, happ] at hin
        · rw [hst, List.cons.injEq] at hst'
          rw [← hst'.1, happ] at hi
          cases hi
        · rw [hst, List.cons.injEq] at hst'
          rw [← hst'.1, happ] at hi
          cases hi
      · exact absurd hH (h j (by rwa [hst]))

/-! ## 2. Under an application frame -/

/-- An exception does not get past an application frame. -/
theorem unwind_above {x : Instr} (hx : M.isApp x = true) (k : List Instr) :
    ∀ (l : List Instr) (c : Core), ∃ l', (M.unwind c (l ++ x :: k)).2 = l' ++ x :: k
  | [], c => ⟨[], by rw [List.nil_append, Machine.unwind, if_pos hx]⟩
  | i :: l, c => by
      rw [List.cons_append, Machine.unwind]
      split
      · exact ⟨i :: l, rfl⟩
      · split
        · exact unwind_above hx k l c
        · exact unwind_above hx k l _
        · rename_i is _
          exact ⟨is ++ l, by simp⟩

/-- **Under an application frame nothing changes** until that frame itself returns or throws. -/
theorem step_above {σ σ' : Config Core Instr} {a : Action Instr} {x : Instr} {l k : List Instr}
    (hst : σ.stack = l ++ x :: k) (hx : M.isApp x = true) (hs : M.step σ a = some σ') :
    (∃ l', σ'.stack = l' ++ x :: k) ∨ (l = [] ∧ (a = .ret ∧ σ'.stack = k ∨ a = .throw)) := by
  rcases step_cases hs with ⟨i, τ, rfl, hn, rfl⟩ | ⟨i, rfl, -, -, rfl⟩ | ⟨i, k', rfl, hk, -, rfl⟩ |
    ⟨i, k', rfl, hk, -, rfl⟩
  · obtain ⟨-, ⟨hi, hst', -⟩ | ⟨hst', -, -⟩⟩ := next_pending hn
    · rw [hst] at hst'
      cases l with
      | nil =>
          rw [(List.cons.inj hst').1, hi] at hx
          cases hx
      | cons j l =>
          refine Or.inl ?_
          have hτ : τ.stack = l ++ x :: k := (List.cons.inj hst').2.symm
          unfold Machine.execute
          dsimp only
          rw [hτ]
          split
          · exact unwind_above hx k l _
          · exact ⟨(M.exec i τ.core).push ++ l, by simp⟩
    · rw [hst] at hst'
      simp at hst'
  · exact Or.inl ⟨i :: l, by simp [hst]⟩
  · rw [hst] at hk
    cases l with
    | nil => exact Or.inr ⟨rfl, Or.inl ⟨rfl, (List.cons.inj hk).2.symm⟩⟩
    | cons j l => exact Or.inl ⟨l, (List.cons.inj hk).2.symm⟩
  · rw [hst] at hk
    cases l with
    | nil => exact Or.inr ⟨rfl, Or.inr rfl⟩
    | cons j l =>
        refine Or.inl ?_
        dsimp only
        rw [← (List.cons.inj hk).2]
        exact unwind_above hx k l _

end Machine

end EventLoop
