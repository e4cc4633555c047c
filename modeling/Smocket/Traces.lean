import Smocket.EventLoop

/-
  File:      Smocket/Traces.lean
  Subject:   RUNS WITH THEIR HISTORY. Library: a run together with the instructions it has executed,
             each with the heap it found.

  * `Machine.Run` -- `Machine.Reach` with its trace;
  * `Reach.run`, `Run.reach` -- the two are the same runs;
  * `Run.split` -- a run up to an entry of its trace, and from there on;
  * `Machine.record`, `run_of_record` -- the trace of a script.
-/

namespace EventLoop

namespace Machine

variable {Core Instr : Type} (M : Machine Core Instr)

/-- What a step adds to the trace. -/
def taken (σ : Config Core Instr) : Action Instr → List (Core × Instr)
  | .run => (M.next σ).toList.map fun p => (σ.core, p.1)
  | _ => []

/-- **A run from `σ₀` whose steps all meet `C`, with its trace.** -/
inductive Run (C : Config Core Instr → Action Instr → Prop) (σ₀ : Config Core Instr) :
    List (Core × Instr) → Config Core Instr → Prop where
  | start : Run C σ₀ [] σ₀
  | step {tr : List (Core × Instr)} {σ σ' : Config Core Instr} {a : Action Instr}
      (h : Run C σ₀ tr σ) (hc : C σ a) (hs : M.step σ a = some σ') :
      Run C σ₀ (tr ++ M.taken σ a) σ'

/-- The run that follows a script, as `play` does, with its trace. -/
def record (C : Config Core Instr → Action Instr → Bool) :
    Nat → List (Action Instr) → List (Core × Instr) → Config Core Instr →
      Option (List (Core × Instr) × Config Core Instr)
  | 0, _, _, _ => none
  | n + 1, as, tr, σ =>
      match M.inApp σ, as with
      | true, [] => some (tr, σ)
      | true, a :: as =>
          if C σ a then (M.step σ a).bind (record C n as (tr ++ M.taken σ a)) else none
      | false, as =>
          if C σ .run then (M.step σ .run).bind (record C n as (tr ++ M.taken σ .run)) else none

variable {M} {C : Config Core Instr → Action Instr → Prop} {σ₀ σ : Config Core Instr}

theorem Run.reach {tr : List (Core × Instr)} (h : M.Run C σ₀ tr σ) : M.Reach C σ₀ σ := by
  induction h with
  | start => exact .start
  | step _ hc hs ih => exact .step ih hc hs

theorem Run.append {σ' : Config Core Instr} {tr tr' : List (Core × Instr)}
    (h : M.Run C σ₀ tr σ) (h' : M.Run C σ tr' σ') : M.Run C σ₀ (tr ++ tr') σ' := by
  induction h' with
  | start => rwa [List.append_nil]
  | step _ hc hs ih =>
      rw [← List.append_assoc]
      exact ih.step hc hs

theorem Reach.run (h : M.Reach C σ₀ σ) : ∃ tr, M.Run C σ₀ tr σ := by
  induction h with
  | start => exact ⟨[], .start⟩
  | step _ hc hs ih =>
      obtain ⟨tr, hr⟩ := ih
      exact ⟨_, hr.step hc hs⟩

/-- A step adds the one instruction it executes, if any. -/
theorem taken_cases (σ : Config Core Instr) (a : Action Instr) :
    M.taken σ a = [] ∨ ∃ i τ, a = .run ∧ M.next σ = some (i, τ) ∧ M.taken σ a = [(σ.core, i)] := by
  cases a with
  | run =>
      cases hn : M.next σ with
      | none => exact Or.inl (by simp [taken, hn])
      | some p => exact Or.inr ⟨p.1, p.2, rfl, rfl, by simp [taken, hn]⟩
  | _ => exact Or.inl rfl

/-- The run up to an entry of its trace, the step that made it, and the rest of the run. -/
theorem Run.split {tr₁ tr₂ : List (Core × Instr)} {x : Core × Instr}
    (h : M.Run C σ₀ (tr₁ ++ x :: tr₂) σ) :
    ∃ σ₁ τ σ₂, M.Run C σ₀ tr₁ σ₁ ∧ C σ₁ .run ∧ σ₁.core = x.1 ∧ M.next σ₁ = some (x.2, τ) ∧
      M.step σ₁ .run = some σ₂ ∧ M.Run C σ₂ tr₂ σ := by
  generalize htr : tr₁ ++ x :: tr₂ = tr at h
  induction h generalizing tr₂ with
  | start => simp at htr
  | @step tr σ σ' a hr hc hs ih =>
      rcases taken_cases (M := M) σ a with ht | ⟨i, τ, rfl, hn, ht⟩
      · rw [ht, List.append_nil] at htr
        obtain ⟨σ₁, τ, σ₂, h₁, hc₁, hx, hn, hs₁, h₂⟩ := ih htr
        refine ⟨σ₁, τ, σ₂, h₁, hc₁, hx, hn, hs₁, ?_⟩
        have h₃ := h₂.step hc hs
        rwa [ht, List.append_nil] at h₃
      · rw [ht] at htr
        rcases List.eq_nil_or_concat tr₂ with rfl | ⟨tr₃, y, rfl⟩
        · obtain ⟨rfl, hx⟩ := List.append_inj' htr rfl
          obtain rfl := List.singleton_injective hx
          exact ⟨σ, τ, σ', hr, hc, rfl, hn, hs, .start⟩
        · have htr' : (tr₁ ++ x :: tr₃) ++ [y] = tr ++ [(σ.core, i)] := by
            rw [← htr, List.concat_eq_append, List.append_assoc, List.cons_append]
          obtain ⟨htr₃, hy⟩ := List.append_inj' htr' rfl
          obtain ⟨σ₁, τ, σ₂, h₁, hc₁, hx, hn₁, hs₁, h₂⟩ := ih htr₃
          refine ⟨σ₁, τ, σ₂, h₁, hc₁, hx, hn₁, hs₁, ?_⟩
          have h₃ := h₂.step hc hs
          rwa [ht, ← hy, ← List.concat_eq_append] at h₃

/-! ## 2. Where the pending instructions and the heap come from -/

theorem unwind_mem : ∀ {k : List Instr} {c : Core} {j : Instr}, j ∈ (M.unwind c k).2 →
    j ∈ k ∨ ∃ c i is, M.onThrow c i = .handle is ∧ j ∈ is
  | [], _, _, h => Or.inl h
  | i :: k, c, j, h => by
      rw [Machine.unwind] at h
      split at h
      · exact Or.inl h
      · split at h
        · exact (unwind_mem h).imp (List.mem_cons_of_mem i) id
        · exact (unwind_mem h).imp (List.mem_cons_of_mem i) id
        · rename_i is his
          rcases List.mem_append.mp h with h | h
          · exact Or.inr ⟨c, i, is, his, h⟩
          · exact Or.inl (List.mem_cons_of_mem i h)

/-- What is pending after an instruction has executed waited behind it, or it spawned it, or a
    handler left it there. -/
theorem execute_pending {τ : Config Core Instr} {i j : Instr} (hj : j ∈ (M.execute i τ).pending) :
    j ∈ τ.pending ∨ j ∈ (M.exec i τ.core).spawned ∨ ∃ c i is, M.onThrow c i = .handle is ∧ j ∈ is := by
  unfold Machine.execute at hj
  dsimp only at hj
  split at hj
  · rcases List.mem_append.mp hj with hj | hj
    · rcases unwind_mem hj with hj | hj
      · exact Or.inl (List.mem_append_left _ hj)
      · exact Or.inr (Or.inr hj)
    · rcases List.mem_append.mp hj with hj | hj
      · exact Or.inl (List.mem_append_right _ hj)
      · exact Or.inr (Or.inl (List.mem_append_right _ hj))
  · simp only [Config.pending, List.mem_append] at hj
    rcases hj with (hj | hj) | hj | hj
    · exact Or.inr (Or.inl (List.mem_append_left _ hj))
    · exact Or.inl (List.mem_append_left _ hj)
    · exact Or.inl (List.mem_append_right _ hj)
    · exact Or.inr (Or.inl (List.mem_append_right _ hj))

/-- A pending instruction was pending before, or the step spawned it, called it or put it there as
    part of a handler. -/
theorem pending_cases {σ' : Config Core Instr} {a : Action Instr} (hs : M.step σ a = some σ')
    {j : Instr} (hj : j ∈ σ'.pending) :
    j ∈ σ.pending ∨
      (∃ i τ, a = .run ∧ M.next σ = some (i, τ) ∧ j ∈ (M.exec i τ.core).spawned) ∨
      (a = .call j ∧ M.callable σ.core j = true) ∨
      ∃ c i is, M.onThrow c i = .handle is ∧ j ∈ is := by
  rcases step_cases hs with ⟨i, τ, rfl, hn, rfl⟩ | ⟨i, rfl, -, hc, rfl⟩ | ⟨i, k, rfl, hst, -, rfl⟩ |
    ⟨i, k, rfl, hst, -, rfl⟩
  · have hτ : ∀ j ∈ τ.stack ++ τ.queue, j ∈ σ.pending := by
      obtain ⟨-, ⟨-, hst, hq⟩ | ⟨hst, hst', hq⟩⟩ := next_pending hn
      · exact fun j hj => by simpa [Config.pending, hst, hq] using Or.inr (List.mem_append.mp hj)
      · exact fun j hj => by simpa [Config.pending, hst, hst', hq] using Or.inr hj
    rcases execute_pending hj with hj | hj | hj
    · exact Or.inl (hτ j hj)
    · exact Or.inr (Or.inl ⟨i, τ, rfl, hn, hj⟩)
    · exact Or.inr (Or.inr (Or.inr hj))
  · rcases List.mem_cons.mp hj with rfl | hj
    · exact Or.inr (Or.inr (Or.inl ⟨rfl, hc⟩))
    · exact Or.inl hj
  · exact Or.inl (by simpa [Config.pending, hst] using Or.inr (List.mem_append.mp hj))
  · rcases List.mem_append.mp hj with hj | hj
    · rcases unwind_mem hj with hj | hj
      · exact Or.inl (by simp [Config.pending, hst, hj])
      · exact Or.inr (Or.inr (Or.inr hj))
    · exact Or.inl (by simp [Config.pending, hj])

/-- What nobody calls and no handler leaves was spawned by an entry of the trace. -/
theorem Run.origin {tr : List (Core × Instr)} (h : M.Run C σ₀ tr σ) {j : Instr}
    (h₀ : j ∉ σ₀.pending) (hc : ∀ c, M.callable c j = false)
    (hh : ∀ c i is, M.onThrow c i = .handle is → j ∉ is) (hj : j ∈ σ.pending) :
    ∃ x ∈ tr, j ∈ (M.exec x.2 x.1).spawned := by
  induction h with
  | start => exact absurd hj h₀
  | @step tr σ σ' a _ _ hs ih =>
      rcases pending_cases hs hj with hj | ⟨i, τ, rfl, hn, hj⟩ | ⟨-, hcall⟩ | ⟨c, i, is, his, hj⟩
      · obtain ⟨x, hx, hxj⟩ := ih hj
        exact ⟨x, List.mem_append_left _ hx, hxj⟩
      · exact ⟨(σ.core, i), List.mem_append_right _ (by simp [taken, hn]), (next_mem hn).2 ▸ hj⟩
      · rw [hc] at hcall
        cases hcall
      · exact absurd hj (hh c i is his)

theorem unwind_flatMap {β : Type} {f : Instr → List β}
    (hh : ∀ c i is, M.onThrow c i = .handle is → ∀ j ∈ is, f j = []) :
    ∀ (k : List Instr) (c : Core), ((M.unwind c k).2.flatMap f).Sublist (k.flatMap f)
  | [], _ => List.Sublist.refl _
  | i :: k, c => by
      rw [Machine.unwind]
      split
      · exact List.Sublist.refl _
      · rw [List.flatMap_cons]
        split
        · exact (unwind_flatMap hh k c).trans (List.sublist_append_right _ _)
        · exact (unwind_flatMap hh k _).trans (List.sublist_append_right _ _)
        · rename_i is his
          rw [List.flatMap_append, List.flatMap_eq_nil_iff.mpr (hh c i is his), List.nil_append]
          exact List.sublist_append_right _ _

/-- What pending instructions carry keeps its order where nothing is added. -/
theorem pending_flatMap {β : Type} {f : Instr → List β} {σ' : Config Core Instr}
    {a : Action Instr} (hs : M.step σ a = some σ')
    (hr : ∀ i τ, a = .run → M.next σ = some (i, τ) → ∀ j ∈ (M.exec i τ.core).spawned, f j = [])
    (hc : ∀ i, M.callable σ.core i = true → f i = [])
    (hh : ∀ c i is, M.onThrow c i = .handle is → ∀ j ∈ is, f j = []) :
    (σ'.pending.flatMap f).Sublist (σ.pending.flatMap f) := by
  rcases step_cases hs with ⟨i, τ, rfl, hn, rfl⟩ | ⟨i, rfl, -, hi, rfl⟩ | ⟨i, k, rfl, hst, -, rfl⟩ |
    ⟨i, k, rfl, hst, -, rfl⟩
  · have hτ : ((τ.stack ++ τ.queue).flatMap f).Sublist (σ.pending.flatMap f) := by
      obtain ⟨-, ⟨-, hst, hq⟩ | ⟨hst, hst', hq⟩⟩ := next_pending hn
      · simp [Config.pending, hst, hq]
      · simp [Config.pending, hst, hst', hq]
    refine List.Sublist.trans ?_ hτ
    have hpush := List.flatMap_eq_nil_iff.mpr fun j hj =>
      hr i τ rfl hn j (List.mem_append_left _ hj)
    have hpost := List.flatMap_eq_nil_iff.mpr fun j hj =>
      hr i τ rfl hn j (List.mem_append_right _ hj)
    unfold Machine.execute
    dsimp only
    split
    · simp only [Config.pending, List.flatMap_append, hpost, List.append_nil]
      exact (unwind_flatMap hh _ _).append (List.Sublist.refl _)
    · simp [Config.pending, hpush, hpost]
  · simp [Config.pending, hc i hi]
  · simp [Config.pending, hst]
  · simp only [Config.pending, hst, List.flatMap_append, List.flatMap_cons, List.append_assoc]
    exact ((unwind_flatMap hh k _).append (List.Sublist.refl _)).trans
      (List.sublist_append_right _ _)

/-- A relation between heaps that every `finally` block keeps. -/
structure Keeping (M : Machine Core Instr) (R : Core → Core → Prop) : Prop where
  refl : ∀ c, R c c
  trans : ∀ {c c' c''}, R c c' → R c' c'' → R c c''
  run : ∀ c i, M.onThrow c i = .run → R c (M.exec i c).core

theorem Keeping.unwind {R : Core → Core → Prop} (h : Keeping M R) :
    ∀ (k : List Instr) (c : Core), R c (M.unwind c k).1
  | [], c => h.refl c
  | i :: k, c => by
      rw [Machine.unwind]
      split
      · exact h.refl c
      · split
        · exact h.unwind k c
        · rename_i hr
          exact h.trans (h.run c i hr) (h.unwind k _)
        · exact h.refl c

/-- Up to `finally` blocks, a step changes the heap as the instruction it executes, if any. -/
theorem Keeping.step {R : Core → Core → Prop} (h : Keeping M R) {σ' : Config Core Instr}
    {a : Action Instr} (hs : M.step σ a = some σ') :
    (∃ i τ, a = .run ∧ M.next σ = some (i, τ) ∧ M.taken σ a = [(σ.core, i)] ∧
      R (M.exec i σ.core).core σ'.core) ∨ (M.taken σ a = [] ∧ R σ.core σ'.core) := by
  rcases step_cases hs with ⟨i, τ, rfl, hn, rfl⟩ | ⟨i, rfl, -, -, rfl⟩ | ⟨i, k, rfl, hst, -, rfl⟩ |
    ⟨i, k, rfl, hst, -, rfl⟩
  · refine Or.inl ⟨i, τ, rfl, hn, by simp [taken, hn], ?_⟩
    rw [(next_pending hn).1]
    unfold Machine.execute
    dsimp only
    split
    · exact h.unwind ..
    · exact h.refl _
  · exact Or.inr ⟨rfl, h.refl _⟩
  · exact Or.inr ⟨rfl, h.refl _⟩
  · exact Or.inr ⟨rfl, h.unwind ..⟩

/-! ## 3. Scripts -/

theorem run_of_record [∀ τ a, Decidable (C τ a)] {n : Nat} {as : List (Action Instr)}
    {tr tr' : List (Core × Instr)} {σ σ' : Config Core Instr} (h : M.Run C σ₀ tr σ)
    (hp : M.record (fun τ a => decide (C τ a)) n as tr σ = some (tr', σ')) :
    M.Run C σ₀ tr' σ' := by
  induction n generalizing as tr σ with
  | zero => cases hp
  | succ n ih =>
      unfold record at hp
      split at hp
      · obtain ⟨rfl, rfl⟩ := Prod.mk.inj (Option.some.inj hp)
        exact h
      · split at hp
        · rename_i hc
          obtain ⟨τ, hs, hp⟩ := Option.bind_eq_some_iff.mp hp
          exact ih (h.step (of_decide_eq_true hc) hs) hp
        · cases hp
      · split at hp
        · rename_i hc
          obtain ⟨τ, hs, hp⟩ := Option.bind_eq_some_iff.mp hp
          exact ih (h.step (of_decide_eq_true hc) hs) hp
        · cases hp

/-- A script that ends in a trace and a state with property `p`. -/
theorem run_of_script (M : Machine Core Instr) (C : Config Core Instr → Action Instr → Prop)
    [∀ τ a, Decidable (C τ a)] (σ₀ : Config Core Instr) (n : Nat) (as : List (Action Instr))
    (p : List (Core × Instr) × Config Core Instr → Bool)
    (h : (M.record (fun τ a => decide (C τ a)) n as [] σ₀).any p = true) :
    ∃ tr σ, M.Run C σ₀ tr σ ∧ p (tr, σ) = true := by
  obtain ⟨⟨tr, σ⟩, hσ, hp⟩ := (Option.any_eq_true _ _).mp h
  exact ⟨tr, σ, run_of_record .start hσ, hp⟩

/-- A script whose trace is cut at its first entry of a kind. -/
theorem cut_of_script (M : Machine Core Instr) (C : Config Core Instr → Action Instr → Prop)
    [∀ τ a, Decidable (C τ a)] (σ₀ : Config Core Instr) (n : Nat) (as : List (Action Instr))
    (here : Core × Instr → Bool)
    (p : List (Core × Instr) → Core × Instr → List (Core × Instr) → Config Core Instr → Bool)
    (h : (M.record (fun τ a => decide (C τ a)) n as [] σ₀).any (fun r =>
      match r.1.dropWhile (!here ·) with
      | [] => false
      | x :: tr₂ => here x && p (r.1.takeWhile (!here ·)) x tr₂ r.2) = true) :
    ∃ tr₁ x tr₂ σ, M.Run C σ₀ (tr₁ ++ x :: tr₂) σ ∧ here x = true ∧ p tr₁ x tr₂ σ = true := by
  obtain ⟨tr, σ, hr, hp⟩ := run_of_script M C σ₀ n as _ h
  dsimp only at hp
  split at hp
  · cases hp
  · rename_i x tr₂ hd
    obtain ⟨hx, hp⟩ := Bool.and_eq_true_iff.mp hp
    refine ⟨_, x, tr₂, σ, ?_, hx, hp⟩
    rw [← hd, List.takeWhile_append_dropWhile]
    exact hr

end Machine

end EventLoop
