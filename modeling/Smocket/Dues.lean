import Smocket.Sections

/-
  File:      Smocket/Dues.lean
  Subject:   WHAT AN EXCEPTION LEAVES UNDONE. Library: debts of the heap in runs whose exceptions
             pass no instruction that still has one to pay.

  * `Machine.passed`, `Machine.dropped` -- the instructions an exception takes off the stack;
  * `Machine.Dues` -- the hypotheses: `owed` is what the heap owes, `pays` who pays it;
  * `Reach.dues` -- what is owed, a pending instruction pays;
  * `Debts.dues` -- the debts of a section, without the section;
  * `Reach.queued` -- the rule for what a posted task pays.
-/

namespace EventLoop

namespace Machine

variable {Core Instr Debt : Type} {M : Machine Core Instr}

/-! ## 1. The instructions an exception passes -/

/-- The instructions an exception takes off the stack, up to the frame or the handler where it
    stops. -/
def passed (M : Machine Core Instr) : Core → List Instr → List Instr
  | _, [] => []
  | c, i :: k =>
      if M.isApp i then []
      else match M.onThrow c i with
        | .skip => i :: passed M c k
        | .run => i :: passed M (M.exec i c).core k
        | .handle _ => [i]

/-- The instructions a step takes off the stack without executing them. -/
def dropped (M : Machine Core Instr) (σ : Config Core Instr) : Action Instr → List Instr
  | .run => (M.next σ).elim [] fun x =>
      let e := M.exec x.1 x.2.core
      if e.fails then M.passed e.core x.2.stack else []
  | .throw => M.passed σ.core σ.stack.tail
  | .call _ | .ret => []

theorem passed_mem {j : Instr} :
    ∀ (k : List Instr) (c : Core), j ∈ M.passed c k → j ∈ k
  | [], _, h => h
  | i :: k, c, h => by
      rw [passed] at h
      split at h
      · cases h
      · split at h
        · exact (List.mem_cons.mp h).elim (fun h => h ▸ List.mem_cons_self)
            fun h => List.mem_cons_of_mem _ (passed_mem k _ h)
        · exact (List.mem_cons.mp h).elim (fun h => h ▸ List.mem_cons_self)
            fun h => List.mem_cons_of_mem _ (passed_mem k _ h)
        · exact List.mem_singleton.mp h ▸ List.mem_cons_self

/-- What is not passed stays on the stack. -/
theorem mem_unwind {j : Instr} :
    ∀ (k : List Instr) (c : Core), j ∈ k → j ∈ M.passed c k ∨ j ∈ (M.unwind c k).2
  | [], _, h => absurd h List.not_mem_nil
  | i :: k, c, h => by
      rw [Machine.unwind, passed]
      split
      · exact Or.inr h
      · cases hr : M.onThrow c i with
        | skip =>
            rcases List.mem_cons.mp h with rfl | h
            · exact Or.inl List.mem_cons_self
            · exact (mem_unwind k c h).imp_left (List.mem_cons_of_mem _)
        | run =>
            rcases List.mem_cons.mp h with rfl | h
            · exact Or.inl List.mem_cons_self
            · exact (mem_unwind k _ h).imp_left (List.mem_cons_of_mem _)
        | handle is =>
            rcases List.mem_cons.mp h with rfl | h
            · exact Or.inl List.mem_cons_self
            · exact Or.inr (List.mem_append_right _ h)

/-! ## 2. Dues -/

/-- What the heap owes, `owed c t`, some pending instruction pays, `pays i t`: a debt is made
    together with, or in the presence of, an instruction that pays it. `K` is known of a
    configuration about to execute an instruction. -/
structure Dues (M : Machine Core Instr) (K : Config Core Instr → Prop)
    (owed : Core → Debt → Prop) (pays : Instr → Debt → Prop) : Prop where
  frame : ∀ i t, pays i t → M.isApp i = false
  exec : ∀ σ τ i t, K σ → M.next σ = some (i, τ) → (M.exec i σ.core).fails = false →
    owed (M.exec i σ.core).core t →
    (∃ j ∈ (M.exec i σ.core).spawned ++ τ.pending, pays j t) ∨ (owed σ.core t ∧ ¬ pays i t)
  fails : ∀ σ τ i t, K σ → M.next σ = some (i, τ) → (M.exec i σ.core).fails = true →
    owed (M.exec i σ.core).core t → owed σ.core t ∧ ¬ pays i t
  run : ∀ c i t, M.onThrow c i = .run → owed (M.exec i c).core t → owed c t

variable {K : Config Core Instr → Prop} {owed : Core → Debt → Prop} {pays : Instr → Debt → Prop}

/-- Unwinding makes no debt. -/
theorem Dues.unwind (hD : Dues M K owed pays) {t : Debt} :
    ∀ (k : List Instr) (c : Core), owed (M.unwind c k).1 t → owed c t
  | [], _, h => h
  | i :: k, c, h => by
      rw [Machine.unwind] at h
      split at h
      · exact h
      · split at h
        · exact hD.unwind k c h
        · rename_i hr
          exact hD.run c i t hr (hD.unwind k _ h)
        · exact h

theorem Dues.step (hD : Dues M K owed pays) {σ σ' : Config Core Instr} {a : Action Instr}
    (hK : a = .run → K σ) (hd : ∀ t, owed σ.core t → ∃ j ∈ σ.pending, pays j t)
    (hc : ∀ j ∈ M.dropped σ a, ∀ t, pays j t → ¬ owed σ.core t) (hs : M.step σ a = some σ') :
    ∀ t, owed σ'.core t → ∃ j ∈ σ'.pending, pays j t := by
  intro t ht
  rcases step_cases hs with ⟨i, τ, rfl, hn, rfl⟩ | ⟨i, rfl, -, -, rfl⟩ |
    ⟨i, k, rfl, hst, happ, rfl⟩ | ⟨i, k, rfl, hst, happ, rfl⟩
  · obtain ⟨hcore, hnext⟩ := next_pending hn
    have hdτ : owed σ.core t → ¬ pays i t → ∃ j ∈ τ.pending, pays j t := fun ho hp => by
      obtain ⟨j, hj, hpj⟩ := hd t ho
      have hji : j ≠ i := fun h => hp (h ▸ hpj)
      refine ⟨j, ?_, hpj⟩
      rcases hnext with ⟨-, hst, hq⟩ | ⟨hst, hst', hq⟩
      · simpa [Config.pending, hst, hq, hji] using hj
      · simpa [Config.pending, hst, hst', hq, hji] using hj
    unfold Machine.execute at ht ⊢
    dsimp only at ht ⊢
    rw [← hcore] at ht ⊢
    split at ht
    · rename_i hf
      rw [if_pos hf]
      obtain ⟨ho, hp⟩ := hD.fails σ τ i t (hK rfl) hn hf (hD.unwind _ _ ht)
      obtain ⟨j, hj, hpj⟩ := hdτ ho hp
      refine ⟨j, ?_, hpj⟩
      rcases List.mem_append.mp hj with hj | hj
      · refine List.mem_append_left _ ((mem_unwind _ _ hj).resolve_left fun hjd => ?_)
        refine hc j ?_ t hpj ho
        simp only [dropped, hn, Option.elim_some, ← hcore, if_pos hf]
        exact hjd
      · exact List.mem_append_right _ (List.mem_append_left _ hj)
    · rename_i hf
      rw [if_neg hf]
      have hpend : ∀ j ∈ (M.exec i σ.core).spawned ++ τ.pending,
          j ∈ (M.exec i σ.core).push ++ τ.stack ++ (τ.queue ++ (M.exec i σ.core).post) :=
        fun j hj => by
          simp only [Effect.spawned, Config.pending, List.mem_append] at hj ⊢
          tauto
      rcases hD.exec σ τ i t (hK rfl) hn (by simpa using hf) ht with ⟨j, hj, hpj⟩ | ⟨ho, hp⟩
      · exact ⟨j, hpend j hj, hpj⟩
      · obtain ⟨j, hj, hpj⟩ := hdτ ho hp
        exact ⟨j, hpend j (List.mem_append_right _ hj), hpj⟩
  · obtain ⟨j, hj, hpj⟩ := hd t ht
    exact ⟨j, List.mem_cons_of_mem _ hj, hpj⟩
  · obtain ⟨j, hj, hpj⟩ := hd t ht
    have hji : j ≠ i := fun h => by
      rw [hD.frame i t (h ▸ hpj)] at happ
      cases happ
    exact ⟨j, by simpa [Config.pending, hst, hji] using hj, hpj⟩
  · have ho := hD.unwind _ _ ht
    obtain ⟨j, hj, hpj⟩ := hd t ho
    have hji : j ≠ i := fun h => by
      rw [hD.frame i t (h ▸ hpj)] at happ
      cases happ
    have hj' : j ∈ k ∨ j ∈ σ.queue := by simpa [Config.pending, hst, hji] using hj
    refine ⟨j, ?_, hpj⟩
    rcases hj' with hj' | hj'
    · refine List.mem_append_left _ ((mem_unwind _ _ hj').resolve_left fun hjd => ?_)
      exact hc j (by simpa [dropped, hst] using hjd) t hpj ho
    · exact List.mem_append_right _ hj'

/-- **The rule for dues.** -/
theorem Reach.dues {C : Config Core Instr → Action Instr → Prop} {σ₀ σ : Config Core Instr}
    (hD : Dues M K owed pays) (hK : ∀ τ, M.Reach C σ₀ τ → C τ .run → K τ)
    (hC : ∀ τ a, M.Reach C σ₀ τ → C τ a → ∀ j ∈ M.dropped τ a, ∀ t, pays j t → ¬ owed τ.core t)
    (h₀ : ∀ t, owed σ₀.core t → ∃ j ∈ σ₀.pending, pays j t) (h : M.Reach C σ₀ σ) :
    ∀ t, owed σ.core t → ∃ j ∈ σ.pending, pays j t := by
  induction h with
  | start => exact h₀
  | step hr hc hs ih => exact hD.step (fun ha => hK _ hr (ha ▸ hc)) ih (hC _ _ hr hc) hs

/-- The debts of a section, whose payers do not fail and are not run by an exception. -/
theorem Debts.dues {Good : Core → Instr → Prop} {I : Core → Prop} {Ok : Core → Instr → Prop}
    {S : Instr → Prop} (hD : Debts M Good I Ok S owed pays) (happ : ∀ i, S i → M.isApp i = false)
    (hrun : ∀ c i, S i → M.onThrow c i ≠ .run)
    (hK : ∀ σ τ i, K σ → M.next σ = some (i, τ) → Ready Good I Ok σ.core i)
    (hfails : ∀ c i, Ready Good I Ok c i → S i → (M.exec i c).fails = false) :
    Dues M K owed pays where
  frame i t hp := happ i (hD.inSection i t hp)
  exec σ τ i t hk hn hf ho := by
    rcases hD.exec _ i t (hK σ τ i hk hn) hf ho with ⟨j, hj, hp⟩ | h
    · exact Or.inl ⟨j, List.mem_append_left _ hj, hp⟩
    · exact Or.inr h
  fails σ τ i t hk hn hf ho := by
    have hi := hK σ τ i hk hn
    refine ⟨hD.fails _ i t hi hf ho, fun hp => ?_⟩
    rw [hfails _ i hi (hD.inSection i t hp)] at hf
    cases hf
  run c i t hr ho := hD.run c i t hr (fun hS => hrun c i hS hr) ho

/-! ## 3. Tasks -/

theorem unwind_core (hrun : ∀ c i, M.onThrow c i ≠ .run) :
    ∀ (k : List Instr) (c : Core), (M.unwind c k).1 = c
  | [], _ => rfl
  | i :: k, c => by
      rw [Machine.unwind]
      split
      · rfl
      · split
        · exact unwind_core hrun k c
        · rename_i hr
          exact absurd hr (hrun c i)
        · rfl

/-- What the heap owes, a posted task pays: no exception drops it. -/
theorem Reach.queued {C : Config Core Instr → Action Instr → Prop} {σ₀ σ : Config Core Instr}
    (owes : Core → Prop) {t : Instr} (hrun : ∀ c i, M.onThrow c i ≠ .run)
    (hexec : ∀ σ i, M.Reach C σ₀ σ → i ∈ σ.pending → owes (M.exec i σ.core).core →
      owes σ.core ∨ t ∈ (M.exec i σ.core).post)
    (hpaid : ∀ c, ¬ owes (M.exec t c).core) (h₀ : ¬ owes σ₀.core) (h : M.Reach C σ₀ σ)
    (ho : owes σ.core) : t ∈ σ.queue := by
  induction h with
  | start => exact absurd ho h₀
  | @step σ σ' a hr hc hs ih =>
      have hstay : owes σ.core → (∀ τ, M.next σ = some (t, τ) → a ≠ .run) → t ∈ σ'.queue :=
        fun ho hne => (queue_stays hs (ih ho)).resolve_right fun ⟨ha, τ, hn⟩ => hne τ hn ha
      rcases step_cases hs with ⟨i, τ, rfl, hn, rfl⟩ | ⟨i, rfl, -, -, rfl⟩ | ⟨i, k, rfl, -, -, rfl⟩ |
        ⟨i, k, rfl, -, -, rfl⟩
      · have hcore : (M.execute i τ).core = (M.exec i σ.core).core := by
          rw [(next_pending hn).1]
          unfold execute
          dsimp only
          split
          · exact unwind_core hrun _ _
          · rfl
        rw [hcore] at ho
        rcases hexec σ i hr (next_mem hn).1 ho with ho' | ht
        · refine hstay ho' fun τ' hn' _ => ?_
          rw [hn, Option.some.injEq, Prod.mk.injEq] at hn'
          exact hpaid _ (hn'.1 ▸ ho)
        · exact post_waits hn hs ht
      · exact hstay ho nofun
      · exact hstay ho nofun
      · rw [unwind_core hrun] at ho
        exact hstay ho nofun

end Machine

end EventLoop
