import Smocket.EventLoop

/-
  File:      Smocket/Accounts.lean
  Subject:   TOKENS. Library: what pending instructions weigh, and a bound the heap keeps on it.

  A pending instruction that may do something once is a token. The heap says how many tokens it has
  given out in all, `cap`, and how many of them it holds itself, `held`: because they have been
  spent, or because they wait to be put among the pending instructions again. A token an exception
  takes away is lost, so that the bound is an inequality.

  * `Machine.weigh` -- what a list of instructions weighs;
  * `Machine.Account` -- the hypotheses;
  * `Reach.account` -- the bound along every run.
-/

namespace EventLoop

namespace Machine

variable {Core Instr : Type} {M : Machine Core Instr} {K : Config Core Instr → Prop}
  {mass : Core → Instr → Nat} {held cap : Core → Nat}

/-- The weight of a list of instructions. -/
def weigh (mass : Core → Instr → Nat) (c : Core) : List Instr → Nat
  | [] => 0
  | i :: l => mass c i + weigh mass c l

@[simp] theorem weigh_nil (c : Core) : weigh mass c [] = 0 := rfl

@[simp] theorem weigh_cons (c : Core) (i : Instr) (l : List Instr) :
    weigh mass c (i :: l) = mass c i + weigh mass c l := rfl

@[simp] theorem weigh_append (c : Core) (l l' : List Instr) :
    weigh mass c (l ++ l') = weigh mass c l + weigh mass c l' := by
  induction l with
  | nil => simp
  | cons i l ih =>
      rw [List.cons_append, weigh_cons, weigh_cons, ih]
      omega

theorem weigh_eq_zero {c : Core} {l : List Instr} (h : ∀ j ∈ l, mass c j = 0) :
    weigh mass c l = 0 := by
  induction l with
  | nil => rfl
  | cons i l ih =>
      rw [weigh_cons, h i List.mem_cons_self, ih fun j hj => h j (List.mem_cons_of_mem i hj)]

theorem weigh_le {c c' : Core} {l : List Instr} (h : ∀ j ∈ l, mass c' j ≤ mass c j) :
    weigh mass c' l ≤ weigh mass c l := by
  induction l with
  | nil => exact Nat.le_refl _
  | cons i l ih =>
      exact Nat.add_le_add (h i List.mem_cons_self) (ih fun j hj => h j (List.mem_cons_of_mem i hj))

/-- One of the instructions weighs no more than all of them. -/
theorem mass_le_weigh (mass : Core → Instr → Nat) (c : Core) {l : List Instr} {i : Instr}
    (h : i ∈ l) : mass c i ≤ weigh mass c l := by
  induction l with
  | nil => cases h
  | cons j l ih =>
      rw [weigh_cons]
      rcases List.mem_cons.mp h with rfl | h
      · omega
      · have := ih h
        omega

/-- Nor do two of them. -/
theorem mass_add_le_weigh (mass : Core → Instr → Nat) (c : Core) {l : List Instr} {i j : Instr}
    (hi : i ∈ l) (hj : j ∈ l) (hne : i ≠ j) : mass c i + mass c j ≤ weigh mass c l := by
  induction l with
  | nil => cases hi
  | cons x l ih =>
      rw [weigh_cons]
      rcases List.mem_cons.mp hi with rfl | hi'
      · have := mass_le_weigh mass c ((List.mem_cons.mp hj).resolve_left fun h => hne h.symm)
        omega
      · rcases List.mem_cons.mp hj with rfl | hj
        · have := mass_le_weigh mass c hi'
          omega
        · have := ih hi' hj
          omega

/-- What one instruction gives out and holds is accounted for. `K` is known of a configuration about
    to execute an instruction. -/
structure Account (M : Machine Core Instr) (K : Config Core Instr → Prop)
    (mass : Core → Instr → Nat) (held cap : Core → Nat) : Prop where
  exec : ∀ σ i τ, K σ → M.next σ = some (i, τ) → held σ.core + mass σ.core i ≤ cap σ.core →
    held (M.exec i σ.core).core +
        weigh mass (M.exec i σ.core).core (M.exec i σ.core).spawned + cap σ.core ≤
      held σ.core + mass σ.core i + cap (M.exec i σ.core).core
  stays : ∀ σ i τ, K σ → M.next σ = some (i, τ) →
    ∀ j ∈ τ.pending, mass (M.exec i σ.core).core j ≤ mass σ.core j
  run : ∀ c i, M.onThrow c i = .run →
    held (M.exec i c).core + cap c ≤ held c + cap (M.exec i c).core ∧
      ∀ j, mass (M.exec i c).core j ≤ mass c j
  call : ∀ c i, M.callable c i = true → mass c i = 0
  handle : ∀ c i is, M.onThrow c i = .handle is → ∀ j ∈ is, mass c j = 0

/-- The bound, for a heap and a list of pending instructions. -/
def Covers (mass : Core → Instr → Nat) (held cap : Core → Nat) (c : Core) (l : List Instr) : Prop :=
  held c + weigh mass c l ≤ cap c

/-- Unwinding loses tokens and makes none; `q` is left alone. -/
theorem Account.unwind (hA : Account M K mass held cap) (q : List Instr) :
    ∀ (k : List Instr) (c : Core), Covers mass held cap c (k ++ q) →
      Covers mass held cap (M.unwind c k).1 ((M.unwind c k).2 ++ q)
  | [], _, h => h
  | i :: k, c, h => by
      have hk : Covers mass held cap c (k ++ q) := by
        simp only [Covers, List.cons_append, weigh_cons] at h ⊢
        omega
      rw [Machine.unwind]
      split
      · exact h
      · split
        · exact hA.unwind q k c hk
        · rename_i hr
          refine hA.unwind q k _ ?_
          have hw := weigh_le (l := k ++ q) fun j _ => (hA.run c i hr).2 j
          have hr := (hA.run c i hr).1
          unfold Covers at hk ⊢
          omega
        · rename_i is his
          have hz := weigh_eq_zero (hA.handle c i is his)
          simp only [Covers, List.append_assoc, weigh_append] at hk ⊢
          omega

theorem Account.execute (hA : Account M K mass held cap) {σ τ : Config Core Instr} {i : Instr}
    (hK : K σ) (hn : M.next σ = some (i, τ)) (h : Covers mass held cap σ.core (i :: τ.pending)) :
    Covers mass held cap (M.execute i τ).core (M.execute i τ).pending := by
  have hτ := weigh_le (hA.stays σ i τ hK hn)
  have hi := hA.exec σ i τ hK hn (by
    simp only [Covers, weigh_cons] at h
    omega)
  unfold Machine.execute
  dsimp only
  rw [← (next_pending hn).1]
  simp only [Covers, Config.pending, weigh_cons, weigh_append, Effect.spawned] at h hτ hi
  split
  · refine hA.unwind _ _ _ ?_
    simp only [Covers, weigh_append]
    omega
  · simp only [Covers, Config.pending, weigh_append]
    omega

theorem Account.step (hA : Account M K mass held cap) {σ σ' : Config Core Instr} {a : Action Instr}
    (hK : a = .run → K σ) (h : Covers mass held cap σ.core σ.pending)
    (hs : M.step σ a = some σ') : Covers mass held cap σ'.core σ'.pending := by
  rcases step_cases hs with ⟨i, τ, rfl, hn, rfl⟩ | ⟨i, -, -, hc, rfl⟩ | ⟨i, k, -, hk, -, rfl⟩ |
    ⟨i, k, -, hk, -, rfl⟩
  · refine hA.execute (hK rfl) hn ?_
    obtain ⟨-, ⟨-, hst, hq⟩ | ⟨hst, hst', hq⟩⟩ := next_pending hn
    · simpa [Covers, Config.pending, hst, hq] using h
    · simpa [Covers, Config.pending, hst, hst', hq] using h
  · have hz := hA.call σ.core i hc
    simp only [Covers, Config.pending, List.cons_append, weigh_cons] at h ⊢
    omega
  · simp only [Covers, Config.pending, hk, List.cons_append, weigh_cons] at h ⊢
    omega
  · refine hA.unwind _ k _ ?_
    simp only [Covers, Config.pending, hk, List.cons_append, weigh_cons] at h ⊢
    omega

/-- **The bound holds along every run.** -/
theorem Reach.account {C : Config Core Instr → Action Instr → Prop} {σ₀ σ : Config Core Instr}
    (hA : Account M K mass held cap) (hK : ∀ τ, M.Reach C σ₀ τ → C τ .run → K τ)
    (h₀ : Covers mass held cap σ₀.core σ₀.pending) (h : M.Reach C σ₀ σ) :
    Covers mass held cap σ.core σ.pending := by
  induction h with
  | start => exact h₀
  | step hr hc hs ih => exact hA.step (fun ha => hK _ hr (ha ▸ hc)) ih hs

end Machine

end EventLoop
