import Smocket.EventLoop
import Mathlib.Data.List.Chain

/-
  File:      Smocket/Sections.lean
  Subject:   WHAT EXCEPTIONS CANNOT SKIP, AND WHAT NOTHING INTERRUPTS. Library: further rules for
             `Machine.Reach`.

  * `Machine.Section` -- a set of instructions none of which throws, and which push only each
    other and application frames: the stack directly above them holds nothing else, so that an
    internal exception never passes one of them (`Reach.chain`);
  * `Machine.Debts` -- what the heap owes is paid by a pending instruction of a section
    (`Reach.debts`);
  * `Machine.Atomic` -- an invariant that a stretch of instructions breaks and restores, in which
    no other code runs (`Reach.between`);
  * `Machine.Passage` -- the same where no application code runs at all, step by step
    (`Passage.step`).
-/

namespace EventLoop

namespace Machine

variable {Core Instr : Type} {M : Machine Core Instr} {Good : Core → Instr → Prop}
  {I : Core → Prop} {Ok : Core → Instr → Prop} {Right : Type} {right : Instr → Option Right}

/-! ## 1. Sections -/

/-- `i` may lie directly above `j` on the stack. -/
def Over (S A : Instr → Prop) (i j : Instr) : Prop := S j → S i ∨ A i

/-- The instructions `S` form a section, within which the application frames `A` may run. -/
structure Section (M : Machine Core Instr) (Good : Core → Instr → Prop) (I : Core → Prop)
    (Ok : Core → Instr → Prop) (S A : Instr → Prop) : Prop where
  app : ∀ i, S i → M.isApp i = false
  frame : ∀ i, A i → M.isApp i = true
  push : ∀ c i, Ready Good I Ok c i → S i → ∀ j ∈ (M.exec i c).push, S j ∨ A j
  chain : ∀ c i, Ready Good I Ok c i → (M.exec i c).push.IsChain (Over S A)
  fails : ∀ c i, Ready Good I Ok c i → S i → (M.exec i c).fails = false
  handleChain : ∀ c i is, I c → Ok c i → M.onThrow c i = .handle is → is.IsChain (Over S A)

/-- No exception of application code starts within the section. -/
def Returns (S A : Instr → Prop) (σ : Config Core Instr) (a : Action Instr) : Prop :=
  a = .throw → ∀ i k, σ.stack = i :: k → A i → ∀ j ∈ k.head?, ¬ S j

instance (S A : Instr → Prop) [DecidablePred S] [DecidablePred A] (σ : Config Core Instr)
    (a : Action Instr) : Decidable (Returns S A σ a) :=
  match a with
  | .throw => decidable_of_iff (∀ i ∈ σ.stack.head?, A i → ∀ j ∈ σ.stack.tail.head?, ¬ S j)
      ⟨fun h _ i k hst hi j hj => h i (by simp [hst]) hi j (by simpa [hst] using hj),
        fun h i hi hA j hj => by
          obtain ⟨k, hst⟩ := List.head?_eq_some_iff.mp hi
          exact h rfl i k hst hA j (by simpa [hst] using hj)⟩
  | .run | .call _ | .ret => isTrue nofun

variable {S A : Instr → Prop}

/-- A section stays one under more facts. -/
theorem Section.mono (h : Section M Good I Ok S A) {Good' : Core → Instr → Prop} {I' : Core → Prop}
    {Ok' : Core → Instr → Prop} (hG : ∀ c i, Good' c i → Good c i) (hI : ∀ c, I' c → I c)
    (hO : ∀ c i, Ok' c i → Ok c i) : Section M Good' I' Ok' S A := by
  have hr : ∀ c i, Ready Good' I' Ok' c i → Ready Good I Ok c i := fun c i hi =>
    ⟨hI c hi.inv, hO c i hi.ok, hG c i hi.good⟩
  exact ⟨h.app, h.frame, fun c i hi => h.push c i (hr c i hi), fun c i hi => h.chain c i (hr c i hi),
    fun c i hi => h.fails c i (hr c i hi),
    fun c i is hc hi => h.handleChain c i is (hI c hc) (hO c i hi)⟩

/-- A list of which only the first element may be of the section. -/
theorem chain_of_tail {l : List Instr} (h : ∀ j ∈ l.tail, ¬ S j) : l.IsChain (Over S A) := by
  cases l with
  | nil => exact .nil
  | cons i l =>
      induction l generalizing i with
      | nil => exact .singleton _
      | cons j l ih =>
          exact List.isChain_cons_cons.mpr ⟨fun hj => absurd hj (h j List.mem_cons_self),
            ih j fun k hk => h k (List.mem_cons_of_mem _ hk)⟩

/-- A list that belongs to the section altogether. -/
theorem chain_of_all {l : List Instr} (h : ∀ j ∈ l, S j) : l.IsChain (Over S A) :=
  (List.pairwise_of_forall_mem_list fun i hi _ _ _ => Or.inl (h i hi)).isChain

/-- Directly under an instruction that is neither of the section nor an application frame there
    is none of the section. -/
theorem not_head {i : Instr} {k : List Instr} (h : (i :: k).IsChain (Over S A)) (hi : ¬ S i)
    (hA : ¬ A i) : ∀ j ∈ k.head?, ¬ S j := by
  intro j hj hS
  cases k with
  | nil => cases hj
  | cons j' k =>
      obtain rfl : j' = j := by simpa using hj
      exact ((List.isChain_cons_cons.mp h).1 hS).elim hi hA

/-- Under an application frame of which no exception starts in the section there is none of it. -/
theorem Section.not_below (hS : Section M Good I Ok S A) {i : Instr} {k : List Instr}
    (happ : M.isApp i = true) (hk : (i :: k).IsChain (Over S A))
    (ha : A i → ∀ j ∈ k.head?, ¬ S j) : ∀ j ∈ k.head?, ¬ S j := by
  by_cases hA : A i
  · exact ha hA
  · exact not_head hk (fun h => by rw [hS.app i h] at happ; cases happ) hA

theorem chain_tail {i : Instr} {k : List Instr} (h : (i :: k).IsChain (Over S A)) :
    k.IsChain (Over S A) := by
  cases k with
  | nil => exact .nil
  | cons j k => exact (List.isChain_cons_cons.mp h).2

/-- The stack without the instruction about to execute. -/
theorem Section.next (hS : Section M Good I Ok S A) {σ τ : Config Core Instr} {i : Instr}
    (hk : σ.stack.IsChain (Over S A)) (hn : M.next σ = some (i, τ)) :
    τ.stack.IsChain (Over S A) ∧ (¬ S i → ∀ j ∈ τ.stack.head?, ¬ S j) := by
  obtain ⟨-, ⟨hia, hst, -⟩ | ⟨-, hst, -⟩⟩ := next_pending hn
  · rw [hst] at hk
    exact ⟨chain_tail hk, fun h => not_head hk h fun hA => by rw [hS.frame _ hA] at hia; cases hia⟩
  · rw [hst]
    exact ⟨.nil, fun _ j hj => by cases hj⟩

/-- Unwinding keeps the stack in order, and where it starts outside the section it never passes
    an instruction of the section. -/
theorem Section.unwind (hS : Section M Good I Ok S A) (hM : Inductive M Good I Ok right)
    (q : List Instr) :
    ∀ (k : List Instr) (c : Core), Keeps I Ok right c (k ++ q) → k.IsChain (Over S A) →
      (∀ j ∈ k.head?, ¬ S j) → (M.unwind c k).2.IsChain (Over S A) ∧
        ∀ j ∈ k, S j → j ∈ (M.unwind c k).2
  | [], c, _, hk, _ => ⟨hk, fun _ hj => absurd hj List.not_mem_nil⟩
  | i :: k, c, hK, hk, hh => by
      have hi : ¬ S i := hh i (by simp)
      have hk' := chain_tail hk
      have hK' : Keeps I Ok right c (k ++ q) := hK.sublist (List.sublist_cons_self _ _)
      rw [Machine.unwind]
      split
      · exact ⟨hk, fun j hj _ => hj⟩
      · rename_i happ
        have hh' := not_head hk hi fun hA => happ (hS.frame i hA)
        have hskip : ∀ j ∈ i :: k, S j → j ∈ k := fun j hj hSj => by
          rcases List.mem_cons.mp hj with rfl | hj
          · exact absurd hSj hi
          · exact hj
        split
        · have h := hS.unwind hM q k c hK' hk' hh'
          exact ⟨h.1, fun j hj hSj => h.2 j (hskip j hj hSj) hSj⟩
        · rename_i hr
          have h := hS.unwind hM q k _
            ((hM.exec hK (hM.free c i hr)).sublist (List.sublist_append_right _ _)) hk' hh'
          exact ⟨h.1, fun j hj hSj => h.2 j (hskip j hj hSj) hSj⟩
        · rename_i is his
          refine ⟨(hS.handleChain c i is hK.inv (hK.ok i List.mem_cons_self) his).append hk'
            fun _ _ j hj hSj => absurd hSj (hh' j hj), fun j hj hSj => ?_⟩
          exact List.mem_append_right _ (hskip j hj hSj)

/-- What a step keeps: the stack in order and the pending instructions of the section, but for
    the one it executes. An exception of application code must not start under the section. -/
theorem Section.step (hS : Section M Good I Ok S A) (hM : Inductive M Good I Ok right)
    {σ σ' : Config Core Instr} {a : Action Instr} (hK : Keeps I Ok right σ.core σ.pending)
    (hk : σ.stack.IsChain (Over S A)) (hg : M.Obeys Good σ a)
    (ha : Returns S A σ a) (hs : M.step σ a = some σ') :
    σ'.stack.IsChain (Over S A) := by
  rcases step_cases hs with ⟨i, τ, rfl, hn, rfl⟩ | ⟨i, rfl, happ, -, rfl⟩ |
    ⟨i, k, rfl, hst, happ, rfl⟩ | ⟨i, k, rfl, hst, happ, rfl⟩
  · have hKτ := hK.next hn
    have hi : Ready Good I Ok τ.core i := ⟨hKτ.inv, hKτ.ok i List.mem_cons_self, hg rfl i τ hn⟩
    have hτ := hS.next hk hn
    unfold Machine.execute
    dsimp only
    split
    · rename_i hf
      have hni : ¬ S i := fun h => by rw [hS.fails _ i hi h] at hf; cases hf
      have hK' : Keeps I Ok right (M.exec i τ.core).core (τ.stack ++ τ.queue) :=
        (hM.exec hKτ hi.good).sublist (List.sublist_append_right _ _)
      exact (hS.unwind hM _ _ _ hK' hτ.1 (hτ.2 hni)).1
    · refine (hS.chain _ i hi).append hτ.1 fun p hp j hj hSj => ?_
      by_cases h : S i
      · exact hS.push _ i hi h p (List.mem_of_getLast? hp)
      · exact absurd hSj (hτ.2 h j hj)
  · cases hst : σ.stack with
    | nil => exact .singleton _
    | cons j k =>
        rw [hst] at hk
        refine List.isChain_cons_cons.mpr ⟨fun hSj => ?_, hk⟩
        have hj : M.isApp j = true := by simpa [inApp, hst] using happ
        rw [hS.app j hSj] at hj
        cases hj
  · rw [hst] at hk
    exact chain_tail hk
  · rw [hst] at hk
    refine (hS.unwind hM σ.queue k σ.core (hK.sublist ?_) (chain_tail hk)
      (hS.not_below happ hk (ha rfl i k hst))).1
    simp only [Config.pending, hst]
    exact List.sublist_cons_self _ _

/-- **No pending instruction of the section is lost**: a step executes it or leaves it pending. -/
theorem Section.survives (hS : Section M Good I Ok S A) (hM : Inductive M Good I Ok right)
    {σ σ' : Config Core Instr} {a : Action Instr} (hK : Keeps I Ok right σ.core σ.pending)
    (hk : σ.stack.IsChain (Over S A)) (hg : M.Obeys Good σ a) (ha : Returns S A σ a)
    (hs : M.step σ a = some σ') {j : Instr} (hj : j ∈ σ.pending) (hSj : S j) :
    j ∈ σ'.pending ∨ ∃ τ, a = .run ∧ M.next σ = some (j, τ) := by
  rcases step_cases hs with ⟨i, τ, rfl, hn, rfl⟩ | ⟨i, rfl, -, -, rfl⟩ |
    ⟨i, k, rfl, hst, happ, rfl⟩ | ⟨i, k, rfl, hst, happ, rfl⟩
  · by_cases hji : j = i
    · exact Or.inr ⟨τ, rfl, hji ▸ hn⟩
    · refine Or.inl ?_
      have hKτ := hK.next hn
      have hi : Ready Good I Ok τ.core i := ⟨hKτ.inv, hKτ.ok i List.mem_cons_self, hg rfl i τ hn⟩
      have hτ := hS.next hk hn
      have hj' : j ∈ τ.stack ∨ j ∈ τ.queue := by
        obtain ⟨-, ⟨-, hst, hq⟩ | ⟨hst, hst', hq⟩⟩ := next_pending hn
        · simpa [Config.pending, hst, hq, hji] using hj
        · simpa [Config.pending, hst, hst', hq, hji] using hj
      unfold Machine.execute
      dsimp only
      split
      · rename_i hf
        have hni : ¬ S i := fun h => by rw [hS.fails _ i hi h] at hf; cases hf
        have hK' : Keeps I Ok right (M.exec i τ.core).core (τ.stack ++ τ.queue) :=
          (hM.exec hKτ hi.good).sublist (List.sublist_append_right _ _)
        rcases hj' with hj' | hj'
        · exact List.mem_append_left _ ((hS.unwind hM _ _ _ hK' hτ.1 (hτ.2 hni)).2 j hj' hSj)
        · exact List.mem_append_right _ (List.mem_append_left _ hj')
      · rcases hj' with hj' | hj'
        · exact List.mem_append_left _ (List.mem_append_right _ hj')
        · exact List.mem_append_right _ (List.mem_append_left _ hj')
  · exact Or.inl (List.mem_cons_of_mem _ hj)
  · have hji : j ≠ i := fun h => by
      rw [hS.app i (h ▸ hSj)] at happ
      cases happ
    exact Or.inl (by simpa [Config.pending, hst, hji] using hj)
  · rw [hst] at hk
    have hji : j ≠ i := fun h => by
      rw [hS.app i (h ▸ hSj)] at happ
      cases happ
    have hh : ∀ j ∈ k.head?, ¬ S j := hS.not_below happ hk (ha rfl i k hst)
    have hK' : Keeps I Ok right σ.core (k ++ σ.queue) := hK.sublist (by
      simp only [Config.pending, hst]
      exact List.sublist_cons_self _ _)
    have hj' : j ∈ k ∨ j ∈ σ.queue := by simpa [Config.pending, hst, hji] using hj
    refine Or.inl ?_
    rcases hj' with hj' | hj'
    · exact List.mem_append_left _ ((hS.unwind hM _ k _ hK' (chain_tail hk) hh).2 j hj' hSj)
    · exact List.mem_append_right _ hj'

/-- **The rule for the stack.** -/
theorem Reach.chain {C : Config Core Instr → Action Instr → Prop} {σ₀ σ : Config Core Instr}
    (hS : Section M Good I Ok S A) (hM : Inductive M Good I Ok right)
    (hG : ∀ τ a, C τ a → M.Obeys Good τ a) (hC : ∀ τ a, C τ a → Returns S A τ a)
    (h₀ : Keeps I Ok right σ₀.core σ₀.pending) (hk₀ : σ₀.stack.IsChain (Over S A))
    (h : M.Reach C σ₀ σ) : σ.stack.IsChain (Over S A) := by
  induction h with
  | start => exact hk₀
  | step hr hc hs ih =>
      exact hS.step hM (hr.inv_ok hM hG h₀) ih (hG _ _ hc) (hC _ _ hc) hs

/-! ## 2. Debts -/

/-- What the heap owes, `owed c t`, some pending instruction of the section pays, `pays i t`:
    a debt is made together with an instruction that pays it, and is not left behind when such an
    instruction executes. -/
structure Debts (M : Machine Core Instr) (Good : Core → Instr → Prop) (I : Core → Prop)
    (Ok : Core → Instr → Prop) (S : Instr → Prop) {Debt : Type} (owed : Core → Debt → Prop)
    (pays : Instr → Debt → Prop) : Prop where
  inSection : ∀ i t, pays i t → S i
  exec : ∀ c i t, Ready Good I Ok c i → (M.exec i c).fails = false → owed (M.exec i c).core t →
    (∃ j ∈ (M.exec i c).spawned, pays j t) ∨ (owed c t ∧ ¬ pays i t)
  fails : ∀ c i t, Ready Good I Ok c i → (M.exec i c).fails = true → owed (M.exec i c).core t → owed c t
  run : ∀ c i t, M.onThrow c i = .run → ¬ S i → owed (M.exec i c).core t → owed c t

variable {Debt : Type} {owed : Core → Debt → Prop} {pays : Instr → Debt → Prop}

/-- Unwinding outside the section makes no debt. -/
theorem Debts.unwind (hD : Debts M Good I Ok S owed pays) (hS : Section M Good I Ok S A)
    {t : Debt} :
    ∀ (k : List Instr) (c : Core), k.IsChain (Over S A) → (∀ j ∈ k.head?, ¬ S j) →
      owed (M.unwind c k).1 t → owed c t
  | [], _, _, _, h => h
  | i :: k, c, hk, hh, h => by
      have hi : ¬ S i := hh i (by simp)
      rw [Machine.unwind] at h
      split at h
      · exact h
      · rename_i happ
        have hh' := not_head hk hi fun hA => happ (hS.frame i hA)
        split at h
        · exact hD.unwind hS k c (chain_tail hk) hh' h
        · rename_i hr
          exact hD.run c i t hr hi (hD.unwind hS k _ (chain_tail hk) hh' h)
        · exact h

theorem Debts.step (hD : Debts M Good I Ok S owed pays) (hS : Section M Good I Ok S A)
    (hM : Inductive M Good I Ok right) {σ σ' : Config Core Instr} {a : Action Instr}
    (hK : Keeps I Ok right σ.core σ.pending) (hk : σ.stack.IsChain (Over S A))
    (hg : M.Obeys Good σ a) (ha : Returns S A σ a)
    (hd : ∀ t, owed σ.core t → ∃ j ∈ σ.pending, pays j t) (hs : M.step σ a = some σ') :
    ∀ t, owed σ'.core t → ∃ j ∈ σ'.pending, pays j t := by
  intro t ht
  rcases step_cases hs with ⟨i, τ, rfl, hn, rfl⟩ | ⟨i, rfl, happ, -, rfl⟩ |
    ⟨i, k, rfl, hst, happ, rfl⟩ | ⟨i, k, rfl, hst, happ, rfl⟩
  · have hKτ := hK.next hn
    have hi : Ready Good I Ok τ.core i := ⟨hKτ.inv, hKτ.ok i List.mem_cons_self, hg rfl i τ hn⟩
    have hτ := hS.next hk hn
    have hdτ : owed τ.core t → ¬ pays i t → ∃ j ∈ τ.pending, pays j t := fun ho hp => by
      obtain ⟨hc, hst⟩ := next_pending hn
      obtain ⟨j, hj, hpj⟩ := hd t (hc ▸ ho)
      have hji : j ≠ i := fun h => hp (h ▸ hpj)
      refine ⟨j, ?_, hpj⟩
      rcases hst with ⟨_, hst, hq⟩ | ⟨hst, hst', hq⟩
      · simpa [Config.pending, hst, hq, hji] using hj
      · simpa [Config.pending, hst, hst', hq, hji] using hj
    unfold Machine.execute at ht ⊢
    dsimp only at ht ⊢
    split at ht
    · rename_i hf
      rw [if_pos hf]
      have hni : ¬ S i := fun h => by rw [hS.fails _ i hi h] at hf; cases hf
      have hu := hD.unwind hS _ _ hτ.1 (hτ.2 hni) ht
      obtain ⟨j, hj, hpj⟩ := hdτ (hD.fails _ i t hi hf hu) fun h => hni (hD.inSection i t h)
      have hK' : Keeps I Ok right (M.exec i τ.core).core (τ.stack ++ τ.queue) :=
        (hM.exec hKτ hi.good).sublist (List.sublist_append_right _ _)
      have hsur := (hS.unwind hM _ _ _ hK' hτ.1 (hτ.2 hni)).2
      refine ⟨j, ?_, hpj⟩
      rcases List.mem_append.mp hj with hj | hj
      · exact List.mem_append_left _ (hsur j hj (hD.inSection j t hpj))
      · exact List.mem_append_right _ (List.mem_append_left _ hj)
    · rename_i hf
      rw [if_neg hf]
      rcases hD.exec _ i t hi (by simpa using hf) ht with ⟨j, hj, hpj⟩ | ⟨ho, hp⟩
      · refine ⟨j, ?_, hpj⟩
        rcases List.mem_append.mp hj with hj | hj
        · exact List.mem_append_left _ (List.mem_append_left _ hj)
        · exact List.mem_append_right _ (List.mem_append_right _ hj)
      · obtain ⟨j, hj, hpj⟩ := hdτ ho hp
        refine ⟨j, ?_, hpj⟩
        rcases List.mem_append.mp hj with hj | hj
        · exact List.mem_append_left _ (List.mem_append_right _ hj)
        · exact List.mem_append_right _ (List.mem_append_left _ hj)
  · obtain ⟨j, hj, hpj⟩ := hd t ht
    exact ⟨j, List.mem_cons_of_mem _ hj, hpj⟩
  · obtain ⟨j, hj, hpj⟩ := hd t ht
    have hji : j ≠ i := fun h => by
      rw [hS.app i (h ▸ hD.inSection j t hpj)] at happ
      cases happ
    exact ⟨j, by simpa [Config.pending, hst, hji] using hj, hpj⟩
  · rw [hst] at hk
    have hh : ∀ j ∈ k.head?, ¬ S j := hS.not_below happ hk (ha rfl i k hst)
    have hu := hD.unwind hS k _ (chain_tail hk) hh ht
    obtain ⟨j, hj, hpj⟩ := hd t hu
    have hji : j ≠ i := fun h => by
      rw [hS.app i (h ▸ hD.inSection j t hpj)] at happ
      cases happ
    have hK' : Keeps I Ok right σ.core (k ++ σ.queue) := hK.sublist (by
      simp only [Config.pending, hst]
      exact List.sublist_cons_self _ _)
    have hsur := (hS.unwind hM _ k _ hK' (chain_tail hk) hh).2
    refine ⟨j, ?_, hpj⟩
    have hj' : j ∈ k ∨ j ∈ σ.queue := by simpa [Config.pending, hst, hji] using hj
    rcases hj' with hj' | hj'
    · exact List.mem_append_left _ (hsur j hj' (hD.inSection j t hpj))
    · exact List.mem_append_right _ hj'

/-- **The rule for debts.** -/
theorem Reach.debts {C : Config Core Instr → Action Instr → Prop} {σ₀ σ : Config Core Instr}
    (hD : Debts M Good I Ok S owed pays) (hS : Section M Good I Ok S A)
    (hM : Inductive M Good I Ok right) (hG : ∀ τ a, C τ a → M.Obeys Good τ a)
    (hC : ∀ τ a, C τ a → Returns S A τ a)
    (h₀ : Keeps I Ok right σ₀.core σ₀.pending) (hk₀ : σ₀.stack.IsChain (Over S A))
    (hd₀ : ∀ t, owed σ₀.core t → ∃ j ∈ σ₀.pending, pays j t) (h : M.Reach C σ₀ σ) :
    ∀ t, owed σ.core t → ∃ j ∈ σ.pending, pays j t := by
  induction h with
  | start => exact hd₀
  | step hr hc hs ih =>
      exact hD.step hS hM (hr.inv_ok hM hG h₀) (hr.chain hS hM hG hC h₀ hk₀) (hG _ _ hc)
        (hC _ _ hc) ih hs

/-! ## 3. Atomic sections -/

/-- An invariant `I` that is broken and restored. Within an atomic section `Mid` describes the heap
    together with the top of the stack, down to the instruction that restores `I`; everywhere else
    `I` holds. `I₁` and `Ok₁` are known of every state. -/
structure Atomic (M : Machine Core Instr) (Good : Core → Instr → Prop) (I₁ : Core → Prop)
    (Ok₁ : Core → Instr → Prop) (I : Core → Prop) (Ok : Core → Instr → Prop)
    (Mid : Core → List Instr → Prop) : Prop where
  exec : ∀ c i, Ready Good I₁ Ok₁ c i → I c → Ok c i →
    (I (M.exec i c).core ∧ ∀ j ∈ (M.exec i c).spawned, Ok (M.exec i c).core j) ∨
      ((M.exec i c).fails = false ∧ ∃ pre l, (M.exec i c).push = pre ++ l ∧
        Mid (M.exec i c).core pre ∧ ∀ j ∈ l ++ (M.exec i c).post, Ok (M.exec i c).core j)
  stable : ∀ c i j, Ready Good I₁ Ok₁ c i → Ok₁ c j → Ok c j → Ok (M.exec i c).core j
  call : ∀ c i, I₁ c → I c → M.callable c i = true → Ok c i
  handle : ∀ c i is, M.onThrow c i = .handle is → ∀ j ∈ is, Ok c j
  run : ∀ c i, I₁ c → Ok₁ c i → M.onThrow c i = .run → I c → I (M.exec i c).core
  mid : ∀ c i pre, Ready Good I₁ Ok₁ c i → Mid c (i :: pre) → M.isApp i = false →
    ((M.exec i c).fails = false ∧ Mid (M.exec i c).core ((M.exec i c).push ++ pre) ∧
        ∀ j ∈ (M.exec i c).post, Ok (M.exec i c).core j) ∨
      (I (M.exec i c).core ∧ ∀ j ∈ (M.exec i c).spawned ++ pre, Ok (M.exec i c).core j)
  ret : ∀ c i pre, Mid c (i :: pre) → M.isApp i = true → Mid c pre
  nonempty : ∀ c, ¬ Mid c []

/-- Outside every atomic section, or within one. -/
def Between (I : Core → Prop) (Ok : Core → Instr → Prop) (Mid : Core → List Instr → Prop)
    (σ : Config Core Instr) : Prop :=
  (I σ.core ∧ ∀ j ∈ σ.pending, Ok σ.core j) ∨
    ∃ pre k, σ.stack = pre ++ k ∧ Mid σ.core pre ∧ ∀ j ∈ k ++ σ.queue, Ok σ.core j

/-- Application code that runs within an atomic section returns. -/
def Yields (M : Machine Core Instr) (Mid : Core → List Instr → Prop) (σ : Config Core Instr)
    (a : Action Instr) : Prop :=
  ∀ i pre k, σ.stack = i :: pre ++ k → Mid σ.core (i :: pre) → M.isApp i = true → a = .ret

variable {I₁ : Core → Prop} {Ok₁ : Core → Instr → Prop} {Mid : Core → List Instr → Prop}

theorem Atomic.unwind (hA : Atomic M Good I₁ Ok₁ I Ok Mid)
    (h₁ : Inductive M Good I₁ Ok₁ fun _ => (none : Option Unit)) (q : List Instr) :
    ∀ (k : List Instr) (c : Core), Keeps I₁ Ok₁ (fun _ => (none : Option Unit)) c (k ++ q) → I c →
      (∀ j ∈ k ++ q, Ok c j) →
      I (M.unwind c k).1 ∧ ∀ j ∈ (M.unwind c k).2 ++ q, Ok (M.unwind c k).1 j
  | [], c, _, hI, hO => ⟨hI, hO⟩
  | i :: k, c, hK, hI, hO => by
      have hOk : ∀ j ∈ k ++ q, Ok c j := fun j hj => hO j (List.mem_cons_of_mem _ hj)
      have hK' : Keeps I₁ Ok₁ (fun _ => (none : Option Unit)) c (k ++ q) :=
        hK.sublist (List.sublist_cons_self _ _)
      have hi : Ok₁ c i := hK.ok i List.mem_cons_self
      rw [Machine.unwind]
      split
      · exact ⟨hI, hO⟩
      · split
        · exact hA.unwind h₁ q k c hK' hI hOk
        · rename_i hr
          exact hA.unwind h₁ q k _
            ((h₁.exec hK (h₁.free c i hr)).sublist (List.sublist_append_right _ _))
            (hA.run c i hK.inv hi hr hI)
            fun j hj => hA.stable c i j ⟨hK.inv, hi, h₁.free c i hr⟩ (hK'.ok j hj) (hOk j hj)
        · rename_i is his
          refine ⟨hI, fun j hj => ?_⟩
          rw [List.append_assoc] at hj
          rcases List.mem_append.mp hj with hj | hj
          · exact hA.handle c i is his j hj
          · exact hOk j hj

theorem next_all {σ τ : Config Core Instr} {i : Instr} (hn : M.next σ = some (i, τ))
    (h : ∀ j ∈ σ.pending, Ok σ.core j) : ∀ j ∈ i :: τ.pending, Ok τ.core j := by
  obtain ⟨hc, ⟨-, hst, hq⟩ | ⟨hst, hst', hq⟩⟩ := next_pending hn
  · simpa [Config.pending, hst, hq, hc] using h
  · simpa [Config.pending, hst, hst', hq, hc] using h

/-- Executing an instruction outside the atomic sections. -/
theorem Atomic.execute (hA : Atomic M Good I₁ Ok₁ I Ok Mid)
    (h₁ : Inductive M Good I₁ Ok₁ fun _ => (none : Option Unit)) {σ : Config Core Instr} {i : Instr}
    (hK : Keeps I₁ Ok₁ (fun _ => (none : Option Unit)) σ.core (i :: σ.pending))
    (hg : Good σ.core i) (hI : I σ.core) (hO : ∀ j ∈ i :: σ.pending, Ok σ.core j) :
    Between I Ok Mid (M.execute i σ) := by
  have hK' := h₁.exec hK hg
  have hi : Ready Good I₁ Ok₁ σ.core i := ⟨hK.inv, hK.ok i List.mem_cons_self, hg⟩
  have hrest : ∀ j ∈ σ.pending, Ok (M.exec i σ.core).core j := fun j hj =>
    hA.stable _ i j hi (hK.ok j (List.mem_cons_of_mem _ hj)) (hO j (List.mem_cons_of_mem _ hj))
  unfold Machine.execute
  dsimp only
  rcases hA.exec _ i hi hI (hO i List.mem_cons_self) with
    ⟨hI', hsp⟩ | ⟨hf, pre, l, hpush, hm, hl⟩
  · have hpost : ∀ j ∈ σ.stack ++ (σ.queue ++ (M.exec i σ.core).post),
        Ok (M.exec i σ.core).core j := fun j hj => by
      rw [← List.append_assoc] at hj
      rcases List.mem_append.mp hj with hj | hj
      · exact hrest j hj
      · exact hsp j (List.mem_append_right _ hj)
    split
    · refine Or.inl (hA.unwind h₁ _ _ _ ?_ hI' hpost)
      refine (hK'.sublist (List.Sublist.append_right (List.sublist_append_right _ _) _)).perm ?_
      exact List.perm_append_comm.trans (by simp [Config.pending])
    · refine Or.inl ⟨hI', fun j hj => ?_⟩
      rw [Config.pending, List.append_assoc] at hj
      rcases List.mem_append.mp hj with hj | hj
      · exact hsp j (List.mem_append_left _ hj)
      · exact hpost j hj
  · rw [if_neg (by simp [hf])]
    refine Or.inr ⟨pre, l ++ σ.stack, by simp [hpush], hm, fun j hj => ?_⟩
    have hcase : j ∈ l ++ (M.exec i σ.core).post ∨ j ∈ σ.pending := by
      simp only [Config.pending, List.mem_append] at hj ⊢
      tauto
    exact hcase.elim (hl j) (hrest j)

/-- Executing an instruction of an atomic section. -/
theorem Atomic.stepMid (hA : Atomic M Good I₁ Ok₁ I Ok Mid)
    (h₁ : Inductive M Good I₁ Ok₁ fun _ => (none : Option Unit)) {σ σ' : Config Core Instr}
    {a : Action Instr} {i : Instr} {pre k : List Instr} (hg : M.Obeys Good σ a)
    (hK : Keeps I₁ Ok₁ (fun _ => (none : Option Unit)) σ.core σ.pending)
    (hst : σ.stack = i :: pre ++ k) (hm : Mid σ.core (i :: pre)) (happ : M.isApp i = false)
    (hO : ∀ j ∈ k ++ σ.queue, Ok σ.core j) (hs : M.step σ a = some σ') : Between I Ok Mid σ' := by
  rcases step_cases hs with ⟨i', τ, rfl, hn, rfl⟩ | ⟨i', -, happ', -, -⟩ | ⟨i', k', -, hst', happ', -⟩ |
    ⟨i', k', -, hst', happ', -⟩
  · obtain ⟨rfl, rfl⟩ : i' = i ∧ τ = { σ with stack := pre ++ k } := by
      simp only [next, hst, List.cons_append, happ, Bool.false_eq_true, if_false,
        Option.some.injEq, Prod.mk.injEq] at hn
      exact ⟨hn.1.symm, hn.2.symm⟩
    have hi : Ready Good I₁ Ok₁ σ.core i' :=
      ⟨hK.inv, hK.ok i' (by simp [Config.pending, hst]),
        hg rfl i' { σ with stack := pre ++ k } hn⟩
    have hrest : ∀ j ∈ k ++ σ.queue, Ok (M.exec i' σ.core).core j := by
      intro j hj
      refine hA.stable _ i' j hi (hK.ok j ?_) (hO j hj)
      simp only [Config.pending, hst, List.cons_append, List.append_assoc]
      exact List.mem_cons_of_mem _ (List.mem_append_right _ hj)
    have hqueue : (∀ j ∈ (M.exec i' σ.core).post, Ok (M.exec i' σ.core).core j) →
        ∀ j ∈ k ++ (σ.queue ++ (M.exec i' σ.core).post), Ok (M.exec i' σ.core).core j := by
      intro hp j hj
      rw [← List.append_assoc] at hj
      exact (List.mem_append.mp hj).elim (hrest j) (hp j)
    unfold Machine.execute
    dsimp only
    rcases hA.mid _ i' pre hi hm happ with ⟨hf, hm', hp⟩ | ⟨hI', hsp⟩
    · rw [if_neg (by simp [hf]), ← List.append_assoc]
      exact Or.inr ⟨_, k, rfl, hm', hqueue hp⟩
    · have hp := hqueue fun j hj =>
        hsp j (List.mem_append_left _ (List.mem_append_right _ hj))
      have hpre : ∀ j ∈ pre ++ k ++ (σ.queue ++ (M.exec i' σ.core).post),
          Ok (M.exec i' σ.core).core j := fun j hj => by
        rw [List.append_assoc] at hj
        exact (List.mem_append.mp hj).elim (fun hj => hsp j (List.mem_append_right _ hj)) (hp j)
      split
      · have hK' := h₁.exec (hK.next hn) hi.good
        refine Or.inl (hA.unwind h₁ _ _ _ ?_ hI' hpre)
        refine (hK'.sublist (List.Sublist.append_right (List.sublist_append_right _ _) _)).perm ?_
        exact List.perm_append_comm.trans (by simp [Config.pending])
      · refine Or.inl ⟨hI', fun j hj => ?_⟩
        rw [Config.pending, List.append_assoc] at hj
        exact (List.mem_append.mp hj).elim
          (fun hj => hsp j (List.mem_append_left _ (List.mem_append_left _ hj))) (hpre j)
  · simp [inApp, hst, happ] at happ'
  · rw [hst', List.cons_append, List.cons.injEq] at hst
    rw [hst.1, happ] at happ'
    cases happ'
  · rw [hst', List.cons_append, List.cons.injEq] at hst
    rw [hst.1, happ] at happ'
    cases happ'

theorem Atomic.step (hA : Atomic M Good I₁ Ok₁ I Ok Mid)
    (h₁ : Inductive M Good I₁ Ok₁ fun _ => (none : Option Unit)) {σ σ' : Config Core Instr}
    {a : Action Instr} (hK : Keeps I₁ Ok₁ (fun _ => (none : Option Unit)) σ.core σ.pending)
    (hg : M.Obeys Good σ a) (hy : Yields M Mid σ a) (h : Between I Ok Mid σ)
    (hs : M.step σ a = some σ') : Between I Ok Mid σ' := by
  rcases h with ⟨hI, hO⟩ | ⟨pre, k, hst, hm, hO⟩
  · rcases step_cases hs with ⟨i, τ, rfl, hn, rfl⟩ | ⟨i, -, -, hc, rfl⟩ | ⟨i, k, -, hst, -, rfl⟩ |
      ⟨i, k, -, hst, -, rfl⟩
    · exact hA.execute h₁ (hK.next hn) (hg rfl i τ hn) ((next_pending hn).1 ▸ hI)
        (next_all hn hO)
    · refine Or.inl ⟨hI, fun j hj => ?_⟩
      rcases List.mem_cons.mp hj with rfl | hj
      · exact hA.call _ j hK.inv hI hc
      · exact hO j hj
    · refine Or.inl ⟨hI, fun j hj => hO j ?_⟩
      simp only [Config.pending, hst]
      exact List.mem_cons_of_mem _ hj
    · have hsub : (k ++ σ.queue).Sublist σ.pending := by
        simp only [Config.pending, hst]
        exact List.sublist_cons_self _ _
      exact Or.inl (hA.unwind h₁ σ.queue k _ (hK.sublist hsub) hI fun j hj =>
        hO j (hsub.subset hj))
  · cases pre with
    | nil => exact absurd hm (hA.nonempty _)
    | cons i pre =>
        by_cases happ : M.isApp i = true
        · obtain rfl := hy i pre k hst hm happ
          simp only [Machine.step, hst, List.cons_append, if_pos happ, Option.some.injEq] at hs
          exact hs ▸ Or.inr ⟨pre, k, rfl, hA.ret _ i pre hm happ, hO⟩
        · exact hA.stepMid h₁ hg hK hst hm (by simpa using happ) hO hs

/-- **The rule for atomic sections.** -/
theorem Reach.between {C : Config Core Instr → Action Instr → Prop} {σ₀ σ : Config Core Instr}
    (hA : Atomic M Good I₁ Ok₁ I Ok Mid)
    (h₁ : Inductive M Good I₁ Ok₁ fun _ => (none : Option Unit))
    (hG : ∀ τ a, C τ a → M.Obeys Good τ a) (hC : ∀ τ a, C τ a → Yields M Mid τ a)
    (hK₀ : Keeps I₁ Ok₁ (fun _ => (none : Option Unit)) σ₀.core σ₀.pending)
    (h₀ : Between I Ok Mid σ₀) (h : M.Reach C σ₀ σ) : Between I Ok Mid σ := by
  induction h with
  | start => exact h₀
  | step hr hc hs ih =>
      exact hA.step h₁ (hr.inv_ok h₁ hG hK₀) (hG _ _ hc) (hC _ _ hc) ih hs

/-! ## 4. Passages -/

/-- An invariant `I` that is broken and restored without application code running in between: within
    the passage `Mid` describes the heap together with the instructions up to the one that restores
    `I`. `Known` holds of every instruction that is executed. -/
structure Passage (M : Machine Core Instr) (Known : Core → Instr → Prop) (I : Core → Prop)
    (Mid : Core → List Instr → Prop) : Prop where
  exec : ∀ c i, Known c i → I c → I (M.exec i c).core ∨
    ((M.exec i c).fails = false ∧ ∃ pre l, (M.exec i c).push = pre ++ l ∧ Mid (M.exec i c).core pre)
  mid : ∀ c i pre, Known c i → Mid c (i :: pre) → (M.exec i c).fails = false ∧
    (Mid (M.exec i c).core ((M.exec i c).push ++ pre) ∨ I (M.exec i c).core)
  inside : ∀ c i pre, Mid c (i :: pre) → M.isApp i = false
  run : ∀ c i, M.onThrow c i = .run → I c → I (M.exec i c).core
  nonempty : ∀ c, ¬ Mid c []

/-- Outside every passage, or within one. -/
def Passing (I : Core → Prop) (Mid : Core → List Instr → Prop) (σ : Config Core Instr) : Prop :=
  I σ.core ∨ ∃ pre k, σ.stack = pre ++ k ∧ Mid σ.core pre

section Passage

variable {Known : Core → Instr → Prop} {Mid : Core → List Instr → Prop}

theorem Passage.unwind (hP : Passage M Known I Mid) :
    ∀ (k : List Instr) (c : Core), I c → I (M.unwind c k).1
  | [], _, h => h
  | i :: k, c, h => by
      rw [Machine.unwind]
      split
      · exact h
      · split
        · exact hP.unwind k c h
        · rename_i hr
          exact hP.unwind k _ (hP.run c i hr h)
        · exact h

theorem Passage.outside (hP : Passage M Known I Mid) {σ : Config Core Instr}
    (h : Passing I Mid σ) (ha : M.inApp σ = true) : I σ.core := by
  rcases h with h | ⟨pre, k, hst, hm⟩
  · exact h
  · cases pre with
    | nil => exact absurd hm (hP.nonempty _)
    | cons i pre =>
        have hi := hP.inside _ i pre hm
        simp [Machine.inApp, hst, hi] at ha

theorem Passage.step (hP : Passage M Known I Mid) {σ σ' : Config Core Instr} {a : Action Instr}
    (h : Passing I Mid σ) (hk : ∀ i τ, M.next σ = some (i, τ) → Known σ.core i)
    (hs : M.step σ a = some σ') : Passing I Mid σ' := by
  rcases step_cases hs with ⟨i, τ, rfl, hn, rfl⟩ | ⟨i, -, ha, -, rfl⟩ | ⟨i, k, -, hst, ha, rfl⟩ |
    ⟨i, k, -, hst, ha, rfl⟩
  · have hi := hk i τ hn
    obtain ⟨hc, hnext⟩ := next_pending hn
    unfold Machine.execute
    dsimp only
    rw [← hc]
    rcases h with h | ⟨pre, l, hst, hm⟩
    · rcases hP.exec _ i hi h with hI | ⟨hf, pre, l, hpush, hm⟩
      · split
        · exact Or.inl (hP.unwind _ _ hI)
        · exact Or.inl hI
      · rw [if_neg (by simp [hf])]
        exact Or.inr ⟨pre, l ++ τ.stack, by rw [hpush, List.append_assoc], hm⟩
    · cases pre with
      | nil => exact absurd hm (hP.nonempty _)
      | cons j pre =>
          rcases hnext with ⟨-, hst', -⟩ | ⟨hst', -⟩
          · rw [hst', List.cons_append, List.cons.injEq] at hst
            obtain ⟨rfl, hst⟩ := hst
            obtain ⟨hf, hm | hI⟩ := hP.mid _ i pre hi hm
            · rw [if_neg (by simp [hf])]
              exact Or.inr ⟨_, l, by rw [hst, List.append_assoc], hm⟩
            · rw [if_neg (by simp [hf])]
              exact Or.inl hI
          · rw [hst'] at hst
            cases hst
  · have hI : I σ.core := hP.outside h ha
    exact Or.inl hI
  · have hI : I σ.core := hP.outside h (by simp [Machine.inApp, hst, ha])
    exact Or.inl hI
  · have hI : I σ.core := hP.outside h (by simp [Machine.inApp, hst, ha])
    exact Or.inl (hP.unwind k σ.core hI)

end Passage

end Machine

end EventLoop
