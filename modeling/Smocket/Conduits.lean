import Smocket.Traces

/-
  File:      Smocket/Conduits.lean
  Subject:   A CONDUIT THROUGH THE TASK QUEUE. Library: what is sent in one task and received in a
             later one keeps its order, as what is posted executes behind everything posted before.

  * `Conduit` -- what instructions send, what pending instructions carry, what the heap records as
    received;
  * `Conduit.Sound` -- an instruction posts no more than it sends, and what it carries it records or
    pushes on;
  * `Run.conveys` -- the rule: what has been received, then what is on its way, is part of what has
    been sent, in that order;
  * `Run.flows` -- the same of any two ends, if each step keeps the order of what is between them;
  * `Run.ascending` -- what is numbered by a counter;
  * `Run.stays`, `Run.first` -- what stays along a run, and what executes first.
-/

namespace EventLoop

namespace Machine

variable {Core Instr Parcel : Type}

section Pending

variable {M : Machine Core Instr} {f : Instr → List Parcel} {σ τ : Config Core Instr} {i : Instr}

/-- The instruction that executes is the first of all that are pending. -/
theorem next_flatMap (hn : M.next σ = some (i, τ)) :
    σ.pending.flatMap f = f i ++ τ.pending.flatMap f := by
  obtain ⟨-, ⟨-, hst, hq⟩ | ⟨hst, hst', hq⟩⟩ := next_pending hn
  · simp [Config.pending, hst, hq]
  · simp [Config.pending, hst, hst', hq]

/-- What it pushes stands before what waited, what it posts behind; an exception takes from the
    stack what the instruction has pushed, and perhaps more. -/
theorem execute_flatMap (hh : ∀ c i is, M.onThrow c i = .handle is → ∀ j ∈ is, f j = []) :
    ((M.execute i τ).pending.flatMap f).Sublist ((M.exec i τ.core).push.flatMap f ++
      (τ.pending.flatMap f ++ (M.exec i τ.core).post.flatMap f)) := by
  unfold Machine.execute
  dsimp only
  split
  · simp only [Config.pending, List.flatMap_append, List.append_assoc]
    exact ((unwind_flatMap hh _ _).append (List.Sublist.refl _)).trans
      (List.sublist_append_right _ _)
  · simp only [Config.pending, List.flatMap_append, List.append_assoc]
    exact List.Sublist.refl _

end Pending

/-- One direction of traffic. -/
structure Conduit (Core Instr Parcel : Type) where
  /-- what an instruction sends -/
  sends : Core → Instr → List Parcel
  /-- what a pending instruction carries -/
  carries : Instr → List Parcel
  /-- what has been received, oldest first -/
  received : Core → List Parcel

namespace Conduit

variable (K : Conduit Core Instr Parcel)

/-- What a run has sent. -/
def sent (tr : List (Core × Instr)) : List Parcel := tr.flatMap fun x => K.sends x.1 x.2

/-- What has been received, then what is on its way. -/
def line (σ : Config Core Instr) : List Parcel := K.received σ.core ++ σ.pending.flatMap K.carries

/-- What one instruction does with its parcels, in a heap where it may execute (`Fit`). -/
structure Sound (M : Machine Core Instr) (Fit : Core → Instr → Prop) : Prop where
  post : ∀ c i, Fit c i → ((M.exec i c).post.flatMap K.carries).Sublist (K.sends c i)
  push : ∀ c i, Fit c i → (K.received (M.exec i c).core ++
    (M.exec i c).push.flatMap K.carries).Sublist (K.received c ++ K.carries i)
  handle : ∀ c i is, M.onThrow c i = .handle is → ∀ j ∈ is, K.carries j = []
  run : ∀ c i, M.onThrow c i = .run → K.received (M.exec i c).core = K.received c

variable {K} {M : Machine Core Instr} {Fit : Core → Instr → Prop}
  {C : Config Core Instr → Action Instr → Prop} {σ₀ σ σ' : Config Core Instr}

theorem sent_append (tr tr' : List (Core × Instr)) : K.sent (tr ++ tr') = K.sent tr ++ K.sent tr' :=
  List.flatMap_append

theorem Sound.unwind (hK : K.Sound M Fit) : ∀ (k : List Instr) (c : Core),
    K.received (M.unwind c k).1 = K.received c
  | [], _ => rfl
  | i :: k, c => by
      rw [Machine.unwind]
      split
      · rfl
      · split
        · exact hK.unwind k c
        · rename_i hr
          exact (hK.unwind k _).trans (hK.run c i hr)
        · rfl

theorem Sound.received (hK : K.Sound M Fit) (τ : Config Core Instr) (i : Instr) :
    K.received (M.execute i τ).core = K.received (M.exec i τ.core).core := by
  unfold Machine.execute
  dsimp only
  split
  · exact hK.unwind _ _
  · rfl

theorem Sound.execute (hK : K.Sound M Fit) {τ : Config Core Instr} {i : Instr}
    (hi : Fit τ.core i) : (K.line (M.execute i τ)).Sublist
      ((K.received τ.core ++ K.carries i) ++ (τ.pending.flatMap K.carries ++ K.sends τ.core i)) := by
  have hpost := hK.post τ.core i hi
  have hpush := hK.push τ.core i hi
  have hpending := execute_flatMap (M := M) (τ := τ) (i := i) hK.handle
  rw [line, hK.received]
  refine ((List.Sublist.refl _).append hpending).trans ?_
  rw [← List.append_assoc]
  exact hpush.append ((List.Sublist.refl _).append hpost)

theorem Sound.step (hK : K.Sound M Fit) {a : Action Instr}
    (hrun : a = .run → ∀ i τ, M.next σ = some (i, τ) → Fit σ.core i)
    (hcall : ∀ i, a = .call i → M.callable σ.core i = true → K.carries i = [])
    (hs : M.step σ a = some σ') : (K.line σ').Sublist (K.line σ ++ K.sent (M.taken σ a)) := by
  rcases step_cases hs with ⟨i, τ, rfl, hn, rfl⟩ | ⟨i, rfl, -, hc, rfl⟩ | ⟨i, k, rfl, hst, -, rfl⟩ |
    ⟨i, k, rfl, hst, -, rfl⟩
  · have hcore := (next_pending hn).1
    have hsent : K.sent (M.taken σ .run) = K.sends σ.core i := by simp [taken, hn, sent]
    have hline : K.line σ = K.received τ.core ++ K.carries i ++ τ.pending.flatMap K.carries := by
      rw [line, next_flatMap hn, hcore, List.append_assoc]
    rw [hline, hsent, hcore, List.append_assoc]
    exact hK.execute (hcore ▸ hrun rfl i τ hn)
  · simp [line, Config.pending, sent, taken, hcall i rfl hc]
  · simp [line, Config.pending, sent, taken, hst]
  · simp only [line, Config.pending, hst, hK.unwind, sent, taken, List.flatMap_nil, List.append_nil,
      List.flatMap_append, List.flatMap_cons, List.append_assoc]
    refine (List.Sublist.refl _).append (((unwind_flatMap hK.handle _ _).append
      (List.Sublist.refl _)).trans ?_)
    exact List.sublist_append_right _ _

end Conduit

variable {M : Machine Core Instr} {Fit : Core → Instr → Prop}
  {C : Config Core Instr → Action Instr → Prop} {σ₀ σ : Config Core Instr}

/-- **The rule.** -/
theorem Run.conveys {K : Conduit Core Instr Parcel} (hK : K.Sound M Fit)
    (hrun : ∀ τ i τ', M.Reach C σ₀ τ → C τ .run → M.next τ = some (i, τ') → Fit τ.core i)
    (hcall : ∀ τ i, M.Reach C σ₀ τ → C τ (.call i) → M.callable τ.core i = true →
      K.carries i = [])
    (h₀ : K.line σ₀ = []) {tr : List (Core × Instr)} (h : M.Run C σ₀ tr σ) :
    (K.line σ).Sublist (K.sent tr) := by
  induction h with
  | start => exact h₀ ▸ List.nil_sublist _
  | @step tr σ σ' a hr hc hs ih =>
      rw [Conduit.sent_append]
      refine (hK.step (fun ha i τ hn => ?_) (fun i ha hi => ?_) hs).trans
        (ih.append (List.Sublist.refl _))
      · subst ha
        exact hrun σ i τ hr.reach hc hn
      · subst ha
        exact hcall σ i hr.reach hc hi

/-- What goes in at one end comes out at the other in its order, if each step keeps what is
    between. -/
theorem Run.flows (f g : Core → Instr → List Parcel) (mid : Config Core Instr → List Parcel)
    (hstep : ∀ τ a τ', M.Reach C σ₀ τ → C τ a → M.step τ a = some τ' →
      ((M.taken τ a).flatMap (fun x => g x.1 x.2) ++ mid τ').Sublist
        (mid τ ++ (M.taken τ a).flatMap fun x => f x.1 x.2))
    (h₀ : mid σ₀ = []) {tr : List (Core × Instr)} (h : M.Run C σ₀ tr σ) :
    (tr.flatMap (fun x => g x.1 x.2) ++ mid σ).Sublist (tr.flatMap fun x => f x.1 x.2) := by
  induction h with
  | start => exact h₀ ▸ List.Sublist.refl _
  | @step tr σ σ' a hr hc hs ih =>
      rw [List.flatMap_append, List.flatMap_append, List.append_assoc]
      refine ((List.Sublist.refl _).append (hstep σ a σ' hr.reach hc hs)).trans ?_
      rw [← List.append_assoc]
      exact ih.append (List.Sublist.refl _)

/-- What takes its number from a counter that never goes back is numbered in the order of a run. -/
theorem Run.ascending (g : Core → Instr → List Parcel) (number : Parcel → Nat) (count : Core → Nat)
    (hK : Keeping M fun c c' => count c ≤ count c')
    (hexec : ∀ c i, count c ≤ count (M.exec i c).core)
    (hnew : ∀ c i, ∀ x ∈ g c i, number x = count c ∧ count c < count (M.exec i c).core)
    (hone : ∀ c i, (g c i).length ≤ 1) {tr : List (Core × Instr)} (h : M.Run C σ₀ tr σ) :
    (tr.flatMap fun x => g x.1 x.2).Pairwise (fun x y => number x < number y) ∧
      ∀ x ∈ tr.flatMap (fun x => g x.1 x.2), number x < count σ.core := by
  induction h with
  | start => exact ⟨.nil, fun _ hx => absurd hx List.not_mem_nil⟩
  | @step tr σ σ' a hr hc hs ih =>
      rw [List.flatMap_append, List.pairwise_append]
      rcases hK.step hs with ⟨i, τ, rfl, -, ht, hle⟩ | ⟨ht, hle⟩
      · simp only [ht, List.flatMap_cons, List.flatMap_nil, List.append_nil]
        have hpair : (g σ.core i).Pairwise fun x y => number x < number y := by
          have hlen := hone σ.core i
          rcases hg : g σ.core i with _ | ⟨x, l⟩
          · exact .nil
          · obtain rfl : l = [] := by simpa [hg] using hlen
            exact List.pairwise_singleton _ _
        refine ⟨⟨ih.1, hpair, fun x hx y hy => ?_⟩, fun x hx => ?_⟩
        · rw [(hnew σ.core i y hy).1]
          exact ih.2 x hx
        · rcases List.mem_append.mp hx with hx | hx
          · exact Nat.lt_of_lt_of_le (ih.2 x hx) (Nat.le_trans (hexec σ.core i) hle)
          · obtain ⟨he, hlt⟩ := hnew σ.core i x hx
            exact he ▸ Nat.lt_of_lt_of_le hlt hle
      · rw [ht, List.flatMap_nil, List.append_nil]
        exact ⟨⟨ih.1, .nil, fun _ _ _ hy => absurd hy List.not_mem_nil⟩, fun x hx =>
          Nat.lt_of_lt_of_le (ih.2 x hx) hle⟩

/-- What no instruction undoes stays along a run. -/
theorem Run.stays {p : Core → Prop} (hexec : ∀ c i, p c → p (M.exec i c).core)
    {tr : List (Core × Instr)} (h : M.Run C σ₀ tr σ) (h₀ : p σ₀.core) :
    p σ.core ∧ ∀ x ∈ tr, p x.1 := by
  have hK : Keeping M fun c c' => p c → p c' :=
    ⟨fun _ => id, fun h h' => h' ∘ h, fun c i _ => hexec c i⟩
  induction h with
  | start => exact ⟨h₀, fun _ hx => absurd hx List.not_mem_nil⟩
  | @step tr σ σ' a hr hc hs ih =>
      rcases hK.step hs with ⟨i, τ, -, -, ht, hp⟩ | ⟨ht, hp⟩
      · refine ⟨hp (hexec _ _ ih.1), fun x hx => ?_⟩
        rw [ht] at hx
        rcases List.mem_append.mp hx with hx | hx
        · exact ih.2 x hx
        · rw [List.mem_singleton.mp hx]
          exact ih.1
      · refine ⟨hp ih.1, fun x hx => ih.2 x ?_⟩
        rwa [ht, List.append_nil] at hx

/-- An instruction of the runtime on top of the stack executes first. -/
theorem Run.first {j : Instr} {k : List Instr} (hst : σ₀.stack = j :: k) (hj : M.isApp j = false)
    {tr : List (Core × Instr)} (h : M.Run C σ₀ tr σ) :
    (tr = [] ∧ σ = σ₀) ∨ ∃ tr' σ₁, tr = (σ₀.core, j) :: tr' ∧ M.step σ₀ .run = some σ₁ ∧
      M.Run C σ₁ tr' σ := by
  induction h with
  | start => exact Or.inl ⟨rfl, rfl⟩
  | @step tr σ σ' a hr hc hs ih =>
      rcases ih with ⟨rfl, rfl⟩ | ⟨tr', σ₁, rfl, hs₁, hr₁⟩
      · obtain ⟨rfl, τ, hn⟩ : a = .run ∧ ∃ τ, M.next σ = some (j, τ) := by
          rcases step_cases hs with ⟨i, τ, rfl, hn, -⟩ | ⟨i, rfl, happ, -, -⟩ |
            ⟨i, k', rfl, hst', happ, -⟩ | ⟨i, k', rfl, hst', happ, -⟩
          · obtain ⟨-, ⟨-, hst', -⟩ | ⟨hst', -, -⟩⟩ := next_pending hn
            · obtain ⟨rfl, -⟩ := List.cons.inj (hst.symm.trans hst')
              exact ⟨rfl, τ, hn⟩
            · cases hst.symm.trans hst'
          · simp [inApp, hst, hj] at happ
          all_goals
            obtain ⟨rfl, -⟩ := List.cons.inj (hst.symm.trans hst')
            cases hj.symm.trans happ
        exact Or.inr ⟨[], σ', by simp [taken, hn], hs, .start⟩
      · exact Or.inr ⟨_, σ₁, List.cons_append .., hs₁, hr₁.step hc hs⟩

end Machine

end EventLoop
