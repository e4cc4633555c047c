import Smocket.Grounds

/-
  File:      Smocket/Orders.lean
  Subject:   THE ORDER OF WHAT IS PENDING. Library: a relation between any two pending instructions,
             the earlier and the later one, kept along a run.

  The instruction about to execute is the first of all that are pending. What it pushes takes its
  place, what it posts goes behind everything else; an exception only takes instructions away. So a
  relation is kept if what is pushed inherits it, and what is posted may stand behind the rest.

  * `Machine.Order` -- the hypotheses;
  * `Machine.Reach.order` -- the rule;
  * `Machine.Line`, `Machine.Reach.line` -- the same for a relation between kinds of instructions,
    together with an invariant of the heap that rests on it;
  * `Machine.restrict`, `Machine.Reach.line_idle` -- the same where some calls are made between two
    tasks only.
-/

namespace EventLoop

namespace Machine

variable {Core Instr : Type} {M : Machine Core Instr}

/-! ## 1. Orders -/

/-- A fact `Ok` about each pending instruction, which may rest on the relation `Rel` to the one that
    executes before it, and the relation itself. `Fits` is what a run promises about what is posted
    behind the other instructions; `I₁` and `Ok₁` are known of every state. -/
structure Order (M : Machine Core Instr) (Good : Core → Instr → Prop) (I₁ : Core → Prop)
    (Ok₁ : Core → Instr → Prop) (Fits : Core → Instr → Instr → Prop) (Ok : Core → Instr → Prop)
    (Rel : Core → Instr → Instr → Prop) : Prop where
  spawn : ∀ c i, Ready Good I₁ Ok₁ c i → Ok c i →
    ∀ j ∈ (M.exec i c).spawned, Ok (M.exec i c).core j
  keep : ∀ c i j, Ready Good I₁ Ok₁ c i → Ok₁ c j → Ok c i → Ok c j → Rel c i j →
    Ok (M.exec i c).core j
  stable : ∀ c i j k, Ready Good I₁ Ok₁ c i → Ok₁ c j → Ok₁ c k → Rel c i j → Rel c i k →
    Rel c j k → Rel (M.exec i c).core j k
  push : ∀ c i j p, Ready Good I₁ Ok₁ c i → Ok₁ c j → Ok c i → Ok c j → Rel c i j →
    p ∈ (M.exec i c).push → Rel (M.exec i c).core p j
  post : ∀ c i j p, Ready Good I₁ Ok₁ c i → Ok₁ c j → Ok c i → Ok c j → Rel c i j → Fits c i j →
    p ∈ (M.exec i c).post → Rel (M.exec i c).core j p
  inner : ∀ c i, Ready Good I₁ Ok₁ c i → Ok c i →
    (M.exec i c).spawned.Pairwise (Rel (M.exec i c).core)
  call : ∀ c i, I₁ c → M.callable c i = true → Ok c i
  callRel : ∀ c i j, I₁ c → M.callable c i = true → Ok₁ c j → Ok c j → Rel c i j
  handle : ∀ c i is, I₁ c → Ok₁ c i → M.onThrow c i = .handle is → (∀ p ∈ is, Ok c p) ∧
    is.Pairwise (Rel c) ∧ ∀ p ∈ is, ∀ j, Ok₁ c j → Ok c j → Rel c p j

/-- The facts and the relation, for a heap and the pending instructions in their order. -/
structure Ranked (Ok : Core → Instr → Prop) (Rel : Core → Instr → Instr → Prop) (c : Core)
    (l : List Instr) : Prop where
  ok : ∀ j ∈ l, Ok c j
  rel : l.Pairwise (Rel c)

/-- What is promised of the tasks a step posts. -/
def Posts (M : Machine Core Instr) (Fits : Core → Instr → Instr → Prop) (σ : Config Core Instr)
    (a : Action Instr) : Prop :=
  a = .run → ∀ i τ, M.next σ = some (i, τ) → ∀ j ∈ τ.pending, Fits τ.core i j

instance (Fits : Core → Instr → Instr → Prop) [∀ c i j, Decidable (Fits c i j)]
    (σ : Config Core Instr) (a : Action Instr) : Decidable (M.Posts Fits σ a) :=
  match a with
  | .run =>
      match h : M.next σ with
      | none => isTrue fun _ i τ h' => by rw [h] at h'; cases h'
      | some (i, τ) => decidable_of_iff (∀ j ∈ τ.pending, Fits τ.core i j)
          ⟨fun hg _ j ρ h' => by rw [h] at h'; cases h'; exact hg, fun ho => ho rfl i τ h⟩
  | .call _ | .ret | .throw => isTrue nofun

variable {Good : Core → Instr → Prop} {I₁ : Core → Prop} {Ok₁ Ok : Core → Instr → Prop}
  {Fits Rel : Core → Instr → Instr → Prop}

theorem Ranked.sublist {c : Core} {l l' : List Instr} (h : Ranked Ok Rel c l)
    (hl : l'.Sublist l) : Ranked Ok Rel c l' :=
  ⟨fun j hj => h.ok j (hl.subset hj), h.rel.sublist hl⟩

/-- What stands behind an instruction, once that has executed. -/
theorem Order.rest (hO : Order M Good I₁ Ok₁ Fits Ok Rel) {c : Core} {i : Instr} {l : List Instr}
    (hi : Ready Good I₁ Ok₁ c i) (hl : ∀ j ∈ l, Ok₁ c j) (h : Ranked Ok Rel c (i :: l)) :
    Ranked Ok Rel (M.exec i c).core l := by
  obtain ⟨hrel, hpair⟩ := List.pairwise_cons.mp h.rel
  have hok := List.forall_mem_cons.mp h.ok
  refine ⟨fun j hj => hO.keep c i j hi (hl j hj) hok.1 (hok.2 j hj) (hrel j hj), ?_⟩
  exact hpair.imp_of_mem fun hj hk hjk =>
    hO.stable c i _ _ hi (hl _ hj) (hl _ hk) (hrel _ hj) (hrel _ hk) hjk

/-- One instruction, executed: what it pushes in front, what it posts at the end. -/
theorem Order.exec (hO : Order M Good I₁ Ok₁ Fits Ok Rel) {c : Core} {i : Instr} {l : List Instr}
    (hi : Ready Good I₁ Ok₁ c i) (hl : ∀ j ∈ l, Ok₁ c j) (h : Ranked Ok Rel c (i :: l))
    (hf : ∀ j ∈ l, Fits c i j) :
    Ranked Ok Rel (M.exec i c).core ((M.exec i c).push ++ (l ++ (M.exec i c).post)) := by
  have hrest := hO.rest hi hl h
  have hrel := (List.pairwise_cons.mp h.rel).1
  have hok := List.forall_mem_cons.mp h.ok
  have hin := List.pairwise_append.mp (hO.inner c i hi hok.1)
  refine ⟨fun j hj => ?_, ?_⟩
  · simp only [List.mem_append] at hj
    rcases hj with hj | hj | hj
    · exact hO.spawn c i hi hok.1 j (List.mem_append_left _ hj)
    · exact hrest.ok j hj
    · exact hO.spawn c i hi hok.1 j (List.mem_append_right _ hj)
  · rw [List.pairwise_append, List.pairwise_append]
    refine ⟨hin.1, ⟨hrest.rel, hin.2.1, fun j hj p hp => ?_⟩, fun p hp j hj => ?_⟩
    · exact hO.post c i j p hi (hl j hj) hok.1 (hok.2 j hj) (hrel j hj) (hf j hj) hp
    · rcases List.mem_append.mp hj with hj | hj
      · exact hO.push c i j p hi (hl j hj) hok.1 (hok.2 j hj) (hrel j hj) hp
      · exact hin.2.2 p hp j hj

theorem Order.unwind (hO : Order M Good I₁ Ok₁ Fits Ok Rel)
    (h₁ : Inductive M Good I₁ Ok₁ fun _ => (none : Option Unit)) (q : List Instr) :
    ∀ (k : List Instr) (c : Core), Keeps I₁ Ok₁ (fun _ => (none : Option Unit)) c (k ++ q) →
      Ranked Ok Rel c (k ++ q) →
      Ranked Ok Rel (M.unwind c k).1 ((M.unwind c k).2 ++ q)
  | [], _, _, h => h
  | i :: k, c, hK, h => by
      have hK' : Keeps I₁ Ok₁ (fun _ => (none : Option Unit)) c (k ++ q) :=
        hK.sublist (List.sublist_cons_self _ _)
      have hk : Ranked Ok Rel c (k ++ q) := h.sublist (List.sublist_cons_self _ _)
      rw [Machine.unwind]
      split
      · exact h
      · split
        · exact hO.unwind h₁ q k c hK' hk
        · rename_i hr
          refine hO.unwind h₁ q k _
            ((h₁.exec hK (h₁.free c i hr)).sublist (List.sublist_append_right _ _)) ?_
          exact hO.rest ⟨hK.inv, hK.ok i List.mem_cons_self, h₁.free c i hr⟩ hK'.ok h
        · rename_i is his
          obtain ⟨hok, hpair, hrel⟩ := hO.handle c i is hK.inv (hK.ok i List.mem_cons_self) his
          rw [List.append_assoc]
          refine ⟨fun j hj => (List.mem_append.mp hj).elim (hok j) (hk.ok j), ?_⟩
          exact List.pairwise_append.mpr ⟨hpair, hk.rel, fun p hp j hj =>
            hrel p hp j (hK'.ok j hj) (hk.ok j hj)⟩

theorem Ranked.next {σ τ : Config Core Instr} {i : Instr} (h : Ranked Ok Rel σ.core σ.pending)
    (hn : M.next σ = some (i, τ)) : Ranked Ok Rel τ.core (i :: τ.pending) := by
  obtain ⟨hc, ⟨_, hs, hq⟩ | ⟨hs, hs', hq⟩⟩ := next_pending hn
  · rw [← hc]
    simpa [Config.pending, hs, hq] using h
  · rw [← hc]
    simpa [Config.pending, hs, hs', hq] using h

theorem Order.step (hO : Order M Good I₁ Ok₁ Fits Ok Rel)
    (h₁ : Inductive M Good I₁ Ok₁ fun _ => (none : Option Unit)) {σ σ' : Config Core Instr}
    {a : Action Instr} (hK : Keeps I₁ Ok₁ (fun _ => (none : Option Unit)) σ.core σ.pending)
    (hg : M.Obeys Good σ a) (hf : M.Posts Fits σ a) (h : Ranked Ok Rel σ.core σ.pending)
    (hs : M.step σ a = some σ') : Ranked Ok Rel σ'.core σ'.pending := by
  rcases step_cases hs with ⟨i, τ, rfl, hn, rfl⟩ | ⟨i, -, -, hc, rfl⟩ | ⟨i, k, -, hst, -, rfl⟩ |
    ⟨i, k, -, hst, -, rfl⟩
  · have hKτ := hK.next hn
    have hgi := hg rfl i τ hn
    have hl : ∀ j ∈ τ.pending, Ok₁ τ.core j := fun j hj => hKτ.ok j (List.mem_cons_of_mem _ hj)
    have he := hO.exec ⟨hKτ.inv, hKτ.ok i List.mem_cons_self, hgi⟩ hl (h.next hn) (hf rfl i τ hn)
    have hassoc : τ.pending ++ (M.exec i τ.core).post =
        τ.stack ++ (τ.queue ++ (M.exec i τ.core).post) := List.append_assoc ..
    rw [hassoc] at he
    unfold Machine.execute
    dsimp only
    split
    · refine hO.unwind h₁ _ _ _ ?_ (he.sublist (List.sublist_append_right _ _))
      refine ((h₁.exec hKτ hgi).sublist
        (List.Sublist.append_right (List.sublist_append_right _ _) _)).perm ?_
      exact List.perm_append_comm.trans (by simp [Config.pending])
    · rw [Config.pending, List.append_assoc]
      exact he
  · refine ⟨fun j hj => ?_, List.pairwise_cons.mpr ⟨fun j hj => ?_, h.rel⟩⟩
    · rcases List.mem_cons.mp hj with rfl | hj
      · exact hO.call _ j hK.inv hc
      · exact h.ok j hj
    · exact hO.callRel _ i j hK.inv hc (hK.ok j hj) (h.ok j hj)
  · refine h.sublist ?_
    simp only [Config.pending, hst]
    exact List.sublist_cons_self _ _
  · have hsub : (k ++ σ.queue).Sublist σ.pending := by
      simp only [Config.pending, hst]
      exact List.sublist_cons_self _ _
    exact hO.unwind h₁ σ.queue k _ (hK.sublist hsub) (h.sublist hsub)

/-- **The rule.** -/
theorem Reach.order {C : Config Core Instr → Action Instr → Prop} {σ₀ σ : Config Core Instr}
    (hO : Order M Good I₁ Ok₁ Fits Ok Rel)
    (h₁ : Inductive M Good I₁ Ok₁ fun _ => (none : Option Unit))
    (hG : ∀ τ a, C τ a → M.Obeys Good τ a) (hF : ∀ τ a, C τ a → M.Posts Fits τ a)
    (hK₀ : Keeps I₁ Ok₁ (fun _ => (none : Option Unit)) σ₀.core σ₀.pending)
    (h₀ : Ranked Ok Rel σ₀.core σ₀.pending) (h : M.Reach C σ₀ σ) :
    Ranked Ok Rel σ.core σ.pending := by
  induction h with
  | start => exact h₀
  | step hr hc hs ih =>
      exact hO.step h₁ (hr.inv_ok h₁ hG hK₀) (hG _ _ hc) (hF _ _ hc) ih hs

/-! ## 2. Lines -/

/-- An invariant `I` of the heap and a fact `Ok` about each pending instruction, which may rest on a
    relation `Rel` between kinds of instructions: an instruction stands in it to all that execute
    after it. -/
structure Line (M : Machine Core Instr) (Good : Core → Instr → Prop) (I : Core → Prop)
    (Ok : Core → Instr → Prop) (Rel : Instr → Instr → Prop) : Prop where
  core : ∀ c i, Ready Good I Ok c i → I (M.exec i c).core
  spawn : ∀ c i, Ready Good I Ok c i → ∀ j ∈ (M.exec i c).spawned, Ok (M.exec i c).core j
  stable : ∀ c i j, Ready Good I Ok c i → Ok c j → Rel i j → Ok (M.exec i c).core j
  call : ∀ c i, I c → M.callable c i = true → Ok c i
  handle : ∀ c i is, I c → Ok c i → M.onThrow c i = .handle is → ∀ j ∈ is, Ok c j
  push : ∀ c i j p, Ready Good I Ok c i → Ok c j → Rel i j → p ∈ (M.exec i c).push → Rel p j
  post : ∀ c i j p, p ∈ (M.exec i c).post → Rel j p
  inner : ∀ c i, Ready Good I Ok c i → (M.exec i c).spawned.Pairwise Rel
  callRel : ∀ c i j, M.callable c i = true → Rel i j
  handleRel : ∀ c i is, M.onThrow c i = .handle is → is.Pairwise Rel ∧ ∀ p ∈ is, ∀ j, Rel p j
  free : ∀ c i, M.onThrow c i = .run → Good c i

/-- The invariant, the facts and the relation, for a heap and the pending instructions in their
    order. -/
structure Lined (I : Core → Prop) (Ok : Core → Instr → Prop) (Rel : Instr → Instr → Prop) (c : Core)
    (l : List Instr) : Prop where
  inv : I c
  ok : ∀ j ∈ l, Ok c j
  rel : l.Pairwise Rel

section Line

variable {I : Core → Prop} {Rel : Instr → Instr → Prop}

theorem Lined.sublist {c : Core} {l l' : List Instr} (h : Lined I Ok Rel c l)
    (hl : l'.Sublist l) : Lined I Ok Rel c l' :=
  ⟨h.inv, fun j hj => h.ok j (hl.subset hj), h.rel.sublist hl⟩

/-- One instruction, executed: what it pushes in front, what it posts at the end. -/
theorem Line.exec (hL : Line M Good I Ok Rel) {c : Core} {i : Instr} {l : List Instr}
    (h : Lined I Ok Rel c (i :: l)) (hg : Good c i) :
    Lined I Ok Rel (M.exec i c).core ((M.exec i c).push ++ (l ++ (M.exec i c).post)) := by
  have hi : Ready Good I Ok c i := ⟨h.inv, h.ok i List.mem_cons_self, hg⟩
  obtain ⟨hrel, hpair⟩ := List.pairwise_cons.mp h.rel
  have hin := List.pairwise_append.mp (hL.inner c i hi)
  refine ⟨hL.core c i hi, fun j hj => ?_, ?_⟩
  · simp only [List.mem_append] at hj
    rcases hj with hj | hj | hj
    · exact hL.spawn c i hi j (List.mem_append_left _ hj)
    · exact hL.stable c i j hi (h.ok j (List.mem_cons_of_mem _ hj)) (hrel j hj)
    · exact hL.spawn c i hi j (List.mem_append_right _ hj)
  · rw [List.pairwise_append, List.pairwise_append]
    refine ⟨hin.1, ⟨hpair, hin.2.1, fun j _ p hp => hL.post c i j p hp⟩, fun p hp j hj => ?_⟩
    rcases List.mem_append.mp hj with hj | hj
    · exact hL.push c i j p hi (h.ok j (List.mem_cons_of_mem _ hj)) (hrel j hj) hp
    · exact hin.2.2 p hp j hj

theorem Line.unwind (hL : Line M Good I Ok Rel) (q : List Instr) :
    ∀ (k : List Instr) (c : Core), Lined I Ok Rel c (k ++ q) →
      Lined I Ok Rel (M.unwind c k).1 ((M.unwind c k).2 ++ q)
  | [], _, h => h
  | i :: k, c, h => by
      have hk : Lined I Ok Rel c (k ++ q) := h.sublist (List.sublist_cons_self _ _)
      rw [Machine.unwind]
      split
      · exact h
      · split
        · exact hL.unwind q k c hk
        · rename_i hr
          refine hL.unwind q k _ ((hL.exec h (hL.free c i hr)).sublist ?_)
          exact (List.sublist_append_left _ _).trans (List.sublist_append_right _ _)
        · rename_i is his
          obtain ⟨hpair, hrel⟩ := hL.handleRel c i is his
          rw [List.append_assoc]
          refine ⟨h.inv, fun j hj => ?_, ?_⟩
          · exact (List.mem_append.mp hj).elim
              (hL.handle c i is h.inv (h.ok i List.mem_cons_self) his j) (hk.ok j)
          · exact List.pairwise_append.mpr ⟨hpair, hk.rel, fun p hp j _ => hrel p hp j⟩

theorem Lined.next {σ τ : Config Core Instr} {i : Instr} (h : Lined I Ok Rel σ.core σ.pending)
    (hn : M.next σ = some (i, τ)) : Lined I Ok Rel τ.core (i :: τ.pending) := by
  obtain ⟨hc, ⟨_, hs, hq⟩ | ⟨hs, hs', hq⟩⟩ := next_pending hn
  · rw [← hc]
    simpa [Config.pending, hs, hq] using h
  · rw [← hc]
    simpa [Config.pending, hs, hs', hq] using h

theorem Line.step (hL : Line M Good I Ok Rel) {σ σ' : Config Core Instr} {a : Action Instr}
    (h : Lined I Ok Rel σ.core σ.pending) (hg : M.Obeys Good σ a) (hs : M.step σ a = some σ') :
    Lined I Ok Rel σ'.core σ'.pending := by
  rcases step_cases hs with ⟨i, τ, rfl, hn, rfl⟩ | ⟨i, -, -, hc, rfl⟩ | ⟨i, k, -, hst, -, rfl⟩ |
    ⟨i, k, -, hst, -, rfl⟩
  · have he := hL.exec (h.next hn) (hg rfl i τ hn)
    have hassoc : τ.pending ++ (M.exec i τ.core).post =
        τ.stack ++ (τ.queue ++ (M.exec i τ.core).post) := List.append_assoc ..
    rw [hassoc] at he
    unfold Machine.execute
    dsimp only
    split
    · exact hL.unwind _ _ _ (he.sublist (List.sublist_append_right _ _))
    · rw [Config.pending, List.append_assoc]
      exact he
  · refine ⟨h.inv, fun j hj => ?_, List.pairwise_cons.mpr ⟨fun j _ => hL.callRel _ i j hc, h.rel⟩⟩
    rcases List.mem_cons.mp hj with rfl | hj
    · exact hL.call _ j h.inv hc
    · exact h.ok j hj
  · refine h.sublist ?_
    simp only [Config.pending, hst]
    exact List.sublist_cons_self _ _
  · refine hL.unwind σ.queue k _ (h.sublist ?_)
    simp only [Config.pending, hst]
    exact List.sublist_cons_self _ _

/-- **The rule for lines.** -/
theorem Reach.line {C : Config Core Instr → Action Instr → Prop} {σ₀ σ : Config Core Instr}
    (hL : Line M Good I Ok Rel) (hC : ∀ τ a, C τ a → M.Obeys Good τ a)
    (h₀ : Lined I Ok Rel σ₀.core σ₀.pending) (h : M.Reach C σ₀ σ) :
    Lined I Ok Rel σ.core σ.pending := by
  induction h with
  | start => exact h₀
  | step _ hc hs ih => exact hL.step ih (hC _ _ hc) hs

/-- A line that keeps more: `J` of the heap, and `Fit`, which says nothing of the heap, of every
    pending instruction. -/
theorem Line.strengthen {Good' : Core → Instr → Prop} {J : Core → Prop} {Fit : Instr → Prop}
    (hL : Line M Good I Ok Rel) (hgood : ∀ c i, Good' c i → Good c i)
    (core : ∀ c i, Ready Good' I Ok c i → Fit i → J c → J (M.exec i c).core)
    (spawn : ∀ c i, Ready Good' I Ok c i → Fit i → J c → ∀ j ∈ (M.exec i c).spawned, Fit j)
    (call : ∀ c i, M.callable c i = true → Fit i)
    (handle : ∀ c i is, M.onThrow c i = .handle is → ∀ j ∈ is, Fit j)
    (free : ∀ c i, M.onThrow c i = .run → Good' c i) :
    Line M Good' (fun c => I c ∧ J c) (fun c i => Ok c i ∧ Fit i) Rel := by
  have hr : ∀ {c i}, Ready Good' (fun c => I c ∧ J c) (fun c i => Ok c i ∧ Fit i) c i →
      Ready Good' I Ok c i ∧ Ready Good I Ok c i := fun h =>
    ⟨⟨h.inv.1, h.ok.1, h.good⟩, ⟨h.inv.1, h.ok.1, hgood _ _ h.good⟩⟩
  exact
    { core := fun c i h => ⟨hL.core c i (hr h).2, core c i (hr h).1 h.ok.2 h.inv.2⟩
      spawn := fun c i h j hj =>
        ⟨hL.spawn c i (hr h).2 j hj, spawn c i (hr h).1 h.ok.2 h.inv.2 j hj⟩
      stable := fun c i j h hj hij => ⟨hL.stable c i j (hr h).2 hj.1 hij, hj.2⟩
      call := fun c i h hc => ⟨hL.call c i h.1 hc, call c i hc⟩
      handle := fun c i is h hi his j hj =>
        ⟨hL.handle c i is h.1 hi.1 his j hj, handle c i is his j hj⟩
      push := fun c i j p h hj hij hp => hL.push c i j p (hr h).2 hj.1 hij hp
      post := hL.post
      inner := fun c i h => hL.inner c i (hr h).2
      callRel := hL.callRel
      handleRel := hL.handleRel
      free := free }

/-! ## 3. Calls between two tasks -/

/-- The machine with the calls that meet `p` only. -/
def restrict (M : Machine Core Instr) (p : Instr → Prop) [DecidablePred p] : Machine Core Instr :=
  { M with callable := fun c i => M.callable c i && decide (p i) }

section Idle

variable {idle : Instr → Prop} [DecidablePred idle]

theorem restrict_unwind : ∀ (k : List Instr) (c : Core),
    (M.restrict idle).unwind c k = M.unwind c k
  | [], _ => rfl
  | i :: k, c => by
      have hc : (M.restrict idle).unwind ((M.restrict idle).exec i c).core k =
          M.unwind (M.exec i c).core k := restrict_unwind k _
      rw [Machine.unwind, Machine.unwind, restrict_unwind k c, hc]
      rfl

theorem restrict_step {σ σ' : Config Core Instr} {a : Action Instr}
    (ha : ∀ i, a = .call i → idle i) (hs : M.step σ a = some σ') :
    (M.restrict idle).step σ a = some σ' := by
  cases a with
  | run =>
      have hexec : ∀ i τ, (M.restrict idle).execute i τ = M.execute i τ := by
        intro i τ
        unfold Machine.execute
        simp only [restrict_unwind]
        rfl
      simp only [Machine.step] at hs ⊢
      rw [← hs]
      change Option.map (fun p => (M.restrict idle).execute p.1 p.2) (M.next σ) = _
      congr 1
      funext p
      exact hexec p.1 p.2
  | call i =>
      simp only [Machine.step, restrict, ha i rfl, decide_true, Bool.and_true] at hs ⊢
      exact hs
  | ret => exact hs
  | throw =>
      simp only [Machine.step] at hs ⊢
      simp only [restrict_unwind]
      exact hs

/-- **The rule for lines**, where calls of the kind `idle` are made between two tasks only: they
    stand before nothing but what has been posted. -/
theorem Reach.line_idle {C : Config Core Instr → Action Instr → Prop} {σ₀ σ : Config Core Instr}
    (hL : Line (M.restrict fun i => ¬ idle i) Good I Ok Rel)
    (hcall : ∀ c i, I c → M.callable c i = true → idle i → Ok c i)
    (hC : ∀ τ a, C τ a → M.Obeys Good τ a) (hI : ∀ τ a, C τ a → Idles idle τ a)
    (h₀ : Lined I Ok Rel σ₀.core σ₀.pending) (hq₀ : ∀ p ∈ σ₀.queue, ∀ j, Rel j p)
    (h : M.Reach C σ₀ σ) :
    Lined I Ok Rel σ.core σ.pending ∧ ∀ p ∈ σ.queue, ∀ j, Rel j p := by
  induction h with
  | start => exact ⟨h₀, hq₀⟩
  | @step σ σ' a hr hc hs ih =>
      obtain ⟨hl, hq⟩ := ih
      by_cases ha : ∃ i, a = .call i ∧ idle i
      · obtain ⟨i, rfl, hi⟩ := ha
        have hst := hI _ _ hc i rfl hi
        rcases step_cases hs with ⟨j, τ, h, -⟩ | ⟨j, h, -, hcj, rfl⟩ | ⟨j, k, h, -⟩ | ⟨j, k, h, -⟩
        · cases h
        · obtain rfl := Action.call.inj h
          refine ⟨⟨hl.inv, fun j hj => ?_, List.pairwise_cons.mpr ⟨fun j hj => ?_, hl.rel⟩⟩, hq⟩
          · rcases List.mem_cons.mp hj with rfl | hj
            · exact hcall _ j hl.inv hcj hi
            · exact hl.ok j hj
          · exact hq j (by simpa [Config.pending, hst] using hj) i
        · cases h
        · cases h
      · have hs' : (M.restrict fun i => ¬ idle i).step σ a = some σ' :=
          restrict_step (fun i hai hi => ha ⟨i, hai, hi⟩) hs
        refine ⟨hL.step hl (hC _ _ hc) hs', ?_⟩
        rcases step_cases hs with ⟨i, τ, rfl, hn, rfl⟩ | ⟨i, rfl, -, -, rfl⟩ |
          ⟨i, k, rfl, -, -, rfl⟩ | ⟨i, k, rfl, -, -, rfl⟩
        · have hτ : ∀ p ∈ τ.queue, p ∈ σ.queue := by
            obtain ⟨-, ⟨-, -, hq'⟩ | ⟨-, -, hq'⟩⟩ := next_pending hn
            · exact fun p hp => hq' ▸ hp
            · exact fun p hp => hq' ▸ List.mem_cons_of_mem _ hp
          have hpost : ∀ p ∈ τ.queue ++ (M.exec i τ.core).post, ∀ j, Rel j p := fun p hp j =>
            (List.mem_append.mp hp).elim (fun hp => hq p (hτ p hp) j) (hL.post τ.core i j p)
          unfold Machine.execute
          dsimp only
          split <;> exact hpost
        · exact hq
        · exact hq
        · exact hq

end Idle

end Line

end Machine

end EventLoop
