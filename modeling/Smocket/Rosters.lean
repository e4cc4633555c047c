import Smocket.Membership
import Smocket.Log

/-
  File:      Smocket/Rosters.lean
  Subject:   ROSTERS LIST LIVE SOCKETS. A socket that has been cleaned up does not come back, as
             long as no completion of its middleware finds it cleaned up and its attempt still open.

  The completion decides and the three steps of an admission follow at once (`Passage`), so each of
  them still finds the socket as the completion found it.

  * `roster_atomic` -- admissions, and cleanups with their event, are atomic;
  * `no_resurrection` -- who was cleaned up does not come back while completions are live;
  * `resurrection` -- a middleware that disconnects and then calls `next` brings its socket back.
-/

namespace Smocket

open Ordered EventLoop EventLoop.Machine

variable {P : Platform}

/-! ## 1. The condition -/

/-- An error-free completion that admits its socket finds a live one. -/
def completionLive (σ : Core) : Instr → Bool
  | .ctl (.completion s none) =>
      !(σ.memb.sockets s).membershipCleaned || (σ.srv.namespaces (σ.conn.sockets s).nsp).closed ||
        !(σ.conn.isConnectionAttemptPending (σ.conn.sockets s).attempt ||
          σ.conn.isConnectionAttemptConnected (σ.conn.sockets s).attempt s)
  | _ => true

/-- **The condition**: completions are live, and no exception leaves an adapter's removal of a
    socket. -/
def LiveCompletions (P : Platform) (σ : State) (a : Action Instr) : Prop :=
  CleanupsReturn σ a ∧ (runtime P).Obeys (fun σ i => completionLive σ i = true) σ a

instance (σ : State) (a : Action Instr) : Decidable (LiveCompletions P σ a) :=
  inferInstanceAs (Decidable (_ ∧ _))

/-! ## 2. Admissions and teardowns -/

/-- The socket an instruction brings to life. -/
def Instr.enters : Instr → Option SocketId
  | .memb (.enter s) | .life (.markConnected s) | .ctl (.emitConnection s) => some s
  | _ => none

/-- Its `disconnect` event follows its cleanup. -/
def DisconnectsClean (σ : Core) : Prop :=
  ∀ s, .disconnect s ∈ σ.log → (σ.memb.sockets s).membershipCleaned = true

/-- What the top of the stack may be when it is not free to be anything: the steps of an admission,
    or a cleanup with the `disconnect` event that follows it. -/
inductive Core.Passage (σ : Core) : List Instr → Prop where
  | admitting (s : SocketId) (l : List Instr) (hI : DisconnectsClean σ)
      (hs : (σ.memb.sockets s).membershipCleaned = false)
      (hl : ∀ i ∈ l, i = .memb (.enter s) ∨ i = .life (.markConnected s) ∨ i = .srv (.offer s)) :
      σ.Passage (l ++ [.ctl (.emitConnection s)])
  | cleaning (s : SocketId) (reason : String) (sync : Bool) (hI : DisconnectsClean σ) :
      σ.Passage [.memb (.cleanupMembership s), .life (.teardownDisconnect s reason sync)]

/-- Elsewhere nothing is being admitted, and a `disconnect` event is due only after the cleanup. -/
def OutsidePassage (σ : Core) (i : Instr) : Prop :=
  i.enters = none ∧ ∀ s r sync, i = .life (.teardownDisconnect s r sync) →
    (σ.memb.sockets s).membershipCleaned = true

theorem disconnectsClean_exec {σ : Core} (h : DisconnectsClean σ) {i : Instr}
    (hi : ∀ s r sync, i = .life (.teardownDisconnect s r sync) →
      (σ.memb.sockets s).membershipCleaned = true) : DisconnectsClean (exec P i σ).core := by
  intro s hs
  refine cleaned_exec ?_
  obtain ⟨es, hes, hrec⟩ := exec_log P i σ
  rw [hes] at hs
  rcases List.mem_append.mp hs with hs | hs
  · have hr := hrec _ hs
    unfold Instr.Records at hr
    split at hr <;> simp at hr
    exact hr ▸ hi _ _ _ rfl
  · exact h s hs

/-- Who pushes an instruction that may not stand outside. -/
theorem spawns_passage {σ : Core} {i j : Instr} (hj : j ∈ (exec P i σ).spawned) :
    (j.enters = none ∧ ∀ s r sync, j ≠ .life (.teardownDisconnect s r sync)) ∨
      (∃ s, i = .ctl (.completion s none)) ∨ ∃ s r sync, i = .life (.teardownCleanup s r sync) := by
  have hby := spawnedBy hj
  by_cases hd : ∃ s r sync, j = .life (.teardownDisconnect s r sync)
  · obtain ⟨s, r, sync, rfl⟩ := hd
    exact Or.inr (Or.inr ⟨s, r, sync, by simpa using hby⟩)
  · by_cases he : j.enters = none
    · exact Or.inl ⟨he, fun s r sync h => hd ⟨s, r, sync, h⟩⟩
    · refine Or.inr (Or.inl ?_)
      unfold Instr.enters at he
      split at he
      case h_4 => exact absurd rfl he
      all_goals
        rename_i s
        exact ⟨s, by simpa using hby⟩

/-- The completion that admits. -/
theorem completion_passage {σ : Core} {s : SocketId} (hI : DisconnectsClean σ)
    (hg : completionLive σ (.ctl (.completion s none)) = true) :
    (∀ j ∈ (completion σ s none).push, OutsidePassage σ j) ∨
      ∃ pre l, (completion σ s none).push = pre ++ l ∧ σ.Passage pre ∧
        ∀ j ∈ l, OutsidePassage σ j := by
  simp only [completionLive, Bool.or_eq_true, Bool.not_eq_true', Bool.or_eq_false_iff] at hg
  simp only [completion]
  split
  · rename_i hc
    split
    · exact Or.inl (by simp [OutsidePassage, Instr.enters])
    · rename_i hcl
      have hs := (hg.resolve_right fun h => by simp [h.2] at hc).resolve_right hcl
      refine Or.inr ⟨admission s ++ [.ctl (.emitConnection s)],
        [.ctl (.dispatchClient (σ.conn.sockets s).peer "connect")], rfl, ?_, ?_⟩
      · exact .admitting s _ hI hs (by simp [admission])
      · simp [OutsidePassage, Instr.enters]
  · split
    · refine Or.inl ?_
      split <;> simp [OutsidePassage, Instr.enters]
    · rename_i hp
      split
      · exact Or.inl (by simp [OutsidePassage, Instr.enters])
      · rename_i hcl
        have hs := (hg.resolve_right fun h => by simp [h.1] at hp).resolve_right hcl
        refine Or.inr ⟨(admission s ++ [.srv (.offer s)]) ++ [.ctl (.emitConnection s)],
          [.conn (.completeConnectionAttempt (σ.conn.sockets s).attempt s)], by simp, ?_, ?_⟩
        · exact .admitting s _ hI hs (by simp [admission])
        · simp [OutsidePassage, Instr.enters]

theorem outside_of_none {σ : Core} {i : Instr} (h : i.enters = none)
    (hi : ∀ s r sync, i ≠ .life (.teardownDisconnect s r sync)) : OutsidePassage σ i :=
  ⟨h, fun s r sync e => absurd e (hi s r sync)⟩

theorem outside_exec {σ : Core} {i : Instr} (hI : DisconnectsClean σ) (hi : OutsidePassage σ i)
    (hg : completionLive σ i = true) :
    (DisconnectsClean (exec P i σ).core ∧
        ∀ j ∈ (exec P i σ).spawned, OutsidePassage (exec P i σ).core j) ∨
      ((exec P i σ).fails = false ∧ ∃ pre l, (exec P i σ).push = pre ++ l ∧
        (exec P i σ).core.Passage pre ∧
        ∀ j ∈ l ++ (exec P i σ).post, OutsidePassage (exec P i σ).core j) := by
  have hI' : DisconnectsClean (exec P i σ).core := disconnectsClean_exec hI hi.2
  by_cases hc : ∃ s, i = .ctl (.completion s none)
  · obtain ⟨s, rfl⟩ := hc
    rcases completion_passage hI hg with h | ⟨pre, l, hpush, hp, hl⟩
    · exact Or.inl ⟨hI', by simpa [exec, execCtl, completion, Effect.spawned] using h⟩
    · exact Or.inr ⟨rfl, pre, l, hpush, hp, by simpa [exec, execCtl, completion] using hl⟩
  · by_cases ht : ∃ s r sync, i = .life (.teardownCleanup s r sync)
    · obtain ⟨s, r, sync, rfl⟩ := ht
      exact Or.inr ⟨rfl, _, [], (List.append_nil _).symm, .cleaning s r sync hI',
        (by intro _ h; cases h)⟩
    · refine Or.inl ⟨hI', fun j hj => ?_⟩
      rcases spawns_passage hj with ⟨he, hd⟩ | h | h
      · exact outside_of_none he hd
      · exact absurd h hc
      · exact absurd h ht

theorem passage_exec {σ : Core} {i : Instr} {pre : List Instr} (h : σ.Passage (i :: pre)) :
    ((exec P i σ).fails = false ∧ (exec P i σ).core.Passage ((exec P i σ).push ++ pre) ∧
        ∀ j ∈ (exec P i σ).post, OutsidePassage (exec P i σ).core j) ∨
      (DisconnectsClean (exec P i σ).core ∧
        ∀ j ∈ (exec P i σ).spawned ++ pre, OutsidePassage (exec P i σ).core j) := by
  generalize hl : i :: pre = stack at h
  cases h with
  | admitting s l hI hs hl' =>
      cases l with
      | nil =>
          obtain ⟨rfl, rfl⟩ := List.cons.inj hl
          refine Or.inr ⟨disconnectsClean_exec hI (by simp), ?_⟩
          simp [exec, execCtl, emitConnection, Effect.spawned, OutsidePassage, Instr.enters]
      | cons j l =>
          obtain ⟨rfl, rfl⟩ := List.cons.inj hl
          have hl'' := fun x hx => hl' x (List.mem_cons_of_mem _ hx)
          have hI' : DisconnectsClean (exec P i σ).core := by
            refine disconnectsClean_exec hI fun t r sync e => ?_
            rcases hl' i List.mem_cons_self with rfl | rfl | rfl <;> cases e
          rcases hl' i List.mem_cons_self with rfl | rfl | rfl
          · refine Or.inl ⟨rfl, .admitting s l hI' ?_ hl'', (by intro _ h; cases h)⟩
            exact (join_cleaned ..).trans hs
          · exact Or.inl ⟨rfl, .admitting s l hI' hs hl'', (by intro _ h; cases h)⟩
          · have hpush : (exec P (.srv (.offer s)) σ).push = [] ∧
                (exec P (.srv (.offer s)) σ).fails = false := by
              simp only [exec, execSrv, offer]
              split <;> exact ⟨rfl, rfl⟩
            refine Or.inl ⟨hpush.2, ?_, fun j hj => ?_⟩
            · rw [hpush.1]
              exact .admitting s l hI' hs hl''
            · rcases spawns_passage (List.mem_append_right _ hj) with ⟨he, hd⟩ | ⟨t, ht⟩ |
                ⟨t, r, sync, ht⟩
              · exact outside_of_none he hd
              · cases ht
              · cases ht
  | cleaning s r sync hI =>
      obtain ⟨rfl, rfl⟩ := List.cons.inj hl
      refine Or.inr ⟨disconnectsClean_exec hI (by simp), ?_⟩
      have hs : ((exec P (.memb (.cleanupMembership s)) σ).core.memb.sockets s).membershipCleaned =
          true := by
        simp only [exec, execMemb, cleanupMembership]
        split
        · assumption
        · simp [Memb.startCleanup, Memb.setSocket]
      intro j hj
      rcases List.mem_append.mp hj with hj | hj
      · rcases spawns_passage hj with ⟨he, hd⟩ | ⟨t, ht⟩ | ⟨t, r, sync, ht⟩
        · exact outside_of_none he hd
        · cases ht
        · cases ht
      · obtain rfl := List.mem_singleton.mp hj
        refine ⟨rfl, fun t r' sync' e => ?_⟩
        obtain ⟨rfl, -, -⟩ := LifeInstr.teardownDisconnect.inj (Instr.life.inj e)
        exact hs

theorem passage_app {σ : Core} {i : Instr} {pre : List Instr} (h : σ.Passage (i :: pre)) :
    isApp i = false := by
  generalize hl : i :: pre = stack at h
  cases h with
  | admitting s l hI hs hl' =>
      cases l with
      | nil =>
          obtain ⟨rfl, rfl⟩ := List.cons.inj hl
          rfl
      | cons j l =>
          obtain ⟨rfl, rfl⟩ := List.cons.inj hl
          rcases hl' i List.mem_cons_self with rfl | rfl | rfl <;> rfl
  | cleaning s r sync hI =>
      obtain ⟨rfl, rfl⟩ := List.cons.inj hl
      rfl

/-- **Admissions, and cleanups with their event, are atomic.** -/
theorem roster_atomic (P : Platform) :
    Atomic (runtime P) (fun σ i => completionLive σ i = true) (Core.Wf P) (fun σ i => i.Valid σ)
      DisconnectsClean OutsidePassage Core.Passage where
  exec σ i hr hI hi := outside_exec hI hi hr.good
  stable σ i j _ _ hj := ⟨hj.1, fun s r sync e => cleaned_exec (hj.2 s r sync e)⟩
  call σ i _ _ hc := by
    refine outside_of_none ?_ fun s r sync e => by subst e; simp [runtime, callable] at hc
    unfold Instr.enters
    split <;> first | rfl | simp [runtime, callable] at hc
  handle σ i is his j hj := by
    rcases onThrow_handle his with rfl | ⟨a, err, rfl, -⟩
    · cases hj
    · obtain rfl := List.mem_singleton.mp hj
      exact outside_of_none rfl (by intro _ _ _ h; cases h)
  run σ i _ _ hr h := disconnectsClean_exec h fun s r sync e => by subst e; cases hr
  mid σ i pre _ h _ := passage_exec h
  ret σ i pre h happ := by cases (passage_app h).symm.trans happ
  nonempty σ h := by
    generalize hl : ([] : List Instr) = stack at h
    cases h with
    | admitting s l hI hs hl' => simp at hl
    | cleaning s r sync hI => cases hl

/-- The three steps of an admission find a live socket. -/
def entersLive (σ : Core) (i : Instr) : Prop :=
  ∀ s, i.enters = some s → (σ.memb.sockets s).membershipCleaned = false

theorem between_entersLive {σ τ : State} {i : Instr}
    (h : Between DisconnectsClean OutsidePassage Core.Passage σ)
    (hn : (runtime P).next σ = some (i, τ)) : entersLive τ.core i := by
  obtain ⟨hc, hst⟩ := next_pending hn
  rw [← hc]
  rcases h with ⟨-, hO⟩ | ⟨pre, k, hpre, hm, -⟩
  · have hi : i ∈ σ.pending := by
      rcases hst with ⟨-, hs, -⟩ | ⟨-, -, hq⟩
      · simp [Config.pending, hs]
      · simp [Config.pending, hq]
    intro s hs
    rw [(hO i hi).1] at hs
    cases hs
  · generalize hl : pre = stack at hm
    cases hm with
    | admitting s l hI hs hl' =>
        have hi : i.enters = none ∨ i.enters = some s := by
          rcases hst with ⟨-, hs', -⟩ | ⟨hs', -, -⟩
          · rw [hpre, hl] at hs'
            cases l with
            | nil =>
                obtain ⟨rfl, -⟩ := List.cons.inj hs'
                exact Or.inr rfl
            | cons j l =>
                obtain ⟨rfl, -⟩ := List.cons.inj hs'
                rcases hl' j List.mem_cons_self with rfl | rfl | rfl <;> simp [Instr.enters]
          · rw [hpre, hl] at hs'
            simp at hs'
        intro t ht
        rcases hi with hi | hi <;> rw [hi] at ht <;> cases ht
        exact hs
    | cleaning s r sync hI =>
        rcases hst with ⟨-, hs', -⟩ | ⟨hs', -, -⟩
        · rw [hpre, hl] at hs'
          obtain ⟨rfl, -⟩ := List.cons.inj hs'
          intro _ h
          cases h
        · rw [hpre, hl] at hs'
          cases hs'

theorem between_disconnectsClean {σ : State}
    (h : Between DisconnectsClean OutsidePassage Core.Passage σ) : DisconnectsClean σ.core := by
  rcases h with ⟨h, -⟩ | ⟨pre, k, -, hm, -⟩
  · exact h
  · cases hm with
    | admitting _ _ hI _ _ => exact hI
    | cleaning _ _ _ hI => exact hI

/-- What the atomic sections give for every reachable state. -/
theorem reach_passage {C : State → Action Instr → Prop} {σ : State}
    (h : (runtime P).Reach C newServer σ)
    (hC : ∀ τ a, C τ a → (runtime P).Obeys (fun σ i => completionLive σ i = true) τ a) :
    Between DisconnectsClean OutsidePassage Core.Passage σ := by
  have hW : Inductive (runtime P) (fun σ i => completionLive σ i = true) (Core.Wf P)
      (fun σ i => i.Valid σ) fun _ => (none : Option Unit) :=
    (valid_inductive P).restrict (fun _ _ _ => trivial) fun σ i hr => by
      unfold completionLive
      split
      · cases hr
      · rfl
  refine h.between (roster_atomic P) hW hC ?_ ⟨newServer_wf P, nofun, .nil⟩ ?_
  · exact fun τ a _ i pre k _ hm happ => by cases (passage_app hm).symm.trans happ
  · exact Or.inl ⟨fun s hs => (by cases hs), nofun⟩

/-! ## 3. Cleaned up for good -/

/-- Nothing but `markConnected` makes a socket connected. -/
theorem execLife_connected {σ : Core} {i : LifeInstr} {s : SocketId}
    (h : ((execLife σ i).part.sockets s).connected = true) :
    (σ.life.sockets s).connected = true ∨ i = .markConnected s := by
  have hset : ∀ {t : SocketId} {g : Lifecycle → Lifecycle},
      ((σ.life.setSocket t g).sockets s).connected = true →
      (∀ x, (g x).connected = true → x.connected = true) → (σ.life.sockets s).connected = true := by
    intro t g hs hg
    simp only [Life.setSocket, modify_apply] at hs
    split at hs
    · rename_i ht
      exact ht ▸ hg _ hs
    · exact hs
  cases i with
  | markConnected t =>
      by_cases hts : s = t
      · exact Or.inr (hts ▸ rfl)
      · exact Or.inl (by simpa [execLife, Life.setSocket, hts] using h)
  | runMiddleware t =>
      simp only [execLife, runMiddleware, Life.advance] at h
      split at h <;> exact Or.inl h
  | next t i err =>
      cases err with
      | some err => exact Or.inl h
      | none =>
          simp only [execLife, next, Life.advance] at h
          split at h <;> exact Or.inl h
  | teardown t r d =>
      simp only [execLife, teardown] at h
      split at h
      · exact Or.inl h
      · exact Or.inl (hset h fun x hx => by
          dsimp only at hx
          split at hx <;> exact hx)
  | teardownTask t r d => exact Or.inl (hset h fun x hx => hx)
  | disconnectNamespaceFromServer t =>
      simp only [execLife, disconnectNamespaceFromServer] at h
      split at h
      · exact Or.inl h
      · exact Or.inl (hset h fun x hx => hx)
  | teardownCleanup t r sync => exact Or.inl (hset h fun x hx => by cases hx)
  | teardownDisconnect t r sync => exact Or.inl (hset h fun x hx => hx)
  | teardownDone t sync =>
      simp only [execLife, teardownDone] at h
      split at h
      · exact Or.inl h
      · exact Or.inl (hset h fun x hx => hx)
  | cleanupConnectionAttempt t => exact Or.inl (hset h fun x hx => hx)
  | invalidateAcknowledgements t => exact Or.inl (hset h fun x hx => hx)
  | awaitTeardown t w => exact Or.inl h
  | use t f => exact Or.inl h
  | dispatch d => exact Or.inl (hset h fun x hx => hx)
  | dispatchEvent t e k => exact Or.inl h
  | startPacket d b => exact Or.inl h
  | setPacket r e k =>
      simp only [execLife, setPacket] at h
      split at h <;> exact Or.inl h
  | endDispatch t => exact Or.inl (hset h fun x hx => hx)
  | runPacket r i =>
      simp only [execLife, runPacket] at h
      split at h
      · exact Or.inl h
      · split at h <;> exact Or.inl h
  | packetNext r i err =>
      simp only [execLife, packetNext] at h
      split at h
      · exact Or.inl h
      · split at h <;> exact Or.inl h
  | dispatchNamed r =>
      simp only [execLife, dispatchNamed] at h
      split at h
      · exact Or.inl h
      · split at h
        · exact Or.inl h
        · exact Or.inl (hset h fun x hx => hx)

/-- `ρ` is an earlier heap: what it had cleaned up has not come back. -/
structure Core.Since (ρ σ : Core) : Prop where
  cleaned : ∀ s, (ρ.memb.sockets s).membershipCleaned = true →
    (σ.memb.sockets s).membershipCleaned = true
  roster : ∀ s, (ρ.memb.sockets s).membershipCleaned = true → ∀ n sid,
    (σ.memb.rosters n).get? sid = some s → (ρ.memb.rosters n).get? sid = some s
  connected : ∀ s, (ρ.memb.sockets s).membershipCleaned = true →
    (σ.life.sockets s).connected = true → (ρ.life.sockets s).connected = true
  log : ∃ es, σ.log = es ++ ρ.log ∧ ∀ s, (ρ.memb.sockets s).membershipCleaned = true →
    .connection s ∉ es

theorem Core.Since.refl (σ : Core) : σ.Since σ :=
  ⟨fun _ h => h, fun _ _ _ _ h => h, fun _ _ h => h, [], rfl, fun _ _ => List.not_mem_nil⟩

/-- **One instruction brings nothing back.** -/
theorem Core.Since.exec {ρ σ : Core} (h : ρ.Since σ) {i : Instr} (hi : entersLive σ i) :
    ρ.Since (exec P i σ).core := by
  have hno : ∀ s, (ρ.memb.sockets s).membershipCleaned = true → i.enters ≠ some s := fun s hs he => by
    cases (h.cleaned s hs).symm.trans (hi s he)
  refine ⟨fun s hs => cleaned_exec (h.cleaned s hs), fun s hs n sid hr => ?_, fun s hs hc => ?_, ?_⟩
  · refine h.roster s hs n sid ?_
    cases i with
    | memb i =>
        rcases execMemb_roster hr with hr | ⟨rfl, -⟩
        · exact hr
        · exact absurd rfl (hno s hs)
    | _ => exact hr
  · refine h.connected s hs ?_
    cases i with
    | life i =>
        rcases execLife_connected hc with hc | rfl
        · exact hc
        · exact absurd rfl (hno s hs)
    | _ => exact hc
  · obtain ⟨es, hes, hold⟩ := h.log
    obtain ⟨es', hes', hrec⟩ := exec_log P i σ
    refine ⟨es' ++ es, by rw [hes', hes, List.append_assoc], fun s hs he => ?_⟩
    rcases List.mem_append.mp he with he | he
    · have hr := hrec _ he
      unfold Instr.Records at hr
      split at hr <;> simp at hr
      exact hno s hs (hr ▸ rfl)
    · exact hold s hs he

/-- A cleaned up socket is still in a roster. -/
def Core.Lingers (σ : Core) (s : SocketId) : Prop :=
  (σ.memb.sockets s).membershipCleaned = true ∧ ∃ n sid, (σ.memb.rosters n).get? sid = some s

theorem enter_cleaned (σ : Core) (s t : SocketId) :
    ((execMemb σ (.enter s)).part.sockets t).membershipCleaned =
      (σ.memb.sockets t).membershipCleaned :=
  join_cleaned ..

/-- What makes a socket cleaned up leaves the second half of the cleanup to do. -/
theorem cleaned_by {σ : Core} {i : MembInstr} {s : SocketId}
    (h : ((execMemb σ i).part.sockets s).membershipCleaned = true) :
    (σ.memb.sockets s).membershipCleaned = true ∨
      Instr.memb (.cleanupMembershipRest s) ∈ (execMemb σ i).push := by
  cases i with
  | enter t => exact Or.inl ((enter_cleaned σ t s).symm.trans h)
  | join t rooms => exact Or.inl ((join_cleaned ..).symm.trans h)
  | leave t room => exact Or.inl ((leave_cleaned ..).symm.trans h)
  | socketsJoin op rooms =>
      refine Or.inl (List.foldlRecOn (motive := fun ν : Memb =>
        (ν.sockets s).membershipCleaned = true → (σ.memb.sockets s).membershipCleaned = true) _ _ id
        (fun ν hν t _ hc => hν ((join_cleaned ..).symm.trans hc)) h)
  | socketsLeave op rooms =>
      refine Or.inl (List.foldlRecOn (motive := fun ν : Memb =>
        (ν.sockets s).membershipCleaned = true → (σ.memb.sockets s).membershipCleaned = true) _ _ id
        (fun ν hν t _ => List.foldlRecOn (motive := fun ν : Memb =>
          (ν.sockets s).membershipCleaned = true → (σ.memb.sockets s).membershipCleaned = true) _ _ hν
          fun ν hν room _ hc => hν ((leave_cleaned ..).symm.trans hc)) h)
  | cleanupMembership t =>
      simp only [execMemb, cleanupMembership] at h ⊢
      split at h
      · exact Or.inl h
      · rename_i hc
        by_cases hts : s = t
        · subst hts
          simp [hc]
        · exact Or.inl (by
            simpa [Memb.startCleanup, Memb.setSocket, Memb.setAdapter, hts] using h)
  | drainEnd t | cleanupMembershipRest t =>
      refine Or.inl ?_
      simp only [execMemb, Memb.endCleanup, Memb.setRoster, Memb.setSocket, modify_apply] at h
      split at h
      · rename_i hts
        exact hts ▸ h
      · exact h

/-- Only the first half of a cleanup makes a socket cleaned up. -/
theorem cleaned_exec_iff {σ : Core} {i : Instr} {s : SocketId} :
    ((exec P i σ).core.memb.sockets s).membershipCleaned = true ↔
      (σ.memb.sockets s).membershipCleaned = true ∨ i = .memb (.cleanupMembership s) := by
  constructor
  · intro h
    cases i with
    | memb i =>
        refine (cleaned_by h).imp_right fun hj => ?_
        have hby := spawnedBy (P := P) (i := .memb i) (σ := σ) (List.mem_append_left _ hj)
        simpa using hby
    | _ => exact Or.inl h
  · rintro (h | rfl)
    · exact cleaned_exec h
    · simp only [exec, execMemb, cleanupMembership]
      split
      · assumption
      · simp [Memb.startCleanup, Memb.setSocket]

/-- **A cleanup makes the debt to leave the roster, its second half pays it.** -/
theorem roster_debts (P : Platform) {S : Instr → Prop}
    (hS : ∀ s, S (.memb (.cleanupMembershipRest s))) :
    Debts (runtime P) entersLive (Core.Wf P) (fun σ i => i.Valid σ) S
      Core.Lingers fun i s => i = .memb (.cleanupMembershipRest s) where
  inSection i s hi := hi ▸ hS s
  exec σ i s h _ ho := by
    obtain ⟨hc, n, sid, hr⟩ := ho
    cases i with
    | memb i =>
        rcases execMemb_roster hr with hr' | ⟨rfl, -⟩
        · rcases cleaned_by hc with hc' | hp
          · refine Or.inr ⟨⟨hc', n, sid, hr'⟩, fun e => ?_⟩
            obtain rfl := Instr.memb.inj e
            obtain ⟨-, rfl, rfl⟩ := h.inv.roster n sid s hr'
            simp [runtime, exec, execMemb, Memb.endCleanup, Memb.setRoster, Memb.setSocket] at hr
          · exact Or.inl ⟨_, List.mem_append_left _ hp, rfl⟩
        · have hs : (σ.memb.sockets s).membershipCleaned = true :=
            (enter_cleaned σ s s).symm.trans hc
          rw [h.good s rfl] at hs
          cases hs
    | _ => exact Or.inr ⟨⟨hc, n, sid, hr⟩, (by intro h; cases h)⟩
  fails σ i s h hf ho := by
    cases i with
    | memb i =>
        rw [show ((runtime P).exec (.memb i) σ).fails = false from execMemb_fails σ i] at hf
        cases hf
    | _ => exact ho
  run σ i s hr _ ho := by
    cases i with
    | memb i =>
        cases i with
        | drainEnd t =>
            obtain ⟨hc, n, sid, hr⟩ := ho
            refine ⟨(cleaned_by hc).resolve_right (by simp [execMemb]), n, sid, ?_⟩
            exact (execMemb_roster hr).resolve_right (by simp)
        | _ => cases hr
    | _ => exact ho

/-! ## 4. Every run -/

theorem upgraded {σ τ : State} (hσ : (runtime P).Reach (LiveCompletions P) newServer σ)
    (h : (runtime P).Reach (LiveCompletions P) σ τ) :
    (runtime P).Reach (fun σ a => CleanupsReturn σ a ∧ (runtime P).Obeys entersLive σ a) σ τ :=
  h.upgrade fun _ _ hρ hC =>
    ⟨hC.1, fun _ _ _ hn =>
      between_entersLive (reach_passage (hσ.trans hρ) fun _ _ h => h.2) hn⟩

theorem entersLive_inductive (P : Platform) :
    Inductive (runtime P) entersLive (Core.Wf P) (fun σ i => i.Valid σ)
      fun _ => (none : Option Unit) :=
  (valid_inductive P).restrict (fun _ _ _ => trivial) fun σ i hr s hs => by
    unfold Instr.enters at hs
    split at hs
    case h_4 => cases hs
    all_goals cases hr

end Smocket
