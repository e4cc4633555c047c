import Smocket.Log
import Smocket.Spawns
import Mathlib.Data.List.Perm.Subperm

/-
  File:      Smocket/Admission.lean
  Subject:   CONNECTION MIDDLEWARE GATES ADMISSION. The members of a chain share one index, so a
             member that calls `next` again stands in for one that has not answered. As long as
             the first calls come from distinct members, a completion is preceded by an answer of
             every member.

  `ChainInv` relates the shared index to the answers in the log; `ChainInv.advance` is its step.

  * `admission_sound` -- a completion, an admission and a `connection` event come after an answer
    of every member, as long as first answers come first;
  * `admission_unsound` -- a member that calls `next` twice admits a socket without the next
    member's answer.
-/

namespace Smocket

open Ordered EventLoop EventLoop.Machine

variable {P : Platform}

/-! ## 1. The log of an admission -/

/-- The socket an event of an admission is about. -/
def Event.ofAdmission : Event → Option SocketId
  | .invoked s _ | .answered s _ | .completed s | .admitted s | .connection s => some s
  | _ => none

/-- The socket whose admission an instruction drives. -/
def Instr.admits : Instr → Option SocketId
  | .life (.runMiddleware s) | .life (.next s _ none) | .memb (.enter s)
  | .ctl (.emitConnection s) => some s
  | _ => none

/-- The members that have called `next` without an error, latest call first. -/
def answers (s : SocketId) (log : List Event) : List Nat :=
  log.filterMap fun
    | .answered t i => if t = s then some i else none
    | _ => none

theorem mem_answers {s : SocketId} {log : List Event} {i : Nat} :
    i ∈ answers s log ↔ .answered s i ∈ log := by
  unfold answers
  rw [List.mem_filterMap]
  constructor
  · rintro ⟨e, he, hi⟩
    cases e <;> simp at hi
    obtain ⟨rfl, rfl⟩ := hi
    exact he
  · exact fun h => ⟨_, h, by simp⟩

theorem answers_append {s : SocketId} {es log : List Event} (h : ∀ e ∈ es, e.ofAdmission ≠ some s) :
    answers s (es ++ log) = answers s log := by
  unfold answers
  rw [List.filterMap_append, List.filterMap_eq_nil_iff.mpr, List.nil_append]
  intro e he
  cases e <;> simp
  exact fun ht => h _ he (congrArg some ht)

/-! ## 2. The invariant of one chain -/

/-- What the log of socket `s` says about the run `R` of its chain, whichever call is next. -/
structure Answered (s : SocketId) (R : MiddlewareRun) (log : List Event) : Prop where
  bound : ∀ i ∈ answers s log, i < R.chain.length
  distinct : (answers s log).length ≤ R.chain.length → (answers s log).Nodup
  all : R.chain.length ≤ (answers s log).length → ∀ i < R.chain.length, i ∈ answers s log
  invoked : ∀ i < R.index, i < R.chain.length → .invoked s i ∈ log
  completed : ∀ past, .completed s :: past <:+ log →
    ∀ i < R.chain.length, .invoked s i ∈ past ∧ .answered s i ∈ past
  admitted : ∀ e past, e = .admitted s ∨ e = .connection s → e :: past <:+ log →
    .completed s ∈ past

/-- Between two calls the index is one ahead of the answers; before the first there is no event. -/
structure ChainInv (s : SocketId) (R : MiddlewareRun) (log : List Event) : Prop where
  idle : R.index = 0 → ∀ e ∈ log, e.ofAdmission ≠ some s
  count : R.index ≠ 0 → R.index = (answers s log).length + 1
  answered : R.index ≠ 0 → Answered s R log

/-- Events of other sockets and other kinds change nothing. -/
theorem ChainInv.frame {s : SocketId} {R : MiddlewareRun} {log es : List Event}
    (h : ChainInv s R log) (hes : ∀ e ∈ es, e.ofAdmission ≠ some s) :
    ChainInv s R (es ++ log) where
  idle h0 e he := (List.mem_append.mp he).elim (hes e) (h.idle h0 e)
  count h0 := by rw [answers_append hes]; exact h.count h0
  answered h0 := by
    have ha := h.answered h0
    constructor
    · rw [answers_append hes]
      exact ha.bound
    · rw [answers_append hes]
      exact ha.distinct
    · rw [answers_append hes]
      exact ha.all
    · exact fun i hi hn => List.mem_append_right _ (ha.invoked i hi hn)
    · exact fun past hp => ha.completed past (suffix_of_append hp fun he => hes _ he rfl)
    · refine fun e past he hp => ha.admitted e past he (suffix_of_append hp fun hm => ?_)
      rcases he with rfl | rfl <;> exact hes _ hm rfl

/-- **The step of `next`**: the index moves past as many members as have answered; when it passes
    the end, all of them have. -/
theorem ChainInv.advance {ℓ : Life} {s : SocketId} {log : List Event}
    (h : Answered s (ℓ.middleware s) log)
    (hc : (ℓ.middleware s).index = (answers s log).length) :
    ChainInv s ((ℓ.advance s).part.middleware s) ((ℓ.advance s).log ++ log) := by
  have hR : (ℓ.advance s).part.middleware s =
      { ℓ.middleware s with index := (ℓ.middleware s).index + 1 } := by
    unfold Life.advance
    dsimp only
    split <;> simp [Life.setMiddleware]
  have hA : answers s ((ℓ.advance s).log ++ log) = answers s log := by
    unfold Life.advance answers
    dsimp only
    split <;> rfl
  have hmem : ∀ e ∈ log, e ∈ (ℓ.advance s).log ++ log := fun e he => List.mem_append_right _ he
  rw [hR]
  refine ⟨fun h0 => by simp at h0, fun _ => by rw [hA, ← hc], fun _ => ⟨?_, ?_, ?_, ?_, ?_, ?_⟩⟩
  · rw [hA]
    exact h.bound
  · rw [hA]
    exact h.distinct
  · rw [hA]
    exact h.all
  · intro i hi hn
    rcases Nat.lt_succ_iff_lt_or_eq.mp hi with hi | rfl
    · exact hmem _ (h.invoked i hi hn)
    · refine List.mem_append_left _ ?_
      unfold Life.advance
      dsimp only
      rw [if_pos hn]
      exact List.mem_singleton_self _
  · intro past hp
    unfold Life.advance at hp
    dsimp only at hp
    split at hp
    · exact h.completed past (suffix_of_append hp (by simp))
    · rename_i hn
      rcases List.suffix_cons_iff.mp hp with hp | hp
      · obtain rfl := (List.cons.inj hp).2
        intro i hi
        have hi' : i < (ℓ.middleware s).chain.length := hi
        exact ⟨h.invoked i (by omega) hi', mem_answers.mp (h.all (by omega) i hi')⟩
      · exact h.completed past hp
  · intro e past he hp
    refine h.admitted e past he (suffix_of_append hp ?_)
    unfold Life.advance
    dsimp only
    split <;> rcases he with rfl | rfl <;> simp

/-- A member answers. Until `n` calls have been made it must be its first answer; then `n`
    distinct members below `n` are all of them. -/
theorem Answered.answer {s : SocketId} {R : MiddlewareRun} {log : List Event} {i : Nat}
    (h : Answered s R log) (hi : i < R.chain.length)
    (hd : (answers s log).length < R.chain.length → .answered s i ∉ log) :
    Answered s R (.answered s i :: log) := by
  have hA : answers s (.answered s i :: log) = i :: answers s log := by simp [answers]
  have hdist : (answers s log).length < R.chain.length → (i :: answers s log).Nodup := fun hl =>
    List.nodup_cons.mpr ⟨fun hm => hd hl (mem_answers.mp hm), h.distinct hl.le⟩
  have hb : ∀ k ∈ i :: answers s log, k < R.chain.length := fun k hk =>
    (List.mem_cons.mp hk).elim (fun e => e ▸ hi) (h.bound k)
  constructor
  · rw [hA]
    exact hb
  · rw [hA]
    exact hdist
  · rw [hA]
    intro hn k hk
    by_cases hl : (answers s log).length < R.chain.length
    · have hsub : (i :: answers s log) ⊆ List.range R.chain.length := fun x hx =>
        List.mem_range.mpr (hb x hx)
      have hperm := (List.subperm_of_subset (hdist hl) hsub).perm_of_length_le (by simpa using hn)
      exact hperm.mem_iff.mpr (List.mem_range.mpr hk)
    · exact List.mem_cons_of_mem _ (h.all (by omega) k hk)
  · exact fun k hk hn => List.mem_cons_of_mem _ (h.invoked k hk hn)
  · exact fun past hp =>
      h.completed past (@suffix_of_append _ _ [.answered s i] _ hp (by simp))
  · refine fun e past he hp =>
      h.admitted e past he (@suffix_of_append _ _ [.answered s i] _ hp ?_)
    rcases he with rfl | rfl <;> simp

/-- An admission or a `connection` event after a completion. -/
theorem ChainInv.record {s : SocketId} {R : MiddlewareRun} {log : List Event} {e : Event}
    (h : ChainInv s R log) (hc : .completed s ∈ log) (he : e = .admitted s ∨ e = .connection s) :
    ChainInv s R ([e] ++ log) := by
  have h0 : R.index ≠ 0 := fun h0 => h.idle h0 _ hc rfl
  have ha := h.answered h0
  have hA : answers s ([e] ++ log) = answers s log := by
    rcases he with rfl | rfl <;> simp [answers]
  refine ⟨fun h' => absurd h' h0, fun _ => by rw [hA]; exact h.count h0, fun _ => ?_⟩
  constructor
  · rw [hA]
    exact ha.bound
  · rw [hA]
    exact ha.distinct
  · rw [hA]
    exact ha.all
  · exact fun i hi hn => List.mem_append_right _ (ha.invoked i hi hn)
  · refine fun past hp => ha.completed past (suffix_of_append hp ?_)
    rcases he with rfl | rfl <;> simp
  · intro e' past he' hp
    rcases List.suffix_cons_iff.mp hp with hp | hp
    · obtain rfl := (List.cons.inj hp).2
      exact hc
    · exact ha.admitted e' past he' hp

/-! ## 3. The invariant of a run -/

/-- **The condition**: while fewer than `n` calls have been made, no member calls `next` without
    an error a second time. -/
def firstAnswers (σ : Core) : Instr → Bool
  | .life (.next s i none) =>
      decide ((σ.life.middleware s).chain.length < (σ.life.middleware s).index) ||
        decide (.answered s i ∉ σ.log)
  | _ => true

/-- A chain starts once. -/
def startsChain : Instr → Option SocketId
  | .life (.runMiddleware s) => some s
  | _ => none

/-- What is known of a pending instruction. -/
def AdmissionOk (σ : Core) : Instr → Prop
  | .life (.runMiddleware s) => (σ.life.middleware s).index = 0
  | .life (.next s i none) =>
      i < (σ.life.middleware s).index ∧ i < (σ.life.middleware s).chain.length
  | .ctl (.completion s none) | .memb (.enter s) | .ctl (.emitConnection s) => .completed s ∈ σ.log
  | _ => True

/-- No chain of a socket that does not exist has started. -/
structure AdmissionInv (σ : Core) : Prop where
  chain : ∀ s, ChainInv s (σ.life.middleware s) σ.log
  unborn : ∀ s, σ.conn.socketCount ≤ s → (σ.life.middleware s).index = 0

/-- What an instruction leaves alone: the chains and the events of other sockets. -/
theorem admission_frame {i : Instr} {s : SocketId} (h : i.admits ≠ some s) (σ : Core) :
    (∃ es, (exec P i σ).core.log = es ++ σ.log ∧ ∀ e ∈ es, e.ofAdmission ≠ some s) ∧
      (exec P i σ).core.life.middleware s = σ.life.middleware s := by
  constructor
  · obtain ⟨es, hes, hrec⟩ := exec_log P i σ
    refine ⟨es, hes, fun e he hs => h ?_⟩
    have hr := hrec e he
    unfold Instr.Records at hr
    split at hr
    all_goals
      first
        | exact hr.elim
        | (rcases hr with ⟨_, rfl⟩ | rfl <;> exact hs)
        | (rcases hr with rfl | ⟨_, rfl⟩ | rfl <;> exact hs)
        | (obtain ⟨_, _, rfl⟩ := hr; cases hs)
  · cases i with
    | life i =>
        cases i <;> try rfl
        case runMiddleware t =>
          have ht : s ≠ t := fun e => h (e ▸ rfl)
          simp [exec, execLife, runMiddleware, Life.advance, Life.setMiddleware]
          split <;> simp [ht]
        case next t i err =>
          cases err with
          | some e => rfl
          | none =>
              have ht : s ≠ t := fun e => h (e ▸ rfl)
              simp only [exec, execLife, next, Life.advance, Life.setMiddleware]
              split <;> simp [ht]
        case teardown => simp only [exec, execLife, teardown]; split <;> rfl
        case disconnectNamespaceFromServer =>
          simp only [exec, execLife, disconnectNamespaceFromServer]
          split <;> rfl
        case teardownDone => simp only [exec, execLife, teardownDone]; split <;> rfl
        case setPacket => simp only [exec, execLife, setPacket]; split <;> rfl
        case runPacket =>
          simp only [exec, execLife, runPacket]
          split <;> [rfl; (split <;> rfl)]
        case packetNext =>
          simp only [exec, execLife, packetNext]
          split <;> [rfl; (split <;> rfl)]
        case dispatchNamed =>
          simp only [exec, execLife, dispatchNamed]
          split <;> [rfl; (split <;> rfl)]
    | _ => rfl

theorem admissionInv_exec {σ : Core} {i : Instr} (hv : i.Valid σ) (hE : σ.conn.Extends
    (exec P i σ).core.conn) (h : AdmissionInv σ) (hok : AdmissionOk σ i) (hg : firstAnswers σ i = true) :
    AdmissionInv (exec P i σ).core := by
  constructor
  · intro s
    by_cases hi : i.admits = some s
    · have hc := h.chain s
      unfold Instr.admits at hi
      split at hi
      case h_1 t =>
        obtain rfl := Option.some.inj hi
        have h0 : (σ.life.middleware t).index = 0 := hok
        have hidle := hc.idle h0
        have hA : answers t σ.log = [] := List.filterMap_eq_nil_iff.mpr fun e he => by
          cases e <;> simp
          exact fun ht => hidle _ he (congrArg some ht)
        have hno : ∀ e ∈ σ.log, e.ofAdmission = some t → False := fun e he hs => hidle e he hs
        refine ChainInv.advance ⟨?_, ?_, ?_, ?_, ?_, ?_⟩ ?_
        · simp [hA]
        · simp [hA]
        · rw [hA]
          exact fun hn k hk => absurd (hk.trans_le hn) (Nat.not_lt_zero k)
        · simp [Life.setMiddleware]
        · exact fun past hp => (hno _ (hp.subset List.mem_cons_self) rfl).elim
        · rintro e past (rfl | rfl) hp <;> exact (hno _ (hp.subset List.mem_cons_self) rfl).elim
        · simp [hA, Life.setMiddleware]
      case h_2 t k =>
        obtain rfl := Option.some.inj hi
        obtain ⟨hk, hn⟩ : k < (σ.life.middleware t).index ∧ k < (σ.life.middleware t).chain.length :=
          hok
        have h0 : (σ.life.middleware t).index ≠ 0 := by omega
        have hcount := hc.count h0
        have hfirst : (σ.life.middleware t).chain.length < (σ.life.middleware t).index ∨
            .answered t k ∉ σ.log := by simpa [firstAnswers] using hg
        have ha := (hc.answered h0).answer hn fun hl => hfirst.resolve_left (by omega)
        have hadv := ChainInv.advance ha (by rw [hcount]; simp [answers])
        simpa [exec, execLife, next] using hadv
      case h_3 t =>
        obtain rfl := Option.some.inj hi
        exact hc.record hok (Or.inl rfl)
      case h_4 t =>
        obtain rfl := Option.some.inj hi
        exact hc.record hok (Or.inr rfl)
      case h_5 => cases hi
    · obtain ⟨⟨es, hes, hno⟩, hmw⟩ := admission_frame (P := P) hi σ
      rw [hes, hmw]
      exact (h.chain s).frame hno
  · intro s hs
    have hs' := hE.sockets.trans hs
    by_cases hi : i.admits = some s
    · have hlt : ∀ r, r = Ref.socket s → r ∈ i.refs → False := fun r hr hm =>
        absurd (hv r hm) (by rw [hr]; exact Nat.not_lt.mpr hs')
      unfold Instr.admits at hi
      split at hi <;> cases hi
      all_goals exact (hlt _ rfl (List.mem_singleton_self _)).elim
    · rw [(admission_frame (P := P) hi σ).2]
      exact h.unborn s hs'

/-- Only a new server socket starts a chain, its own. -/
theorem starts_newSocket {σ : Core} {i j : Instr} {s : SocketId}
    (hj : j ∈ (exec P i σ).spawned) (hs : startsChain j = some s) :
    (∃ a n, i = .conn (.newServerSocket a n)) ∧ s = σ.conn.socketCount := by
  have hby := spawnedBy hj
  unfold startsChain at hs
  split at hs
  · obtain rfl := Option.some.inj hs
    obtain ⟨a, n, rfl⟩ := hby
    refine ⟨⟨a, n, rfl⟩, ?_⟩
    simp only [exec, Effect.spawned, execConn, newServerSocket] at hj
    split at hj <;> simp at hj
    exact hj
  · cases hs

theorem admissionOk_spawned {σ : Core} {i : Instr} (h : AdmissionInv σ) (hok : AdmissionOk σ i)
    {j : Instr} (hj : j ∈ (exec P i σ).spawned) : AdmissionOk (exec P i σ).core j := by
  have hby := spawnedBy hj
  unfold AdmissionOk
  split
  case h_1 s =>
    obtain ⟨a, n, rfl⟩ := hby
    exact h.unborn s (starts_newSocket hj rfl).2.ge
  case h_2 => exact hby.elim
  case h_3 s =>
    have hc : ∀ ℓ : Life, Instr.ctl (.completion s none) ∈ (ℓ.advance s).push ++ (ℓ.advance s).post →
        Event.completed s ∈ (ℓ.advance s).log := fun ℓ hm => by
      unfold Life.advance at hm ⊢
      dsimp only at hm ⊢
      split at hm
      · simp at hm
      · rename_i hn
        rw [if_neg hn]
        exact List.mem_singleton_self _
    rcases hby with rfl | ⟨k, rfl⟩
    · exact List.mem_append_left _ (hc _ hj)
    · exact List.mem_append_left _ (List.mem_append_left _ (hc _ hj))
  case h_4 s =>
    obtain rfl : i = .ctl (.completion s none) := hby
    exact mem_log hok
  case h_5 s =>
    obtain rfl : i = .ctl (.completion s none) := hby
    exact mem_log hok
  case h_6 => trivial

/-- A started chain keeps its members, and its index does not fall. -/
theorem chain_mono {σ : Core} {i : Instr} {s : SocketId} (hi : AdmissionOk σ i)
    (h0 : (σ.life.middleware s).index ≠ 0) :
    ((exec P i σ).core.life.middleware s).chain = (σ.life.middleware s).chain ∧
      (σ.life.middleware s).index ≤ ((exec P i σ).core.life.middleware s).index := by
  by_cases ha : i.admits = some s
  · unfold Instr.admits at ha
    split at ha
    case h_1 t =>
      obtain rfl := Option.some.inj ha
      exact absurd hi h0
    case h_2 t k =>
      obtain rfl := Option.some.inj ha
      simp only [exec, execLife, next, Life.advance, Life.setMiddleware]
      split <;> simp
    case h_3 => exact ⟨rfl, le_rfl⟩
    case h_4 => exact ⟨rfl, le_rfl⟩
    case h_5 => cases ha
  · rw [(admission_frame (P := P) ha σ).2]
    exact ⟨rfl, le_rfl⟩

theorem admissionOk_stable {σ : Core} {i j : Instr} (hi : AdmissionOk σ i) (hj : AdmissionOk σ j)
    (ha : Apart startsChain i j) : AdmissionOk (exec P i σ).core j := by
  unfold AdmissionOk at hj ⊢
  split at hj
  case h_1 s =>
    by_cases hs : i.admits = some s
    · unfold Instr.admits at hs
      split at hs
      case h_1 t =>
        obtain rfl := Option.some.inj hs
        exact absurd rfl (ha t rfl)
      case h_2 t k =>
        obtain rfl := Option.some.inj hs
        have hk : k < (σ.life.middleware t).index := hi.1
        omega
      case h_3 => exact hj
      case h_4 => exact hj
      case h_5 => cases hs
    · rw [(admission_frame (P := P) hs σ).2]
      exact hj
  case h_2 s k =>
    obtain ⟨h1, h2⟩ := chain_mono (P := P) (s := s) hi (by omega)
    exact ⟨hj.1.trans_le h2, by rw [h1]; exact hj.2⟩
  case h_3 => exact mem_log hj
  case h_4 => exact mem_log hj
  case h_5 => exact mem_log hj
  case h_6 => trivial

/-- Chains, their answers and the instructions that drive them form an invariant. -/
theorem admission_inductive (P : Platform) :
    Inductive (runtime P) (fun σ i => firstAnswers σ i = true) (fun σ => σ.Wf P ∧ AdmissionInv σ)
      (fun σ i => i.Valid σ ∧ AdmissionOk σ i) startsChain := by
  refine Layer.inductive (valid_inductive P) (fun _ _ _ => trivial) ?_
  constructor
  case core =>
    exact fun σ i hw hv h => admissionInv_exec hv (conn_extends hw hv) h.inv h.ok h.good
  case spawn => exact fun σ i _ _ h j hj => admissionOk_spawned h.inv h.ok hj
  case stable => exact fun σ i j _ _ _ h hj ha => admissionOk_stable h.ok hj ha
  case call =>
    intro σ i _ _ hc
    unfold AdmissionOk
    split <;> simp [runtime, callable] at hc ⊢
    exact ⟨hc.1.2, hc.2⟩
  case handle =>
    intro σ i is _ hi his j hj
    rcases onThrow_handle his with rfl | ⟨a, err, rfl, -⟩
    · cases hj
    · obtain rfl := List.mem_singleton.mp hj
      trivial
  case apart =>
    intro σ i _ _ _
    by_cases hi : ∃ a n, i = .conn (.newServerSocket a n)
    · obtain ⟨a, n, rfl⟩ := hi
      simp only [runtime, exec, Effect.spawned, execConn, newServerSocket]
      split <;> exact List.pairwise_singleton _ _
    · exact List.pairwise_of_forall_mem_list fun j hj _ _ => Apart.of_none (by
        by_contra hne
        obtain ⟨s, hs⟩ := Option.ne_none_iff_exists'.mp hne
        exact hi (starts_newSocket hj hs).1)
  case fresh =>
    intro σ i j k _ _ hv _ _ _ hk s hs hj
    obtain ⟨-, rfl⟩ := starts_newSocket hk hs
    unfold startsChain at hj
    split at hj
    · obtain rfl := Option.some.inj hj
      exact Nat.lt_irrefl _ (hv (.socket _) (List.mem_singleton_self _))
    · cases hj
  case callFresh =>
    intro σ i j hc
    refine Apart.of_none ?_
    unfold startsChain
    split
    · simp [runtime, callable] at hc
    · rfl
  case handleFree =>
    intro σ i is his j hj
    rcases onThrow_handle his with rfl | ⟨a, err, rfl, -⟩
    · cases hj
    · obtain rfl := List.mem_singleton.mp hj
      rfl
  case free =>
    intro σ i hr
    unfold firstAnswers
    split
    · simp [runtime, onThrow] at hr
    · rfl

theorem newServer_admission : AdmissionInv newServer.core :=
  ⟨fun _ => ⟨nofun, nofun, fun h => absurd rfl h⟩, fun _ _ => rfl⟩

/-! ## 4. Soundness of admission -/

/-- **Admission is sound while first answers come first**: a completion, an admission and a
    `connection` event are preceded by the invocation and the answer of every member of the
    socket's chain. -/
theorem admission_sound {σ : State} {s : SocketId} {e : Event} {past : List Event}
    (h : (runtime P).Reach ((runtime P).Obeys fun σ i => firstAnswers σ i = true) newServer σ)
    (he : e = .completed s ∨ e = .admitted s ∨ e = .connection s)
    (hp : e :: past <:+ σ.core.log) :
    ∀ i < (σ.core.life.middleware s).chain.length,
      .invoked s i ∈ past ∧ .answered s i ∈ past := by
  have hk := h.inv_ok (admission_inductive P) (fun _ _ ho => ho)
    ⟨⟨newServer_wf P, newServer_admission⟩, nofun, .nil⟩
  have hc := hk.inv.2.chain s
  have hmem : e.ofAdmission = some s := by rcases he with rfl | rfl | rfl <;> rfl
  have h0 : (σ.core.life.middleware s).index ≠ 0 := fun h0 =>
    hc.idle h0 e (hp.subset List.mem_cons_self) hmem
  have ha := hc.answered h0
  rcases he with rfl | he
  · exact ha.completed past hp
  · obtain ⟨l, past', hsplit⟩ := List.append_of_mem (ha.admitted e past he hp)
    have hp' : .completed s :: past' <:+ σ.core.log :=
      (hsplit ▸ List.suffix_append l _).trans ((List.suffix_cons e past).trans hp)
    intro i hi
    obtain ⟨h1, h2⟩ := ha.completed past' hp' i hi
    exact ⟨hsplit ▸ List.mem_append_right _ (List.mem_cons_of_mem _ h1),
      hsplit ▸ List.mem_append_right _ (List.mem_cons_of_mem _ h2)⟩

/-- A client connects to a namespace with two members; the first of them is running. -/
def twoMembers : List (Action Instr) :=
  [.call (.srv (.use 0 0)), .call (.srv (.use 0 1)), .call (.srv (.serverConnect "/" false false)),
    .run]

/-- A member calls `next`. -/
def callNext (i : Nat) : Action Instr := .call (.life (.next 0 i none))

/-- **A member that calls `next` twice admits a socket for which the next member never answers.** -/
theorem admission_unsound :
    ∃ σ, (runtime unary).Reach (fun _ _ => True) newServer σ ∧ ∃ past,
      .admitted 0 :: past <:+ σ.core.log ∧ 1 < (σ.core.life.middleware 0).chain.length ∧
        .answered 0 1 ∉ past := by
  obtain ⟨σ, hσ, hp⟩ := reach_of_script (runtime unary) (fun _ _ => True) newServer 60
    (twoMembers ++ [callNext 0, .ret, callNext 0, .ret, .run])
    (fun σ => decide (σ.core.log = [.connection 0, .admitted 0, .completed 0, .answered 0 0,
      .invoked 0 1, .answered 0 0, .invoked 0 0] ∧ (σ.core.life.middleware 0).chain = [0, 1]))
    (by decide)
  obtain ⟨hlog, hchain⟩ := of_decide_eq_true hp
  refine ⟨σ, hσ, _, hlog ▸ List.suffix_cons _ _, by simp [hchain], by decide⟩

/-- Both members answer in turn, and the socket is admitted. -/
theorem admission_sound_twoMembers :
    ∃ σ, (runtime unary).Reach ((runtime unary).Obeys fun σ i => firstAnswers σ i = true)
        newServer σ ∧ ∃ past, .admitted 0 :: past <:+ σ.core.log ∧
          ∀ i < (σ.core.life.middleware 0).chain.length,
            .invoked 0 i ∈ past ∧ .answered 0 i ∈ past := by
  obtain ⟨σ, hσ, hp⟩ := reach_of_script (runtime unary)
    ((runtime unary).Obeys fun σ i => firstAnswers σ i = true) newServer 60
    (twoMembers ++ [callNext 0, callNext 1, .ret, .ret, .run])
    (fun σ => decide (σ.core.log = [.connection 0, .admitted 0, .completed 0, .answered 0 1,
      .invoked 0 1, .answered 0 0, .invoked 0 0])) (by decide)
  have hlog := of_decide_eq_true hp
  obtain ⟨past, hpast⟩ : ∃ past, .admitted 0 :: past <:+ σ.core.log :=
    ⟨_, hlog ▸ List.suffix_cons (Event.connection 0) _⟩
  exact ⟨σ, hσ, past, hpast, admission_sound hσ (Or.inr (Or.inl rfl)) hpast⟩

end Smocket
