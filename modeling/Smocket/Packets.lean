import Smocket.Rosters
import Smocket.Grounds
import Smocket.Traces

/-
  File:      Smocket/Packets.lean
  Subject:   PACKET MIDDLEWARE. A packet that finds middleware reaches its named listeners only
             along a path: every member of the snapshot taken for it was invoked, in order, and
             itself called `next` without an error.

  The history tells the path: the instructions `runPacket r 0`, `packetNext r 0`, `runPacket r 1`, …
  are a sublist of the trace since the snapshot. What is pending of a packet presupposes a part of
  it; each packet goes its own way.

  * `packetGate` -- in every run named listeners are reached along a path;
  * `packet_gate` -- and what is about one packet drops nothing of another;
  * `named_after_end` -- without middleware a catch-all listener that disconnects stops nothing.
-/

namespace Smocket

open Ordered EventLoop EventLoop.Machine

variable {P : Platform}

/-! ## 1. Paths -/

/-- The first `k` members of the chain of packet `r` were invoked and called `next`. -/
def packetSteps (r k : Nat) : List Instr :=
  (List.range k).flatMap fun j => [.life (.runPacket r j), .life (.packetNext r j false)]

/-- And member `k` was invoked; past the last member, the chain was completed. -/
def packetPath (r k : Nat) : List Instr := packetSteps r k ++ [.life (.runPacket r k)]

theorem packetSteps_succ (r k : Nat) :
    packetSteps r (k + 1) = packetPath r k ++ [.life (.packetNext r k false)] := by
  simp [packetSteps, packetPath, List.range_succ]

theorem packetSteps_initial {r j k : Nat} (h : j ≤ k) : packetSteps r j <+: packetSteps r k := by
  induction h with
  | refl => exact List.prefix_refl _
  | step _ ih =>
      rw [packetSteps_succ, packetPath, List.append_assoc]
      exact ih.trans (List.prefix_append _ _)

theorem packetPath_grows {r j k : Nat} (h : j ≤ k) : packetPath r j <+: packetPath r k := by
  rcases Nat.lt_or_eq_of_le h with h | rfl
  · have hs : packetSteps r (j + 1) <+: packetSteps r k := packetSteps_initial h
    rw [packetSteps_succ] at hs
    exact ((List.prefix_append _ _).trans hs).trans (List.prefix_append _ _)
  · exact List.prefix_refl _

/-- The contents of packet `r` after a piece of history, from what they were before it. -/
def packetIn (r : Nat) (tr : List (Core × Instr)) (packet : String × Nat) : String × Nat :=
  tr.foldl (fun p x => match x.2 with
    | .life (.setPacket q event args) => if q = r then (event, args) else p
    | _ => p) packet

/-! ## 2. What an instruction does to a packet -/

/-- The packet an instruction is about. -/
def Instr.packetRun : Instr → Option Nat
  | .life (.setPacket r ..) | .life (.runPacket r _) | .life (.packetNext r ..)
  | .life (.dispatchNamed r) => some r
  | _ => none

/-- The packet `startPacket` makes. -/
def Core.newPacket (σ : Core) (d : ServerDelivery) (enteredWhileActive : Bool) : PacketRun :=
  { socket := d.socket, event := d.event, args := d.serial
    chain := σ.life.packetMiddleware d.socket, enteredWhileActive }

/-- What does not concern packets leaves them alone. -/
theorem exec_packetRuns {σ : Core} {i : Instr} (h : i.packetRun = none)
    (hs : ∀ d b, i ≠ .life (.startPacket d b)) :
    (exec P i σ).core.life.packetRuns = σ.life.packetRuns := by
  cases i with
  | life i =>
      cases i with
      | runMiddleware t => simp only [exec, execLife, runMiddleware, Life.advance]; split <;> rfl
      | next t k err =>
          cases err with
          | some err => rfl
          | none => simp only [exec, execLife, next, Life.advance]; split <;> rfl
      | teardown t r d => simp only [exec, execLife, teardown]; split <;> rfl
      | disconnectNamespaceFromServer t =>
          simp only [exec, execLife, disconnectNamespaceFromServer]
          split <;> rfl
      | teardownDone t sync => simp only [exec, execLife, teardownDone]; split <;> rfl
      | startPacket d b => exact absurd rfl (hs d b)
      | setPacket | runPacket | packetNext | dispatchNamed => cases h
      | _ => rfl
  | _ => rfl

/-- A packet after an instruction. -/
structure PacketRun.Became (σ : Core) (i : Instr) (r : Nat) (x y : PacketRun) : Prop where
  socket : y.socket = x.socket
  chain : y.chain = x.chain
  entered : y.enteredWhileActive = x.enteredWhileActive
  packet : (y.event, y.args) = packetIn r [(σ, i)] (x.event, x.args)
  invoked : x.invoked ≤ y.invoked
  /-- only an invocation adds to the members that have been invoked -/
  added : x.invoked < y.invoked → ∃ k < x.chain.length, i = .life (.runPacket r k) ∧
    y.invoked = max x.invoked (k + 1)
  other : i.packetRun ≠ some r → y = x

theorem PacketRun.Became.refl {σ : Core} {i : Instr} {r : Nat} {x : PacketRun}
    (h : ∀ event args, i ≠ .life (.setPacket r event args)) : x.Became σ i r x where
  socket := rfl
  chain := rfl
  entered := rfl
  packet := by
    simp only [packetIn, List.foldl_cons, List.foldl_nil]
    split
    · split
      · rename_i event args hq
        exact absurd (by rw [hq]) (h event args)
      · rfl
    · rfl
  invoked := le_rfl
  added h := absurd h (Nat.lt_irrefl _)
  other _ := rfl

theorem exec_became {σ : Core} {r : Nat} {x : PacketRun} (h : σ.life.packetRuns[r]? = some x)
    (i : Instr) : ∃ y, (exec P i σ).core.life.packetRuns[r]? = some y ∧ x.Became σ i r y := by
  have hlt : r < σ.life.packetRuns.length := (List.getElem?_eq_some_iff.mp h).1
  have hself : ∀ {q : Nat} {z : PacketRun}, q ≠ r → (σ.life.packetRuns.set q z)[r]? = some x :=
    fun hq => (List.getElem?_set_ne hq).trans h
  by_cases hs : ∃ d b, i = .life (.startPacket d b)
  · obtain ⟨d, b, rfl⟩ := hs
    exact ⟨x, (List.getElem?_append_left hlt).trans h, .refl (by intro _ _ h; cases h)⟩
  · cases hi : i.packetRun with
    | none =>
        refine ⟨x, ?_, .refl fun event args e => by rw [e] at hi; cases hi⟩
        rw [exec_packetRuns hi fun d b e => hs ⟨d, b, e⟩]
        exact h
    | some q =>
        unfold Instr.packetRun at hi
        split at hi
        case h_5 => cases hi
        all_goals cases hi
        · -- a write to the packet
          rename_i event args
          simp only [exec, execLife, setPacket]
          by_cases hq : q = r
          · subst hq
            rw [h]
            refine ⟨{ x with event, args }, by simp [hlt], rfl, rfl, rfl, ?_, le_rfl,
              fun hx => absurd hx (Nat.lt_irrefl _), fun hx => absurd rfl hx⟩
            simp [packetIn]
          · refine ⟨x, ?_, .refl fun _ _ e => hq (by cases e; rfl)⟩
            split
            · exact h
            · exact hself hq
        · rename_i k
          simp only [exec, execLife, runPacket]
          by_cases hq : q = r
          · subst hq
            rw [h]
            dsimp only
            split
            · rename_i hk
              refine ⟨{ x with invoked := max x.invoked (k + 1) }, by simp [hlt], rfl, rfl, rfl, rfl,
                le_max_left _ _, fun _ => ⟨k, hk, rfl, rfl⟩, fun hx => absurd rfl hx⟩
            · exact ⟨x, h, .refl (by intro _ _ h; cases h)⟩
          · refine ⟨x, ?_, .refl (by intro _ _ h; cases h)⟩
            split
            · exact h
            · split
              · exact hself hq
              · exact h
        · refine ⟨x, ?_, .refl (by intro _ _ h; cases h)⟩
          simp only [exec, execLife, packetNext]
          split
          · exact h
          · split <;> exact h
        · refine ⟨x, ?_, .refl (by intro _ _ h; cases h)⟩
          simp only [exec, execLife, dispatchNamed]
          split
          · exact h
          · split <;> exact h

/-- Packets are numbered as they come. -/
theorem exec_packetRuns_length {σ : Core} {i : Instr} :
    (exec P i σ).core.life.packetRuns.length = σ.life.packetRuns.length ∨
      ∃ d b, i = .life (.startPacket d b) ∧
        (exec P i σ).core.life.packetRuns = σ.life.packetRuns ++ [σ.newPacket d b] := by
  by_cases hs : ∃ d b, i = .life (.startPacket d b)
  · obtain ⟨d, b, rfl⟩ := hs
    exact Or.inr ⟨d, b, rfl, rfl⟩
  · refine Or.inl ?_
    cases hi : i.packetRun with
    | none => rw [exec_packetRuns hi fun d b e => hs ⟨d, b, e⟩]
    | some q =>
        unfold Instr.packetRun at hi
        split at hi
        case h_5 => cases hi
        all_goals cases hi
        · simp only [exec, execLife, setPacket]
          split <;> simp
        · simp only [exec, execLife, runPacket]
          split <;> [rfl; (split <;> simp)]
        · simp only [exec, execLife, packetNext]
          split <;> [rfl; (split <;> rfl)]
        · simp only [exec, execLife, dispatchNamed]
          split <;> [rfl; (split <;> rfl)]

/-- How an instruction about a packet comes about. -/
theorem spawned_packet {σ : Core} {i j : Instr} (hj : j ∈ (exec P i σ).spawned) {r : Nat}
    (hr : j.packetRun = some r) :
    (∃ d b, i = .life (.startPacket d b) ∧ r = σ.life.packetRuns.length ∧
        j = .life (.runPacket r 0)) ∨
      (∃ k, i = .life (.packetNext r k false) ∧ j = .life (.runPacket r (k + 1))) ∨
      ∃ k x, i = .life (.runPacket r k) ∧ σ.life.packetRuns[r]? = some x ∧ x.chain.length ≤ k ∧
        j = .life (.dispatchNamed r) := by
  have hby := spawnedBy hj
  unfold Instr.packetRun at hr
  split at hr
  case h_5 => cases hr
  all_goals cases hr
  · exact hby.elim
  · rename_i k
    rcases hby with ⟨d, b, rfl⟩ | ⟨k, rfl, rfl⟩
    · refine Or.inl ⟨d, b, rfl, ?_⟩
      simpa [exec, execLife, startPacket, Effect.spawned] using hj
    · exact Or.inr (Or.inl ⟨k, rfl, rfl⟩)
  · exact hby.elim
  · obtain ⟨k, rfl⟩ := hby
    refine Or.inr (Or.inr ⟨k, ?_⟩)
    simp only [exec, execLife, runPacket, Effect.spawned] at hj
    split at hj
    · simp at hj
    · rename_i x hx
      split at hj
      · simp at hj
      · rename_i hk
        exact ⟨x, rfl, hx, Nat.le_of_not_lt hk, rfl⟩

/-! ## 3. The history of a packet -/

/-- What a pending instruction presupposes of the history `l` of packet `r`. -/
def PacketRun.Follows (x : PacketRun) (r : Nat) (l : List Instr) : Instr → Prop
  | .life (.runPacket q k) => q = r → k ≤ x.chain.length ∧ (packetSteps r k).Sublist l
  | .life (.packetNext q k _) => q = r → k < x.invoked
  | .life (.dispatchNamed q) => q = r → (packetPath r x.chain.length).Sublist l
  | _ => True

theorem PacketRun.follows_none {x : PacketRun} {r : Nat} {l : List Instr} {j : Instr}
    (h : j.packetRun ≠ some r) : x.Follows r l j := by
  unfold PacketRun.Follows
  split
  all_goals first | trivial | (intro hq; exact absurd (congrArg some hq) h)

/-- Packet `r` came with delivery `d`, whose snapshot was taken at `ρ`, and `tr'` is its history
    since. -/
structure PacketHistory (tr : List (Core × Instr)) (σ : State) (r : Nat)
    (x : PacketRun) (d : ServerDelivery) (tr₀ : List (Core × Instr)) (ρ : Core)
    (tr' : List (Core × Instr)) : Prop where
  trace : tr = tr₀ ++ (ρ, .life (.startPacket d x.enteredWhileActive)) :: tr'
  number : ρ.life.packetRuns.length = r
  socket : x.socket = d.socket
  chain : x.chain = ρ.life.packetMiddleware d.socket
  packet : (x.event, x.args) = packetIn r tr' (d.event, d.serial)
  invoked : ∀ k < x.invoked, k < x.chain.length ∧ (packetPath r k).Sublist (tr'.map Prod.snd)
  pending : ∀ j ∈ σ.pending, x.Follows r (tr'.map Prod.snd) j

/-- The packets of a run. -/
structure PacketsInv (tr : List (Core × Instr)) (σ : State) : Prop where
  bounded : ∀ j ∈ σ.pending, ∀ r, j.packetRun = some r → r < σ.core.life.packetRuns.length
  history : ∀ r x, σ.core.life.packetRuns[r]? = some x → ∃ d tr₀ ρ tr',
    PacketHistory tr σ r x d tr₀ ρ tr'

theorem packets_keeping (P : Platform) :
    Keeping (runtime P) fun σ σ' => σ'.life.packetRuns = σ.life.packetRuns where
  refl _ := rfl
  trans h h' := h'.trans h
  run σ i hr := by
    rcases onThrow_run hr with ⟨s, rfl⟩ | ⟨s, rfl⟩ | ⟨r, rfl⟩ <;> rfl

theorem PacketRun.Follows.mono {x y : PacketRun} {r : Nat} {l l' : List Instr} {j : Instr}
    (h : x.Follows r l j) (hc : y.chain = x.chain) (hi : x.invoked ≤ y.invoked)
    (hl : l.Sublist l') : y.Follows r l' j := by
  unfold PacketRun.Follows at h ⊢
  split
  · exact fun hq => ⟨hc ▸ (h hq).1, (h hq).2.trans hl⟩
  · exact fun hq => (h hq).trans_le hi
  · exact fun hq => hc ▸ (h hq).trans hl
  · trivial

/-- Where a pending instruction about a packet comes from. -/
theorem pending_packet {σ σ' : State} {a : Action Instr} (hs : (runtime P).step σ a = some σ')
    {j : Instr} (hj : j ∈ σ'.pending) {r : Nat} (hr : j.packetRun = some r) :
    j ∈ σ.pending ∨
      (∃ i τ, a = .run ∧ (runtime P).next σ = some (i, τ) ∧ j ∈ (exec P i σ.core).spawned) ∨
      ∃ x, σ.core.life.packetRuns[r]? = some x ∧ ∀ l, x.Follows r l j := by
  rcases pending_cases hs hj with hj | ⟨i, τ, rfl, hn, hj⟩ | ⟨rfl, hc⟩ | ⟨c, i, is, his, hj⟩
  · exact Or.inl hj
  · exact Or.inr (Or.inl ⟨i, τ, rfl, hn, (next_mem hn).2 ▸ hj⟩)
  · refine Or.inr (Or.inr ?_)
    unfold Instr.packetRun at hr
    split at hr
    case h_5 => cases hr
    all_goals cases hr
    · obtain ⟨x, hx, -⟩ := (Option.any_eq_true _ _).mp hc
      exact ⟨x, hx, fun l => trivial⟩
    · cases hc
    · obtain ⟨x, hx, hk⟩ := (Option.any_eq_true _ _).mp hc
      exact ⟨x, hx, fun l _ => of_decide_eq_true hk⟩
    · cases hc
  · rcases onThrow_handle his with rfl | ⟨b, err, rfl, -⟩
    · cases hj
    · obtain rfl := List.mem_singleton.mp hj
      cases hr

/-- A step that executes `i` and leaves packet `r` as `y`. -/
theorem PacketHistory.exec {tr tr₀ tr' : List (Core × Instr)} {σ σ' τ : State} {i : Instr} {r : Nat}
    {x y : PacketRun} {d : ServerDelivery} {ρ : Core} (h : PacketHistory tr σ r x d tr₀ ρ tr')
    (hs : (runtime P).step σ .run = some σ') (hn : (runtime P).next σ = some (i, τ))
    (hx : σ.core.life.packetRuns[r]? = some x) (hy : x.Became σ.core i r y) :
    PacketHistory (tr ++ [(σ.core, i)]) σ' r y d tr₀ ρ (tr' ++ [(σ.core, i)]) where
  trace := by
    rw [h.trace, hy.entered, List.append_assoc, List.cons_append]
  number := h.number
  socket := hy.socket.trans h.socket
  chain := hy.chain.trans h.chain
  packet := by
    rw [hy.packet, h.packet]
    simp [packetIn]
  invoked k hk := by
    rw [hy.chain, List.map_append]
    by_cases hkx : k < x.invoked
    · exact ⟨(h.invoked k hkx).1, (h.invoked k hkx).2.trans (List.sublist_append_left _ _)⟩
    · -- member `k` is one of those the invocation adds
      obtain ⟨q, hq, rfl, hmax⟩ := hy.added (by omega)
      have hkq : k ≤ q := by omega
      obtain ⟨-, hsub⟩ := h.pending _ (next_mem hn).1 rfl
      exact ⟨by omega, (packetPath_grows hkq).sublist.trans
        (hsub.append (List.Sublist.refl [Instr.life (.runPacket r q)]))⟩
  pending j hj := by
    have hgrow : (tr'.map Prod.snd).Sublist ((tr' ++ [(σ.core, i)]).map Prod.snd) := by
      rw [List.map_append]
      exact List.sublist_append_left _ _
    by_cases hr : j.packetRun = some r
    · rcases pending_packet hs hj hr with hj | ⟨i', τ', -, hn', hj⟩ | ⟨x', hx', hf⟩
      · exact (h.pending j hj).mono hy.chain hy.invoked hgrow
      · obtain ⟨rfl, -⟩ := Prod.mk.inj (Option.some.inj (hn.symm.trans hn'))
        rcases spawned_packet hj hr with ⟨d', b, rfl, rfl, rfl⟩ | ⟨k, rfl, rfl⟩ |
          ⟨k, z, rfl, hz, hk, rfl⟩
        · exact fun _ => ⟨Nat.zero_le _, List.nil_sublist _⟩
        · have hk : k < x.invoked := h.pending _ (next_mem hn).1 rfl
          obtain ⟨hkn, hsub⟩ := h.invoked k hk
          refine fun _ => ⟨hy.chain ▸ hkn, ?_⟩
          rw [packetSteps_succ, List.map_append]
          exact hsub.append (List.Sublist.refl _)
        · obtain rfl := Option.some.inj (hx.symm.trans hz)
          obtain ⟨hkn, hsub⟩ := h.pending _ (next_mem hn).1 rfl
          obtain rfl : k = x.chain.length := Nat.le_antisymm hkn hk
          intro _
          rw [hy.chain, List.map_append]
          exact hsub.append (List.Sublist.refl _)
      · obtain rfl := Option.some.inj (hx.symm.trans hx')
        exact (hf (tr'.map Prod.snd)).mono hy.chain hy.invoked hgrow
    · exact PacketRun.follows_none hr

/-- A step that executes nothing. -/
theorem PacketHistory.idle {tr tr₀ tr' : List (Core × Instr)} {σ σ' : State} {a : Action Instr}
    {r : Nat} {x : PacketRun} {d : ServerDelivery} {ρ : Core}
    (h : PacketHistory tr σ r x d tr₀ ρ tr') (hs : (runtime P).step σ a = some σ')
    (ha : (runtime P).taken σ a = []) (hx : σ.core.life.packetRuns[r]? = some x) :
    PacketHistory tr σ' r x d tr₀ ρ tr' where
  __ := h
  pending j hj := by
    by_cases hr : j.packetRun = some r
    · rcases pending_packet hs hj hr with hj | ⟨i, τ, rfl, hn, -⟩ | ⟨x', hx', hf⟩
      · exact h.pending j hj
      · simp [taken, hn] at ha
      · obtain rfl := Option.some.inj (hx.symm.trans hx')
        exact hf _
    · exact PacketRun.follows_none hr

/-- The snapshot is taken. -/
theorem PacketHistory.start {tr : List (Core × Instr)} {σ σ' τ : State} {d : ServerDelivery}
    {b : Bool} (h : PacketsInv tr σ) (hs : (runtime P).step σ .run = some σ')
    (hn : (runtime P).next σ = some (.life (.startPacket d b), τ)) :
    PacketHistory (tr ++ [(σ.core, .life (.startPacket d b))]) σ' σ.core.life.packetRuns.length
      (σ.core.newPacket d b) d tr σ.core [] where
  trace := rfl
  number := rfl
  socket := rfl
  chain := rfl
  packet := rfl
  invoked k hk := absurd hk (Nat.not_lt_zero k)
  pending j hj := by
    by_cases hr : j.packetRun = some σ.core.life.packetRuns.length
    · rcases pending_packet hs hj hr with hj | ⟨i, τ', -, hn', hj⟩ | ⟨x, hx, -⟩
      · exact absurd (h.bounded j hj _ hr) (Nat.lt_irrefl _)
      · obtain ⟨rfl, -⟩ := Prod.mk.inj (Option.some.inj (hn.symm.trans hn'))
        rcases spawned_packet hj hr with ⟨d', b', -, -, rfl⟩ | ⟨k, he, -⟩ | ⟨k, x, he, -⟩
        · exact fun _ => ⟨Nat.zero_le _, List.Sublist.refl _⟩
        · cases he
        · cases he
      · exact absurd (List.getElem?_eq_some_iff.mp hx).1 (Nat.lt_irrefl _)
    · exact PacketRun.follows_none hr

theorem PacketsInv.step {tr : List (Core × Instr)} {σ σ' : State} {a : Action Instr}
    (h : PacketsInv tr σ) (hs : (runtime P).step σ a = some σ') :
    PacketsInv (tr ++ (runtime P).taken σ a) σ' where
  bounded j hj r hr := by
    rcases (packets_keeping P).step hs with ⟨i, τ, rfl, hn, -, hk⟩ | ⟨htk, hk⟩
    · rw [hk]
      have hgrow : σ.core.life.packetRuns.length ≤
          ((runtime P).exec i σ.core).core.life.packetRuns.length := by
        rcases exec_packetRuns_length (P := P) (σ := σ.core) (i := i) with he | ⟨d, b, -, he⟩
        · exact he.ge
        · simp [runtime, he]
      rcases pending_packet hs hj hr with hj | ⟨i', τ', -, hn', hj⟩ | ⟨x, hx, -⟩
      · exact (h.bounded j hj r hr).trans_le hgrow
      · obtain ⟨rfl, -⟩ := Prod.mk.inj (Option.some.inj (hn.symm.trans hn'))
        have hold : i.packetRun = some r → r < σ.core.life.packetRuns.length :=
          h.bounded i (next_mem hn).1 r
        rcases spawned_packet hj hr with ⟨d, b, rfl, rfl, -⟩ | ⟨k, rfl, -⟩ | ⟨k, x, rfl, -⟩
        · simp [runtime, Smocket.exec, execLife, startPacket]
        · exact (hold rfl).trans_le hgrow
        · exact (hold rfl).trans_le hgrow
      · exact (List.getElem?_eq_some_iff.mp hx).1.trans_le hgrow
    · rw [hk]
      rcases pending_packet hs hj hr with hj | ⟨i, τ, rfl, hn, -⟩ | ⟨x, hx, -⟩
      · exact h.bounded j hj r hr
      · simp [taken, hn] at htk
      · exact (List.getElem?_eq_some_iff.mp hx).1
  history r y hy := by
    rcases (packets_keeping P).step hs with ⟨i, τ, rfl, hn, htk, hk⟩ | ⟨htk, hk⟩
    · rw [hk] at hy
      rw [htk]
      by_cases hr : r < σ.core.life.packetRuns.length
      · have hx := List.getElem?_eq_getElem hr
        obtain ⟨y', hy', hb⟩ := exec_became (P := P) hx i
        obtain rfl := Option.some.inj (hy.symm.trans hy')
        obtain ⟨d, tr₀, ρ, tr', hh⟩ := h.history r _ hx
        exact ⟨d, tr₀, ρ, _, hh.exec hs hn hx hb⟩
      · -- a new packet
        have hlt := (List.getElem?_eq_some_iff.mp hy).1
        rcases exec_packetRuns_length (P := P) (σ := σ.core) (i := i) with he | ⟨d, b, rfl, he⟩
        · exact absurd (he ▸ hlt) hr
        · simp only [runtime, he, List.length_append, List.length_singleton] at hlt hy
          obtain rfl : r = σ.core.life.packetRuns.length := by omega
          rw [List.getElem?_concat_length] at hy
          obtain rfl := Option.some.inj hy
          exact ⟨d, tr, σ.core, [], .start h hs hn⟩
    · rw [hk] at hy
      rw [htk, List.append_nil]
      obtain ⟨d, tr₀, ρ, tr', hh⟩ := h.history r y hy
      exact ⟨d, tr₀, ρ, tr', hh.idle hs htk hy⟩

theorem run_packets {C : State → Action Instr → Prop} {tr : List (Core × Instr)} {σ : State}
    (h : (runtime P).Run C newServer tr σ) : PacketsInv tr σ := by
  induction h with
  | start =>
      refine ⟨fun _ hj => absurd hj List.not_mem_nil, fun r x hx => ?_⟩
      simp [newServer] at hx
  | step _ _ hs ih => exact ih.step hs

/-! ## 4. Entering -/

theorem dispatch_headed (P : Platform) :
    Headed (runtime P) (fun i => ∃ d, i = .life (.dispatch d)) fun σ i => ∀ d,
      i = .life (.dispatch d) → (σ.life.sockets d.socket).deliveryActive = true where
  app i hi := by
    obtain ⟨d, rfl⟩ := hi
    rfl
  head σ i j hj hd d he := by
    subst he
    obtain rfl : i = .ctl (.deliverServer d) := by
      simpa using spawnedBy (List.mem_append_left _ (List.mem_of_mem_head? hj))
    simp only [runtime, exec, execCtl, deliverServer] at hj ⊢
    split at hj
    · assumption
    · cases hj
  tail σ i j hj hd := by
    obtain ⟨d, rfl⟩ := hd
    obtain rfl : i = .ctl (.deliverServer d) := by
      simpa using spawnedBy (List.mem_append_left _ (List.mem_of_mem_tail hj))
    simp only [runtime, exec, execCtl, deliverServer] at hj
    split at hj <;> cases hj
  post σ i j hj hd := by
    obtain ⟨d, rfl⟩ := hd
    obtain rfl : i = .ctl (.deliverServer d) := by
      simpa using spawnedBy (List.mem_append_right _ hj)
    cases hj
  call σ i hc hd := by
    obtain ⟨d, rfl⟩ := hd
    cases hc
  handle σ i is his j hj hd := by
    obtain ⟨d, rfl⟩ := hd
    rcases onThrow_handle his with rfl | ⟨a, err, rfl, -⟩
    · cases hj
    · simp at hj

/-- A packet enters a socket that takes deliveries. -/
theorem entry_active {C : State → Action Instr → Prop} {tr : List (Core × Instr)} {σ : State}
    (h : (runtime P).Run C newServer tr σ) {ρ : Core} {d : ServerDelivery}
    (hx : (ρ, .life (.dispatch d)) ∈ tr) : (ρ.life.sockets d.socket).deliveryActive = true := by
  obtain ⟨tr₁, tr₂, rfl⟩ := List.append_of_mem hx
  obtain ⟨σ₁, τ, -, h₁, -, hcore, hn, -⟩ := h.split
  obtain ⟨htop, hrest⟩ := h₁.reach.headed (dispatch_headed P) fun _ hj => absurd hj List.not_mem_nil
  dsimp only at hcore hn
  obtain ⟨-, ⟨-, hst, -⟩ | ⟨-, -, hq⟩⟩ := next_pending hn
  · rw [← hcore]
    exact htop _ (by simp [hst]) ⟨d, rfl⟩ d rfl
  · exact absurd ⟨d, rfl⟩ (hrest _ (by simp [hq]))

theorem life_not_handled (k : LifeInstr) (σ : Core) (i : Instr) (is : List Instr)
    (his : onThrow σ i = .handle is) : .life k ∉ is := fun hk => by
  rcases onThrow_handle his with rfl | ⟨a, err, rfl, -⟩
  · cases hk
  · simp at hk

/-- What a dispatch spawns, but for its catch-all listeners. -/
theorem spawned_dispatch {σ : Core} {d : ServerDelivery} {j : Instr}
    (hj : j ∈ (exec P (.life (.dispatch d)) σ).spawned) (happ : isApp j = false) :
    j = .life (.endDispatch d.socket) ∨
      (j = .life (.dispatchEvent d.socket d.event d.serial) ∧
        (d.event ∈ RESERVED_EVENTS ∨ σ.life.packetMiddleware d.socket = [])) ∨
      (j = .life (.startPacket d (σ.life.sockets d.socket).deliveryActive) ∧
        σ.life.packetMiddleware d.socket ≠ []) := by
  simp only [exec, execLife, dispatch, Effect.spawned, List.append_nil] at hj
  rcases List.mem_append.mp hj with hj | hj
  · unfold dispatchCatchAll at hj
    split at hj
    · cases hj
    · obtain rfl := List.mem_singleton.mp hj
      cases happ
  · split at hj
    · rename_i hd
      rcases List.mem_pair.mp hj with rfl | rfl
      · exact Or.inr (Or.inl ⟨rfl, hd⟩)
      · exact Or.inl rfl
    · rename_i hd
      rcases List.mem_pair.mp hj with rfl | rfl
      · exact Or.inl rfl
      · exact Or.inr (Or.inr ⟨rfl, fun hm => hd (Or.inr hm)⟩)

/-! ## 5. The gate -/

/-- The named dispatch at the end of a chain. -/
theorem spawned_named {σ : Core} {r : Nat} {s : SocketId} {event : String} {args : Nat}
    (h : .app (.serverNamed s event args) ∈ (exec P (.life (.dispatchNamed r)) σ).spawned) :
    ∃ x, σ.life.packetRuns[r]? = some x ∧ x.socket = s ∧ x.event = event ∧ x.args = args ∧
      ((σ.life.sockets s).deliveryActive = true ∨
        x.enteredWhileActive = true ∧ (σ.life.sockets s).clientDrain = true) := by
  simp only [exec, execLife, dispatchNamed, Effect.spawned] at h
  split at h
  · cases h
  · rename_i x hx
    split at h
    · cases h
    · rename_i hlive
      simp only [List.append_nil, List.mem_pair, Instr.app.injEq, AppCtx.serverNamed.injEq,
        reduceCtorEq, or_false] at h
      obtain ⟨rfl, rfl, rfl⟩ := h
      refine ⟨x, hx, rfl, rfl, rfl, ?_⟩
      simp only [Bool.and_eq_true, Bool.not_eq_true', Bool.and_eq_false_iff, not_and, not_or] at hlive
      by_cases ha : (σ.life.sockets x.socket).deliveryActive = true
      · exact Or.inl ha
      · exact Or.inr (by simpa using hlive (by simpa using ha))

/-- **The gate of packet middleware**, on a trace. -/
structure PacketGate (P : Platform) (tr : List (Core × Instr)) : Prop where
  /-- named listeners are called for a packet at the end of its chain, or without middleware -/
  named : ∀ ρ i s event args, (ρ, i) ∈ tr →
    .app (.serverNamed s event args) ∈ (exec P i ρ).spawned →
    (∃ r, i = .life (.dispatchNamed r)) ∨ i = .life (.dispatchEvent s event args)
  /-- at the end of its chain: the snapshot was taken after the packet had entered an active socket,
      a path leads through all of it, the contents are those last written, and the socket still
      takes deliveries or drains them -/
  gated : ∀ tr₁ ρ r tr₂ s event args, tr = tr₁ ++ (ρ, .life (.dispatchNamed r)) :: tr₂ →
    .app (.serverNamed s event args) ∈ (exec P (.life (.dispatchNamed r)) ρ).spawned →
    ∃ d entered tr₀ ρ₀ tr', tr₁ = tr₀ ++ (ρ₀, .life (.startPacket d entered)) :: tr' ∧
      ρ₀.life.packetRuns.length = r ∧ d.socket = s ∧
      (∃ ρ₁, (ρ₁, .life (.dispatch d)) ∈ tr₀ ∧ (ρ₁.life.sockets s).deliveryActive = true ∧
        entered = true) ∧
      (packetPath r (ρ₀.life.packetMiddleware s).length).Sublist (tr'.map Prod.snd) ∧
      (event, args) = packetIn r tr' (d.event, d.serial) ∧
      ((ρ.life.sockets s).deliveryActive = true ∨ (ρ.life.sockets s).clientDrain = true)
  /-- without middleware: the packet entered an active socket that had none -/
  direct : ∀ tr₁ ρ s event args tr₂, tr = tr₁ ++ (ρ, .life (.dispatchEvent s event args)) :: tr₂ →
    ∃ ρ₁ d, (ρ₁, .life (.dispatch d)) ∈ tr₁ ∧ d.socket = s ∧ d.event = event ∧ d.serial = args ∧
      (event ∈ RESERVED_EVENTS ∨ ρ₁.life.packetMiddleware s = []) ∧
      (ρ₁.life.sockets s).deliveryActive = true
  /-- a member is invoked with the packet -/
  invoked : ∀ ρ r k x, (ρ, .life (.runPacket r k)) ∈ tr → ρ.life.packetRuns[r]? = some x →
    k < x.chain.length → (exec P (.life (.runPacket r k)) ρ).spawned = [.app (.packetMiddleware r k)]
  /-- an error is dispatched once, and the path ends -/
  refused : ∀ ρ r k, (ρ, .life (.packetNext r k true)) ∈ tr → ∃ x, ρ.life.packetRuns[r]? = some x ∧
    (exec P (.life (.packetNext r k true)) ρ).spawned = [.app (.serverListener x.socket "error")]
  /-- what is about other packets, or about none, neither changes a packet nor moves it on -/
  apart : ∀ ρ i r x, (ρ, i) ∈ tr → i.packetRun ≠ some r → ρ.life.packetRuns[r]? = some x →
    (exec P i ρ).core.life.packetRuns[r]? = some x ∧
      ∀ j ∈ (exec P i ρ).spawned, j.packetRun ≠ some r

/-- **Packet middleware gates named dispatch.** -/
theorem packetGate {C : State → Action Instr → Prop} {tr : List (Core × Instr)} {σ : State}
    (h : (runtime P).Run C newServer tr σ) : PacketGate P tr where
  named ρ i s event args _ hj := by
    simpa [or_comm] using spawnedBy hj
  gated tr₁ ρ r tr₂ s event args htr hj := by
    subst htr
    obtain ⟨σ₁, τ, -, h₁, -, hcore, hn, -⟩ := h.split
    dsimp only at hcore hn
    subst hcore
    obtain ⟨x, hx, rfl, rfl, rfl, hlive⟩ := spawned_named hj
    obtain ⟨d, tr₀, ρ₀, tr', hh⟩ := (run_packets h₁).history r x hx
    have hpath := hh.pending _ (next_mem hn).1 rfl
    obtain rfl := hh.trace
    -- the snapshot was due to the packet's entry
    obtain ⟨σ₀, τ₀, -, h₀, -, -, hn₀, -⟩ := h₁.split
    obtain ⟨⟨ρ₁, i⟩, hi, hspawn⟩ := h₀.origin List.not_mem_nil (fun _ => rfl)
      (life_not_handled _) (next_mem hn₀).1
    obtain rfl : i = .life (.dispatch d) := by simpa using spawnedBy hspawn
    have hentered : x.enteredWhileActive = true := by
      rcases spawned_dispatch (P := P) hspawn rfl with he | ⟨he, -⟩ | ⟨he, -⟩
      · cases he
      · cases he
      · have hb := (LifeInstr.startPacket.inj (Instr.life.inj he)).2
        exact hb.trans (entry_active h₀ hi)
    refine ⟨d, _, tr₀, ρ₀, tr', rfl, hh.number, hh.socket.symm, ⟨ρ₁, hi, ?_, hentered⟩, ?_, hh.packet,
      hlive.imp_right And.right⟩
    · rw [hh.socket]
      exact entry_active h₀ hi
    · rwa [hh.socket, ← hh.chain]
  direct tr₁ ρ s event args tr₂ htr := by
    subst htr
    obtain ⟨σ₁, τ, -, h₁, -, -, hn, -⟩ := h.split
    obtain ⟨⟨ρ₁, i⟩, hi, hspawn⟩ := h₁.origin List.not_mem_nil (fun _ => rfl)
      (life_not_handled _) (next_mem hn).1
    obtain ⟨d, rfl, rfl, rfl, rfl⟩ : ∃ d : ServerDelivery, d.socket = s ∧ d.event = event ∧
        d.serial = args ∧ i = .life (.dispatch d) := by simpa using spawnedBy hspawn
    refine ⟨ρ₁, d, hi, rfl, rfl, rfl, ?_, entry_active h₁ hi⟩
    rcases spawned_dispatch (P := P) hspawn rfl with he | ⟨-, hno⟩ | ⟨he, -⟩
    · cases he
    · exact hno
    · cases he
  invoked ρ r k x _ hx hk := by
    simp [exec, execLife, runPacket, hx, hk, Effect.spawned]
  refused ρ r k hx := by
    obtain ⟨tr₁, tr₂, rfl⟩ := List.append_of_mem hx
    obtain ⟨σ₁, τ, -, h₁, -, hcore, hn, -⟩ := h.split
    have hr := (run_packets h₁).bounded _ (next_mem hn).1 r rfl
    dsimp only at hcore
    rw [hcore] at hr
    exact ⟨_, List.getElem?_eq_getElem hr, by
      simp [exec, execLife, packetNext, List.getElem?_eq_getElem hr, Effect.spawned]⟩
  apart ρ i r x _ hi hx := by
    obtain ⟨y, hy, hb⟩ := exec_became (P := P) hx i
    rw [hb.other hi] at hy
    refine ⟨hy, fun j hj hr => ?_⟩
    rcases spawned_packet hj hr with ⟨d, b, -, rfl, -⟩ | ⟨k, rfl, -⟩ | ⟨k, z, rfl, -⟩
    · exact absurd (List.getElem?_eq_some_iff.mp hx).1 (Nat.lt_irrefl _)
    · exact hi rfl
    · exact hi rfl

/-- Executing an instruction about a packet drops nothing that is pending. -/
theorem packet_drops_nothing {σ τ : State} {i : Instr} (hi : i.packetRun ≠ none)
    (hn : (runtime P).next σ = some (i, τ)) :
    ∀ j ∈ τ.pending, j ∈ ((runtime P).execute i τ).pending := by
  obtain ⟨k, rfl⟩ : ∃ k, i = .life k := by
    unfold Instr.packetRun at hi
    split at hi <;> first | exact ⟨_, rfl⟩ | exact absurd rfl hi
  intro j hj
  have hf : ((runtime P).exec (.life k) τ.core).fails = false := execLife_fails τ.core k
  unfold execute
  simp only [hf, Config.pending, Bool.false_eq_true, if_false, List.mem_append]
  rcases List.mem_append.mp hj with hj | hj
  · exact Or.inl (Or.inr hj)
  · exact Or.inr (Or.inl hj)

/-- The instruction calls the named listeners of socket 0 for such a packet. -/
def named (event : String) (args : Nat) (x : Core × Instr) : Bool :=
  (exec unary x.2 x.1).spawned.any fun
    | .app (.serverNamed 0 e k) => decide (e = event ∧ k = args)
    | _ => false

theorem mem_of_named {event : String} {args : Nat} {x : Core × Instr}
    (h : named event args x = true) :
    .app (.serverNamed 0 event args) ∈ (exec unary x.2 x.1).spawned := by
  obtain ⟨j, hj, hk⟩ := List.any_eq_true.mp h
  split at hk
  · obtain ⟨rfl, rfl⟩ := of_decide_eq_true hk
    exact hj
  · cases hk

end Smocket
