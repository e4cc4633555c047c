import Smocket.Stale
import Smocket.Log

/-
  File:      Smocket/Generations.lean
  Subject:   A PACKET STAYS IN THE GENERATION IT WAS HANDED OVER IN. What is handed to a server
             socket while that socket is its client's current one reaches the client through this
             socket, in its drain, or not at all.

  The guard of a packet names the socket that was current when the packet was handed over. While a
  client is connected its current socket is the one it is connected through (`Conn.Faithful`), so a
  guard that lets its packet through names the connection the packet arrives in.

  * `faithful_exec` -- a client stays paired with the socket of its attempt;
  * `generation_kept` -- a packet handed over in a generation is dispatched in it;
  * `generation_left` -- one whose own observer disconnects is dispatched without any.
-/

namespace Smocket

open Ordered EventLoop EventLoop.Machine

variable {P : Platform}

/-! ## 1. The current socket of a connected client -/

theorem Conn.setClient_same {β : Type} (f : ClientSocket → β) {κ : Conn} {c d : ClientId}
    {g : ClientSocket → ClientSocket} (hg : ∀ x, f (g x) = f x) :
    f ((κ.setClient d g).clients c) = f (κ.clients c) := by
  simp only [Conn.setClient, modify_apply]
  split
  · rename_i hd
    rw [hg, hd]
  · rfl

/-- A client keeps the server socket it was paired with until it is paired again. -/
theorem execConn_serverSocket {σ : Core} {i : ConnInstr} {c : ClientId}
    (hc : c < σ.conn.clientCount) :
    ((execConn P σ i).part.clients c).serverSocket = (σ.conn.clients c).serverSocket ∨
      ∃ a s, i = .completeConnectionAttempt a s ∧ σ.conn.isConnectionAttemptPending a = true ∧
        (σ.conn.attempts a).client = c := by
  have hset : ∀ {κ : Conn} {d : ClientId} {g : ClientSocket → ClientSocket},
      (∀ x, (g x).serverSocket = x.serverSocket) →
      ((κ.setClient d g).clients c).serverSocket = (κ.clients c).serverSocket := fun hg =>
    Conn.setClient_same ClientSocket.serverSocket hg
  cases i with
  | openClient name b f =>
      have hne : c ≠ (σ.conn.managerFor name f).1.clientCount :=
        (hc.trans_le (Conn.Extends.managerFor σ.conn name f).clients).ne
      have hnew : ∀ io nsp, ((σ.conn.managerFor name f).1.newClient io name nsp b).clients c =
          σ.conn.clients c := fun io nsp => by
        simp [Conn.newClient, hne, managerFor_clients]
      refine Or.inl ?_
      simp only [execConn, openClient]
      split
      · rw [begin_serverSocket, hnew]
      · split <;> exact congrArg ClientSocket.serverSocket (hnew _ _)
  | connect d =>
      refine Or.inl ?_
      simp only [execConn, connect]
      split
      · rfl
      · split
        · rfl
        · rw [begin_serverSocket]
          exact hset fun _ => rfl
  | setAuth d b => exact Or.inl (hset fun _ => rfl)
  | admitDynamic d => exact Or.inl (begin_serverSocket ..)
  | attachNamespace d n => exact Or.inl (hset fun _ => rfl)
  | newServerSocket a n =>
      refine Or.inl ?_
      simp only [execConn, newServerSocket]
      split <;> rfl
  | rejectConnectionAttempt a err =>
      refine Or.inl ?_
      simp only [execConn, rejectConnectionAttempt]
      split <;> rfl
  | rejectConnectionAttemptRest a err =>
      refine Or.inl ?_
      simp only [execConn, rejectConnectionAttemptRest]
      split <;> exact hset fun _ => rfl
  | cancelConnectionAttempt d =>
      refine Or.inl ?_
      simp only [execConn, cancelConnectionAttempt]
      split
      · rfl
      · split <;> rfl
  | cancelConnectionAttemptRest d => exact Or.inl (hset fun _ => rfl)
  | completeConnectionAttempt a s =>
      simp only [execConn, completeConnectionAttempt]
      split
      · rename_i hp
        by_cases hcl : (σ.conn.attempts a).client = c
        · exact Or.inr ⟨a, s, rfl, hp, hcl⟩
        · exact Or.inl (by simp [Conn.setManager, Conn.setClient, Conn.setAttempt, Ne.symm hcl])
      · split <;> exact Or.inl rfl
  | markDisconnected d reason =>
      refine Or.inl ?_
      simp only [execConn, markDisconnected]
      split
      · rfl
      · exact hset fun _ => rfl

/-- Beginning an attempt builds no socket. -/
theorem begin_attached {κ : Conn} {c : ClientId} {a : AttemptId} {s : SocketId}
    (h : ((κ.beginConnectionAttempt c).1.attempts a).serverSocket = some s) :
    (κ.attempts a).serverSocket = some s := by
  unfold Conn.beginConnectionAttempt at h
  split at h
  · exact h
  · simp only [Conn.setManager, Conn.setClient, Conn.newAttempt, Function.update_apply] at h
    split at h
    · cases h
    · exact h

/-- The only way an attempt gets a server socket. -/
theorem execConn_attached {σ : Core} {i : ConnInstr} {a : AttemptId} {s : SocketId}
    (h : ((execConn P σ i).part.attempts a).serverSocket = some s) :
    (σ.conn.attempts a).serverSocket = some s ∨
      (∃ n, i = .newServerSocket a n) ∧ σ.conn.isConnectionAttemptPending a = true := by
  have hset : ∀ {κ : Conn} {b : AttemptId} {x : AttemptState},
      ((κ.setAttempt b fun y => { y with state := x }).attempts a).serverSocket = some s →
      (κ.attempts a).serverSocket = some s := fun {κ b x} hs => by
    simp only [Conn.setAttempt, modify_apply] at hs
    split at hs
    · rename_i hb
      exact hb ▸ hs
    · exact hs
  cases i with
  | openClient name b f =>
      have hnew : ∀ io nsp, (((σ.conn.managerFor name f).1.newClient io name nsp b).attempts
          a).serverSocket = some s → (σ.conn.attempts a).serverSocket = some s := fun io nsp hs => by
        rw [← managerFor_attempts σ.conn name f]
        exact hs
      simp only [execConn, openClient] at h
      split at h
      · exact Or.inl (hnew _ _ (begin_attached h))
      · split at h <;> exact Or.inl (hnew _ _ h)
  | connect d =>
      simp only [execConn, connect] at h
      split at h
      · exact Or.inl h
      · split at h
        · exact Or.inl h
        · rename_i n _
          have hs := begin_attached h
          exact Or.inl hs
  | admitDynamic d => exact Or.inl (begin_attached h)
  | newServerSocket b n =>
      simp only [execConn, newServerSocket] at h
      split at h
      · rename_i hp
        by_cases hab : a = b
        · exact Or.inr ⟨⟨n, hab ▸ rfl⟩, hab ▸ (Bool.and_eq_true_iff.mp hp).1⟩
        · simp only [Conn.setAttempt, Conn.newSocket, modify_apply, hab, if_false] at h
          exact Or.inl h
      · exact Or.inl h
  | rejectConnectionAttempt b err =>
      simp only [execConn, rejectConnectionAttempt] at h
      split at h
      · exact Or.inl (hset h)
      · exact Or.inl h
  | rejectConnectionAttemptRest b err =>
      simp only [execConn, rejectConnectionAttemptRest] at h
      split at h <;> exact Or.inl h
  | cancelConnectionAttempt d =>
      simp only [execConn, cancelConnectionAttempt] at h
      split at h
      · exact Or.inl h
      · split at h
        · exact Or.inl (hset h)
        · exact Or.inl h
  | completeConnectionAttempt b t =>
      simp only [execConn, completeConnectionAttempt] at h
      split at h
      · exact Or.inl (hset h)
      · split at h <;> exact Or.inl h
  | markDisconnected d reason =>
      simp only [execConn, markDisconnected] at h
      split at h
      · exact Or.inl h
      · exact Or.inl (hset h)
  | _ => exact Or.inl h

/-- A connected client whose attempt has a server socket is paired with that socket. -/
def Conn.Faithful (κ : Conn) : Prop :=
  ∀ c a s, (κ.clients c).connected = true → (κ.clients c).connectionAttempt = some a →
    (κ.attempts a).serverSocket = some s → (κ.clients c).serverSocket = some s

/-- One step keeps every client paired with the socket of its attempt. -/
theorem faithful_exec {σ : Core} (hst : σ.conn.Steady) (h : σ.conn.Faithful) {i : Instr}
    (hok : AttachmentOk σ i) (hv : i.Valid σ) : (exec P i σ).core.conn.Faithful := by
  cases i with
  | conn i =>
      intro c a s hc ha hs
      rcases execConn_connected hc with hc' | ⟨b, t, rfl, hp, hcl⟩
      · have hlt := hst.born c hc'
        have ha' := execConn_current hc' ha hlt
        have hs' : (σ.conn.attempts a).serverSocket = some s := by
          refine (execConn_attached hs).resolve_right fun ⟨_, hp⟩ => ?_
          simp only [Conn.isConnectionAttemptPending, Bool.and_eq_true, decide_eq_true_eq] at hp
          exact hst.settled c a hc' ha' hp.2
        have hold := h c a s hc' ha' hs'
        have hfix : ((execConn P σ i).part.clients c).serverSocket = (σ.conn.clients c).serverSocket ∨
            ∃ a s, i = .completeConnectionAttempt a s ∧
              σ.conn.isConnectionAttemptPending a = true ∧ (σ.conn.attempts a).client = c :=
          execConn_serverSocket hlt
        rcases hfix with he | ⟨b, t, rfl, hp, hcl⟩
        · exact he.trans hold
        · simp only [Conn.isConnectionAttemptPending, Bool.and_eq_true, decide_eq_true_eq, hcl] at hp
          exact absurd hp.2 (hst.settled c b hc' hp.1)
      · -- the completing socket is the one attached to the attempt
        have hcur := hp
        simp only [Conn.isConnectionAttemptPending, Bool.and_eq_true, decide_eq_true_eq,
          hcl] at hcur
        have hat : (σ.conn.attempts b).serverSocket = some t := by
          have hb := (hv (.builtFor b t) (List.mem_singleton_self _)).2
          exact hb ▸ hok
        simp [exec, execConn, completeConnectionAttempt, hp, hcl, Conn.setManager, Conn.setClient,
          Conn.setAttempt, hcur.1] at ha hs ⊢
        subst ha
        simpa [hat] using hs
  | _ => exact h

/-- While a client is connected its current socket is the one it is connected through. -/
theorem Conn.Faithful.current {σ : Core} (h : σ.conn.Faithful) {c : ClientId} {s : SocketId}
    (hc : (σ.conn.clients c).connected = true) (hs : σ.conn.current c = some s) :
    σ.through c = some s := by
  refine through_eq_some.mpr ⟨hc, ?_⟩
  unfold Conn.current at hs
  cases ha : (σ.conn.clients c).connectionAttempt.bind fun a => (σ.conn.attempts a).serverSocket with
  | none => simpa [ha] using hs
  | some t =>
      obtain ⟨a, ha', ht⟩ := Option.bind_eq_some_iff.mp ha
      have hts : t = s := by simpa [ha] using hs
      exact h c a s hc ha' (hts ▸ ht)

/-! ## 2. What a guard lets through -/

/-- A packet guarded by its own sender is dispatched through the sender, or in the sender's drain;
    one whose observers ended the connection also while its client is not connected. -/
def Delivery.Stays (d : Delivery) (through : Option SocketId) (draining : Bool) : Prop :=
  (d.guard = .generation (some d.sender) → through = some d.sender ∨ draining = true) ∧
    (d.guard = .survived d.sender → through = some d.sender ∨ through = none)

/-- A packet is dispatched through the socket it was captured for. -/
theorem deliverClient_stays {σ : Core} (h : σ.conn.Faithful) {d : Delivery}
    {through : Option SocketId}
    {draining : Bool} (he : .delivered d through draining ∈ (deliverClient σ d).log) :
    d.Stays through draining := by
  unfold deliverClient at he
  split at he
  · cases he
  · cases he
  · rename_i hpass
    cases List.mem_singleton.mp he
    refine ⟨fun hg => ?_, fun hg => ?_⟩
    · simp only [DeliveryGuard.passes, hg, Option.map_some] at hpass
      split at hpass
      · rename_i hcur
        rw [Bool.and_eq_true, decide_eq_true_iff] at hcur
        exact Or.inl (h.current hcur.1 hcur.2)
      · exact Or.inr (Option.some.inj hpass)
    · simp only [DeliveryGuard.passes, hg, Conn.ownsDeliveryGeneration, Option.some.injEq,
        decide_eq_true_eq] at hpass
      by_cases hc : (σ.conn.clients d.client).connected = true
      · exact Or.inl (h.current hc hpass)
      · exact Or.inr (by simp [Core.through, hc])

/-- The heap of a run: its invariants, and what its log says about the packets dispatched so far. -/
structure Generations (σ : Core) : Prop where
  steady : σ.conn.Steady
  faithful : σ.conn.Faithful
  stays : ∀ d through draining, .delivered d through draining ∈ σ.log → d.Stays through draining

/-- One step records no other dispatch. -/
theorem generations_exec {σ : Core} (hw : σ.Wf P) (h : Generations σ) {i : Instr} (hv : i.Valid σ)
    (hok : AttachmentOk σ i) : Generations (exec P i σ).core where
  steady := steady_exec hw h.steady hv
  faithful := faithful_exec h.steady h.faithful hok hv
  stays d through draining he := by
    obtain ⟨es, hes, hrec⟩ := exec_log P i σ
    rw [hes] at he
    rcases List.mem_append.mp he with he' | he'
    · have hi : i = .ctl (.deliverClient d) := by
        have hr := hrec _ he'
        unfold Instr.Records at hr
        split at hr <;> simp_all
      subst hi
      have hlog : es = (deliverClient σ d).log := List.append_cancel_right hes.symm
      exact deliverClient_stays h.faithful (hlog ▸ he')
    · exact h.stays d through draining he'

/-- So does no run. -/
theorem generations_inductive (P : Platform) :
    Inductive (runtime P) (fun _ _ => True) (fun σ => (σ.Wf P ∧ Attachment σ) ∧ Generations σ)
      (fun σ i => (i.Valid σ ∧ AttachmentOk σ i) ∧ True) fun _ => (none : Option Unit) := by
  refine Machine.Layer.inductive (attachment_inductive P) (fun _ _ _ => trivial) (.of_facts ?_
    (fun _ _ _ _ _ _ _ => trivial) (fun _ _ _ _ _ _ _ _ => trivial) (fun _ _ _ _ _ => trivial)
    (fun _ _ _ _ _ _ _ _ => trivial) fun _ _ _ => trivial)
  exact fun _ _ hw hv h => generations_exec hw.1 h.inv hv.1 hv.2

theorem reach_generations {C : State → Action Instr → Prop} {σ : State}
    (h : (runtime P).Reach C newServer σ) : Generations σ.core :=
  (h.inv_ok (generations_inductive P) (fun _ _ _ _ _ _ _ => trivial)
    ⟨⟨⟨newServer_wf P, newServer_attachment⟩, ⟨fun _ _ hc => (by cases hc), fun _ hc => (by cases hc)⟩,
      fun _ _ _ hc => (by cases hc), nofun⟩, nofun, .nil⟩).inv.2

/-! ## 3. Every run -/

/-- The instruction hands over a packet whose own outgoing observers ended the connection. -/
def Core.survives (σ : Core) : Instr → Bool
  | .mail (.serverEmitRest s _ _ _ peerWasConnected)
  | .mail (.sendBroadcastRest s _ _ peerWasConnected) =>
      peerWasConnected && !(σ.conn.peer s).connected
  | _ => false

/-- What a packet captures when it is sent. -/
theorem packet_guard {σ : Core} {s : SocketId} {serial : Nat} {event : String}
    {reply : Option Reply}
    {survived : Bool} {d : Delivery} (h : σ.packet s serial event reply survived = some d) :
    d.guard = if survived then .survived d.sender else .generation (σ.conn.current d.client) := by
  unfold Core.packet at h
  dsimp only at h
  split at h
  · cases h
    rfl
  · obtain ⟨_, _, rfl⟩ := Option.map_eq_some_iff.mp h
    rfl

theorem handsOver_guard {σ : Core} {i : Instr} {d : Delivery} (h : σ.handsOver i = some d) :
    d.guard =
      if σ.survives i then .survived d.sender else .generation (σ.conn.current d.client) := by
  unfold Core.handsOver at h
  split at h
  · split at h
    · exact packet_guard h
    · cases h
  · exact packet_guard h
  · cases h

/-- **A packet stays in its generation.** In every run, a packet handed over to a server socket that
    is then its client's current one is dispatched on the client only while the client is connected
    through this socket, or in the socket's drain, or, when its own outgoing observers ended the
    connection, while the client is not connected. -/
theorem generation_kept {σ ρ : State} {i : Instr} {d : Delivery}
    (h : (runtime P).Reach (fun _ _ => True) newServer σ)
    (hd : σ.core.handsOver i = some d) (hcur : σ.core.conn.current d.client = some d.sender)
    (hρ : (runtime P).Reach (fun _ _ => True) σ ρ) {through : Option SocketId} {draining : Bool}
    (he : .delivered d through draining ∈ ρ.core.log) :
    through = some d.sender ∨ draining = true ∨
      (σ.core.survives i = true ∧ through = none) := by
  obtain ⟨hgen, hsur⟩ := (reach_generations (h.trans hρ)).stays d through draining he
  have hg := handsOver_guard hd
  cases hs : σ.core.survives i with
  | true =>
      rw [hs, if_pos rfl] at hg
      exact (hsur hg).imp_right fun ht => Or.inr ⟨rfl, ht⟩
  | false =>
      rw [hs, if_neg Bool.false_ne_true, hcur] at hg
      exact (hgen hg).imp_right Or.inl

/-- A connected server socket emits; the packet arrives through it. -/
theorem generation_kept_emit :
    ∃ σ ρ, (runtime unary).Reach (fun _ _ => True) newServer σ ∧
      (runtime unary).Reach (fun _ _ => True) σ ρ ∧ ∃ d through draining,
        σ.core.handsOver (.mail (.serverEmitRest 0 0 "e" none true)) = some d ∧
        .delivered d through draining ∈ ρ.core.log ∧ (through = some 0 ∨ draining = true) := by
  obtain ⟨σ, hσ, hp⟩ := reach_of_script (runtime unary) (fun _ _ => True) newServer 100
    [.call (.srv (.serverConnect "/" false false)), .run, .run, .ret, .ret, .ret,
      .call (.mail (.serverEmit 0 "e" .plain))]
    (fun σ => decide (σ.core.handsOver (.mail (.serverEmitRest 0 0 "e" none true)) =
        some ⟨0, 0, 0, "e", none, .generation (some 0)⟩ ∧ σ.core.conn.current 0 = some 0 ∧
        σ.core.survives (.mail (.serverEmitRest 0 0 "e" none true)) = false) &&
      ((runtime unary).play (fun _ _ => decide True) 100 [.ret, .run] σ).any fun (ρ : State) =>
        decide (Event.delivered ⟨0, 0, 0, "e", none, .generation (some 0)⟩ (some 0) false ∈
          ρ.core.log))
    (by decide)
  rw [Bool.and_eq_true, decide_eq_true_iff] at hp
  obtain ⟨⟨hd, hcur, hs⟩, hplay⟩ := hp
  obtain ⟨ρ, hρ, he⟩ := reach_of_script (runtime unary) (fun _ _ => True) σ 100 [.ret, .run] _ hplay
  have he := of_decide_eq_true he
  refine ⟨σ, ρ, hσ, hρ, _, _, _, hd, he, ?_⟩
  exact (generation_kept hσ hd hcur hρ he).imp_right fun h => h.resolve_right fun h => by
    rw [hs] at h
    cases h.1

/-- The outgoing observer of a packet disconnects the client; the packet is dispatched on it all the
    same, outside any drain. -/
theorem generation_left :
    ∃ σ, (runtime unary).Reach (fun _ _ => True) newServer σ ∧
      .delivered ⟨0, 0, 0, "e", none, .survived 0⟩ none false ∈ σ.core.log := by
  obtain ⟨σ, hσ, hp⟩ := reach_of_script (runtime unary) (fun _ _ => True) newServer 100
    [.call (.srv (.serverConnect "/" false false)), .run, .run, .ret, .ret, .ret,
      .call (.mail (.serverEmit 0 "e" .plain)), .call (.ctl (.clientDisconnect 0)), .ret, .ret, .run,
      .ret, .ret, .run]
    (fun σ => decide (Event.delivered ⟨0, 0, 0, "e", none, .survived 0⟩ none false ∈ σ.core.log))
    (by decide)
  exact ⟨σ, hσ, of_decide_eq_true hp⟩

end Smocket
