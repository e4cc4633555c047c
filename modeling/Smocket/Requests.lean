import Smocket.Orders
import Smocket.Stale

/-
  File:      Smocket/Requests.lean
  Subject:   THE REQUESTS OF A CLIENT: emits with a timeout, and `emitWithAck`. Where the handle of
             a request and the packet that carries it are, and what settles it.

  A request is settled by an answer, by its timer, or by a rejection when its client disconnects.
  The first two are tasks; a rejection is one turn of a loop on the stack. So a request under
  rejection cannot be settled by anything else before its turn comes.

  * `exec_turns` -- what an instruction does to requests, handles and packets;
  * `exec_answers` -- what becomes of an older request;
  * `settles_cleared` -- settling a request clears it.
-/

namespace Smocket

open Ordered EventLoop EventLoop.Machine

variable {P : Platform}

/-! ## 1. Settling -/

def AckHandle.request : AckHandle → RequestId
  | .timed r | .promise r => r

/-- A request as it was made. -/
structure Request.Made (q q' : Request) : Prop where
  client : q'.client = q.client
  promise : q'.promise = q.promise
  timed : q'.timed = q.timed
  tracked : q'.tracked = q.tracked
  settled : q.settled = true → q'.settled = true

theorem Request.Made.refl (q : Request) : q.Made q := ⟨rfl, rfl, rfl, rfl, id⟩

theorem Request.Made.trans {q q' q'' : Request} (h : q.Made q') (h' : q'.Made q'') : q.Made q'' :=
  ⟨h'.client.trans h.client, h'.promise.trans h.promise, h'.timed.trans h.timed,
    h'.tracked.trans h.tracked, h'.settled ∘ h.settled⟩

/-- Nothing is added: handles and packets are taken out, requests are settled. -/
structure Mail.Shrinks (μ μ' : Mail) : Prop where
  requestCount : μ'.requestCount = μ.requestCount
  serial : μ'.serial = μ.serial
  made : ∀ r, (μ.requests r).Made (μ'.requests r)
  pendingAcks : ∀ c h, h ∈ (μ'.outboxes c).pendingAcks → h ∈ (μ.outboxes c).pendingAcks
  sendBuffer : ∀ c p, p ∈ (μ'.outboxes c).sendBuffer → p ∈ (μ.outboxes c).sendBuffer
  ackTimers : μ'.ackTimers.Sublist μ.ackTimers

theorem Mail.Shrinks.refl (μ : Mail) : μ.Shrinks μ :=
  ⟨rfl, rfl, fun _ => .refl _, fun _ _ h => h, fun _ _ h => h, List.Sublist.refl _⟩

theorem Mail.Shrinks.trans {μ μ' μ'' : Mail} (h : μ.Shrinks μ') (h' : μ'.Shrinks μ'') :
    μ.Shrinks μ'' where
  requestCount := h'.requestCount.trans h.requestCount
  serial := h'.serial.trans h.serial
  made r := (h.made r).trans (h'.made r)
  pendingAcks c k hk := h.pendingAcks c k (h'.pendingAcks c k hk)
  sendBuffer c p hp := h.sendBuffer c p (h'.sendBuffer c p hp)
  ackTimers := h'.ackTimers.trans h.ackTimers

theorem Mail.Shrinks.setOutbox (μ : Mail) (c : ClientId) {g : Outbox → Outbox}
    (ha : ∀ h, h ∈ (g (μ.outboxes c)).pendingAcks → h ∈ (μ.outboxes c).pendingAcks)
    (hb : ∀ p, p ∈ (g (μ.outboxes c)).sendBuffer → p ∈ (μ.outboxes c).sendBuffer) :
    μ.Shrinks (μ.setOutbox c g) where
  requestCount := rfl
  serial := rfl
  made _ := .refl _
  pendingAcks d h hh := by
    simp only [Mail.setOutbox, modify_apply] at hh
    split at hh
    · rename_i hd
      exact hd ▸ ha h hh
    · exact hh
  sendBuffer d p hp := by
    simp only [Mail.setOutbox, modify_apply] at hp
    split at hp
    · rename_i hd
      exact hd ▸ hb p hp
    · exact hp
  ackTimers := List.Sublist.refl _

theorem Mail.Shrinks.setRequest (μ : Mail) (r : RequestId) {g : Request → Request}
    (hg : (μ.requests r).Made (g (μ.requests r))) : μ.Shrinks (μ.setRequest r g) where
  requestCount := rfl
  serial := rfl
  made r' := by
    simp only [Mail.setRequest, modify_apply]
    split
    · rename_i hr
      exact hr ▸ hg
    · exact .refl _
  pendingAcks _ _ h := h
  sendBuffer _ _ h := h
  ackTimers := List.Sublist.refl _

theorem Mail.Shrinks.dropHandle (μ : Mail) (r : RequestId) (h : AckHandle) :
    μ.Shrinks (μ.dropHandle r h) := by
  unfold Mail.dropHandle
  split
  · exact .refl μ
  · exact .setOutbox μ _ (fun k hk => (OSet.mem_erase.mp hk).1) fun _ hp => hp

theorem Mail.Shrinks.onSettled (μ : Mail) (r : RequestId) : μ.Shrinks (μ.onSettled r) := by
  unfold Mail.onSettled
  have h : μ.Shrinks (if (μ.requests r).tracked then μ.dropHandle r (.timed r) else μ) := by
    split
    · exact .dropHandle μ r _
    · exact .refl μ
  dsimp only
  split
  · exact h
  · exact h.trans (.setOutbox _ _ (fun _ hk => hk) fun _ hp => List.mem_of_mem_filter hp)

theorem Mail.Shrinks.settle (μ : Mail) (r : RequestId) : μ.Shrinks (μ.settle r) := by
  have h : μ.Shrinks { μ.setRequest r fun q => { q with settled := true } with
      ackTimers := μ.ackTimers.erase r } :=
    ⟨rfl, rfl, (Mail.Shrinks.setRequest μ r (g := fun q => { q with settled := true })
      ⟨rfl, rfl, rfl, rfl, fun _ => rfl⟩).made, fun _ _ h => h, fun _ _ h => h, List.erase_sublist⟩
  exact h.trans (.onSettled _ r)

theorem Mail.Shrinks.callback (μ : Mail) (r : RequestId) : μ.Shrinks (μ.callback r).part := by
  unfold Mail.callback
  split
  · exact .dropHandle μ r _
  · exact .refl μ

theorem dropHandle_requests (μ : Mail) (r : RequestId) (h : AckHandle) :
    (μ.dropHandle r h).requests = μ.requests := by
  unfold Mail.dropHandle
  split <;> rfl

theorem onSettled_requests (μ : Mail) (r : RequestId) : (μ.onSettled r).requests = μ.requests := by
  unfold Mail.onSettled
  dsimp only
  split <;> split <;> simp [Mail.setOutbox, dropHandle_requests]

theorem settle_requests (μ : Mail) (r : RequestId) :
    (μ.settle r).requests = modify μ.requests r fun q => { q with settled := true } :=
  onSettled_requests _ r

theorem callback_requests (μ : Mail) (r : RequestId) :
    (μ.callback r).part.requests = μ.requests := by
  unfold Mail.callback
  split
  · exact dropHandle_requests ..
  · rfl

/-- Settling `r` settles nothing else. -/
theorem settle_settled {μ : Mail} {r r' : RequestId} :
    (((μ.settle r).callback r).part.requests r').settled = true ↔
      (μ.requests r').settled = true ∨ r' = r := by
  rw [callback_requests, settle_requests, modify_apply]
  split
  · rename_i hr
    simp [hr]
  · rename_i hr
    simp [hr]

/-! ## 2. Asking -/

/-- A request as an emit of `asker` makes it. -/
structure Request.Asked (asker : Option ClientId) (q : Request) : Prop where
  client : q.client = asker
  settled : q.settled = false
  reason : q.reason = false
  tracked : asker ≠ none → q.tracked = !q.promise
  wrapped : q.promise = false → q.timed = true

/-- A packet that carries the wrapper of its request. -/
def Mail.Wraps (μ : Mail) (p : BufferedPacket) : Prop := p.timedCallback = μ.timedOf p.reply

/-- A request made between `μ` and `μ'`. -/
def Mail.Fresh (μ μ' : Mail) (r : RequestId) : Prop := μ.requestCount ≤ r ∧ r < μ'.requestCount

/-- A handle of the right kind. -/
def Mail.Fits (μ : Mail) : AckHandle → Prop
  | .timed r => (μ.requests r).timed = true
  | .promise r => (μ.requests r).promise = true

/-- **What a turn of the loop does to requests**: new ones are made by `asker`, old ones are
    settled, handles and packets are taken out. Beyond the new ones, `T` may be tracked and `B`
    buffered. -/
structure Mail.Turns (asker : Option ClientId) (T : ClientId → AckHandle → Prop)
    (B : ClientId → BufferedPacket → Prop) (μ μ' : Mail) : Prop where
  count : μ.requestCount ≤ μ'.requestCount
  serial : μ.serial ≤ μ'.serial
  made : ∀ r, ¬ μ.Fresh μ' r → (μ.requests r).Made (μ'.requests r)
  asked : ∀ r, μ.Fresh μ' r → (μ'.requests r).Asked asker
  pendingAcks : ∀ c h, h ∈ (μ'.outboxes c).pendingAcks → h ∈ (μ.outboxes c).pendingAcks ∨
    (asker = some c ∧ μ.Fresh μ' h.request ∧ μ'.Fits h) ∨ T c h
  sendBuffer : ∀ c p, p ∈ (μ'.outboxes c).sendBuffer → p ∈ (μ.outboxes c).sendBuffer ∨
    (asker = some c ∧ μ'.Wraps p ∧ ∀ r, p.reply = some (.request r) → μ.Fresh μ' r) ∨ B c p
  ackTimers : ∀ r ∈ μ'.ackTimers, r ∈ μ.ackTimers ∨ (μ.Fresh μ' r ∧ (μ'.requests r).timed = true)
  nodup : μ.ackTimers.Nodup → (∀ r ∈ μ.ackTimers, r < μ.requestCount) → μ'.ackTimers.Nodup

variable {asker : Option ClientId} {T : ClientId → AckHandle → Prop}
  {B : ClientId → BufferedPacket → Prop} {μ μ' μ'' : Mail}

theorem Mail.Shrinks.turns (h : μ.Shrinks μ') : μ.Turns asker T B μ' where
  count := h.requestCount.ge
  serial := h.serial.ge
  made r _ := h.made r
  asked _ hr := absurd (hr.2.trans_le h.requestCount.le) (Nat.not_lt.mpr hr.1)
  pendingAcks c k hk := Or.inl (h.pendingAcks c k hk)
  sendBuffer c p hp := Or.inl (h.sendBuffer c p hp)
  ackTimers _ hr := Or.inl (h.ackTimers.subset hr)
  nodup hn _ := hn.sublist h.ackTimers

/-- The request record of an emit. -/
theorem newRequest_turns (μ : Mail) (form : EmitForm) {q : Request} (hq : q.client = asker)
    (hs : q.settled = false) (hr : q.reason = false) (ht : asker ≠ none → q.tracked = !q.promise)
    (hp : q.promise = decide (form = .promise)) :
    μ.Turns asker T B (μ.newRequest form q).1 ∧
      (∀ r, (μ.newRequest form q).2 = some (.request r) → r = μ.requestCount ∧
        μ.Fresh (μ.newRequest form q).1 r ∧ (μ.newRequest form q).1.requests r = q) := by
  have hnew : ∀ timers, (∀ r ∈ timers, r ∈ μ.ackTimers ∨ (r = μ.requestCount ∧ q.timed = true)) →
      (μ.ackTimers.Nodup → (∀ r ∈ μ.ackTimers, r < μ.requestCount) → timers.Nodup) →
      (q.promise = false → q.timed = true) →
      μ.Turns asker T B { μ with
        requests := Function.update μ.requests μ.requestCount q
        requestCount := μ.requestCount + 1
        ackTimers := timers } := by
    intro timers htm hnd hw
    have heq : ∀ r, μ.requestCount ≤ r → r < μ.requestCount + 1 → r = μ.requestCount :=
      fun r h h' => le_antisymm (Nat.lt_succ_iff.mp h') h
    refine ⟨Nat.le_succ _, le_rfl, fun r hr => ?_, fun r hr => ?_, fun _ _ h => Or.inl h,
      fun _ _ h => Or.inl h, fun r hr => ?_, hnd⟩
    · dsimp only
      rw [Function.update_of_ne fun h : r = _ => hr ⟨h.ge, h.trans_lt (Nat.lt_succ_self _)⟩]
      exact .refl _
    · dsimp only
      rw [heq r hr.1 hr.2, Function.update_self]
      exact ⟨hq, hs, ‹_›, ht, hw⟩
    · rcases htm r hr with h | ⟨rfl, h⟩
      · exact Or.inl h
      · refine Or.inr ⟨⟨le_rfl, Nat.lt_succ_self _⟩, ?_⟩
        dsimp only
        rw [Function.update_self]
        exact h
  have happ : ∀ r ∈ μ.ackTimers ++ [μ.requestCount], q.timed = true →
      r ∈ μ.ackTimers ∨ (r = μ.requestCount ∧ q.timed = true) := fun r h ht =>
    (List.mem_append.mp h).imp_right fun h => ⟨List.mem_singleton.mp h, ht⟩
  have hnd : μ.ackTimers.Nodup → (∀ r ∈ μ.ackTimers, r < μ.requestCount) →
      (μ.ackTimers ++ [μ.requestCount]).Nodup := fun h hlt =>
    List.nodup_append.mpr ⟨h, List.nodup_singleton _, fun a ha b hb => by
      rw [List.mem_singleton.mp hb]
      exact (hlt a ha).ne⟩
  unfold Mail.newRequest
  cases form with
  | plain => exact ⟨(Mail.Shrinks.refl μ).turns, nofun⟩
  | callback =>
      dsimp only
      split
      · rename_i ht'
        refine ⟨hnew _ (fun r h => happ r h ht') hnd fun _ => ht', fun r h => ?_⟩
        obtain rfl : μ.requestCount = r := by simpa using h
        exact ⟨rfl, ⟨le_rfl, Nat.lt_succ_self _⟩, Function.update_self ..⟩
      · exact ⟨(Mail.Shrinks.refl μ).turns, nofun⟩
  | promise =>
      refine ⟨hnew _ (fun r h => ?_) (fun h hlt => ?_) fun hf => ?_, fun r h => ?_⟩
      · split at h
        · exact happ r h ‹_›
        · exact Or.inl h
      · split
        · exact hnd h hlt
        · exact h
      · rw [hp] at hf
        cases hf
      · obtain rfl : μ.requestCount = r := by simpa using h
        exact ⟨rfl, ⟨le_rfl, Nat.lt_succ_self _⟩, Function.update_self ..⟩

theorem Mail.Turns.later (h : μ.Turns asker T B μ') {n : Nat} (hn : μ.serial ≤ n) :
    μ.Turns asker T B { μ' with serial := n } :=
  ⟨h.count, hn, h.made, h.asked, h.pendingAcks, h.sendBuffer, h.ackTimers, h.nodup⟩

/-- What `asker` adds to its own outbox. -/
theorem Mail.Turns.outbox {c : ClientId} (h : μ.Turns (some c) T B μ') {g : Outbox → Outbox}
    (ha : ∀ k, k ∈ (g (μ'.outboxes c)).pendingAcks →
      k ∈ (μ'.outboxes c).pendingAcks ∨ (μ.Fresh μ' k.request ∧ μ'.Fits k))
    (hb : ∀ p, p ∈ (g (μ'.outboxes c)).sendBuffer → p ∈ (μ'.outboxes c).sendBuffer ∨
      (μ'.Wraps p ∧ ∀ r, p.reply = some (.request r) → μ.Fresh μ' r)) :
    μ.Turns (some c) T B (μ'.setOutbox c g) := by
  refine ⟨h.count, h.serial, h.made, h.asked, fun d k hk => ?_, fun d p hp => ?_, h.ackTimers,
    h.nodup⟩
  · simp only [Mail.setOutbox, modify_apply] at hk
    split at hk
    · rename_i hd
      subst hd
      rcases ha k hk with hk | hk
      · exact h.pendingAcks _ k hk
      · exact Or.inr (Or.inl ⟨rfl, hk⟩)
    · exact h.pendingAcks d k hk
  · simp only [Mail.setOutbox, modify_apply] at hp
    split at hp
    · rename_i hd
      subst hd
      rcases hb p hp with hp | hp
      · exact h.sendBuffer _ p hp
      · exact Or.inr (Or.inl ⟨rfl, hp⟩)
    · exact h.sendBuffer d p hp

/-- The handle of a wrapped packet. -/
theorem timedOf_eq_some {μ : Mail} {reply : Option Reply} {r : RequestId}
    (h : μ.timedOf reply = some r) : reply = some (.request r) ∧ (μ.requests r).timed = true := by
  unfold Mail.timedOf at h
  split at h
  · split at h
    · obtain rfl := Option.some.inj h
      exact ⟨rfl, ‹_›⟩
    · cases h
  · cases h

/-- The handle of a promise, registered before its packet is sent. -/
theorem Mail.Turns.promised {c : ClientId} (h : μ.Turns (some c) T B μ') (form : EmitForm)
    (reply : Option Reply) :
    ∃ μ₂, (match form, reply with
        | .promise, some (.request r) =>
            μ'.setOutbox c fun b => { b with pendingAcks := b.pendingAcks.insert (.promise r) }
        | _, _ => μ') = μ₂ ∧ μ₂.requestCount = μ'.requestCount ∧ μ₂.requests = μ'.requests ∧
      ((∀ r, form = .promise → reply = some (.request r) →
        μ.Fresh μ' r ∧ (μ'.requests r).promise = true) → μ.Turns (some c) T B μ₂) := by
  refine ⟨_, rfl, ?_⟩
  split
  · rename_i r
    refine ⟨rfl, rfl, fun hr => h.outbox (fun k hk => ?_) fun p hp => Or.inl hp⟩
    rcases OSet.mem_insert.mp hk with hk | rfl
    · exact Or.inl hk
    · exact Or.inr (hr r rfl rfl)
  · exact ⟨rfl, rfl, fun _ => h⟩

/-- An emit, once the handle of its promise is registered: `p` is buffered, or sent after the
    outgoing observers. -/
theorem emitted_turns {c : ClientId} {p : BufferedPacket} (connected isVolatile : Bool)
    (h : μ.Turns (some c) T B μ') (hw : μ'.Wraps p)
    (hf : ∀ r, p.reply = some (.request r) → μ.Fresh μ' r) {o : Out Mail}
    (ho : o = if !connected then
        { part := μ'.setOutbox c fun b =>
            { b with sendBuffer := if isVolatile then b.sendBuffer else b.sendBuffer ++ [p]
                     flags := {} } }
      else
        { part := match p.timedCallback with
            | none => μ'
            | some r => μ'.setOutbox c fun b =>
                { b with pendingAcks := b.pendingAcks.insert (.timed r) }
          push := [.app (.clientOutgoing c), .mail (.clientEmitRest c p)] }) :
    μ.Turns (some c) T B o.part ∧ ∀ p', .mail (.clientEmitRest c p') ∈ o.push →
      o.part.Wraps p' ∧ ∀ r, p'.reply = some (.request r) → μ.Fresh o.part r := by
  subst ho
  split
  · refine ⟨h.outbox (fun k hk => Or.inl hk) fun p' hp => ?_, nofun⟩
    dsimp only at hp
    split at hp
    · exact Or.inl hp
    · rcases List.mem_append.mp hp with hp | hp
      · exact Or.inl hp
      · exact Or.inr (List.mem_singleton.mp hp ▸ ⟨hw, hf⟩)
  · have hpush : ∀ p', Instr.mail (.clientEmitRest c p') ∈
        [Instr.app (.clientOutgoing c), .mail (.clientEmitRest c p)] → p' = p := fun p' hp => by
      simpa using hp
    dsimp only
    split
    · exact ⟨h, fun p' hp => hpush p' hp ▸ ⟨hw, hf⟩⟩
    · rename_i r hr
      obtain ⟨hrep, ht⟩ := timedOf_eq_some (hw ▸ hr)
      refine ⟨h.outbox (fun k hk => ?_) fun p' hp => Or.inl hp, fun p' hp => ?_⟩
      · rcases OSet.mem_insert.mp hk with hk | rfl
        · exact Or.inl hk
        · exact Or.inr ⟨hf r hrep, ht⟩
      · rw [hpush p' hp]
        exact ⟨hw, hf⟩

theorem clientEmit_turns (σ : Core) (c : ClientId) (event : String) (form : EmitForm) :
    σ.mail.Turns (some c) T B (clientEmit σ c event form).part ∧
      ∀ p, .mail (.clientEmitRest c p) ∈ (clientEmit σ c event form).push →
        (clientEmit σ c event form).part.Wraps p ∧ ∀ r, p.reply = some (.request r) →
          σ.mail.Fresh (clientEmit σ c event form).part r := by
  unfold clientEmit
  dsimp only
  split
  · exact ⟨(Mail.Shrinks.refl _).turns, nofun⟩
  · generalize hq : (Request.mk _ _ _ _ _ _ _) = q
    obtain ⟨hT, hr⟩ := newRequest_turns (T := T) (B := B) σ.mail form (q := q)
      (by rw [← hq]) (by rw [← hq]) (by rw [← hq]) (by rw [← hq]; simp) (by rw [← hq])
    generalize hn : σ.mail.newRequest form q = nr at hT hr
    obtain ⟨μ₁, reply⟩ := nr
    dsimp only at hT hr ⊢
    obtain ⟨μ₂, rfl, hcount, hreq, hT₂⟩ := (hT.later (n := μ₁.serial + 1)
      (hT.serial.trans (Nat.le_succ _))).promised form reply
    refine emitted_turns _ _ (hT₂ fun r hf hrep => ⟨(hr r hrep).2.1, ?_⟩) ?_ (fun r hrep => ?_) rfl
    · change (μ₁.requests r).promise = true
      rw [(hr r hrep).2.2, ← hq]
      exact decide_eq_true hf
    · simp only [Mail.Wraps, Mail.timedOf, hreq]
    · exact ⟨(hr r hrep).2.1.1, (hr r hrep).2.1.2.trans_eq hcount.symm⟩

theorem serverEmit_turns (σ : Core) (s : SocketId) (event : String) (form : EmitForm) :
    σ.mail.Turns none T B (serverEmit σ s event form).part := by
  unfold serverEmit
  dsimp only
  split
  · exact (Mail.Shrinks.refl _).turns
  · generalize hq : (Request.mk _ _ _ _ _ _ _) = q
    have hT := (newRequest_turns (T := T) (B := B) σ.mail form (q := q)
      (by rw [← hq]) (by rw [← hq]) (by rw [← hq]) (fun h => absurd rfl h) (by rw [← hq])).1
    have hT' : σ.mail.Turns none T B { (σ.mail.newRequest form q).1 with
        serverFlags := Function.update (σ.mail.newRequest form q).1.serverFlags s {}
        serial := (σ.mail.newRequest form q).1.serial + 1 } :=
      ⟨hT.count, hT.serial.trans (Nat.le_succ _), hT.made, hT.asked, hT.pendingAcks, hT.sendBuffer,
        hT.ackTimers, hT.nodup⟩
    split <;> exact hT'

/-! ## 3. What every instruction does to requests -/

/-- Nothing a request depends on has changed. -/
structure Mail.SameRequests (μ μ' : Mail) : Prop where
  outboxes : μ'.outboxes = μ.outboxes
  requests : μ'.requests = μ.requests
  requestCount : μ'.requestCount = μ.requestCount
  ackTimers : μ'.ackTimers = μ.ackTimers
  serial : μ'.serial = μ.serial

theorem Mail.SameRequests.refl (μ : Mail) : μ.SameRequests μ := ⟨rfl, rfl, rfl, rfl, rfl⟩

theorem Mail.SameRequests.trans (h : μ.SameRequests μ') (h' : μ'.SameRequests μ'') :
    μ.SameRequests μ'' :=
  ⟨h'.outboxes.trans h.outboxes, h'.requests.trans h.requests,
    h'.requestCount.trans h.requestCount, h'.ackTimers.trans h.ackTimers,
    h'.serial.trans h.serial⟩

theorem Mail.SameRequests.shrinks (h : μ.SameRequests μ') : μ.Shrinks μ' where
  requestCount := h.requestCount
  serial := h.serial
  made _ := h.requests ▸ .refl _
  pendingAcks _ _ hk := h.outboxes ▸ hk
  sendBuffer _ _ hp := h.outboxes ▸ hp
  ackTimers := h.ackTimers ▸ List.Sublist.refl _

theorem Mail.SameRequests.turns (h : μ.SameRequests μ') : μ.Turns asker T B μ' := h.shrinks.turns

theorem pump_requests (μ : Mail) (n : NspId) (sid : String) : μ.SameRequests (μ.pump n sid).1 := by
  unfold Mail.pump
  split
  · exact .refl μ
  · split
    · exact ⟨rfl, rfl, rfl, rfl, rfl⟩
    · dsimp only
      split <;> exact ⟨rfl, rfl, rfl, rfl, rfl⟩

theorem scheduleReceive_requests (σ : Core) (μ : Mail) (d : Delivery) :
    μ.SameRequests (scheduleReceive σ μ d).part := by
  unfold scheduleReceive
  split
  · exact .refl μ
  · dsimp only
    split
    · exact .refl μ
    · unfold Mail.scheduleDelivery
      dsimp only
      split
      · exact ⟨rfl, rfl, rfl, rfl, rfl⟩
      · exact (show μ.SameRequests (μ.newQueue ..) from ⟨rfl, rfl, rfl, rfl, rfl⟩).trans
          (pump_requests ..)
    · exact ⟨rfl, rfl, rfl, rfl, rfl⟩

theorem sendToClient_requests (σ : Core) (s : SocketId) (serial : Nat) (event : String)
    (reply : Option Reply) (survived : Bool) :
    σ.mail.SameRequests (sendToClient σ s serial event reply survived).part := by
  unfold sendToClient
  dsimp only
  split
  · exact scheduleReceive_requests ..
  · split
    · exact .refl _
    · have h := fun μ' d => scheduleReceive_requests σ μ' d
      exact ⟨(h _ _).outboxes, (h _ _).requests, (h _ _).requestCount, (h _ _).ackTimers,
        (h _ _).serial⟩

theorem sendToServer_requests (μ : Mail) (s : SocketId) (c : ClientId) (serial : Nat)
    (event : String) (reply : Option Reply) :
    μ.SameRequests (sendToServer μ s c serial event reply).1 := by
  unfold sendToServer
  split <;> exact ⟨rfl, rfl, rfl, rfl, rfl⟩

/-- The client that makes requests. -/
def Instr.requester : Instr → Option ClientId
  | .mail (.clientEmit c _ _) => some c
  | _ => none

/-- A flush tracks the handle of the packet it is about to send. -/
def Core.tracks (σ : Core) (i : Instr) (c : ClientId) (h : AckHandle) : Prop :=
  ∃ a s p ps r, i = .mail (.flushPackets a s (p :: ps)) ∧ c = (σ.conn.attempts a).client ∧
    p.timedCallback = some r ∧ h = .timed r ∧ (σ.mail.requests r).settled = false

/-- A flush that finds the connection gone restores what it has not sent. -/
def Core.restores (σ : Core) (i : Instr) (c : ClientId) (p : BufferedPacket) : Prop :=
  ∃ a s p₀ ps, i = .mail (.flushRest a s p₀ ps) ∧ c = (σ.conn.attempts a).client ∧
    p ∈ p₀ :: ps ∧ σ.mail.isSettled p = false ∧ σ.conn.isConnectionAttemptConnected a s = false

theorem clientEmitRest_shrinks (σ : Core) (c : ClientId) (p : BufferedPacket) :
    σ.mail.Shrinks (clientEmitRest σ c p).part := by
  unfold clientEmitRest
  split
  · exact .refl _
  · rename_i s _
    have h := (sendToServer_requests σ.mail s c p.serial p.event p.reply).shrinks.trans
      (.setOutbox _ c (g := fun b => { b with flags := {} }) (fun _ h => h) fun _ h => h)
    dsimp only
    split
    · exact h.trans (.setRequest _ _ ⟨rfl, rfl, rfl, rfl, id⟩)
    · exact h

theorem ackReply_shrinks (σ : Core) (reply : Reply) : σ.mail.Shrinks (ackReply σ reply).part := by
  unfold ackReply
  split
  · exact .refl _
  · dsimp only
    split
    · split
      · exact .refl _
      · exact (Mail.Shrinks.settle ..).trans (.callback ..)
    · exact .dropHandle ..

theorem rejectAck_shrinks (σ : Core) (h : AckHandle) : σ.mail.Shrinks (rejectAck σ h).part := by
  unfold rejectAck
  split
  · exact (Mail.Shrinks.settle ..).trans (.callback ..)
  · dsimp only
    split
    · exact .setRequest _ _ ⟨rfl, rfl, rfl, rfl, id⟩
    · split
      · exact (Mail.Shrinks.settle ..).trans (.callback ..)
      · exact .refl _

theorem invokeAck_requests (σ : Core) (k : AckId) (encodable : Bool) :
    σ.mail.SameRequests (invokeAck σ k encodable).part := by
  unfold invokeAck
  dsimp only
  generalize (if (σ.mail.acks k).forClient then _ else _ : Bool) = active
  split
  · exact .refl _
  · split
    · exact ⟨rfl, rfl, rfl, rfl, rfl⟩
    · split <;> exact ⟨rfl, rfl, rfl, rfl, rfl⟩

theorem pumpRun_requests (σ : Core) (r : PumpRun) : σ.mail.SameRequests (pumpRun σ r).part := by
  unfold pumpRun
  dsimp only
  split <;> exact ⟨rfl, rfl, rfl, rfl, rfl⟩

theorem removeDeliveries_requests (σ : Core) (s : SocketId) :
    σ.mail.SameRequests (removeDeliveries σ s).part := by
  unfold removeDeliveries
  dsimp only
  split
  · exact .refl _
  · exact .refl _
  · split <;> exact ⟨rfl, rfl, rfl, rfl, rfl⟩

theorem flushPackets_turns (σ : Core) (a : AttemptId) (s : SocketId) (ps : List BufferedPacket) :
    σ.mail.Turns none (σ.tracks (.mail (.flushPackets a s ps))) B (flushPackets σ a s ps).part := by
  cases ps with
  | nil => exact (Mail.Shrinks.refl _).turns
  | cons p ps =>
      unfold flushPackets
      dsimp only
      split
      · exact (Mail.Shrinks.refl _).turns
      · rename_i hset
        split
        · exact (Mail.Shrinks.refl _).turns
        · rename_i r hr
          have h : σ.mail.Turns none (σ.tracks (.mail (.flushPackets a s (p :: ps)))) B σ.mail :=
            (Mail.Shrinks.refl σ.mail).turns
          refine ⟨h.count, h.serial, h.made, h.asked, fun d k hk => ?_, fun d q hq => ?_,
            h.ackTimers, h.nodup⟩
          · simp only [Mail.setOutbox, modify_apply] at hk
            split at hk
            · rename_i hd
              rcases OSet.mem_insert.mp hk with hk | rfl
              · exact Or.inl (hd ▸ hk)
              · refine Or.inr (Or.inr ⟨a, s, p, ps, r, rfl, hd, hr, rfl, ?_⟩)
                simpa [Mail.isSettled, hr] using hset
            · exact Or.inl hk
          · simp only [Mail.setOutbox, modify_apply] at hq
            split at hq
            · rename_i hd
              exact Or.inl (hd ▸ hq)
            · exact Or.inl hq

theorem flushRest_turns (σ : Core) (a : AttemptId) (s : SocketId) (p : BufferedPacket)
    (ps : List BufferedPacket) :
    σ.mail.Turns none T (σ.restores (.mail (.flushRest a s p ps))) (flushRest σ a s p ps).part := by
  unfold flushRest
  dsimp only
  split
  · exact (sendToServer_requests ..).turns
  · rename_i hconn
    have h : σ.mail.Turns none T (σ.restores (.mail (.flushRest a s p ps))) σ.mail :=
      (Mail.Shrinks.refl σ.mail).turns
    refine ⟨h.count, h.serial, h.made, h.asked, fun d k hk => ?_, fun d q hq => ?_, h.ackTimers,
      h.nodup⟩
    · simp only [Mail.setOutbox, modify_apply] at hk
      split at hk
      · rename_i hd
        exact Or.inl (hd ▸ hk)
      · exact Or.inl hk
    · simp only [Mail.setOutbox, modify_apply] at hq
      split at hq
      · rename_i hd
        rcases List.mem_append.mp hq with hq | hq
        · obtain ⟨hq, hset⟩ := List.mem_filter.mp hq
          exact Or.inr (Or.inr ⟨a, s, p, ps, rfl, hd, hq, by simpa using hset, by simpa using hconn⟩)
        · exact Or.inl (hd ▸ hq)
      · exact Or.inl hq

/-- **What an instruction does to requests.** -/
theorem exec_turns (i : Instr) (σ : Core) :
    σ.mail.Turns i.requester (σ.tracks i) (σ.restores i) (exec P i σ).core.mail := by
  cases i with
  | mail i =>
      cases i with
      | clientFlags c flags =>
          exact (Mail.Shrinks.setOutbox σ.mail c (fun _ h => h) fun _ h => h).turns
      | clientEmit c event form => exact (clientEmit_turns σ c event form).1
      | clientEmitRest c p => exact (clientEmitRest_shrinks σ c p).turns
      | flush a s =>
          exact (Mail.Shrinks.setOutbox _ _ (fun _ h => h)
            fun _ h => absurd h List.not_mem_nil).turns
      | flushPackets a s ps => exact flushPackets_turns σ a s ps
      | flushRest a s p ps => exact flushRest_turns σ a s p ps
      | rejectPendingAcks c =>
          exact (Mail.Shrinks.setOutbox _ _ (fun _ h => absurd h (OSet.not_mem_empty _))
            fun _ h => h).turns
      | rejectAck c h => exact (rejectAck_shrinks σ h).turns
      | serverEmit s event form => exact serverEmit_turns σ s event form
      | serverEmitRest s serial event reply was =>
          simp only [exec, execMail, serverEmitRest]
          split
          · exact (Mail.Shrinks.refl _).turns
          · exact (sendToClient_requests ..).turns
      | sendBroadcastRest s serial event was => exact (sendToClient_requests ..).turns
      | pumpRun r => exact (pumpRun_requests σ r).turns
      | pumpRest r =>
          simp only [exec, execMail, pumpRest]
          split
          · exact (pump_requests ..).turns
          · exact (Mail.Shrinks.refl _).turns
      | removeDeliveries s => exact (removeDeliveries_requests σ s).turns
      | invokeAck k encodable => exact (invokeAck_requests σ k encodable).turns
      | ackReply reply => exact (ackReply_shrinks σ reply).turns
      | ackTimeout r => exact ((Mail.Shrinks.settle ..).trans (.callback ..)).turns
      | serverFlags s flags => exact Mail.SameRequests.turns ⟨rfl, rfl, rfl, rfl, rfl⟩
      | sendBroadcast s event => exact (Mail.Shrinks.refl _).turns.later (Nat.le_succ _)
      | cancelTimer r => exact Mail.SameRequests.turns ⟨rfl, rfl, rfl, rfl, rfl⟩
      | setDelay n sid ms => exact Mail.SameRequests.turns ⟨rfl, rfl, rfl, rfl, rfl⟩
      | setNow t => exact Mail.SameRequests.turns ⟨rfl, rfl, rfl, rfl, rfl⟩
  | _ => exact (Mail.Shrinks.refl σ.mail).turns

/-! ## 4. What settles a request -/

/-- The instruction settles the timed wrapper of `r`. -/
def Core.settles (σ : Core) (r : RequestId) : Instr → Bool
  | .mail (.ackReply (.request r')) =>
      decide (r' = r) && (σ.mail.requests r).timed && !(σ.mail.requests r).settled
  | .mail (.ackTimeout r') => decide (r' = r)
  | .mail (.rejectAck _ (.timed r')) => decide (r' = r)
  | .mail (.rejectAck _ (.promise r')) =>
      decide (r' = r) && !(σ.mail.requests r).sending && (σ.mail.requests r).timed
  | _ => false

theorem exec_settles {i : Instr} {σ : Core} {r : RequestId} (h : σ.settles r i = true) :
    (exec P i σ).core.mail = ((σ.mail.settle r).callback r).part ∧
      (exec P i σ).push = ((σ.mail.settle r).callback r).push := by
  unfold Core.settles at h
  split at h
  case h_5 => cases h
  all_goals simp only [Bool.and_eq_true, Bool.not_eq_true', decide_eq_true_eq] at h
  · obtain ⟨⟨rfl, ht⟩, hs⟩ := h
    simp [exec, execMail, ackReply, ht, hs]
  · subst h
    exact ⟨rfl, rfl⟩
  · subst h
    exact ⟨rfl, rfl⟩
  · obtain ⟨⟨rfl, hs⟩, ht⟩ := h
    simp [exec, execMail, rejectAck, ht, hs]

/-- What becomes of a request. -/
structure Core.Answers (σ : Core) (i : Instr) (r : RequestId) (μ : Mail) : Prop where
  settled : (μ.requests r).settled = true ↔
    (σ.mail.requests r).settled = true ∨ σ.settles r i = true
  reason : (μ.requests r).reason = true ↔ (σ.mail.requests r).reason = true ∨
    (σ.mail.requests r).sending = true ∧ ∃ c, i = .mail (.rejectAck c (.promise r))
  sending : (μ.requests r).sending = true ↔ (σ.mail.requests r).sending = true ∧
    ¬ ∃ c p, i = .mail (.clientEmitRest c p) ∧ p.reply = some (.request r) ∧
      ((σ.conn.clients c).serverSocket).isSome = true

/-- The instructions that change the record of a request. -/
def Instr.answers : Instr → Bool
  | .mail (.ackReply _) | .mail (.ackTimeout _) | .mail (.rejectAck ..)
  | .mail (.clientEmitRest ..) => true
  | _ => false

theorem Core.Answers.same {σ : Core} {i : Instr} {r : RequestId} {μ : Mail}
    (h : μ.requests r = σ.mail.requests r) (hi : i.answers = false) : σ.Answers i r μ := by
  have hs : σ.settles r i = false := by
    unfold Core.settles
    split <;> [cases hi; cases hi; cases hi; cases hi; rfl]
  refine ⟨by simp [h, hs], ?_, ?_⟩ <;> rw [h]
  · exact ⟨Or.inl, fun h => h.elim id fun ⟨_, c, hc⟩ => by subst hc; cases hi⟩
  · exact ⟨fun h => ⟨h, fun ⟨c, p, hc, _⟩ => by subst hc; cases hi⟩, fun h => h.1⟩

theorem newRequest_requests (μ : Mail) (form : EmitForm) (q : Request) {r : RequestId}
    (hr : r < μ.requestCount) : (μ.newRequest form q).1.requests r = μ.requests r := by
  unfold Mail.newRequest
  split
  · rfl
  · split
    · exact Function.update_of_ne hr.ne ..
    · rfl
  · exact Function.update_of_ne hr.ne ..

theorem clientEmit_requests (σ : Core) (c : ClientId) (event : String) (form : EmitForm)
    {r : RequestId} (hr : r < σ.mail.requestCount) :
    (clientEmit σ c event form).part.requests r = σ.mail.requests r := by
  unfold clientEmit
  dsimp only
  split
  · rfl
  · generalize Request.mk _ _ _ _ _ _ _ = q
    rw [← newRequest_requests σ.mail form q hr]
    generalize σ.mail.newRequest form q = nr
    split <;> split <;> (try split) <;> rfl

theorem serverEmit_requests (σ : Core) (s : SocketId) (event : String) (form : EmitForm)
    {r : RequestId} (hr : r < σ.mail.requestCount) :
    (serverEmit σ s event form).part.requests r = σ.mail.requests r := by
  unfold serverEmit
  dsimp only
  split
  · rfl
  · generalize Request.mk _ _ _ _ _ _ _ = q
    rw [← newRequest_requests σ.mail form q hr]
    split <;> rfl

/-- No other instruction changes the record of an older request. -/
theorem exec_requests {i : Instr} {σ : Core} {r : RequestId} (hr : r < σ.mail.requestCount)
    (hi : i.answers = false) : (exec P i σ).core.mail.requests r = σ.mail.requests r := by
  cases i with
  | mail i =>
      cases i with
      | clientEmit c event form => exact clientEmit_requests σ c event form hr
      | serverEmit s event form => exact serverEmit_requests σ s event form hr
      | flushPackets a s ps =>
          cases ps with
          | nil => rfl
          | cons p ps =>
              simp only [exec, execMail, flushPackets]
              split
              · rfl
              · split <;> rfl
      | flushRest a s p ps =>
          simp only [exec, execMail, flushRest]
          split
          · rw [(sendToServer_requests ..).requests]
          · rfl
      | serverEmitRest s serial event reply was =>
          simp only [exec, execMail, serverEmitRest]
          split
          · rfl
          · rw [(sendToClient_requests ..).requests]
      | sendBroadcastRest s serial event was =>
          exact congrFun (sendToClient_requests σ s serial event none _).requests r
      | pumpRun q => exact congrFun (pumpRun_requests σ q).requests r
      | pumpRest q =>
          simp only [exec, execMail, pumpRest]
          split
          · rw [(pump_requests ..).requests]
          · rfl
      | removeDeliveries s => exact congrFun (removeDeliveries_requests σ s).requests r
      | invokeAck k encodable => exact congrFun (invokeAck_requests σ k encodable).requests r
      | clientEmitRest | rejectAck | ackReply | ackTimeout => cases hi
      | _ => rfl
  | _ => rfl

/-- An instruction settles one request. -/
theorem settles_inj {i : Instr} {σ : Core} {r r' : RequestId} (h : σ.settles r i = true) :
    σ.settles r' i = true ↔ r' = r := by
  refine ⟨fun h' => ?_, fun hr => hr ▸ h⟩
  unfold Core.settles at h h'
  split at h
  case h_5 => cases h
  all_goals
    simp only [Bool.and_eq_true, decide_eq_true_eq] at h h'
    grind

/-- The record of a request that an instruction has settled, and of every other one. -/
theorem Core.Answers.settle {i : Instr} {σ : Core} {r₀ : RequestId} (h : σ.settles r₀ i = true)
    (r : RequestId) : σ.Answers i r (exec P i σ).core.mail := by
  rw [(exec_settles h).1]
  have hreq := congrFun ((callback_requests (σ.mail.settle r₀) r₀).trans (settle_requests _ _)) r
  have hemit : ∀ c p, i ≠ .mail (.clientEmitRest c p) := fun c p hi => by
    subst hi
    cases h
  refine ⟨settle_settled.trans (or_congr Iff.rfl (settles_inj h).symm), ?_, ?_⟩
  · have hr : (((σ.mail.settle r₀).callback r₀).part.requests r).reason =
        (σ.mail.requests r).reason := by
      rw [hreq, modify_apply]
      split <;> simp_all
    rw [hr]
    refine ⟨Or.inl, fun h' => h'.elim id fun ⟨hs, c, hi⟩ => ?_⟩
    subst hi
    obtain ⟨rfl, hs', -⟩ : r = r₀ ∧ _ ∧ _ := by simpa [Core.settles, and_assoc] using h
    rw [hs] at hs'
    cases hs'
  · have hr : (((σ.mail.settle r₀).callback r₀).part.requests r).sending =
        (σ.mail.requests r).sending := by
      rw [hreq, modify_apply]
      split <;> simp_all
    rw [hr]
    exact ⟨fun h => ⟨h, fun ⟨c, p, hi, _⟩ => hemit c p hi⟩, fun h => h.1⟩

theorem rejectAck_answers (σ : Core) (c : ClientId) (r r' : RequestId) :
    σ.Answers (.mail (.rejectAck c (.promise r'))) r
      (exec P (.mail (.rejectAck c (.promise r'))) σ).core.mail := by
  by_cases hs : (σ.mail.requests r').sending = true
  · simp only [exec, execMail, rejectAck, hs, if_true]
    by_cases hr : r = r'
    · subst hr
      exact ⟨by simp [Mail.setRequest, Core.settles, hs], by simp [Mail.setRequest, hs],
        by simp [Mail.setRequest, hs]⟩
    · exact ⟨by simp [Mail.setRequest, Core.settles, hr, Ne.symm hr],
        by simp [Mail.setRequest, hr, Ne.symm hr], by simp [Mail.setRequest, hr]⟩
  · by_cases ht : (σ.mail.requests r').timed = true
    · have hset : σ.settles r' (.mail (.rejectAck c (.promise r'))) = true := by
        simp [Core.settles, hs, ht]
      exact .settle hset r
    · simp only [exec, execMail, rejectAck, hs, ht, if_neg, Bool.false_eq_true, not_false_eq_true]
      have hno : σ.settles r (.mail (.rejectAck c (.promise r'))) = false := by
        by_cases hr : r' = r
        · subst hr
          simp [Core.settles, ht]
        · simp [Core.settles, hr]
      refine ⟨by simp [hno], ⟨Or.inl, ?_⟩, by simp⟩
      rintro (h | ⟨h, d, hd⟩)
      · exact h
      · obtain ⟨-, rfl⟩ : c = d ∧ r' = r := by simpa using hd
        exact absurd h hs

theorem clientEmitRest_answers (σ : Core) (c : ClientId) (p : BufferedPacket) (r : RequestId) :
    σ.Answers (.mail (.clientEmitRest c p)) r
      (exec P (.mail (.clientEmitRest c p)) σ).core.mail := by
  simp only [exec, execMail, clientEmitRest]
  split
  · rename_i hs
    exact ⟨by simp [Core.settles], by simp, by simp [hs]⟩
  · rename_i s hs
    have hreq := (sendToServer_requests σ.mail s c p.serial p.event p.reply).requests
    split
    · rename_i r' hrep
      by_cases hr : r = r'
      · subst hr
        exact ⟨by simp [Mail.setRequest, Mail.setOutbox, hreq, Core.settles],
          by simp [Mail.setRequest, Mail.setOutbox, hreq],
          by simp [Mail.setRequest, hrep, hs]⟩
      · have hne : p.reply ≠ some (.request r) := fun h => hr (by simpa [hrep] using h.symm)
        exact ⟨by simp [Mail.setRequest, Mail.setOutbox, hreq, Core.settles, hr],
          by simp [Mail.setRequest, Mail.setOutbox, hreq, hr],
          by simp [Mail.setRequest, Mail.setOutbox, hreq, hr, hne]⟩
    · rename_i hrep
      have hne : p.reply ≠ some (.request r) := hrep r
      exact ⟨by simp [Mail.setOutbox, hreq, Core.settles], by simp [Mail.setOutbox, hreq],
        by simp [Mail.setOutbox, hreq, hne]⟩

/-- **What becomes of an older request.** -/
theorem exec_answers (i : Instr) {σ : Core} {r : RequestId} (hr : r < σ.mail.requestCount) :
    σ.Answers i r (exec P i σ).core.mail := by
  by_cases hi : i.answers = false
  · exact .same (exec_requests hr hi) hi
  · by_cases hs : ∃ r₀, σ.settles r₀ i = true
    · obtain ⟨r₀, h⟩ := hs
      exact .settle h r
    · have hno : σ.settles r i = false := by simpa using fun h => hs ⟨r, h⟩
      have hsame : ∀ {μ : Mail}, μ.requests r = σ.mail.requests r →
          (∀ c, i = .mail (.rejectAck c (.promise r)) → (σ.mail.requests r).sending = false) →
          (∀ c p, i ≠ .mail (.clientEmitRest c p)) → σ.Answers i r μ := fun h h₁ h₂ => by
        refine ⟨by simp [h, hno], ?_, ?_⟩ <;> rw [h]
        · exact ⟨Or.inl, fun h => h.elim id fun ⟨hs, c, hc⟩ => by rw [h₁ c hc] at hs; cases hs⟩
        · exact ⟨fun h => ⟨h, fun ⟨c, p, hc, _⟩ => h₂ c p hc⟩, fun h => h.1⟩
      unfold Instr.answers at hi
      split at hi
      · rename_i reply
        refine hsame ?_ nofun nofun
        cases reply with
        | callback => rfl
        | request r' =>
            have h' : ¬ ((σ.mail.requests r').timed = true ∧ (σ.mail.requests r').settled = false) :=
              fun h => hs ⟨r', by simp [Core.settles, h.1, h.2]⟩
            simp only [exec, execMail, ackReply]
            split
            · rename_i ht
              split
              · rfl
              · rename_i hset
                exact absurd ⟨ht, Bool.eq_false_iff.mpr hset⟩ h'
            · exact congrFun (dropHandle_requests ..) r
      · exact absurd ⟨_, decide_eq_true rfl⟩ hs
      · rename_i c k
        cases k with
        | timed r' => exact absurd ⟨r', decide_eq_true rfl⟩ hs
        | promise r' => exact rejectAck_answers σ c r r'
      · rename_i c p
        exact clientEmitRest_answers σ c p r
      · exact absurd rfl hi

/-- What is no longer there once `r` is settled. -/
structure Mail.Cleared (μ : Mail) (r : RequestId) : Prop where
  ackTimers : r ∉ μ.ackTimers
  pendingAcks : (μ.requests r).tracked = true → ∀ c, (μ.requests r).client = some c →
    .timed r ∉ (μ.outboxes c).pendingAcks
  sendBuffer : ∀ c, (μ.requests r).client = some c → ∀ p ∈ (μ.outboxes c).sendBuffer,
    p.timedCallback ≠ some r

theorem Mail.Shrinks.cleared {r : RequestId} (h : μ.Shrinks μ') (hμ : μ.Cleared r) :
    μ'.Cleared r where
  ackTimers hr := hμ.ackTimers (h.ackTimers.subset hr)
  pendingAcks ht c hc hk := hμ.pendingAcks ((h.made r).tracked ▸ ht) c ((h.made r).client ▸ hc)
    (h.pendingAcks c _ hk)
  sendBuffer c hc p hp := hμ.sendBuffer c ((h.made r).client ▸ hc) p (h.sendBuffer c p hp)

theorem dropHandle_drops (μ : Mail) (r : RequestId) (k : AckHandle) {c : ClientId}
    (hc : (μ.requests r).client = some c) : k ∉ ((μ.dropHandle r k).outboxes c).pendingAcks := by
  simp [Mail.dropHandle, hc, Mail.setOutbox]

theorem onSettled_cleared {μ : Mail} {r : RequestId} (h : r ∉ μ.ackTimers) :
    (μ.onSettled r).Cleared r := by
  have hs := Mail.Shrinks.onSettled μ r
  refine ⟨fun hr => h (hs.ackTimers.subset hr), ?_, ?_⟩ <;> rw [onSettled_requests]
  · intro ht c hc hk
    unfold Mail.onSettled at hk
    rw [if_pos ht] at hk
    dsimp only at hk
    rw [dropHandle_requests, hc] at hk
    exact dropHandle_drops μ r (.timed r) hc (by simpa [Mail.setOutbox] using hk)
  · intro c hc p hp
    unfold Mail.onSettled at hp
    dsimp only at hp
    have hreq : (if (μ.requests r).tracked = true then μ.dropHandle r (.timed r) else μ).requests =
        μ.requests := by
      split
      · exact dropHandle_requests ..
      · rfl
    rw [hreq, hc] at hp
    simp only [Mail.setOutbox, modify_apply, if_true, List.mem_filter, decide_eq_true_eq] at hp
    exact hp.2

/-- **Settling a request clears it.** -/
theorem settles_cleared {i : Instr} {σ : Core} {r : RequestId} (h : σ.settles r i = true)
    (hn : σ.mail.ackTimers.Nodup) : (exec P i σ).core.mail.Cleared r := by
  rw [(exec_settles h).1]
  exact (Mail.Shrinks.callback ..).cleared (onSettled_cleared (hn.not_mem_erase))

end Smocket
