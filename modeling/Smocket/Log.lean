import Smocket.Machine
import Mathlib.Data.List.Infix

/-
  File:      Smocket/Log.lean
  Subject:   WHAT EACH INSTRUCTION RECORDS. The log only grows, and an event names the one kind of
             instruction that records it.

  * `exec_log` -- the log grows by events the executed instruction may record.
-/

namespace Smocket

open Ordered EventLoop

variable {P : Platform}

/-- The events an instruction may record. -/
def Instr.Records : Instr → Event → Prop
  | .life (.runMiddleware s), e => (∃ i, e = .invoked s i) ∨ e = .completed s
  | .life (.next s i none), e => e = .answered s i ∨ (∃ i, e = .invoked s i) ∨ e = .completed s
  | .life (.next s i (some _)), e => e = .refused s i
  | .life (.teardownTask s ..), e => e = .disconnecting s
  | .life (.disconnectNamespaceFromServer s), e => e = .disconnecting s
  | .life (.teardownDisconnect s ..), e => e = .disconnect s
  | .life (.dispatch d), e => e = .entered d
  | .memb (.enter s), e => e = .admitted s
  | .srv .close, e => e = .closeCalled
  | .ctl (.emitConnection s), e => e = .connection s
  | .ctl (.dispatchClient c ev), e => e = .clientEvent c ev
  | .ctl (.deliverClient d), e => ∃ through draining, e = .delivered d through draining
  | _, _ => False

/-- The server records that it was told to close. -/
theorem execSrv_log (P : Platform) (σ : Core) {i : SrvInstr} {e : Event}
    (he : e ∈ (execSrv P σ i).log) : i = .close ∧ e = .closeCalled := by
  cases i <;> simp only [execSrv] at he
  case close =>
    simp only [close] at he
    split at he <;> exact ⟨rfl, List.mem_singleton.mp he⟩
  case adapter => simp only [adapter] at he; split at he <;> cases he
  case nextConnection =>
    simp only [nextConnection] at he
    split at he <;> [cases he; (split at he <;> [cases he; (split at he <;> cases he)])]
  case continuePair =>
    simp only [continuePair] at he
    split at he <;> [cases he; (split at he <;> [cases he; (split at he <;> cases he)])]
  case authorized =>
    simp only [authorized] at he
    split at he <;> [cases he; (split at he <;> cases he)]
  case dynamicTask =>
    simp only [dynamicTask] at he
    split at he <;> [cases he; (split at he <;> cases he)]
  case dynamicAuthorized => simp only [dynamicAuthorized] at he; split at he <;> cases he
  case tryParent =>
    simp only [tryParent] at he
    split at he <;> [cases he; (split at he <;> cases he)]
  case matched => simp only [matched] at he; split at he <;> cases he
  case getNamespace => simp only [getNamespace] at he; split at he <;> cases he
  case createNamespace =>
    simp only [createNamespace] at he
    split at he <;> [(split at he <;> cases he); cases he]
  case observe => simp only [observe] at he; split at he <;> cases he
  case offer => simp only [offer] at he; split at he <;> cases he
  case broadcast => simp only [broadcast] at he; split at he <;> cases he
  case setDropped => simp only [setDropped] at he; split at he <;> cases he
  case closeFromServer => simp only [closeFromServer] at he; split at he <;> cases he
  case awaitClosed => simp only [awaitClosed] at he; split at he <;> cases he
  all_goals cases he

theorem advance_log {ℓ : Life} {s : SocketId} {e : Event} (he : e ∈ (ℓ.advance s).log) :
    (∃ i, e = .invoked s i) ∨ e = .completed s := by
  unfold Life.advance at he
  dsimp only at he
  split at he
  · exact Or.inl ⟨_, List.mem_singleton.mp he⟩
  · exact Or.inr (List.mem_singleton.mp he)

/-- The lifecycle records middleware and disconnects. -/
theorem execLife_log {σ : Core} {i : LifeInstr} {e : Event} (he : e ∈ (execLife σ i).log) :
    (Instr.life i).Records e := by
  cases i <;> simp only [execLife] at he
  case runMiddleware s => exact advance_log he
  case next s i err =>
    cases err with
    | some err => exact List.mem_singleton.mp he
    | none =>
        rcases List.mem_append.mp he with he | he
        · exact Or.inr (advance_log he)
        · exact Or.inl (List.mem_singleton.mp he)
  case teardown => simp only [teardown] at he; split at he <;> cases he
  case teardownTask => exact List.mem_singleton.mp he
  case disconnectNamespaceFromServer =>
    simp only [disconnectNamespaceFromServer] at he
    split at he
    · cases he
    · exact List.mem_singleton.mp he
  case teardownDisconnect => exact List.mem_singleton.mp he
  case teardownDone => simp only [teardownDone] at he; split at he <;> cases he
  case dispatch => exact List.mem_singleton.mp he
  case setPacket => simp only [setPacket] at he; split at he <;> cases he
  case runPacket =>
    simp only [runPacket] at he
    split at he <;> [cases he; (split at he <;> cases he)]
  case packetNext =>
    simp only [packetNext] at he
    split at he <;> [cases he; (split at he <;> cases he)]
  case dispatchNamed =>
    simp only [dispatchNamed] at he
    split at he <;> [cases he; (split at he <;> cases he)]
  all_goals cases he

theorem execMemb_log {σ : Core} {i : MembInstr} {e : Event} (he : e ∈ (execMemb σ i).log) :
    (Instr.memb i).Records e := by
  cases i <;> simp only [execMemb] at he
  case enter => exact List.mem_singleton.mp he
  case cleanupMembership => simp only [cleanupMembership] at he; split at he <;> cases he
  all_goals cases he

theorem execCtl_log {σ : Core} {i : CtlInstr} {e : Event} (he : e ∈ (execCtl σ i).log) :
    (Instr.ctl i).Records e := by
  cases i <;> simp only [execCtl] at he
  case emitConnection => exact List.mem_singleton.mp he
  case dispatchClient => exact List.mem_singleton.mp he
  case deliverClient =>
    simp only [deliverClient] at he
    split at he
    · cases he
    · cases he
    · exact ⟨_, _, List.mem_singleton.mp he⟩
  case completion s err => cases err <;> cases he
  case reportRepeatedConnectionError =>
    simp only [reportRepeatedConnectionError] at he
    split at he <;> cases he
  all_goals cases he

/-- **The log only grows, by events the executed instruction may record.** -/
theorem exec_log (P : Platform) (i : Instr) (σ : Core) :
    ∃ es, (exec P i σ).core.log = es ++ σ.log ∧ ∀ e ∈ es, i.Records e := by
  cases i with
  | app x => exact ⟨[], rfl, nofun⟩
  | conn i => exact ⟨[], rfl, nofun⟩
  | life i => exact ⟨_, rfl, fun e he => execLife_log he⟩
  | memb i => exact ⟨_, rfl, fun e he => execMemb_log he⟩
  | mail i => exact ⟨[], rfl, nofun⟩
  | srv i =>
      refine ⟨_, rfl, fun e he => ?_⟩
      obtain ⟨rfl, rfl⟩ := execSrv_log P σ he
      exact rfl
  | ctl i => exact ⟨_, rfl, fun e he => execCtl_log he⟩

/-- Nothing is taken out of the log. -/
theorem mem_log {i : Instr} {σ : Core} {e : Event} (h : e ∈ σ.log) :
    e ∈ (exec P i σ).core.log := by
  obtain ⟨es, hes, -⟩ := exec_log P i σ
  rw [hes]
  exact List.mem_append_right _ h

/-- A log keeps its count of an event the executed instruction does not record. -/
theorem count_log {σ : Core} {i : Instr} {e : Event} (h : ¬ i.Records e) :
    (exec P i σ).core.log.count e = σ.log.count e := by
  obtain ⟨es, hes, hr⟩ := exec_log P i σ
  rw [hes, List.count_append, List.count_eq_zero_of_not_mem fun he => h (hr e he), Nat.zero_add]

/-- Each event has one instruction that records it. -/
theorem records_connection {i : Instr} {s : SocketId} (h : i.Records (.connection s)) :
    i = .ctl (.emitConnection s) := by
  unfold Instr.Records at h
  split at h <;> simp at h
  rw [h]

theorem records_admitted {i : Instr} {s : SocketId} (h : i.Records (.admitted s)) :
    i = .memb (.enter s) := by
  unfold Instr.Records at h
  split at h <;> simp at h
  rw [h]

/-- A socket has two ways to go. -/
theorem records_disconnecting {i : Instr} {s : SocketId} (h : i.Records (.disconnecting s)) :
    (∃ r d, i = .life (.teardownTask s r d)) ∨ i = .life (.disconnectNamespaceFromServer s) := by
  unfold Instr.Records at h
  split at h <;> simp at h
  · exact Or.inl ⟨_, _, by rw [h]⟩
  · exact Or.inr (by rw [h])

/-- They end in one. -/
theorem records_disconnect {i : Instr} {s : SocketId} (h : i.Records (.disconnect s)) :
    ∃ r sync, i = .life (.teardownDisconnect s r sync) := by
  unfold Instr.Records at h
  split at h <;> simp at h
  exact ⟨_, _, by rw [h]⟩

/-- An event that is not among the latest ones happened before them. -/
theorem suffix_of_append {e : Event} {past es log : List Event} (h : e :: past <:+ es ++ log)
    (he : e ∉ es) : e :: past <:+ log := by
  induction es with
  | nil => exact h
  | cons x es ih =>
      rcases List.suffix_cons_iff.mp h with h | h
      · exact absurd (List.cons.inj h).1 fun hx => he (hx ▸ List.mem_cons_self)
      · exact ih h fun hx => he (List.mem_cons_of_mem _ hx)

end Smocket
