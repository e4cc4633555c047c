import Smocket.Duplex
import Smocket.SharedWorker.Grammar
import Smocket.SharedWorker.PageHeap
import Smocket.SharedWorker.Writers

/-
  File:      Smocket/SharedWorker/Bridge.lean
  Subject:   ONE PAGE AND ONE WORKER over a message port: two FIFO channels, no message lost or
             doubled, any delay.

  What one end posts joins the queue of the other as a structured clone. Neither application can put
  a message of its own on the port.

  * `page_fifo` -- the page has heard a prefix of what the host has posted, and the rest waits at
    its port.
-/

namespace Smocket.SharedWorker

open EventLoop EventLoop.Machine

/-- A `SharedWorkerSocket` and the `attachSharedWorker` it talks to. -/
def bridge : Duplex PageCore PageInstr HostCore HostInstr JsValue where
  left := page
  right := host
  sentLeft c := c.posted.map Message.toValue
  sentRight c := c.posted.map Message.toValue
  takeLeft := .receive
  takeRight := .handleMessage
  outsideLeft
    | .arrive _ => true
    | _ => false
  outsideRight
    | .arrive _ => true
    | _ => false

/-- A page and its host. -/
abbrev BridgeState := Joint PageCore PageInstr HostCore HostInstr

/-- The page opens its end while the host listens. -/
def joined (url : String) (auth : JsValue) (lifecycle : Bool) : BridgeState :=
  ⟨opened url auth lifecycle, attached⟩

/-! ## The two channels -/

theorem PageCore.posting_received (c : PageCore) (m : Message) (done failed : List PageInstr) :
    (c.posting m done failed).core.received = c.received := by
  simp only [PageCore.posting, PageCore.post]
  split
  · rfl
  · split <;> rfl

theorem PageCore.disconnect_received (c : PageCore) : c.disconnect.core.received = c.received := by
  unfold PageCore.disconnect
  split
  · rfl
  · dsimp only
    split
    · rw [PageCore.posting_received]
      rfl
    · rfl

theorem PageCore.postEmission_received (c : PageCore) (e : Emission) (g : Generation)
    (rest : List PageInstr) : (c.postEmission e g rest).core.received = c.received := by
  unfold PageCore.postEmission
  split <;> rw [PageCore.posting_received]

/-- Acting on a message takes no other. -/
theorem PageCore.hear_received (c : PageCore) (m : Message) :
    (c.hear m).core.received = c.received := by
  cases m with
  | bridgeError error requestId generation =>
      simp only [PageCore.hear]
      split <;> rfl
  | connected requestId g id =>
      simp only [PageCore.hear, PageCore.receiveConnected]
      split
      · rfl
      · split
        · rw [PageCore.disconnect_received]
        · rfl
  | connectError requestId g error =>
      simp only [PageCore.hear]
      split <;> rfl
  | serverEvent g event args ackId =>
      simp only [PageCore.hear, PageCore.receiveServerEvent]
      split
      · rfl
      · split <;> rfl
  | acknowledgement g direction ackId args =>
      simp only [PageCore.hear, PageCore.receiveAcknowledgement]
      split
      · rfl
      · split <;> rfl
  | disconnected requestId g reason =>
      simp only [PageCore.hear]
      split <;> rfl
  | _ => rfl

/-- The page notes every message it is handed. -/
theorem pageExec_receive_received (c : PageCore) (value : JsValue) :
    (pageExec (.receive value) c).core.received = c.received ++ [value] := by
  simp only [pageExec, PageCore.receive]
  split
  · rfl
  · rw [PageCore.hear_received]

/-- It notes no other. -/
theorem pageExec_received (c : PageCore) {i : PageInstr} (hi : ∀ value, i ≠ .receive value) :
    (pageExec i c).core.received = c.received := by
  cases i with
  | receive value => exact absurd rfl (hi value)
  | flush es g =>
      cases es with
      | nil => rfl
      | cons e es =>
          simp only [pageExec, PageCore.flush]
          split
          · rw [PageCore.postEmission_received]
          · rfl
  | connect =>
      simp only [pageExec, PageCore.connect]
      split
      · rfl
      · rw [PageCore.posting_received]
        rfl
  | disconnect => exact PageCore.disconnect_received c
  | emit event args acknowledge =>
      simp only [pageExec, PageCore.queueEmission]
      split
      · rfl
      · split
        · rfl
        · rw [PageCore.postEmission_received]
  | acknowledge r args =>
      simp only [pageExec, PageCore.acknowledge]
      split
      · rfl
      · split
        · rfl
        · rw [PageCore.posting_received]
  | pageHide =>
      simp only [pageExec]
      split
      · rw [PageCore.disconnect_received]
      · rfl
  | _ => rfl

/-- A pushed instruction neither takes a message nor stands for the port. -/
theorem pageExec_push_inside {c : PageCore} {i j : PageInstr} (hj : j ∈ (pageExec i c).push) :
    (∀ value, j ≠ .receive value) ∧ bridge.outsideLeft j = false := by
  rcases pageExec_push hj with hj | ⟨rfl, -⟩ | ⟨es, g, rfl, -⟩
  · cases j <;> first | (cases hj; done) | exact ⟨nofun, rfl⟩
  · exact ⟨nofun, rfl⟩
  · exact ⟨nofun, rfl⟩

/-- The page is the receiving end of a channel. -/
theorem page_takes :
    Takes page bridge.takeLeft bridge.outsideLeft PageCore.received where
  taking := pageExec_receive_received
  other c _ hi := pageExec_received c hi
  push _ _ _ := pageExec_push_inside
  call _ i hc value := by rintro rfl; cases hc
  handle _ i _ hi := by cases i <;> cases hi
  post c i hi := by
    cases h : (page.exec i c).post with
    | nil => rfl
    | cons p ps =>
        obtain ⟨value, rfl, -⟩ := pageExec_post (h ▸ List.mem_cons_self : p ∈ (pageExec i c).post)
        cases hi
  kept _ := rfl

/-- What is on a port stays there. -/
theorem PageCore.Posts.grows {c c' : PageCore} (h : c.Posts c') : c.posted <+: c'.posted := by
  rcases h with h | ⟨m, h, -⟩
  · exact h ▸ List.prefix_rfl
  · exact h ▸ List.prefix_append _ _

theorem HostCore.post_grows_of {c d : HostCore} (h : d.posted = c.posted) (m : Message) :
    c.posted <+: (d.post m).1.posted := by
  rw [← h]
  unfold HostCore.post
  split
  · exact List.prefix_append _ _
  · split <;> exact List.prefix_append _ _
  · exact List.prefix_rfl

theorem HostCore.post_grows (c : HostCore) (m : Message) : c.posted <+: (c.post m).1.posted :=
  HostCore.post_grows_of rfl m

theorem HostCore.continue_grows (c : HostCore) (next : Option String)
    (replaced : Option Generation) :
    c.posted <+: (c.continue next replaced).posted := by
  unfold HostCore.continue HostCore.connectRest
  split
  · exact List.prefix_rfl
  · dsimp only
    split
    · refine HostCore.post_grows_of ?_ _
      rfl
    · exact List.prefix_rfl

/-- The end of a generation takes nothing back. -/
theorem HostCore.finish_grows (c : HostCore) (g : Generation) (reason : String)
    (notify disconnectSocket : Bool) (next : Option String) :
    c.posted <+: (c.finish g reason notify disconnectSocket next).core.posted := by
  unfold HostCore.finish
  split
  · exact c.continue_grows _ _
  · exact List.prefix_rfl

/-- Nor does a disconnect. -/
theorem HostCore.disconnect_grows (c : HostCore) (g : Generation) (reason : String) (notify : Bool)
    (next : Option String) : c.posted <+: (c.disconnect g reason notify next).core.posted :=
  HostCore.finish_grows (c.setState g fun s => { s with disconnectReason := some reason }) g reason
    notify true next

theorem HostCore.withOwner_grows {c : HostCore} {generation : Generation}
    {requestId : Option String}
    {f : Generation → Effect HostCore HostInstr} (hf : ∀ g, c.posted <+: (f g).core.posted) :
    c.posted <+: (c.withOwner generation requestId f).core.posted := by
  unfold HostCore.withOwner
  split
  · exact hf _
  · exact List.prefix_rfl
  · exact c.post_grows _

/-- What the host has posted stays posted. -/
theorem hostExec_appends (c : HostCore) (i : HostInstr) :
    c.posted <+: (hostExec i c).core.posted := by
  cases i with
  | handleMessage value =>
      simp only [hostExec, HostCore.handleMessage]
      split
      · exact List.prefix_rfl
      · split
        · exact c.post_grows _
        · rename_i requestId _ _ _
          unfold HostCore.connect
          split
          · exact c.continue_grows (some requestId) none
          · exact c.disconnect_grows _ _ _ _
        · refine HostCore.withOwner_grows fun g => ?_
          unfold HostCore.handleClientEvent
          dsimp only
          split <;> exact List.prefix_rfl
        · refine HostCore.withOwner_grows fun g => ?_
          dsimp only
          unfold HostCore.runAcknowledgement
          split <;> exact List.prefix_rfl
        · exact HostCore.withOwner_grows fun g => c.disconnect_grows _ _ _ _
        · exact List.prefix_rfl
  | notify g reason next => exact (c.post_grows _).trans (HostCore.continue_grows _ _ _)
  | emitFinally r =>
      simp only [hostExec]
      split <;> exact List.prefix_rfl
  | onMessageError =>
      simp only [hostExec]
      split
      · exact List.prefix_rfl
      · exact c.post_grows _
  | onConnect g id =>
      simp only [hostExec, HostCore.onConnect]
      split
      · exact List.prefix_rfl
      · have hpost := HostCore.post_grows (c.setState g fun s => { s with opened := true })
          (.connected ((c.setState g fun s => { s with opened := true }).states g).requestId g id)
        split
        · exact hpost
        · exact hpost.trans (HostCore.disconnect_grows _ _ _ _ _)
  | onConnectError g error =>
      simp only [hostExec, HostCore.onConnectError]
      split
      · exact List.prefix_rfl
      · exact (c.post_grows _).trans (HostCore.finish_grows _ _ _ _ _ _)
  | onDisconnect g reason => exact c.finish_grows _ _ _ _ _
  | onAny g event args asksAnswer =>
      simp only [hostExec, HostCore.forwardServerEvent]
      split
      · exact List.prefix_rfl
      · split
        · split
          · refine HostCore.post_grows_of ?_ _
            rfl
          · refine HostCore.post_grows_of (d := { c.setState g fun s =>
              { s with
                nextAcknowledgement := (c.states g).nextAcknowledgement + 1
                pendingServerAcknowledgements := s.pendingServerAcknowledgements.set
                  (ackName "server" g ((c.states g).nextAcknowledgement + 1)) c.eventCount } with
              eventCount := c.eventCount + 1
              log := .forwarded c.eventCount g
                (ackName "server" g ((c.states g).nextAcknowledgement + 1)) :: c.log }) ?_ _
            rfl
        · exact c.post_grows _
  | acknowledge r args =>
      simp only [hostExec, HostCore.acknowledge]
      split
      · exact List.prefix_rfl
      · split
        · exact List.prefix_rfl
        · split
          · exact List.prefix_rfl
          · exact HostCore.post_grows (c.setReference r fun x =>
              { x with answered := true, state := none }) _
  | close reason =>
      simp only [hostExec, HostCore.close]
      split
      · exact List.prefix_rfl
      · split
        · exact List.prefix_rfl
        · exact HostCore.disconnect_grows { c with closed := true } _ _ _ _
  | _ => exact List.prefix_rfl

/-- What the host has posted stays posted. -/
theorem host_sent (c : HostCore) (i : HostInstr) :
    bridge.sentRight c <+: bridge.sentRight (host.exec i c).core :=
  (hostExec_appends c i).map _

/-- **The page has heard a prefix of what the host has posted, and the rest waits at its port.** -/
theorem page_fifo {C : BridgeState → Turn PageInstr HostInstr → Prop} {url : String}
    {auth : JsValue}
    {lifecycle : Bool} {σ : BridgeState} (h : bridge.Reach C (joined url auth lifecycle) σ) :
    Fifo PageInstr.receive bridge.outsideLeft PageCore.received
      (σ.right.core.posted.map Message.toValue) σ.left := by
  refine h.fifo_left page_takes host_sent ⟨fun j hj => ?_, [], rfl, rfl⟩
  rw [List.mem_singleton.mp hj]
  exact ⟨nofun, rfl⟩

/-- What the end of a generation spawns is the host's own. -/
theorem HostCore.finish_inside {c : HostCore} {g : Generation} {reason : String}
    {notify disconnectSocket : Bool} {next : Option String} {j : HostInstr}
    (hj : j ∈ (c.finish g reason notify disconnectSocket next).spawned) :
    bridge.outsideRight j = false := by
  rcases HostCore.finish_spawned hj with rfl | rfl <;> rfl

/-- The host puts no message on its own port. -/
theorem hostExec_inside (c : HostCore) (i : HostInstr) :
    ∀ j ∈ (hostExec i c).spawned, bridge.outsideRight j = false := by
  intro j hj
  cases i with
  | handleMessage value =>
      simp only [hostExec, HostCore.handleMessage] at hj
      split at hj
      · cases hj
      · split at hj
        · cases hj
        · unfold HostCore.connect at hj
          split at hj
          · cases hj
          · exact HostCore.finish_inside hj
        · unfold HostCore.withOwner at hj
          split at hj
          · unfold HostCore.handleClientEvent at hj
            dsimp only at hj
            split at hj
            · rw [List.mem_singleton.mp hj]
              rfl
            · simp only [Effect.spawned, List.append_nil, List.mem_cons, List.not_mem_nil,
                or_false] at hj
              rcases hj with rfl | rfl | rfl <;> rfl
          · cases hj
          · cases hj
        · unfold HostCore.withOwner at hj
          split at hj <;> cases hj
        · unfold HostCore.withOwner at hj
          split at hj
          · exact HostCore.finish_inside hj
          · cases hj
          · cases hj
        · cases hj
  | disconnectSocket g =>
      simp only [hostExec, HostCore.disconnectSocket, Effect.spawned, List.append_nil] at hj
      split at hj <;> (rw [List.mem_singleton.mp hj]; rfl)
  | arrive value =>
      rw [List.mem_singleton.mp hj]
      rfl
  | onConnect g id =>
      simp only [hostExec, HostCore.onConnect] at hj
      split at hj
      · rw [List.mem_singleton.mp hj]
        rfl
      · split at hj
        · cases hj
        · exact HostCore.finish_inside hj
  | onConnectError g error =>
      simp only [hostExec, HostCore.onConnectError] at hj
      split at hj
      · cases hj
      · exact HostCore.finish_inside hj
  | onDisconnect g reason => exact HostCore.finish_inside hj
  | close reason =>
      simp only [hostExec, HostCore.close] at hj
      split at hj
      · cases hj
      · split at hj
        · cases hj
        · exact HostCore.finish_inside hj
  | _ => cases hj

/-- What a step of the page posts. -/
theorem page_step_posts {σ τ : PageState} {a : Action PageInstr} (h : page.step σ a = some τ) :
    σ.core.Posts τ.core := by
  have hunwind : ∀ (k : List PageInstr) (c : PageCore), (page.unwind c k).1.posted = c.posted := by
    intro k
    induction k with
    | nil => exact fun _ => rfl
    | cons i k ih =>
        intro c
        rw [Machine.unwind]
        split
        · rfl
        · split
          · exact ih c
          · rename_i hr
            cases i with
            | dropAcknowledgement ackId => exact ih _
            | _ => cases hr
          · rename_i hr
            cases i <;> cases hr
  rcases step_cases h with ⟨i, π, -, hn, rfl⟩ | ⟨_, -, -, -, rfl⟩ | ⟨_, _, -, -, -, rfl⟩ |
    ⟨_, k, -, -, -, rfl⟩
  · rw [(next_pending hn).1]
    unfold Machine.execute
    dsimp only
    split
    · have hp := pageExec_posts π.core i
      unfold PageCore.Posts at hp ⊢
      rw [hunwind]
      exact hp
    · exact pageExec_posts π.core i
  · exact Or.inl rfl
  · exact Or.inl rfl
  · exact Or.inl (hunwind k σ.core)

end Smocket.SharedWorker
