import Smocket.Sections
import Smocket.SharedWorker.Bridge

/-
  File:      Smocket/SharedWorker/Agreement.lean
  Subject:   PAGE AND WORKER AGREE ON THE LIVE GENERATION once the page has heard everything.

  A page that is connected heard the CONNECTED of its generation and no DISCONNECTED after it. So
  the two agree if the host says DISCONNECTED whenever it ends a generation that it has announced.
  It does not when a completed connection attempt fails late: the host ends the generation with a
  CONNECT_ERROR, which a connected page ignores. Nor does a page act on a DISCONNECTED whose reason
  is empty: it cannot read it.

  * `host_announces` -- what the host keeps in every run in which the two agree;
  * `host_tells` -- between the end of an announced generation and its DISCONNECTED no application
    code runs;
  * `generations_agree` -- a page that has heard everything is in the host's generation, unless an
    attempt fails late;
  * `generations_disagree` -- a late failure leaves the page connected alone.
-/

namespace Smocket.SharedWorker

open Ordered EventLoop EventLoop.Machine

/-! ## 1. What the host announces -/

/-- What CONNECTED and DISCONNECTED say of a generation. -/
structure HostCore.Announced (c : HostCore) : Prop where
  connected : ∀ r g id, .connected r g id ∈ c.posted →
    c.created g = true ∧ (c.states g).requestId = r ∧ (c.states g).opened = true
  disconnected : ∀ r g reason, .disconnected r g reason ∈ c.posted →
    c.created g = true ∧ (c.states g).requestId = r ∧ reason ≠ ""
  refused : ∀ r g id r' error, .connected r g id ∈ c.posted → .connectError r' g error ∉ c.posted
  reasons : ∀ g, (c.states g).disconnectReason ≠ some ""

/-- A step that posts nothing. -/
theorem HostCore.Announced.frame {c c' : HostCore} (h : c.Announced) (hp : c'.posted = c.posted)
    (hc : ∀ g, c.created g = true → c'.created g = true)
    (hs : ∀ g, c.created g = true → (c'.states g).requestId = (c.states g).requestId ∧
      ((c.states g).opened = true → (c'.states g).opened = true))
    (hr : ∀ g, (c'.states g).disconnectReason ≠ some "") : c'.Announced where
  connected r g id hm := by
    obtain ⟨hg, hrg, ho⟩ := h.connected r g id (hp ▸ hm)
    exact ⟨hc g hg, (hs g hg).1.trans hrg, (hs g hg).2 ho⟩
  disconnected r g reason hm := by
    obtain ⟨hg, hrg, hne⟩ := h.disconnected r g reason (hp ▸ hm)
    exact ⟨hc g hg, (hs g hg).1.trans hrg, hne⟩
  refused r g id r' error hm := by
    rw [hp] at hm ⊢
    exact h.refused r g id r' error hm
  reasons := hr

theorem HostCore.Announced.setState {c : HostCore} (h : c.Announced) {g : Generation}
    {f : ConnectionState → ConnectionState} (hq : ∀ s, (f s).requestId = s.requestId)
    (ho : ∀ s, s.opened = true → (f s).opened = true)
    (hr : ∀ s, s.disconnectReason ≠ some "" → (f s).disconnectReason ≠ some "") :
    (c.setState g f).Announced := by
  refine h.frame rfl (fun _ hk => hk) (fun k _ => ⟨HostCore.setState_same _ hq, fun hk => ?_⟩)
    fun k => ?_
  · simp only [HostCore.setState, modify_apply]
    split
    · rename_i he
      exact ho _ (he ▸ hk)
    · exact hk
  · simp only [HostCore.setState, modify_apply]
    split
    · exact hr _ (h.reasons g)
    · exact h.reasons k

/-- A message is posted. -/
theorem HostCore.Announced.say {c : HostCore} (h : c.Announced) {m : Message}
    (hc : ∀ r g id, m = .connected r g id → c.created g = true ∧ (c.states g).requestId = r ∧
      (c.states g).opened = true ∧ ∀ r' error, .connectError r' g error ∉ c.posted)
    (hd : ∀ r g reason, m = .disconnected r g reason →
      c.created g = true ∧ (c.states g).requestId = r ∧ reason ≠ "")
    (he : ∀ r g error, m = .connectError r g error → ∀ r' id, .connected r' g id ∉ c.posted) :
    (c.say m).Announced where
  connected r g id hm := by
    rcases List.mem_append.mp hm with hm | hm
    · exact h.connected r g id hm
    · obtain ⟨hg, hr, ho, -⟩ := hc r g id (List.mem_singleton.mp hm).symm
      exact ⟨hg, hr, ho⟩
  disconnected r g reason hm := by
    rcases List.mem_append.mp hm with hm | hm
    · exact h.disconnected r g reason hm
    · exact hd r g reason (List.mem_singleton.mp hm).symm
  refused r g id r' error hm hm' := by
    rcases List.mem_append.mp hm with hm | hm <;> rcases List.mem_append.mp hm' with hm' | hm'
    · exact h.refused r g id r' error hm hm'
    · exact he r' g error (List.mem_singleton.mp hm').symm r id hm
    · exact (hc r g id (List.mem_singleton.mp hm).symm).2.2.2 r' error hm'
    · cases (List.mem_singleton.mp hm).trans (List.mem_singleton.mp hm').symm
  reasons := h.reasons

/-- A message that neither opens nor ends a generation. -/
theorem HostCore.Announced.say_other {c : HostCore} (h : c.Announced) {m : Message}
    (hm : ∀ g, m.opens g = false ∧ m.ends g = false) : (c.say m).Announced := by
  refine h.say (fun r g id he => ?_) (fun r g reason he => ?_) fun r g error he => ?_
  · simpa [he, Message.opens] using (hm g).1
  · simpa [he, Message.ends] using (hm g).2
  · simpa [he, Message.ends] using (hm g).2

/-- What `connect` needs to know of the heap. -/
structure HostCore.Ahead (c : HostCore) : Prop where
  port : c.port = .works
  created : ∀ g, c.created g = true → g ≤ c.nextGeneration
  drawn : ∀ m ∈ c.posted, ∀ g, m.generation? = some g → g ≤ c.nextGeneration

theorem HostCore.Wf.ahead {c : HostCore} (h : c.Wf) : c.Ahead := ⟨h.port, h.created, h.drawn⟩

theorem HostCore.Ahead.say {c : HostCore} (h : c.Ahead) {m : Message} {g : Generation}
    (hm : m.generation? = some g) (hg : c.created g = true) : (c.say m).Ahead := by
  refine ⟨h.port, h.created, fun x hx k hk => ?_⟩
  rcases List.mem_append.mp hx with hx | hx
  · exact h.drawn x hx k hk
  · rw [List.mem_singleton.mp hx, hm] at hk
    exact Option.some.inj hk ▸ h.created g hg

theorem HostCore.Announced.connectRest {c : HostCore} (h : c.Announced) (ha : c.Ahead)
    (requestId : String) (replaced : Option Generation) :
    (c.connectRest requestId replaced).Announced := by
  have hlog : HostCore.Announced { c with
      nextGeneration := c.nextGeneration + 1
      log := .started (c.nextGeneration + 1) replaced :: c.log } := { h with }
  unfold HostCore.connectRest
  dsimp only
  split
  · rw [HostCore.post_works (by exact ha.port)]
    refine hlog.say nofun nofun fun r g error he r' id hm => ?_
    obtain ⟨rfl, rfl, rfl⟩ := Message.connectError.inj he
    exact Nat.not_succ_le_self _ (ha.drawn _ hm _ rfl)
  · have hne : ∀ g, c.created g = true → g ≠ c.nextGeneration + 1 := fun g hg he =>
      Nat.not_succ_le_self _ (he ▸ ha.created g hg)
    refine hlog.frame rfl (fun g hg => ?_) (fun g hg => ?_) fun g => ?_
    · simp only [Function.update_apply]
      split
      · rfl
      · exact hg
    · simp only [Function.update_apply, if_neg (hne g hg)]
      exact ⟨trivial, fun ho => ho⟩
    · simp only [Function.update_apply]
      split
      · exact nofun
      · exact h.reasons g

theorem HostCore.Announced.continue {c : HostCore} (h : c.Announced) (ha : c.Ahead)
    (next : Option String) (replaced : Option Generation) :
    (c.continue next replaced).Announced := by
  unfold HostCore.continue
  split
  · exact h
  · exact h.connectRest ha _ _

theorem HostCore.Announced.finish {c : HostCore} (h : c.Announced) (ha : c.Ahead) (g : Generation)
    (reason : String) (notify disconnectSocket : Bool) (next : Option String) :
    (c.finish g reason notify disconnectSocket next).core.Announced := by
  unfold HostCore.finish
  split
  · exact h.continue ha _ _
  · have hset := h.setState (g := g) (f := fun s =>
      { s with finished := true, pendingServerAcknowledgements := .empty })
      (fun _ => rfl) (fun _ ho => ho) fun _ hr => hr
    exact { hset with }

theorem HostCore.Announced.disconnect {c : HostCore} (h : c.Announced) (ha : c.Ahead)
    (g : Generation)
    {reason : String} (hr : reason ≠ "") (notify : Bool) (next : Option String) :
    (c.disconnect g reason notify next).core.Announced := by
  have hset := h.setState (g := g) (f := fun s => { s with disconnectReason := some reason })
    (fun _ => rfl) (fun _ ho => ho) fun _ _ hx => hr (Option.some.inj hx)
  exact hset.finish { ha with } g reason notify true next

theorem HostCore.Announced.withOwner {c : HostCore} (h : c.Announced) (hp : c.port = .works)
    {generation : Generation} {requestId : Option String}
    {f : Generation → Effect HostCore HostInstr} (hf : ∀ g, (f g).core.Announced) :
    (c.withOwner generation requestId f).core.Announced := by
  unfold HostCore.withOwner
  split
  · exact hf _
  · exact h
  · rw [HostCore.reportBridgeError, HostCore.post_works hp]
    exact h.say_other fun _ => ⟨rfl, rfl⟩

/-- What the environment does in a run in which the two agree: posts succeed, an attempt that has
    completed does not fail, and the host is not closed for an empty reason. -/
def HostInstr.Settled (c : HostCore) : HostInstr → Prop
  | .setPort port => port = .works
  | .onConnectError g _ => c.owns g = true → (c.states g).opened = false
  | .close reason => c.active ≠ none → reason ≠ ""
  | _ => True

instance (c : HostCore) : ∀ i : HostInstr, Decidable (i.Settled c)
  | .setPort port => inferInstanceAs (Decidable (port = .works))
  | .onConnectError g _ =>
      inferInstanceAs (Decidable (c.owns g = true → (c.states g).opened = false))
  | .close reason => inferInstanceAs (Decidable (c.active ≠ none → reason ≠ ""))
  | .app .. | .handleMessage .. | .disconnectSocket .. | .notify .. | .emitted .. | .emitFinally ..
  | .arrive .. | .onMessageError | .onConnect .. | .onDisconnect .. | .onAny .. | .acknowledge ..
  | .setFailure .. => .isTrue trivial

/-- Such a step, of a host that nobody but the page sends messages. -/
def HostInstr.Proper (c : HostCore) (i : HostInstr) : Prop :=
  i.Settled c ∧ bridge.outsideRight i = false

/-- A reason that goes with a pending instruction is not empty. -/
def HostInstr.Reasoned : HostInstr → Prop
  | .notify _ reason _ | .onDisconnect _ reason => reason ≠ ""
  | _ => True

theorem hostExec_announced {c : HostCore} {i : HostInstr} (hw : c.Wf) (hok : i.Ok c)
    (hs : i.Settled c) (hr : i.Reasoned) (h : c.Announced) : (hostExec i c).core.Announced := by
  have hp := hw.port
  cases i with
  | handleMessage value =>
      simp only [hostExec, HostCore.handleMessage]
      split
      · exact h
      · split
        · rw [HostCore.reportBridgeError, HostCore.post_works hp]
          exact h.say_other fun _ => ⟨rfl, rfl⟩
        · unfold HostCore.connect
          split
          · exact h.connectRest hw.ahead _ _
          · exact h.disconnect hw.ahead _ (by decide) _ _
        · refine h.withOwner hp fun g => ?_
          have hset := h.setState (g := g) (f := fun s => { s with early := s.early || !s.opened })
            (fun _ => rfl) (fun _ ho => ho) fun _ hr => hr
          unfold HostCore.handleClientEvent
          dsimp only
          split
          · exact { hset with }
          · exact { hset with }
        · refine h.withOwner hp fun g => ?_
          unfold HostCore.runAcknowledgement
          split
          · exact h
          · rename_i ackId _ _ _ _ _
            have hset := h.setState (g := g) (f := fun s => { s with
                pendingServerAcknowledgements := s.pendingServerAcknowledgements.erase ackId })
              (fun _ => rfl) (fun _ ho => ho) fun _ hr => hr
            exact { hset with }
        · rename_i hread
          have hne := (readSharedWorkerPageMessage_wellFormed hread).2.2
          exact h.withOwner hp fun g => h.disconnect hw.ahead g hne _ _
        · exact h
  | notify g reason next =>
      simp only [hostExec, HostCore.post_works hp]
      refine HostCore.Announced.continue ?_ (hw.ahead.say rfl hok.2.2.1) _ _
      refine h.say (fun _ _ _ he => by cases he) (fun r k reason' he => ?_) fun _ _ _ he => by cases he
      obtain ⟨rfl, rfl, rfl⟩ := Message.disconnected.inj he
      exact ⟨hok.2.2.1, rfl, hr⟩
  | emitFinally r =>
      simp only [hostExec]
      split
      · exact h
      · exact { h with }
  | onMessageError =>
      simp only [hostExec]
      split
      · exact h
      · rw [HostCore.reportBridgeError, HostCore.post_works hp]
        exact h.say_other fun _ => ⟨rfl, rfl⟩
  | onConnect g id =>
      have hset := h.setState (g := g) (f := fun s => { s with opened := true })
        (fun _ => rfl) (fun _ _ => rfl) fun _ hr => hr
      have hsame : (c.setState g fun s => { s with opened := true }).owns g = c.owns g :=
        HostCore.owns_setState fun _ => rfl
      simp only [hostExec, HostCore.onConnect]
      split
      · exact hset
      · rename_i hown
        have ha : c.active = some g := by
          rw [hsame] at hown
          exact (HostCore.owns_iff hw).mp (by simpa using hown)
        obtain ⟨hc, hf⟩ := (hw.active g).mp ha
        rw [HostCore.post_works (c := c.setState g _) hp]
        dsimp only
        rw [if_pos rfl]
        refine hset.say (fun r k id' he => ?_) (fun _ _ _ he => by cases he) fun _ _ _ he => by cases he
        obtain ⟨rfl, rfl, rfl⟩ := Message.connected.inj he
        refine ⟨hc, rfl, by simp [HostCore.setState], fun r' error hm => ?_⟩
        rw [hw.ended _ hm _ (decide_eq_true rfl) hc] at hf
        cases hf
  | onConnectError g error =>
      simp only [hostExec, HostCore.onConnectError]
      split
      · exact h
      · rename_i hown
        have hown : c.owns g = true := by simpa using hown
        have hno : (c.states g).opened = false := hs hown
        have ha : c.active = some g := (HostCore.owns_iff hw).mp hown
        rw [HostCore.post_works hp]
        refine HostCore.Announced.finish ?_ (hw.ahead.say rfl ((hw.active g).mp ha).1) _ _ _ _ _
        refine h.say (fun _ _ _ he => by cases he) (fun _ _ _ he => by cases he)
          fun r k error' he r' id hm => ?_
        obtain ⟨rfl, rfl, rfl⟩ := Message.connectError.inj he
        rw [(h.connected _ _ _ hm).2.2] at hno
        cases hno
  | onDisconnect g reason => exact h.finish hw.ahead _ _ _ _ _
  | onAny g event args asksAnswer =>
      simp only [hostExec, HostCore.forwardServerEvent]
      split
      · exact h
      · split
        · have hset := h.setState (g := g) (f := fun s =>
              { s with
                nextAcknowledgement := (c.states g).nextAcknowledgement + 1
                pendingServerAcknowledgements := s.pendingServerAcknowledgements.set
                  (ackName "server" g ((c.states g).nextAcknowledgement + 1)) c.eventCount })
            (fun _ => rfl) (fun _ ho => ho) fun _ hr => hr
          rw [HostCore.post_works (by exact hp), if_pos rfl]
          refine HostCore.Announced.say_other ?_ fun _ => ⟨rfl, rfl⟩
          exact { hset with }
        · rw [HostCore.post_works hp]
          exact h.say_other fun _ => ⟨rfl, rfl⟩
  | acknowledge r args =>
      have hset : (c.setReference r fun x => { x with answered := true, state := none }).Announced :=
        { h with }
      simp only [hostExec, HostCore.acknowledge]
      split
      · exact h
      · split
        · exact hset
        · split
          · exact hset
          · rw [HostCore.post_works (by exact hp)]
            exact hset.say_other fun _ => ⟨rfl, rfl⟩
  | close reason =>
      have hclosed : HostCore.Announced { c with closed := true } := { h with }
      simp only [hostExec, HostCore.close]
      split
      · exact h
      · split
        · exact hclosed
        · rename_i g ha
          have hne : reason ≠ "" := hs (by
            rw [show c.active = some g from ha]
            rintro ⟨⟩)
          exact hclosed.disconnect ⟨hp, hw.created, hw.drawn⟩ g hne _ _
  | _ => exact { h with }

theorem HostInstr.Reasoned.of_finish {c : HostCore} {g : Generation} {reason : String}
    {notify disconnectSocket : Bool} {next : Option String} {j : HostInstr}
    (hj : j ∈ (c.finish g reason notify disconnectSocket next).spawned) (hr : reason ≠ "") :
    j.Reasoned := by
  rcases HostCore.finish_spawned hj with rfl | rfl
  · trivial
  · exact hr

/-- The reasons that come up are constants, those of messages the page's reader has accepted, and
    that of `close`. -/
theorem hostExec_reasoned {c : HostCore} {i j : HostInstr} (hs : i.Settled c) (hr : i.Reasoned)
    (h : c.Announced) (hj : j ∈ (hostExec i c).spawned) : j.Reasoned := by
  cases i with
  | handleMessage value =>
      simp only [hostExec, HostCore.handleMessage] at hj
      split at hj
      · cases hj
      · split at hj
        · cases hj
        · unfold HostCore.connect at hj
          split at hj
          · cases hj
          · exact .of_finish hj (by decide)
        · unfold HostCore.withOwner at hj
          split at hj
          · unfold HostCore.handleClientEvent at hj
            dsimp only at hj
            split at hj
            · rw [List.mem_singleton.mp hj]
              trivial
            · simp only [Effect.spawned, List.append_nil, List.mem_cons, List.not_mem_nil,
                or_false] at hj
              rcases hj with rfl | rfl | rfl <;> trivial
          · cases hj
          · cases hj
        · unfold HostCore.withOwner at hj
          split at hj <;> cases hj
        · rename_i hread
          have hne := (readSharedWorkerPageMessage_wellFormed hread).2.2
          unfold HostCore.withOwner at hj
          split at hj
          · exact .of_finish hj hne
          · cases hj
          · cases hj
        · cases hj
  | disconnectSocket g =>
      simp only [hostExec, HostCore.disconnectSocket, Effect.spawned, List.append_nil] at hj
      split at hj
      · rw [List.mem_singleton.mp hj]
        exact (by decide : "io client disconnect" ≠ "")
      · rw [List.mem_singleton.mp hj]
        trivial
  | arrive value =>
      rw [List.mem_singleton.mp hj]
      trivial
  | onConnect g id =>
      simp only [hostExec, HostCore.onConnect] at hj
      split at hj
      · rw [List.mem_singleton.mp hj]
        trivial
      · split at hj
        · cases hj
        · exact .of_finish hj (by decide)
  | onConnectError g error =>
      simp only [hostExec, HostCore.onConnectError] at hj
      split at hj
      · cases hj
      · exact .of_finish hj (by decide)
  | onDisconnect g reason =>
      refine .of_finish hj ?_
      cases hd : (c.states g).disconnectReason with
      | none => exact hr
      | some r => exact fun he => h.reasons g (hd.trans (congrArg some he))
  | close reason =>
      simp only [hostExec, HostCore.close] at hj
      split at hj
      · cases hj
      · split at hj
        · cases hj
        · rename_i g ha
          refine .of_finish hj (hs fun hn => ?_)
          rw [show c.active = some g from ha] at hn
          cases hn
  | _ => cases hj

/-- **What the host keeps in every run in which the two agree.** -/
theorem host_announces : host.Line (fun c i => i.Proper c) (fun c => c.Wf ∧ c.Announced)
    (fun c i => i.Ok c ∧ i.Reasoned) HostInstr.Before := by
  refine host_line.strengthen (fun c i hs => ?_)
    (fun c i h hr ha => hostExec_announced h.inv h.ok h.good.1 hr ha)
    (fun c i h hr ha j hj => hostExec_reasoned h.good.1 hr ha hj) (fun c i hc => ?_)
    (fun c i is his => ?_) fun c i hi => ?_
  · cases i with
    | setPort port => exact hs.1
    | arrive value => cases hs.2
    | _ => trivial
  · cases i with
    | onDisconnect g reason =>
        simp only [host, hostCallable, Bool.and_eq_true] at hc
        refine fun he => ?_
        rw [he] at hc
        exact absurd hc.2 (by decide)
    | notify g reason next => cases hc
    | _ => trivial
  · cases i <;> cases his
  · cases i with
    | emitFinally r => exact ⟨trivial, rfl⟩
    | _ => cases hi

/-! ## 2. No generation ends unannounced -/

/-- A generation that was announced and has ended, but for `g`, has its terminal message. -/
def HostCore.ToldBut (c : HostCore) (p : Generation → Prop) : Prop :=
  ∀ g, ¬p g → (c.states g).finished = true → (∃ m ∈ c.posted, m.opens g = true) →
    ∃ m ∈ c.posted, m.ends g = true

/-- Every one has. -/
def HostCore.Told (c : HostCore) : Prop := c.ToldBut fun _ => False

/-- What stands on the stack between the end of `g` and its DISCONNECTED. -/
inductive HostCore.Telling (c : HostCore) (g : Generation) : List HostInstr → Prop where
  | disconnectSocket (reason : String) (next : Option String) (h : (c.states g).opened = true) :
      Telling c g [.disconnectSocket g, .notify g reason next]
  | onDisconnect (reason reason' : String) (next : Option String) :
      Telling c g [.onDisconnect g reason', .notify g reason next]
  | notify (reason : String) (next : Option String) : Telling c g [.notify g reason next]

/-- The host is about to say that `g` has ended. -/
def HostCore.Ending (c : HostCore) (l : List HostInstr) : Prop :=
  ∃ g, (c.states g).finished = true ∧ c.ToldBut (· = g) ∧ c.Telling g l

/-- A step after which no more generations are finished and announced. -/
theorem HostCore.ToldBut.mono {c c' : HostCore} {p : Generation → Prop} (h : c.ToldBut p)
    (hp : ∀ m ∈ c.posted, m ∈ c'.posted)
    (hf : ∀ g, ¬p g → (c'.states g).finished = true → (∃ m ∈ c'.posted, m.opens g = true) →
      (c.states g).finished = true ∧ ∃ m ∈ c.posted, m.opens g = true) : c'.ToldBut p := by
  intro g hg hfin ho
  obtain ⟨hfin, ho⟩ := hf g hg hfin ho
  obtain ⟨m, hm, he⟩ := h g hg hfin ho
  exact ⟨m, hp m hm, he⟩

/-- A step that posts nothing and finishes nothing. -/
theorem HostCore.ToldBut.frame {c c' : HostCore} {p : Generation → Prop} (h : c.ToldBut p)
    (hp : c'.posted = c.posted)
    (hf : ∀ g, (c'.states g).finished = true → (c.states g).finished = true) : c'.ToldBut p :=
  h.mono (fun _ hm => hp ▸ hm) fun g _ hfin ho => ⟨hf g hfin, hp ▸ ho⟩

/-- A message is posted that opens no finished generation. -/
theorem HostCore.ToldBut.say {c : HostCore} {p : Generation → Prop} (h : c.ToldBut p) {m : Message}
    (hm : ∀ g, m.opens g = true → (c.states g).finished = false) : (c.say m).ToldBut p := by
  refine h.mono (fun _ hx => List.mem_append_left _ hx) fun g _ hfin ⟨x, hx, hxo⟩ => ⟨hfin, ?_⟩
  rcases List.mem_append.mp hx with hx | hx
  · exact ⟨x, hx, hxo⟩
  · have hfin : (c.states g).finished = true := hfin
    rw [hm g (List.mem_singleton.mp hx ▸ hxo)] at hfin
    cases hfin

theorem HostCore.Told.say {c : HostCore} (h : c.Told) {m : Message} (hm : ∀ g, m.opens g = false) :
    (c.say m).Told :=
  HostCore.ToldBut.say h fun g hg => by
    rw [hm] at hg
    cases hg

theorem HostCore.Told.setState {c : HostCore} (h : c.Told) {g : Generation}
    {f : ConnectionState → ConnectionState} (hf : ∀ s, (f s).finished = s.finished) :
    (c.setState g f).Told :=
  HostCore.ToldBut.frame h rfl fun _ hk =>
    (HostCore.setState_same ConnectionState.finished hf).symm.trans hk

/-- A generation that is drawn is not finished. -/
theorem HostCore.Told.connectRest {c : HostCore} (h : c.Told) (hp : c.port = .works)
    (requestId : String) (replaced : Option Generation) :
    (c.connectRest requestId replaced).Told := by
  have hlog : HostCore.Told { c with
      nextGeneration := c.nextGeneration + 1
      log := .started (c.nextGeneration + 1) replaced :: c.log } := h
  unfold HostCore.connectRest
  dsimp only
  split
  · rw [HostCore.post_works (by exact hp)]
    exact hlog.say fun _ => rfl
  · refine HostCore.ToldBut.frame hlog rfl fun k hk => ?_
    simp only [Function.update_apply] at hk
    split at hk
    · cases hk
    · exact hk

theorem HostCore.Told.continue {c : HostCore} (h : c.Told) (hp : c.port = .works)
    (next : Option String) (replaced : Option Generation) : (c.continue next replaced).Told := by
  unfold HostCore.continue
  split
  · exact h
  · exact h.connectRest hp _ _

/-- Once `g` has its terminal message, it may finish. -/
theorem HostCore.Told.finish_ended {c : HostCore} (h : c.Told) (hp : c.port = .works)
    {g : Generation} (hg : (∃ m ∈ c.posted, m.opens g = true) → ∃ m ∈ c.posted, m.ends g = true)
    (reason : String) (notify disconnectSocket : Bool) (next : Option String) :
    (c.finish g reason notify disconnectSocket next).core.Told := by
  unfold HostCore.finish
  split
  · exact h.continue hp _ _
  · intro k _ hfin ho
    simp only [HostCore.setState, modify_apply] at hfin
    split at hfin
    · rename_i hk
      subst hk
      exact hg ho
    · exact h k id hfin ho

/-- What `exec` of a passage asks for. -/
def Effect.Tells (e : Effect HostCore HostInstr) : Prop :=
  e.core.Told ∨ (e.fails = false ∧ ∃ pre l, e.push = pre ++ l ∧ e.core.Ending pre)

/-- A generation that was announced ends, and its DISCONNECTED is next. -/
theorem HostCore.Told.finish {c : HostCore} (h : c.Told) (hp : c.port = .works) {g : Generation}
    (ho : (∃ m ∈ c.posted, m.opens g = true) → (c.states g).opened = true) (reason : String)
    (disconnectSocket : Bool) (next : Option String) :
    Effect.Tells (c.finish g reason true disconnectSocket next) := by
  by_cases hopen : (c.states g).opened = true
  · by_cases hf : (c.states g).finished = true
    · refine Or.inl ?_
      rw [HostCore.finish, if_pos hf]
      exact h.continue hp _ _
    · have hbut : HostCore.ToldBut
          (c.finish g reason true disconnectSocket next).core (· = g) := by
        rw [HostCore.finish, if_neg hf]
        intro k hk hfin hko
        simp only [HostCore.setState, modify_apply, if_neg hk] at hfin
        exact h k id hfin hko
      have hst : ((c.finish g reason true disconnectSocket next).core.states g).finished = true ∧
          ((c.finish g reason true disconnectSocket next).core.states g).opened = true := by
        rw [HostCore.finish, if_neg hf]
        simp [HostCore.setState, hopen]
      refine Or.inr ⟨by rw [HostCore.finish, if_neg hf],
        (c.finish g reason true disconnectSocket next).push, [], (List.append_nil _).symm,
        g, hst.1, hbut, ?_⟩
      rw [show (c.finish g reason true disconnectSocket next).push =
        (if disconnectSocket then [.disconnectSocket g] else []) ++ [.notify g reason next] by
          rw [HostCore.finish, if_neg hf]; rfl]
      cases disconnectSocket with
      | true => exact .disconnectSocket reason next hst.2
      | false => exact .notify reason next
  · exact Or.inl (h.finish_ended hp (fun hm => absurd (ho hm) hopen) _ _ _ _)

theorem HostCore.Told.disconnect {c : HostCore} (h : c.Told) (hp : c.port = .works) {g : Generation}
    (ho : (∃ m ∈ c.posted, m.opens g = true) → (c.states g).opened = true) (reason : String)
    (next : Option String) : Effect.Tells (c.disconnect g reason true next) := by
  have hset := h.setState (g := g) (f := fun s => { s with disconnectReason := some reason })
    fun _ => rfl
  refine hset.finish hp (fun hm => ?_) reason true next
  simpa [HostCore.setState] using ho hm

theorem HostCore.Announced.opened {c : HostCore} (h : c.Announced) {g : Generation}
    (hm : ∃ m ∈ c.posted, m.opens g = true) : (c.states g).opened = true := by
  obtain ⟨m, hm, ho⟩ := hm
  cases m with
  | connected r k id =>
      obtain rfl := of_decide_eq_true ho
      exact (h.connected r k id hm).2.2
  | _ => cases ho

theorem Effect.Tells.withOwner {c : HostCore} (h : c.Told) (hp : c.port = .works)
    {generation : Generation} {requestId : Option String}
    {f : Generation → Effect HostCore HostInstr} (hf : ∀ g, Effect.Tells (f g)) :
    Effect.Tells (c.withOwner generation requestId f) := by
  unfold HostCore.withOwner
  split
  · exact hf _
  · exact Or.inl h
  · rw [HostCore.reportBridgeError, HostCore.post_works hp]
    exact Or.inl (h.say fun _ => rfl)

theorem hostExec_tells {c : HostCore} {i : HostInstr} (hw : c.Wf) (ha : c.Announced)
    (h : c.Told) : Effect.Tells (hostExec i c) := by
  have hp := hw.port
  cases i with
  | handleMessage value =>
      simp only [hostExec, HostCore.handleMessage]
      split
      · exact Or.inl h
      · split
        · rw [HostCore.reportBridgeError, HostCore.post_works hp]
          exact Or.inl (h.say fun _ => rfl)
        · unfold HostCore.connect
          split
          · exact Or.inl (h.connectRest hp _ _)
          · exact h.disconnect hp ha.opened _ _
        · refine .withOwner h hp fun g => Or.inl ?_
          have hset := h.setState (g := g) (f := fun s => { s with early := s.early || !s.opened })
            fun _ => rfl
          unfold HostCore.handleClientEvent
          dsimp only
          split <;> exact hset
        · refine .withOwner h hp fun g => Or.inl ?_
          unfold HostCore.runAcknowledgement
          split
          · exact h
          · exact h.setState (f := fun s => { s with
              pendingServerAcknowledgements := s.pendingServerAcknowledgements.erase _ }) fun _ => rfl
        · exact .withOwner h hp fun g => h.disconnect hp ha.opened _ _
        · exact Or.inl h
  | notify g reason next =>
      simp only [hostExec, HostCore.post_works hp]
      exact Or.inl (HostCore.Told.continue (h.say fun _ => rfl) hp _ _)
  | emitFinally r =>
      simp only [hostExec]
      split <;> exact Or.inl h
  | onMessageError =>
      simp only [hostExec]
      split
      · exact Or.inl h
      · rw [HostCore.reportBridgeError, HostCore.post_works hp]
        exact Or.inl (h.say fun _ => rfl)
  | onConnect g id =>
      have hset := h.setState (g := g) (f := fun s => { s with opened := true }) fun _ => rfl
      have hsame : (c.setState g fun s => { s with opened := true }).owns g = c.owns g :=
        HostCore.owns_setState fun _ => rfl
      simp only [hostExec, HostCore.onConnect]
      split
      · exact Or.inl hset
      · rename_i hown
        have hf : (c.states g).finished = false := by
          rw [hsame] at hown
          exact ((hw.active g).mp ((HostCore.owns_iff hw).mp (by simpa using hown))).2
        rw [HostCore.post_works (c := c.setState g _) hp]
        dsimp only
        rw [if_pos rfl]
        refine Or.inl (HostCore.ToldBut.say hset fun k hk => ?_)
        obtain rfl := of_decide_eq_true hk
        exact (HostCore.setState_same ConnectionState.finished
          (f := fun s => { s with opened := true }) fun _ => rfl).trans hf
  | onConnectError g error =>
      simp only [hostExec, HostCore.onConnectError]
      split
      · exact Or.inl h
      · rw [HostCore.post_works hp]
        refine Or.inl (HostCore.Told.finish_ended (h.say fun _ => rfl) hp (fun _ => ?_) _ _ _ _)
        exact ⟨_, List.mem_append_right _ (List.mem_singleton_self _), decide_eq_true rfl⟩
  | onDisconnect g reason => exact h.finish hp ha.opened _ _ _
  | onAny g event args asksAnswer =>
      simp only [hostExec, HostCore.forwardServerEvent]
      split
      · exact Or.inl h
      · split
        · have hset := h.setState (g := g) (f := fun s =>
              { s with
                nextAcknowledgement := (c.states g).nextAcknowledgement + 1
                pendingServerAcknowledgements := s.pendingServerAcknowledgements.set
                  (ackName "server" g ((c.states g).nextAcknowledgement + 1)) c.eventCount })
            fun _ => rfl
          rw [HostCore.post_works (by exact hp), if_pos rfl]
          exact Or.inl (hset.say fun _ => rfl)
        · rw [HostCore.post_works hp]
          exact Or.inl (h.say fun _ => rfl)
  | acknowledge r args =>
      have hset : (c.setReference r fun x => { x with answered := true, state := none }).Told := h
      simp only [hostExec, HostCore.acknowledge]
      split
      · exact Or.inl h
      · split
        · exact Or.inl hset
        · split
          · exact Or.inl hset
          · rw [HostCore.post_works (by exact hp)]
            exact Or.inl (hset.say fun _ => rfl)
  | close reason =>
      simp only [hostExec, HostCore.close]
      split
      · exact Or.inl h
      · split
        · exact Or.inl h
        · exact HostCore.Told.disconnect (c := { c with closed := true }) h hp ha.opened _ _
  | _ => exact Or.inl h

/-- **Between the end of an announced generation and its DISCONNECTED no application code runs.** -/
theorem host_tells : host.Passage (fun c i => (c.Wf ∧ c.Announced) ∧ i.Ok c) HostCore.Told
    HostCore.Ending where
  exec _ _ hk h := hostExec_tells hk.1.1 hk.1.2 h
  mid c i pre hk hm := by
    obtain ⟨g, hf, hbut, ht⟩ := hm
    have hp := hk.1.1.port
    cases ht with
    | disconnectSocket reason next ho =>
        refine ⟨rfl, Or.inl ⟨g, hf, hbut, ?_⟩⟩
        rw [show (host.exec (.disconnectSocket g) c).push = [.onDisconnect g "io client disconnect"]
          from if_pos ho]
        exact .onDisconnect _ _ _
    | onDisconnect reason reason' next =>
        have he : host.exec (.onDisconnect g reason') c = { core := c } := if_pos hf
        rw [he]
        exact ⟨rfl, Or.inl ⟨g, hf, hbut, .notify _ _⟩⟩
    | notify reason next =>
        refine ⟨rfl, Or.inr ?_⟩
        simp only [host, hostExec, HostCore.post_works hp]
        refine HostCore.Told.continue (c := c.say _) (fun k _ hfin ho => ?_) hp _ _
        by_cases hkg : k = g
        · exact ⟨_, List.mem_append_right _ (List.mem_singleton_self _), by
            simp [Message.ends, hkg]⟩
        · refine hbut.say (fun x hx => by cases hx) k hkg hfin ho
  inside c i pre hm := by
    obtain ⟨g, -, -, ht⟩ := hm
    cases ht <;> rfl
  run c i hi h := by
    cases i with
    | emitFinally r =>
        simp only [host, hostExec]
        split <;> exact h
    | _ => cases hi
  nonempty c hm := by
    obtain ⟨g, -, -, ht⟩ := hm
    cases ht

/-! ## 3. Both ends -/

/-- A step of a run in which the two agree. -/
def Agreeing (τ : BridgeState) : Turn PageInstr HostInstr → Prop
  | .left _ => True
  | .right a => host.Obeys (fun c i => i.Settled c) τ.right a

instance (τ : BridgeState) (t : Turn PageInstr HostInstr) : Decidable (Agreeing τ t) := by
  unfold Agreeing
  split <;> infer_instance

/-- What holds of both ends in every such run. -/
structure Agreement (σ : BridgeState) : Prop where
  page : Lined PageCore.Wf PageInstr.Ok PageInstr.Before σ.left.core σ.left.pending
  fifo : Fifo PageInstr.receive bridge.outsideLeft PageCore.received
    (σ.right.core.posted.map Message.toValue) σ.left
  host : Lined (fun c => c.Wf ∧ c.Announced) (fun c i => i.Ok c ∧ i.Reasoned) HostInstr.Before
    σ.right.core σ.right.pending
  inside : ∀ j ∈ σ.right.pending, bridge.outsideRight j = false
  passing : Passing HostCore.Told HostCore.Ending σ.right

/-- A message the page has heard is one the host has posted. -/
theorem Agreement.heard {σ : BridgeState} (h : Agreement σ) {m : Message}
    (hm : m ∈ σ.left.core.heard) : m ∈ σ.right.core.posted := by
  obtain ⟨v, hv, hread⟩ := List.mem_filterMap.mp hm
  obtain ⟨waiting, hsent, -⟩ := h.fifo.channel
  have hv : v ∈ σ.right.core.posted.map Message.toValue := hsent ▸ List.mem_append_left _ hv
  obtain ⟨x, hx, rfl⟩ := List.mem_map.mp hv
  cases hr : readSharedWorkerHostMessage x.toValue with
  | error e => simp [hr, Except.toOption] at hread
  | ok y =>
      obtain rfl := readSharedWorkerHostMessage_toValue_eq hr
      simp only [hr, Except.toOption, Option.some.injEq] at hread
      exact hread ▸ hx

/-- The page sends events of a generation only once it has heard its CONNECTED. -/
theorem Agreement.posted {σ : BridgeState} (h : Agreement σ) {c : PageCore}
    (hp : σ.left.core.Posts c) {v : JsValue}
    (hv : v ∈ (bridge.sentLeft c).drop (bridge.sentLeft σ.left.core).length) :
    σ.right.core.Heard v := by
  rcases hp with hp | ⟨m, hp, hread, hlive⟩
  · simp only [bridge, hp] at hv
    rw [List.drop_eq_nil_of_le (by simp)] at hv
    cases hv
  · have hv : v = m.toValue := by simpa [bridge, hp] using hv
    subst hv
    rw [HostCore.Heard, hread]
    cases m with
    | clientEvent g event args ackId =>
        obtain ⟨requestId, id, hx⟩ :=
          h.page.inv.known g (PageCore.live_eq.mp (hlive g rfl)).2.2
        exact ⟨_, h.heard hx, decide_eq_true rfl⟩
    | _ => trivial

theorem Agreement.step {σ σ' : BridgeState} {t : Turn PageInstr HostInstr} (h : Agreement σ)
    (ht : Agreeing σ t) (hs : bridge.step σ t = some σ') : Agreement σ' := by
  rcases Duplex.step_cases hs with ⟨a, τ, rfl, ha, hτ, rfl⟩ | ⟨a, τ, rfl, ha, hτ, rfl⟩
  · exact
      { page := page_line.step h.page (fun _ _ _ _ => trivial) hτ
        fifo := page_takes.own h.fifo ha hτ
        host := h.host.enqueue (fun v hv => ⟨h.posted (page_step_posts hτ) hv, trivial⟩)
          fun _ _ _ => rfl
        inside := fun j hj => by
          rcases List.mem_append.mp hj with hj | hj
          · exact h.inside j (List.mem_append_left _ hj)
          · rcases List.mem_append.mp hj with hj | hj
            · exact h.inside j (List.mem_append_right _ hj)
            · obtain ⟨v, -, rfl⟩ := List.mem_map.mp hj
              rfl
        passing := h.passing }
  · exact
      { page := h.page.enqueue (fun _ _ => trivial) fun _ _ =>
          ⟨fun _ _ hn => (by cases hn), fun _ => rfl⟩
        fifo := h.fifo.other ((sent_step hostExec_appends hτ).map _)
        host := host_announces.step h.host
          (fun hr i π hn => ⟨ht hr i π hn, h.inside i (next_mem hn).1⟩) hτ
        inside := inside_step hostExec_inside (fun _ i _ hi => by cases i <;> cases hi) h.inside ha hτ
        passing := host_tells.step h.passing
          (fun i π hn => ⟨h.host.inv, (h.host.ok i (next_mem hn).1).1⟩) hτ }

theorem agreement {url : String} {auth : JsValue} {lifecycle : Bool} {σ : BridgeState}
    (h : bridge.Reach Agreeing (joined url auth lifecycle) σ) : Agreement σ := by
  induction h with
  | start =>
      exact
        { page := opened_lined url auth lifecycle
          fifo := page_fifo (C := Agreeing) .start
          host := ⟨⟨attached_wf, nofun, nofun, nofun, nofun⟩, fun _ hj => (by cases hj), .nil⟩
          inside := fun _ hj => by cases hj
          passing := Or.inl nofun }
  | step _ ht hs ih => exact ih.step ht hs

/-- The page's reader accepts the message. -/
def Message.legible (m : Message) : Bool := (readSharedWorkerHostMessage m.toValue).toOption.isSome

theorem Message.legible_iff {m : Message} :
    m.legible = true ↔ m.WellFormed ∧ m.fromHost = true := by
  rw [← readSharedWorkerHostMessage_accepts, Message.legible]
  cases hr : readSharedWorkerHostMessage m.toValue with
  | error e => simp [Except.toOption]
  | ok x => simp [Except.toOption, readSharedWorkerHostMessage_toValue_eq hr]

/-- With nothing in flight, what the page has heard is what the host has posted. -/
theorem Agreement.heard_eq {σ : BridgeState} (h : Agreement σ) (hquiet : σ.left.queue = []) :
    σ.left.core.heard = σ.right.core.posted.filter Message.legible := by
  obtain ⟨waiting, hsent, hq⟩ := h.fifo.channel
  obtain rfl : waiting = [] := List.map_eq_nil_iff.mp (hq.symm.trans hquiet)
  have hread : ∀ m : Message,
      (readSharedWorkerHostMessage m.toValue).toOption = Option.guard Message.legible m := by
    intro m
    rw [Option.guard, Message.legible]
    cases hr : readSharedWorkerHostMessage m.toValue with
    | error e => simp [Except.toOption]
    | ok x => simp [Except.toOption, readSharedWorkerHostMessage_toValue_eq hr]
  rw [PageCore.heard, ← List.append_nil σ.left.core.received, ← hsent, List.filterMap_map,
    ← List.filterMap_eq_filter]
  exact congrArg (fun f => List.filterMap f _) (funext hread)

/-- **Page and worker agree on the live generation.** In every run of a page and a host over FIFO
    channels whose posts succeed, in which no completed connection attempt fails late and the host
    is not closed for an empty reason: once the page has heard everything, the generation it is
    connected with, if it is, is the host's active one and is not finished. -/
theorem generations_agree {url : String} {auth : JsValue} {lifecycle : Bool} {σ : BridgeState}
    (h : bridge.Reach Agreeing (joined url auth lifecycle) σ) (hquiet : σ.left.queue = [])
    (hidle : host.inApp σ.right = true) {g : Generation} (hg : σ.left.core.live = some g) :
    σ.right.core.active = some g ∧ (σ.right.core.states g).finished = false := by
  have ha := agreement h
  obtain ⟨hw, hann⟩ := ha.host.inv
  obtain ⟨hconn, -, hgen⟩ := PageCore.live_eq.mp hg
  obtain ⟨r, k, id, pre, post, -, hk, hheard, hno⟩ := ha.page.inv.joined hconn
  obtain rfl : k = g := Option.some.inj (hk.symm.trans hgen)
  have hopen : .connected r k id ∈ σ.right.core.posted :=
    ha.heard (hheard ▸ List.mem_append_right _ List.mem_cons_self)
  obtain ⟨hc, hreq, -⟩ := hann.connected r k id hopen
  have hf : (σ.right.core.states k).finished = false := by
    refine Bool.eq_false_iff.mpr fun hf => ?_
    obtain ⟨m, hm, he⟩ :=
      host_tells.outside ha.passing hidle k not_false hf ⟨_, hopen, decide_eq_true rfl⟩
    cases m with
    | connectError r' k' error =>
        obtain rfl := of_decide_eq_true he
        exact hann.refused _ _ _ _ _ hopen hm
    | disconnected r' k' reason =>
        obtain rfl := of_decide_eq_true he
        obtain ⟨-, hr', hne⟩ := hann.disconnected _ _ _ hm
        obtain rfl : r = r' := hreq.symm.trans hr'
        have hheq := ha.heard_eq hquiet
        have hleg : (Message.connected r k' id).legible = true := by
          have hx : Message.connected r k' id ∈ σ.left.core.heard :=
            hheard ▸ List.mem_append_right _ List.mem_cons_self
          exact (List.mem_filter.mp (hheq ▸ hx)).2
        obtain ⟨⟨hrne, hgen', -⟩, -⟩ := Message.legible_iff.mp hleg
        have hm' : Message.disconnected r k' reason ∈ σ.left.core.heard :=
          hheq ▸ List.mem_filter.mpr ⟨hm, Message.legible_iff.mpr ⟨⟨hrne, hgen', hne⟩, rfl⟩⟩
        have hclosed : Closed σ.left.core.heard := hheq ▸ List.Pairwise.filter _ hw.closed
        rw [hheard] at hm' hclosed
        rcases List.mem_append.mp hm' with hx | hx
        · exact (List.pairwise_append.mp hclosed).2.2 _ hx _ List.mem_cons_self k' he rfl
        · exact (List.mem_cons.mp hx).elim nofun (hno reason)
    | _ => cases he
  exact ⟨(hw.active k).mpr ⟨hc, hf⟩, hf⟩

/-- A page connects and hears of it. -/
theorem generations_agree_connected :
    ∃ σ, bridge.Reach Agreeing (joined "http://h/" (.object []) true) σ ∧
      σ.left.core.live = some 1 ∧ σ.right.core.active = some 1 ∧
      (σ.right.core.states 1).finished = false := by
  obtain ⟨σ, hσ, hp⟩ : ∃ σ, bridge.Reach Agreeing (joined "http://h/" (.object []) true) σ ∧
      (σ.left.queue.isEmpty && host.inApp σ.right && decide (σ.left.core.live = some 1)) = true :=
    Duplex.reach_of_turns Agreeing
      [.left .run, .right .run, .right (.call (.onConnect 1 "a")), .right .run, .left .run]
      (fun σ => σ.left.queue.isEmpty && host.inApp σ.right && decide (σ.left.core.live = some 1))
      (by decide)
  simp only [Bool.and_eq_true, decide_eq_true_eq, List.isEmpty_iff] at hp
  exact ⟨σ, hσ, hp.2, generations_agree hσ hp.1.1 hp.1.2 hp.2⟩

def PageInstr.delivers : PageInstr → Bool
  | .setPort port => decide (port = .works)
  | _ => true

def HostInstr.delivers : HostInstr → Bool
  | .setPort port => decide (port = .works)
  | _ => true

/-- The port of neither end fails. -/
def Delivering (τ : BridgeState) : Turn PageInstr HostInstr → Prop
  | .left a => page.Obeys (fun _ i => i.delivers = true) τ.left a
  | .right a => host.Obeys (fun _ i => i.delivers = true) τ.right a

instance (τ : BridgeState) (t : Turn PageInstr HostInstr) : Decidable (Delivering τ t) := by
  unfold Delivering
  split <;> infer_instance

/-- The middleware of a connection that has been announced calls `next` again, with an error: the
    host ends the generation, and the page, which has heard everything, stays connected with it. -/
theorem generations_disagree :
    ∃ σ, bridge.Reach Delivering (joined "http://h/" (.object []) true) σ ∧
      σ.left.queue = [] ∧ σ.left.stack = [] ∧ σ.right.stack = [] ∧
      σ.left.core.live = some 1 ∧ σ.right.core.active = none := by
  obtain ⟨σ, hσ, hp⟩ : ∃ σ, bridge.Reach Delivering (joined "http://h/" (.object []) true) σ ∧
      (σ.left.queue.isEmpty && σ.left.stack.isEmpty && σ.right.stack.isEmpty &&
        decide (σ.left.core.live = some 1) && decide (σ.right.core.active = none)) = true :=
    Duplex.reach_of_turns Delivering
      [.left .run, .right .run, .right (.call (.onConnect 1 "a")), .right .run,
        .left .run, .left .run, .left .run, .left .ret,
        .right (.call (.onConnectError 1 "too late")), .right .run, .left .run]
      (fun σ => σ.left.queue.isEmpty && σ.left.stack.isEmpty && σ.right.stack.isEmpty &&
        decide (σ.left.core.live = some 1) && decide (σ.right.core.active = none))
      (by decide)
  simp only [Bool.and_eq_true, decide_eq_true_eq, List.isEmpty_iff] at hp
  exact ⟨σ, hσ, hp.1.1.1.1, hp.1.1.1.2, hp.1.1.2, hp.1.2, hp.2⟩

end Smocket.SharedWorker
