import Smocket.Dues
import Smocket.Traces
import Smocket.SharedWorker.PageHeap

/-
  File:      Smocket/SharedWorker/Emissions.lean
  Subject:   WHAT BECOMES OF AN EMISSION of the page: posted at once, or buffered until the
             CONNECTED of a later request flushes the buffer.

  A failing post runs `bridge_error` listeners, in the middle of a flush if it happens there.

  * `PageInstr.makes`, `PageInstr.tries`, `PageInstr.posts` -- the emission an instruction makes,
    the one it hands to the port, and whether the port takes it;
  * `pageExec_cases` -- the inversion: the seven things an instruction does with emissions;
  * **`emissions_posted_in_order`** -- while posting succeeds: posted and buffered make up what was
    emitted, in its order;
  * **`flush_keeps`** -- while no exception leaves a flush: nothing is lost and nothing is posted
    twice; `flush_drops` for an exception that does.
-/

namespace Smocket.SharedWorker

open Ordered EventLoop EventLoop.Machine

/-! ## 1. Emissions, by instruction -/

/-- The message `postEmission` builds. -/
def PageCore.message (c : PageCore) (e : Emission) (g : Generation) : Message :=
  .clientEvent g e.event e.args
    (if e.acknowledge then some (ackName "client" g (c.acknowledgementSequence + 1)) else none)

/-- Whether the page and its port take a message. -/
def PageCore.takes (c : PageCore) (m : Message) : Bool := (c.post m).2.isNone

/-- The emission an instruction makes. -/
def PageInstr.makes (c : PageCore) : PageInstr → Option Emission
  | .emit event args ack =>
      if event ∈ PAGE_RESERVED_EVENTS then none
      else some { id := c.emissionCount, event, args, acknowledge := ack }
  | _ => none

/-- The emission an instruction hands to `postEmission`, and the generation. -/
def PageInstr.tries (c : PageCore) : PageInstr → Option (Emission × Generation)
  | .emit event args ack =>
      ((PageInstr.emit event args ack).makes c).bind fun e => c.live.map fun g => (e, g)
  | .flush (e :: _) g => if c.live = some g then some (e, g) else none
  | _ => none

/-- The emission an instruction posts, and the generation. -/
def PageInstr.posts (c : PageCore) (i : PageInstr) : Option (Emission × Generation) :=
  (i.tries c).filter fun p => c.takes (c.message p.1 p.2)

/-- What an event of the page carries. -/
def Message.emission? : Message → Option (Generation × String × List JsValue)
  | .clientEvent g event args _ => some (g, event, args)
  | _ => none

/-- The emissions that pending flushes hold. -/
def flushing (l : List PageInstr) : List Emission :=
  l.flatMap fun
    | .flush es _ => es
    | _ => []

def madeIn (tr : List (PageCore × PageInstr)) : List Emission := tr.filterMap fun x => x.2.makes x.1

def triedIn (tr : List (PageCore × PageInstr)) : List (Emission × Generation) :=
  tr.filterMap fun x => x.2.tries x.1

def postedIn (tr : List (PageCore × PageInstr)) : List (Emission × Generation) :=
  tr.filterMap fun x => x.2.posts x.1

@[simp] theorem flushing_append (l l' : List PageInstr) :
    flushing (l ++ l') = flushing l ++ flushing l' := List.flatMap_append ..

theorem flushing_cons (i : PageInstr) (l : List PageInstr) :
    flushing (i :: l) = flushing [i] ++ flushing l := flushing_append [i] l

@[simp] theorem flushing_nil : flushing [] = [] := rfl

@[simp] theorem flushing_flush (es : List Emission) (g : Generation) :
    flushing [.flush es g] = es :=
  List.append_nil es

/-- Emissions are not concerned. -/
structure PageCore.Leaves (c c' : PageCore) : Prop where
  buffer : c'.outgoingBuffer = c.outgoingBuffer
  count : c'.emissionCount = c.emissionCount
  live : c'.live = none ∨ c'.live = c.live
  wire : c'.posted.filterMap Message.emission? = c.posted.filterMap Message.emission?
  acks : ∀ ackId n, c'.pendingClientAcknowledgements.get? ackId = some n →
    c.pendingClientAcknowledgements.get? ackId = some n

section Steps

variable {c c' : PageCore} {i : PageInstr}

/-- It is the port that decides, once a message is read. -/
theorem takes_congr (h : c'.port = c.port) (m : Message) : c'.takes m = c.takes m := by
  unfold PageCore.takes PageCore.post
  rw [h]
  split
  · rfl
  · split <;> rfl

theorem post_core (c : PageCore) (m : Message) : ∃ port, (c.post m).1 = { c with
    port, posted := c.posted ++ if c.takes m then [m] else [] } := by
  unfold PageCore.takes PageCore.post
  split
  · exact ⟨c.port, by simp⟩
  · split
    · exact ⟨c.port, by simp⟩
    · exact ⟨_, rfl⟩
    · exact ⟨c.port, by simp⟩

/-- **What `postEmission` does**: the port takes the message, or a `bridge_error` is reported and
    the acknowledgement dropped. -/
theorem postEmission_spec (c : PageCore) (e : Emission) (g : Generation) (rest : List PageInstr) :
    (∃ n acks log port, (c.postEmission e g rest).core = { c with
      acknowledgementSequence := n
      pendingClientAcknowledgements := acks
      log, port
      posted := c.posted ++ if c.takes (c.message e g) then [c.message e g] else [] }) ∧
    (c.postEmission e g rest).fails = false ∧ (c.postEmission e g rest).post = [] ∧
    (if c.takes (c.message e g) then (c.postEmission e g rest).push = rest
      else ∃ error, (c.postEmission e g rest).push = .app (.bridgeError error) ::
        ((if e.acknowledge then
          [.dropAcknowledgement (ackName "client" g (c.acknowledgementSequence + 1))] else []) ++
            rest)) := by
  have hposting : ∀ (c₁ : PageCore) (m : Message) (done failed : List PageInstr),
      c₁.takes m = c.takes m → (c₁.posting m done failed).fails = false ∧
        (c₁.posting m done failed).post = [] ∧
        if c.takes m then (c₁.posting m done failed).push = done
        else ∃ error, (c₁.posting m done failed).push = .app (.bridgeError error) :: failed := by
    intro c₁ m done failed ht
    refine ⟨rfl, rfl, ?_⟩
    rw [← ht]
    unfold PageCore.takes PageCore.posting
    cases (c₁.post m).2 with
    | none => rfl
    | some error => exact ⟨error, rfl⟩
  unfold PageCore.postEmission PageCore.message
  cases he : e.acknowledge with
  | true =>
      have hcongr : PageCore.takes
          { c with
            acknowledgementSequence := c.acknowledgementSequence + 1
            pendingClientAcknowledgements := c.pendingClientAcknowledgements.set
              (ackName "client" g (c.acknowledgementSequence + 1)) e.id
            log := .sent e.id g (ackName "client" g (c.acknowledgementSequence + 1)) :: c.log }
          (.clientEvent g e.event e.args (some (ackName "client" g (c.acknowledgementSequence + 1)))) =
          c.takes (.clientEvent g e.event e.args
            (some (ackName "client" g (c.acknowledgementSequence + 1)))) := by
        apply takes_congr
        rfl
      obtain ⟨port, hcore⟩ := post_core
        { c with
          acknowledgementSequence := c.acknowledgementSequence + 1
          pendingClientAcknowledgements := c.pendingClientAcknowledgements.set
            (ackName "client" g (c.acknowledgementSequence + 1)) e.id
          log := .sent e.id g (ackName "client" g (c.acknowledgementSequence + 1)) :: c.log }
        (.clientEvent g e.event e.args (some (ackName "client" g (c.acknowledgementSequence + 1))))
      rw [hcongr] at hcore
      exact ⟨⟨_, _, _, port, hcore⟩, hposting _ _ _ _ hcongr⟩
  | false =>
      obtain ⟨port, hcore⟩ := post_core c (.clientEvent g e.event e.args none)
      exact ⟨⟨_, _, _, port, hcore⟩, hposting _ _ _ _ rfl⟩

theorem acks_erase (c : PageCore) (k ackId : String) (n : EmissionId)
    (h : (c.pendingClientAcknowledgements.erase k).get? ackId = some n) :
    c.pendingClientAcknowledgements.get? ackId = some n := by
  rw [OMap.get?_erase] at h
  split at h
  · cases h
  · exact h

/-- Only `postEmission` adds to the acknowledgements that wait, and it sees to the release of what
    it adds. -/
theorem postEmission_acks (c : PageCore) (e : Emission) (g : Generation) (rest : List PageInstr)
    {ackId : String} {n : EmissionId}
    (h : (c.postEmission e g rest).core.pendingClientAcknowledgements.get? ackId = some n) :
    c.pendingClientAcknowledgements.get? ackId = some n ∨ (n = e.id ∧
      (c.takes (c.message e g) = true ∨
        .dropAcknowledgement ackId ∈ (c.postEmission e g rest).push)) := by
  obtain ⟨-, -, -, hpush⟩ := postEmission_spec c e g rest
  unfold PageCore.postEmission at h
  split at h
  · rename_i he
    obtain ⟨port, hcore⟩ := post_core
      { c with
        acknowledgementSequence := c.acknowledgementSequence + 1
        pendingClientAcknowledgements := c.pendingClientAcknowledgements.set
          (ackName "client" g (c.acknowledgementSequence + 1)) e.id
        log := .sent e.id g (ackName "client" g (c.acknowledgementSequence + 1)) :: c.log }
      (.clientEvent g e.event e.args (some (ackName "client" g (c.acknowledgementSequence + 1))))
    simp only [PageCore.posting, hcore, OMap.get?_set] at h
    split at h
    · rename_i hk
      refine Or.inr ⟨(Option.some.inj h).symm, ?_⟩
      split at hpush
      · rename_i htakes
        exact Or.inl htakes
      · obtain ⟨error, hpush⟩ := hpush
        refine Or.inr ?_
        rw [hpush, hk]
        simp
    · exact Or.inl h
  · obtain ⟨port, hcore⟩ := post_core c (.clientEvent g e.event e.args none)
    simp only [PageCore.posting, hcore] at h
    exact Or.inl h

theorem PageCore.Leaves.refl (c : PageCore) : c.Leaves c :=
  ⟨rfl, rfl, Or.inr rfl, rfl, fun _ _ h => h⟩

theorem PageCore.Leaves.posting (h : c.Leaves c') {m : Message} (hm : m.emission? = none)
    (done failed : List PageInstr) : c.Leaves (c'.posting m done failed).core := by
  obtain ⟨port, hcore⟩ := post_core c' m
  have hwire : (if c'.takes m then [m] else []).filterMap Message.emission? = [] := by
    split
    · exact List.filterMap_cons_none hm
    · rfl
  simp only [PageCore.posting, hcore]
  refine ⟨h.buffer, h.count, h.live, ?_, h.acks⟩
  rw [List.filterMap_append, hwire, List.append_nil]
  exact h.wire

theorem PageCore.Leaves.disconnect (h : c.Leaves c') : c.Leaves c'.disconnect.core := by
  unfold PageCore.disconnect
  split
  · exact h
  · dsimp only
    split
    · refine PageCore.Leaves.posting ?_ rfl _ _
      exact ⟨h.buffer, h.count, Or.inl rfl, h.wire, nofun⟩
    · exact ⟨h.buffer, h.count, h.live, h.wire, h.acks⟩

/-- An instruction that is not concerned with emissions. -/
structure PageInstr.Quiet (c : PageCore) (i : PageInstr) : Prop where
  makes : i.makes c = none
  tries : i.tries c = none
  holds : flushing [i] = []
  push : flushing (pageExec i c).push = []
  leaves : c.Leaves (pageExec i c).core

theorem flushing_plain {l : List PageInstr} (h : ∀ p ∈ l, p.plain = true) : flushing l = [] := by
  refine List.flatMap_eq_nil_iff.mpr fun p hp => ?_
  have hplain := h p hp
  cases p with
  | flush es g => cases hplain
  | _ => rfl

theorem flushing_posting {m : Message} {done failed : List PageInstr} (hd : flushing done = [])
    (hf : flushing failed = []) : flushing (c.posting m done failed).push = [] := by
  simp only [PageCore.posting]
  split
  · exact hd
  · rw [flushing_cons, hf]
    rfl

/-- `disconnect`, when connected. -/
theorem disconnect_leaves (c : PageCore) (hc : c.connected = true) (hd : c.disconnecting = false)
    (hg : c.generation ≠ none) (hr : c.requestId ≠ none) :
    c.disconnect.core.connected = false ∧ c.disconnect.core.connecting = c.connecting := by
  obtain ⟨g, hg⟩ := Option.ne_none_iff_exists'.mp hg
  obtain ⟨r, hr⟩ := Option.ne_none_iff_exists'.mp hr
  unfold PageCore.disconnect
  rw [if_neg (by simp [hc, hd])]
  dsimp only
  have hc' : c.stopObservingPageHide.connected = true := hc
  have hg' : c.stopObservingPageHide.generation = some g := hg
  have hr' : c.stopObservingPageHide.requestId = some r := hr
  rw [hc', hg', hr']
  obtain ⟨port, hcore⟩ := post_core
    { c.stopObservingPageHide.releaseAcknowledgements with
      disconnecting := true, connected := false, id := none }
    (.disconnect r g "io client disconnect")
  simp only [PageCore.posting, hcore]
  exact ⟨trivial, rfl⟩

/-- A CONNECTED that is heard ends the wait: the buffer is flushed, or the page leaves at once. -/
theorem receiveConnected_cases (c : PageCore) (requestId : String) (g : Generation) (id : String) :
    (c.Leaves (c.receiveConnected requestId g id).core ∧
        flushing (c.receiveConnected requestId g id).push = []) ∨
      (c.connecting = true ∧ c.disconnectAfterConnect = false ∧
        (c.receiveConnected requestId g id).push = [.flush c.outgoingBuffer g, .connected g] ∧
        (c.receiveConnected requestId g id).core = { c with
          generation := some g, id := some id, connected := true, connecting := false
          acknowledgementSequence := 0, outgoingBuffer := [] }) := by
  unfold PageCore.receiveConnected
  split
  · exact Or.inl ⟨.refl c, rfl⟩
  · rename_i hc
    obtain ⟨hrequest, hconnecting⟩ := not_or.mp hc
    dsimp only
    split
    · refine Or.inl ⟨?_, flushing_plain fun p hp => PageCore.disconnect_push hp⟩
      have hgone : ∀ c₁ : PageCore, c₁.connected = true → c₁.generation ≠ none → c₁.requestId ≠ none →
          c₁.disconnect.core.live = none := fun c₁ hcon hgen hreq => by
        by_cases hd : c₁.disconnecting = true
        · unfold PageCore.disconnect
          rw [if_pos (by simp [hd])]
          simp [PageCore.live, hd]
        · have hleft := (disconnect_leaves c₁ hcon (by simpa using hd) hgen hreq).1
          simp [PageCore.live, hleft]
      have hl := PageCore.Leaves.disconnect (PageCore.Leaves.refl
        { c with
          generation := some g, id := some id, connected := true, connecting := false
          acknowledgementSequence := 0, disconnectAfterConnect := false })
      exact ⟨hl.buffer, hl.count, Or.inl (hgone _ rfl nofun (not_not.mp hrequest ▸ nofun)), hl.wire,
        hl.acks⟩
    · rename_i hlater
      exact Or.inr ⟨by simpa using hconnecting, by simpa using hlater, rfl, rfl⟩

/-- What a message makes the page do. -/
theorem hear_cases (c : PageCore) (m : Message) :
    (c.Leaves (c.hear m).core ∧ flushing (c.hear m).push = []) ∨
      ∃ g id, c.connecting = true ∧ c.disconnectAfterConnect = false ∧
        (c.hear m).push = [.flush c.outgoingBuffer g, .connected g] ∧
        (c.hear m).core = { c with
          generation := some g, id := some id, connected := true, connecting := false
          acknowledgementSequence := 0, outgoingBuffer := [] } := by
  cases m with
  | connected requestId g id =>
      exact (receiveConnected_cases c requestId g id).imp_right fun h => ⟨g, id, h⟩
  | bridgeError error requestId generation =>
      simp only [PageCore.hear]
      split <;> exact Or.inl ⟨.refl c, rfl⟩
  | connectError requestId g error =>
      simp only [PageCore.hear]
      split
      · exact Or.inl ⟨.refl c, rfl⟩
      · exact Or.inl ⟨⟨rfl, rfl, Or.inl rfl, rfl, fun _ _ h => h⟩, rfl⟩
  | serverEvent g event args ackId =>
      simp only [PageCore.hear, PageCore.receiveServerEvent]
      split
      · exact Or.inl ⟨.refl c, rfl⟩
      · split <;> exact Or.inl ⟨⟨rfl, rfl, Or.inr rfl, rfl, fun _ _ h => h⟩, rfl⟩
  | acknowledgement g direction ackId args =>
      simp only [PageCore.hear, PageCore.receiveAcknowledgement]
      split
      · exact Or.inl ⟨.refl c, rfl⟩
      · split
        · exact Or.inl ⟨.refl c, rfl⟩
        · exact Or.inl ⟨⟨rfl, rfl, Or.inr rfl, rfl, acks_erase c ackId⟩, rfl⟩
  | disconnected requestId g reason =>
      simp only [PageCore.hear, PageCore.receiveDisconnected]
      split
      · exact Or.inl ⟨.refl c, rfl⟩
      · refine Or.inl ⟨⟨rfl, rfl, Or.inl rfl, rfl, (by intro _ _ h; cases h)⟩, ?_⟩
        dsimp only
        split <;> rfl
  | _ => exact Or.inl ⟨.refl c, rfl⟩

/-- **The seven things an instruction does with emissions**: nothing; an emission is made and
    buffered, or made and tried; a flush tries its next one, or gives back what it holds; a
    CONNECTED starts a flush. -/
theorem pageExec_cases (c : PageCore) (i : PageInstr) :
    i.Quiet c ∨
    (∃ e, i.makes c = some e ∧ e.id = c.emissionCount ∧ flushing [i] = [] ∧ c.live = none ∧
      i.tries c = none ∧ pageExec i c = { core := { c with
        emissionCount := c.emissionCount + 1, outgoingBuffer := c.outgoingBuffer ++ [e] } }) ∨
    (∃ e g, i.makes c = some e ∧ e.id = c.emissionCount ∧ flushing [i] = [] ∧ c.live = some g ∧
      i.tries c = some (e, g) ∧
      pageExec i c = PageCore.postEmission { c with emissionCount := c.emissionCount + 1 } e g []) ∨
    (∃ e es g, i = .flush (e :: es) g ∧ c.live = some g ∧
      pageExec i c = c.postEmission e g [.flush es g]) ∨
    (∃ e es g, i = .flush (e :: es) g ∧ c.live ≠ some g ∧
      pageExec i c = { core := { c with outgoingBuffer := e :: es ++ c.outgoingBuffer } }) ∨
    ∃ value g id, i = .receive value ∧ c.connecting = true ∧ c.disconnectAfterConnect = false ∧
      (pageExec i c).push = [.flush c.outgoingBuffer g, .connected g] ∧
      (pageExec i c).core = { c with
        received := c.received ++ [value], generation := some g, id := some id, connected := true
        connecting := false, acknowledgementSequence := 0, outgoingBuffer := [] } := by
  have hquiet : i.makes c = none → i.tries c = none → flushing [i] = [] →
      flushing (pageExec i c).push = [] → c.Leaves (pageExec i c).core → i.Quiet c :=
    fun h₁ h₂ h₃ h₄ h₅ => ⟨h₁, h₂, h₃, h₄, h₅⟩
  cases i with
  | receive value =>
      have hreads : c.Leaves { c with received := c.received ++ [value] } :=
        ⟨rfl, rfl, Or.inr rfl, rfl, fun _ _ h => h⟩
      simp only [pageExec, PageCore.receive]
      cases hread : readSharedWorkerHostMessage value with
      | error error =>
          refine Or.inl (hquiet rfl rfl rfl ?_ ?_) <;> simp only [pageExec, PageCore.receive, hread]
          · rfl
          · exact hreads
      | ok m =>
          rcases hear_cases { c with received := c.received ++ [value] } m with ⟨hl, hp⟩ |
            ⟨g, id, hc, hd, hpush, hcore⟩
          · refine Or.inl (hquiet rfl rfl rfl ?_ ?_) <;> simp only [pageExec, PageCore.receive, hread]
            · exact hp
            · exact ⟨hl.buffer, hl.count, hl.live, hl.wire, hl.acks⟩
          · exact Or.inr (Or.inr (Or.inr (Or.inr (Or.inr ⟨value, g, id, rfl, hc, hd, hpush, hcore⟩))))
  | flush es g =>
      cases es with
      | nil => exact Or.inl (hquiet rfl rfl rfl rfl (.refl c))
      | cons e es =>
          by_cases hl : c.live = some g
          · refine Or.inr (Or.inr (Or.inr (Or.inl ⟨e, es, g, rfl, hl, ?_⟩)))
            simp only [pageExec, PageCore.flush]
            rw [if_pos hl]
          · refine Or.inr (Or.inr (Or.inr (Or.inr (Or.inl ⟨e, es, g, rfl, hl, ?_⟩))))
            simp only [pageExec, PageCore.flush]
            rw [if_neg hl]
  | emit event args ack =>
      by_cases he : event ∈ PAGE_RESERVED_EVENTS
      · have hmakes : (PageInstr.emit event args ack).makes c = none := by
          simp only [PageInstr.makes, if_pos he]
        have hexec : pageExec (.emit event args ack) c = { core := c, fails := true } := by
          simp only [pageExec, PageCore.queueEmission, if_pos he]
        refine Or.inl (hquiet hmakes ?_ rfl ?_ ?_)
        · simp only [PageInstr.tries, hmakes, Option.bind_none]
        · rw [hexec]
          rfl
        · rw [hexec]
          exact .refl c
      · have hmakes : (PageInstr.emit event args ack).makes c =
            some { id := c.emissionCount, event, args, acknowledge := ack } := by
          simp only [PageInstr.makes, if_neg he]
        have hlive : PageCore.live { c with emissionCount := c.emissionCount + 1 } = c.live := rfl
        cases hl : c.live with
        | none =>
            refine Or.inr (Or.inl ⟨_, hmakes, rfl, rfl, rfl, ?_, ?_⟩)
            · simp only [PageInstr.tries, hmakes, hl, Option.bind_some, Option.map_none]
            · simp only [pageExec, PageCore.queueEmission, if_neg he, hlive, hl]
        | some g =>
            refine Or.inr (Or.inr (Or.inl ⟨_, g, hmakes, rfl, rfl, rfl, ?_, ?_⟩))
            · simp only [PageInstr.tries, hmakes, hl, Option.bind_some, Option.map_some]
            · simp only [pageExec, PageCore.queueEmission, if_neg he, hlive, hl]
  | connect =>
      refine Or.inl (hquiet rfl rfl rfl ?_ ?_) <;> simp only [pageExec, PageCore.connect]
      · split
        · rfl
        · exact flushing_posting rfl rfl
      · split
        · exact .refl c
        · refine PageCore.Leaves.posting ?_ rfl _ _
          exact ⟨rfl, rfl, Or.inl rfl, rfl, (by intro _ _ h; cases h)⟩
  | disconnect =>
      exact Or.inl (hquiet rfl rfl rfl (flushing_plain fun p hp => PageCore.disconnect_push hp)
        (PageCore.Leaves.refl c).disconnect)
  | pageHide =>
      refine Or.inl (hquiet rfl rfl rfl ?_ ?_) <;> simp only [pageExec] <;> split
      · exact flushing_plain fun p hp => PageCore.disconnect_push hp
      · rfl
      · refine PageCore.Leaves.disconnect ?_
        exact ⟨rfl, rfl, Or.inr rfl, rfl, fun _ _ h => h⟩
      · exact .refl c
  | acknowledge r args =>
      refine Or.inl (hquiet rfl rfl rfl ?_ ?_) <;> simp only [pageExec, PageCore.acknowledge]
      · split
        · rfl
        · split
          · rfl
          · exact flushing_posting rfl rfl
      · split
        · exact .refl c
        · split
          · exact ⟨rfl, rfl, Or.inr rfl, rfl, fun _ _ h => h⟩
          · refine PageCore.Leaves.posting ?_ rfl _ _
            exact ⟨rfl, rfl, Or.inr rfl, rfl, fun _ _ h => h⟩
  | connected g =>
      refine Or.inl (hquiet rfl rfl rfl ?_ (.refl c))
      simp only [pageExec]
      split <;> rfl
  | connectFailed =>
      exact Or.inl (hquiet rfl rfl rfl rfl ⟨rfl, rfl, Or.inr rfl, rfl, fun _ _ h => h⟩)
  | dropAcknowledgement ackId =>
      exact Or.inl (hquiet rfl rfl rfl rfl ⟨rfl, rfl, Or.inr rfl, rfl, acks_erase c ackId⟩)
  | setAuth auth =>
      exact Or.inl (hquiet rfl rfl rfl rfl ⟨rfl, rfl, Or.inr rfl, rfl, fun _ _ h => h⟩)
  | setPort port =>
      exact Or.inl (hquiet rfl rfl rfl rfl ⟨rfl, rfl, Or.inr rfl, rfl, fun _ _ h => h⟩)
  | app x => exact Or.inl (hquiet rfl rfl rfl rfl (.refl c))
  | dispatch x => exact Or.inl (hquiet rfl rfl rfl rfl (.refl c))
  | messageError => exact Or.inl (hquiet rfl rfl rfl rfl (.refl c))
  | arrive value => exact Or.inl (hquiet rfl rfl rfl rfl (.refl c))

/-! ## 2. Where emissions wait -/

/-- The emissions that are neither posted nor lost, in the order in which they are posted next. -/
def waiting (σ : PageState) : List Emission := flushing σ.stack ++ σ.core.outgoingBuffer

theorem postEmission_flushing (c : PageCore) (e : Emission) (g : Generation)
    (rest : List PageInstr) :
    flushing (c.postEmission e g rest).push = flushing rest := by
  obtain ⟨-, -, -, hpush⟩ := postEmission_spec c e g rest
  split at hpush
  · rw [hpush]
  · obtain ⟨error, hpush⟩ := hpush
    rw [hpush, flushing_cons, flushing_append]
    split <;> rfl

theorem flushing_eq_nil {l : List PageInstr} : flushing l = [] ↔ ∀ j ∈ l, flushing [j] = [] := by
  refine List.flatMap_eq_nil_iff.trans (forall₂_congr fun j _ => ?_)
  rw [flushing, List.flatMap_singleton]

/-- A pending instruction holds emissions only if nothing behind it does. -/
def Single (l : List PageInstr) : Prop :=
  l.Pairwise fun i j => flushing [i] = [] ∨ flushing [j] = []

theorem Single.rest {k : List PageInstr} (h : Single (i :: k)) :
    flushing [i] = [] ∨ flushing k = [] := by
  by_cases hi : flushing [i] = []
  · exact Or.inl hi
  · exact Or.inr (flushing_eq_nil.mpr fun j hj =>
      ((List.pairwise_cons.mp h).1 j hj).resolve_left hi)

/-- **What an instruction does with what waits**: an emission passes it all, or what is tried is
    taken from the front and what is made goes to the back. A message is only received with nothing
    else pending. -/
theorem exec_waiting (c : PageCore) {k : List PageInstr} (hk : i.receives = true → k = [])
    (h : Single (i :: k)) :
    (∃ e g, i.makes c = some e ∧ i.tries c = some (e, g) ∧ c.live = some g ∧
      flushing ((pageExec i c).push ++ k) ++ (pageExec i c).core.outgoingBuffer =
        flushing (i :: k) ++ c.outgoingBuffer) ∨
    (i.tries c).toList.map Prod.fst ++
        (flushing ((pageExec i c).push ++ k) ++ (pageExec i c).core.outgoingBuffer) =
      flushing (i :: k) ++ c.outgoingBuffer ++ (i.makes c).toList := by
  rcases pageExec_cases c i with hq | ⟨e, hm, -, hi, -, ht, hexec⟩ | ⟨e, g, hm, -, hi, hl, ht, hexec⟩ |
    ⟨e, es, g, rfl, hl, hexec⟩ | ⟨e, es, g, rfl, hl, hexec⟩ |
    ⟨value, g, id, rfl, -, -, hpush, hcore⟩
  · refine Or.inr ?_
    rw [hq.makes, hq.tries, flushing_append, hq.push, flushing_cons, hq.holds, hq.leaves.buffer]
    simp
  · refine Or.inr ?_
    rw [hm, ht, hexec, flushing_cons, hi]
    simp
  · obtain ⟨⟨_, _, _, _, hcore⟩, -⟩ :=
      postEmission_spec { c with emissionCount := c.emissionCount + 1 } e g []
    refine Or.inl ⟨e, g, hm, ht, hl, ?_⟩
    rw [hexec, hcore, flushing_append, postEmission_flushing, flushing_cons i, hi]
    rfl
  · obtain ⟨⟨_, _, _, _, hcore⟩, -⟩ := postEmission_spec c e g [.flush es g]
    have ht : (PageInstr.flush (e :: es) g).tries c = some (e, g) := if_pos hl
    refine Or.inr ?_
    rw [ht, hexec, hcore, flushing_append, postEmission_flushing, flushing_cons (.flush (e :: es) g)]
    simp [PageInstr.makes]
  · have ht : (PageInstr.flush (e :: es) g).tries c = none := if_neg hl
    have hrest : flushing k = [] := h.rest.resolve_left (by simp)
    refine Or.inr ?_
    rw [ht, hexec, flushing_cons (.flush (e :: es) g), hrest]
    simp [PageInstr.makes, hrest]
  · obtain rfl := hk rfl
    refine Or.inr ?_
    rw [hpush, hcore, flushing_cons, List.append_nil, flushing_cons]
    simp [PageInstr.makes, PageInstr.tries, flushing]

/-- Emissions are numbered in the order in which they are made. -/
theorem exec_numbers (c : PageCore) (i : PageInstr) :
    ((i.makes c).toList.map (·.id) = [c.emissionCount] ∧
        (pageExec i c).core.emissionCount = c.emissionCount + 1) ∨
      (i.makes c = none ∧ (pageExec i c).core.emissionCount = c.emissionCount) := by
  rcases pageExec_cases c i with hq | ⟨e, hm, hid, -, -, -, hexec⟩ | ⟨e, g, hm, hid, -, -, -, hexec⟩ |
    ⟨e, es, g, rfl, -, hexec⟩ | ⟨e, es, g, rfl, -, hexec⟩ | ⟨value, g, id, rfl, -, -, -, hcore⟩
  · exact Or.inr ⟨hq.makes, hq.leaves.count⟩
  · refine Or.inl ⟨?_, by rw [hexec]⟩
    rw [hm, ← hid]
    rfl
  · obtain ⟨⟨_, _, _, _, hcore⟩, -⟩ :=
      postEmission_spec { c with emissionCount := c.emissionCount + 1 } e g []
    refine Or.inl ⟨?_, by rw [hexec, hcore]⟩
    rw [hm, ← hid]
    rfl
  · obtain ⟨⟨_, _, _, _, hcore⟩, -⟩ := postEmission_spec c e g [.flush es g]
    exact Or.inr ⟨rfl, by rw [hexec, hcore]⟩
  · exact Or.inr ⟨rfl, by rw [hexec]⟩
  · exact Or.inr ⟨rfl, by rw [hcore]⟩

/-- What an emission looks like on the wire. -/
def wired (p : Emission × Generation) : Generation × String × List JsValue :=
  (p.2, p.1.event, p.1.args)

/-- The events that the port takes are the emissions posted. -/
theorem exec_wire (c : PageCore) (i : PageInstr) :
    (pageExec i c).core.posted.filterMap Message.emission? =
      c.posted.filterMap Message.emission? ++ (i.posts c).toList.map wired := by
  have hpost : ∀ (c₁ : PageCore) (e : Emission) (g : Generation) (rest : List PageInstr),
      i.tries c = some (e, g) → c₁.posted = c.posted → c₁.takes (c₁.message e g) =
        c.takes (c.message e g) → (c₁.postEmission e g rest).core.posted.filterMap Message.emission? =
          c.posted.filterMap Message.emission? ++ (i.posts c).toList.map wired := by
    intro c₁ e g rest ht hp htakes
    obtain ⟨⟨_, _, _, _, hcore⟩, -⟩ := postEmission_spec c₁ e g rest
    rw [hcore, PageInstr.posts, ht, hp, htakes, List.filterMap_append, Option.filter_some]
    cases c.takes (c.message e g) <;> rfl
  have hnone : i.tries c = none → i.posts c = none := fun ht => by rw [PageInstr.posts, ht]; rfl
  rcases pageExec_cases c i with hq | ⟨e, -, -, -, -, ht, hexec⟩ | ⟨e, g, -, -, -, -, ht, hexec⟩ |
    ⟨e, es, g, rfl, hl, hexec⟩ | ⟨e, es, g, rfl, hl, hexec⟩ | ⟨value, g, id, rfl, -, -, -, hcore⟩
  · rw [hq.leaves.wire, hnone hq.tries]
    exact (List.append_nil _).symm
  · rw [hexec, hnone ht]
    exact (List.append_nil _).symm
  · rw [hexec]
    have htakes : PageCore.takes { c with emissionCount := c.emissionCount + 1 } (c.message e g) =
        c.takes (c.message e g) := by
      apply takes_congr
      rfl
    exact hpost _ e g _ ht rfl htakes
  · rw [hexec]
    exact hpost c e g _ (if_pos hl) rfl rfl
  · rw [hexec, hnone (if_neg hl)]
    exact (List.append_nil _).symm
  · rw [hcore, hnone rfl]
    exact (List.append_nil _).symm

theorem exec_acks (c : PageCore) (i : PageInstr) {ackId : String} {n : EmissionId}
    (h : (pageExec i c).core.pendingClientAcknowledgements.get? ackId = some n) :
    (c.pendingClientAcknowledgements.get? ackId = some n ∧ i ≠ .dropAcknowledgement ackId) ∨
      (∃ p, i.posts c = some p ∧ p.1.id = n) ∨
        .dropAcknowledgement ackId ∈ (pageExec i c).push := by
  have hpost : ∀ {c₁ : PageCore} {e : Emission} {g : Generation} {rest : List PageInstr},
      pageExec i c = c₁.postEmission e g rest → i.tries c = some (e, g) →
        c₁.pendingClientAcknowledgements = c.pendingClientAcknowledgements →
          c₁.takes (c₁.message e g) = c.takes (c.message e g) →
            (∀ ackId, i ≠ .dropAcknowledgement ackId) →
              (c.pendingClientAcknowledgements.get? ackId = some n ∧ i ≠ .dropAcknowledgement ackId) ∨
                (∃ p, i.posts c = some p ∧ p.1.id = n) ∨
                  .dropAcknowledgement ackId ∈ (pageExec i c).push := by
    intro c₁ e g rest hexec ht hacks htakes hne
    rw [hexec] at h ⊢
    rcases postEmission_acks c₁ e g rest h with h | ⟨rfl, htaken | hdrop⟩
    · exact Or.inl ⟨hacks ▸ h, hne ackId⟩
    · refine Or.inr (Or.inl ⟨(e, g), ?_, rfl⟩)
      rw [PageInstr.posts, ht, Option.filter_some, if_pos (htakes ▸ htaken)]
    · exact Or.inr (Or.inr hdrop)
  rcases pageExec_cases c i with hq | ⟨e, hm, -, -, -, -, hexec⟩ | ⟨e, g, hm, -, -, -, ht, hexec⟩ |
    ⟨e, es, g, rfl, hl, hexec⟩ | ⟨e, es, g, rfl, hl, hexec⟩ | ⟨value, g, id, rfl, -, -, -, hcore⟩
  · refine Or.inl ⟨hq.leaves.acks ackId n h, fun hi => ?_⟩
    subst hi
    have hgone : (pageExec (.dropAcknowledgement ackId) c).core.pendingClientAcknowledgements.get? ackId
        = none := by simp [pageExec, OMap.get?_erase]
    rw [hgone] at h
    cases h
  · rw [hexec] at h
    refine Or.inl ⟨h, fun hi => ?_⟩
    subst hi
    cases hm
  · refine hpost hexec ht rfl ?_ fun _ hi => ?_
    · apply takes_congr
      rfl
    · subst hi
      cases hm
  · exact hpost hexec (if_pos hl) rfl rfl (by intro _ h; cases h)
  · rw [hexec] at h
    exact Or.inl ⟨h, (by intro h; cases h)⟩
  · rw [hcore] at h
    exact Or.inl ⟨h, (by intro h; cases h)⟩

theorem exec_single (c : PageCore) {k : List PageInstr} (hk : i.receives = true → k = [])
    (h : Single (i :: k)) : Single ((pageExec i c).push ++ k) := by
  have hcross : flushing (pageExec i c).push = [] ∨ flushing k = [] := by
    rcases pageExec_cases c i with hq | ⟨e, -, -, -, -, -, hexec⟩ | ⟨e, g, -, -, -, -, -, hexec⟩ |
      ⟨e, es, g, rfl, -⟩ | ⟨e, es, g, rfl, -⟩ | ⟨value, g, id, rfl, -⟩
    · exact Or.inl hq.push
    · exact Or.inl (by rw [hexec]; rfl)
    · exact Or.inl (by rw [hexec, postEmission_flushing, flushing_nil])
    · exact Or.inr (h.rest.resolve_left (by simp))
    · exact Or.inr (h.rest.resolve_left (by simp))
    · exact Or.inr (by rw [hk rfl, flushing_nil])
  refine List.pairwise_append.mpr ⟨?_, (List.pairwise_cons.mp h).2, fun p hp q hq => ?_⟩
  · exact (pageExec_inner c i).imp fun hplain => hplain.imp
      (fun hp => flushing_plain fun x hx => List.mem_singleton.mp hx ▸ hp)
      (fun hp => flushing_plain fun x hx => List.mem_singleton.mp hx ▸ hp)
  · exact hcross.imp (fun hc => flushing_eq_nil.mp hc p hp) fun hc => flushing_eq_nil.mp hc q hq

theorem exec_push_waits {p : PageInstr} (hp : p ∈ (pageExec i c).push) : p.receives = false := by
  rcases pageExec_push hp with hp | ⟨rfl, -⟩ | ⟨es, g, rfl, -⟩
  · exact (PageInstr.plain_iff hp).2.1
  · rfl
  · rfl

/-- Unwinding changes the acknowledgements that wait, and nothing else. -/
theorem page_keeping : Keeping page fun c c' => ∃ acks, c' = { c with
    pendingClientAcknowledgements := acks } where
  refl c := ⟨c.pendingClientAcknowledgements, rfl⟩
  trans := by
    rintro c _ _ ⟨acks, rfl⟩ ⟨acks', rfl⟩
    exact ⟨acks', rfl⟩
  run c i h := by
    cases i with
    | dropAcknowledgement ackId => exact ⟨_, rfl⟩
    | _ => cases h

theorem page_no_handler (c : PageCore) (i : PageInstr) (is : List PageInstr) :
    page.onThrow c i ≠ .handle is := by
  cases i <;> nofun

/-- An exception that interrupts no flush. -/
theorem unwind_flushing : ∀ (k : List PageInstr) (c : PageCore),
    (∀ j ∈ page.passed c k, flushing [j] = []) → flushing (page.unwind c k).2 = flushing k
  | [], _, _ => rfl
  | i :: k, c, h => by
      rw [passed] at h
      rw [Machine.unwind]
      split at h
      · rename_i happ
        rw [if_pos happ]
      · rename_i happ
        rw [if_neg happ]
        cases ht : page.onThrow c i with
        | skip =>
            rw [ht] at h
            dsimp only at h ⊢
            rw [unwind_flushing k c fun j hj => h j (List.mem_cons_of_mem _ hj), flushing_cons,
              h i List.mem_cons_self]
            rfl
        | run =>
            rw [ht] at h
            dsimp only at h ⊢
            rw [unwind_flushing k _ fun j hj => h j (List.mem_cons_of_mem _ hj), flushing_cons,
              h i List.mem_cons_self]
            rfl
        | handle is => exact absurd ht (page_no_handler c i is)

theorem page_unwind_sublist : ∀ (k : List PageInstr) (c : PageCore), (page.unwind c k).2.Sublist k
  | [], _ => .slnil
  | i :: k, c => by
      rw [Machine.unwind]
      split
      · exact List.Sublist.refl _
      · split
        · exact (page_unwind_sublist k c).cons i
        · exact (page_unwind_sublist k _).cons i
        · rename_i is his
          exact absurd his (page_no_handler c i is)

theorem disconnect_finishes (c : PageCore) : c.disconnect.fails = false := by
  unfold PageCore.disconnect
  split
  · rfl
  · dsimp only
    split <;> rfl

theorem receive_finishes (c : PageCore) (value : JsValue) : (c.receive value).fails = false := by
  simp only [PageCore.receive]
  split
  · rfl
  · rename_i m hread
    cases m with
    | connected requestId g id =>
        simp only [PageCore.hear, PageCore.receiveConnected]
        split
        · rfl
        · split
          · exact disconnect_finishes _
          · rfl
    | bridgeError error requestId generation =>
        simp only [PageCore.hear]
        split <;> rfl
    | connectError requestId g error =>
        simp only [PageCore.hear]
        split <;> rfl
    | serverEvent g event args ackId =>
        simp only [PageCore.hear, PageCore.receiveServerEvent]
        split
        · rfl
        · split <;> rfl
    | acknowledgement g direction ackId args =>
        simp only [PageCore.hear, PageCore.receiveAcknowledgement]
        split
        · rfl
        · split <;> rfl
    | disconnected requestId g reason =>
        simp only [PageCore.hear]
        split <;> rfl
    | _ => rfl

/-- Only the emission of a reserved event throws, and it does nothing else. -/
theorem pageExec_fails {c : PageCore} {i : PageInstr} (h : (pageExec i c).fails = true) :
    (pageExec i c).push = [] := by
  cases i with
  | emit event args ack =>
      simp only [pageExec, PageCore.queueEmission] at h ⊢
      split
      · rfl
      · rename_i he
        rw [if_neg he] at h
        split at h
        · cases h
        · rw [(postEmission_spec ..).2.1] at h
          cases h
  | receive value =>
      rw [show (pageExec (.receive value) c).fails = false from receive_finishes c value] at h
      cases h
  | flush es g =>
      cases es with
      | nil => rfl
      | cons e es =>
          simp only [pageExec, PageCore.flush] at h
          split at h
          · rw [(postEmission_spec ..).2.1] at h
            cases h
          · cases h
  | connect =>
      simp only [pageExec, PageCore.connect] at h
      split at h <;> cases h
  | disconnect =>
      rw [show (pageExec .disconnect c).fails = false from disconnect_finishes c] at h
      cases h
  | pageHide =>
      simp only [pageExec] at h
      split at h
      · rw [disconnect_finishes] at h
        cases h
      · cases h
  | acknowledge r args =>
      simp only [pageExec, PageCore.acknowledge] at h
      split at h
      · cases h
      · split at h <;> cases h
  | _ => cases h

/-- An exception releases the acknowledgement of the emission whose failure it passes. -/
theorem page_unwind_acks {ackId : String} {n : EmissionId} : ∀ (k : List PageInstr) (c : PageCore),
    (page.unwind c k).1.pendingClientAcknowledgements.get? ackId = some n →
      c.pendingClientAcknowledgements.get? ackId = some n ∧
        (.dropAcknowledgement ackId ∈ k → .dropAcknowledgement ackId ∈ (page.unwind c k).2)
  | [], _, h => ⟨h, id⟩
  | i :: k, c, h => by
      rw [Machine.unwind] at h ⊢
      split at h
      · rename_i happ
        rw [if_pos happ]
        exact ⟨h, id⟩
      · rename_i happ
        rw [if_neg happ]
        cases i with
        | dropAcknowledgement ackId' =>
            obtain ⟨hget, hmem⟩ := page_unwind_acks k _ h
            have hne : ackId ≠ ackId' := fun heq => by
              subst heq
              simp [page, pageExec, OMap.get?_erase] at hget
            exact ⟨acks_erase c ackId' ackId n hget, fun hj => hmem
              ((List.mem_cons.mp hj).resolve_left fun hx => hne (PageInstr.dropAcknowledgement.inj hx))⟩
        | app x => exact absurd rfl happ
        | _ =>
            obtain ⟨hget, hmem⟩ := page_unwind_acks k c h
            exact ⟨hget, fun hj => hmem ((List.mem_cons.mp hj).resolve_left (by intro h; cases h))⟩

end Steps

/-! ## 3. Runs -/

/-- No exception leaves `flushOutgoing` while emissions are still to be posted. -/
def Uninterrupted (σ : PageState) (a : Action PageInstr) : Prop :=
  ∀ j ∈ page.dropped σ a, (flushing [j]).isEmpty = true

instance (σ : PageState) (a : Action PageInstr) : Decidable (Uninterrupted σ a) :=
  inferInstanceAs (Decidable (∀ j ∈ page.dropped σ a, (flushing [j]).isEmpty = true))

/-- Messages wait for the running task to end, and at most one flush is on its way. -/
structure Lane (σ : PageState) : Prop where
  stack : ∀ j ∈ σ.stack, j.receives = false
  queue : ∀ j ∈ σ.queue, j.receives = true
  single : Single σ.stack

section Runs

variable {σ σ' τ : PageState} {a : Action PageInstr} {i : PageInstr}

/-- What a step executes, in front of the rest of the stack. -/
theorem Lane.next (h : Lane σ) (hn : page.next σ = some (i, τ)) :
    σ.core = τ.core ∧ Single (i :: τ.stack) ∧ flushing (i :: τ.stack) = flushing σ.stack ∧
      (i.receives = true → τ.stack = []) ∧ (∀ j ∈ τ.stack, j ∈ σ.stack) ∧
      ∀ j ∈ τ.queue, j ∈ σ.queue := by
  obtain ⟨hcore, ⟨-, hst, hq⟩ | ⟨hst, hst', hq⟩⟩ := next_pending hn
  · refine ⟨hcore, hst ▸ h.single, by rw [hst], fun hi => ?_, fun j hj => ?_, fun j hj => ?_⟩
    · rw [h.stack i (hst ▸ List.mem_cons_self)] at hi
      cases hi
    · exact hst ▸ List.mem_cons_of_mem _ hj
    · exact hq ▸ hj
  · have hi := h.queue i (hq ▸ List.mem_cons_self)
    refine ⟨hcore, ?_, ?_, fun _ => hst', fun j hj => ?_, fun j hj => ?_⟩
    · rw [hst']
      exact List.pairwise_singleton _ _
    · rw [hst, hst']
      cases i with
      | receive value => rfl
      | _ => cases hi
    · rw [hst'] at hj
      cases hj
    · exact hq ▸ List.mem_cons_of_mem _ hj

theorem Lane.step (h : Lane σ) (hs : page.step σ a = some σ') : Lane σ' := by
  rcases step_cases hs with ⟨i, τ, rfl, hn, rfl⟩ | ⟨i, rfl, -, hcall, rfl⟩ |
    ⟨i, k, rfl, hst, -, rfl⟩ | ⟨i, k, rfl, hst, -, rfl⟩
  · obtain ⟨-, hsingle, -, hk, hstack, hqueue⟩ := h.next hn
    have hpost : ∀ j ∈ τ.queue ++ (pageExec i τ.core).post, j.receives = true := fun j hj =>
      (List.mem_append.mp hj).elim (fun hj => h.queue j (hqueue j hj)) fun hj => by
        obtain ⟨value, -, rfl⟩ := pageExec_post hj
        rfl
    unfold Machine.execute
    dsimp only
    split
    · have hsub := page_unwind_sublist τ.stack (pageExec i τ.core).core
      exact ⟨fun j hj => h.stack j (hstack j (hsub.subset hj)), hpost,
        (List.pairwise_cons.mp hsingle).2.sublist hsub⟩
    · refine ⟨fun j hj => ?_, hpost, exec_single τ.core hk hsingle⟩
      exact (List.mem_append.mp hj).elim exec_push_waits fun hj => h.stack j (hstack j hj)
  · have hi : i.receives = false ∧ flushing [i] = [] := by
      cases i with
      | receive value => cases hcall
      | flush es g => cases hcall
      | _ => exact ⟨rfl, rfl⟩
    refine ⟨fun j hj => ?_, h.queue, List.pairwise_cons.mpr ⟨fun j _ => Or.inl hi.2, h.single⟩⟩
    exact (List.mem_cons.mp hj).elim (fun hj => hj ▸ hi.1) (h.stack j)
  · refine ⟨fun j hj => h.stack j ?_, h.queue, ?_⟩
    · exact hst ▸ List.mem_cons_of_mem _ hj
    · exact (List.pairwise_cons.mp (hst ▸ h.single)).2
  · have hsub := page_unwind_sublist k σ.core
    refine ⟨fun j hj => h.stack j ?_, h.queue, ?_⟩
    · exact hst ▸ List.mem_cons_of_mem _ (hsub.subset hj)
    · exact (List.pairwise_cons.mp (hst ▸ h.single)).2.sublist hsub

/-- **What an uninterrupted step does with what waits.** -/
theorem Lane.waiting (h : Lane σ) (hc : Uninterrupted σ a) (hs : page.step σ a = some σ') :
    (∃ e g, madeIn (page.taken σ a) = [e] ∧ triedIn (page.taken σ a) = [(e, g)] ∧
      σ.core.live = some g ∧ waiting σ' = waiting σ) ∨
    (triedIn (page.taken σ a)).map Prod.fst ++ waiting σ' =
      waiting σ ++ madeIn (page.taken σ a) := by
  have hdrop : ∀ {c : PageCore} {k : List PageInstr}, (∀ j ∈ page.passed c k, j ∈ page.dropped σ a) →
      flushing (page.unwind c k).2 = flushing k := fun hp =>
    unwind_flushing _ _ fun j hj => List.isEmpty_iff.mp (hc j (hp j hj))
  have hbuffer : ∀ (c : PageCore) (k : List PageInstr),
      (page.unwind c k).1.outgoingBuffer = c.outgoingBuffer := fun c k => by
    obtain ⟨acks, heq⟩ := page_keeping.unwind k c
    rw [heq]
  rcases step_cases hs with ⟨i, τ, rfl, hn, rfl⟩ | ⟨i, rfl, -, hcall, rfl⟩ |
    ⟨i, k, rfl, hst, happ, rfl⟩ | ⟨i, k, rfl, hst, happ, rfl⟩
  · obtain ⟨hcore, hsingle, hfl, hk, -⟩ := h.next hn
    have htaken : page.taken σ .run = [(σ.core, i)] := by simp [taken, hn]
    have hwait : SharedWorker.waiting (page.execute i τ) =
        flushing ((pageExec i σ.core).push ++ τ.stack) ++ (pageExec i σ.core).core.outgoingBuffer := by
      unfold SharedWorker.waiting Machine.execute
      dsimp only
      rw [← hcore]
      split
      · rename_i hf
        rw [hbuffer, pageExec_fails hf, hdrop fun j hj => ?_]
        · rfl
        · simp only [dropped, hn, Option.elim_some, ← hcore, if_pos hf]
          exact hj
      · rfl
    rw [htaken, hwait]
    rcases exec_waiting σ.core hk hsingle with ⟨e, g, hm, ht, hl, hw⟩ | hw
    · refine Or.inl ⟨e, g, ?_, ?_, hl, ?_⟩
      · simp [madeIn, hm]
      · simp [triedIn, ht]
      · rw [hw, hfl]
        rfl
    · refine Or.inr ?_
      rw [hfl] at hw
      have hm : madeIn [(σ.core, i)] = (i.makes σ.core).toList := by
        cases hi : i.makes σ.core <;> simp [madeIn, hi]
      have ht : triedIn [(σ.core, i)] = (i.tries σ.core).toList := by
        cases hi : i.tries σ.core <;> simp [triedIn, hi]
      rw [hm, ht]
      exact hw
  · have hi : flushing [i] = [] := by
      cases i with
      | flush es g => cases hcall
      | _ => rfl
    refine Or.inr ?_
    simp only [SharedWorker.waiting, taken, madeIn, triedIn, List.filterMap_nil, List.map_nil,
      List.nil_append, List.append_nil]
    rw [flushing_cons, hi, List.nil_append]
  · have hi : flushing [i] = [] := by
      cases i with
      | flush es g => cases happ
      | _ => rfl
    refine Or.inr ?_
    simp only [SharedWorker.waiting, taken, madeIn, triedIn, List.filterMap_nil, List.map_nil,
      List.nil_append, List.append_nil]
    rw [hst, flushing_cons i, hi, List.nil_append]
  · have hi : flushing [i] = [] := by
      cases i with
      | flush es g => cases happ
      | _ => rfl
    refine Or.inr ?_
    simp only [SharedWorker.waiting, taken, madeIn, triedIn, List.filterMap_nil, List.map_nil,
      List.nil_append, List.append_nil]
    rw [hst, flushing_cons i, hi, List.nil_append, hbuffer, hdrop fun j hj => ?_]
    simp only [dropped, hst, List.tail_cons]
    exact hj

theorem run_wire {C : PageState → Action PageInstr → Prop} {url : String} {auth : JsValue}
    {lifecycle : Bool} {tr : List (PageCore × PageInstr)}
    (h : page.Run C (opened url auth lifecycle) tr σ) :
    σ.core.posted.filterMap Message.emission? = (postedIn tr).map wired := by
  induction h with
  | start => rfl
  | @step tr σ σ' a hr hc hs ih =>
      have hposted : postedIn (tr ++ page.taken σ a) = postedIn tr ++ postedIn (page.taken σ a) :=
        List.filterMap_append ..
      rw [hposted, List.map_append, ← ih]
      rcases page_keeping.step hs with ⟨i, τ, -, -, ht, acks, hcore⟩ | ⟨ht, acks, hcore⟩
      · have hone : postedIn (page.taken σ a) = (i.posts σ.core).toList := by
          rw [ht]
          cases hi : i.posts σ.core <;> simp [postedIn, hi]
        rw [hcore, hone]
        exact exec_wire σ.core i
      · rw [hcore, ht]
        exact (List.append_nil _).symm

theorem run_numbered {C : PageState → Action PageInstr → Prop} {url : String} {auth : JsValue}
    {lifecycle : Bool} {tr : List (PageCore × PageInstr)}
    (h : page.Run C (opened url auth lifecycle) tr σ) :
    (madeIn tr).map (·.id) = List.range σ.core.emissionCount := by
  induction h with
  | start => rfl
  | @step tr σ σ' a hr hc hs ih =>
      have hmade : madeIn (tr ++ page.taken σ a) = madeIn tr ++ madeIn (page.taken σ a) :=
        List.filterMap_append ..
      rw [hmade, List.map_append, ih]
      rcases page_keeping.step hs with ⟨i, τ, -, -, ht, acks, hcore⟩ | ⟨ht, acks, hcore⟩
      · have hone : madeIn (page.taken σ a) = (i.makes σ.core).toList := by
          rw [ht]
          cases hi : i.makes σ.core <;> simp [madeIn, hi]
        have hcount : σ'.core.emissionCount = (pageExec i σ.core).core.emissionCount := by
          rw [hcore]
          rfl
        rw [hone, hcount]
        rcases exec_numbers σ.core i with ⟨hm, hn⟩ | ⟨hm, hn⟩
        · rw [hm, hn, List.range_succ]
        · rw [hm, hn]
          exact List.append_nil _
      · rw [hcore, ht]
        exact List.append_nil _

theorem run_lane {C : PageState → Action PageInstr → Prop} {url : String} {auth : JsValue}
    {lifecycle : Bool} (h : page.Reach C (opened url auth lifecycle) σ) : Lane σ := by
  induction h with
  | start =>
      exact ⟨fun j hj => by rw [List.mem_singleton.mp hj]; rfl, nofun, List.pairwise_singleton _ _⟩
  | step _ _ hs ih => exact ih.step hs

theorem run_released {C : PageState → Action PageInstr → Prop} {url : String} {auth : JsValue}
    {lifecycle : Bool} {tr : List (PageCore × PageInstr)}
    (h : page.Run C (opened url auth lifecycle) tr σ) : ∀ ackId n,
    σ.core.pendingClientAcknowledgements.get? ackId = some n →
      n ∈ (postedIn tr).map (·.1.id) ∨ .dropAcknowledgement ackId ∈ σ.stack := by
  induction h with
  | start => nofun
  | @step tr σ σ' a hr hc hs ih =>
      intro ackId n hn
      have hposted : postedIn (tr ++ page.taken σ a) = postedIn tr ++ postedIn (page.taken σ a) :=
        List.filterMap_append ..
      have hold : n ∈ (postedIn tr).map (·.1.id) → n ∈ (postedIn (tr ++ page.taken σ a)).map (·.1.id) :=
        fun hmem => by
          rw [hposted, List.map_append]
          exact List.mem_append_left _ hmem
      rcases step_cases hs with ⟨i, τ, rfl, hnext, rfl⟩ | ⟨i, rfl, -, hcall, rfl⟩ |
        ⟨i, k, rfl, hst, happ, rfl⟩ | ⟨i, k, rfl, hst, happ, rfl⟩
      · obtain ⟨hcore, hwhere⟩ := next_pending hnext
        have htaken : page.taken σ .run = [(σ.core, i)] := by simp [taken, hnext]
        have hexec : (pageExec i σ.core).core.pendingClientAcknowledgements.get? ackId = some n ∧
            (.dropAcknowledgement ackId ∈ (pageExec i σ.core).push ++ τ.stack →
              .dropAcknowledgement ackId ∈ (page.execute i τ).stack) := by
          unfold Machine.execute at hn ⊢
          dsimp only at hn ⊢
          rw [← hcore] at hn ⊢
          split at hn
          · rename_i hf
            rw [if_pos hf, pageExec_fails hf]
            exact page_unwind_acks _ _ hn
          · rename_i hf
            rw [if_neg hf]
            exact ⟨hn, id⟩
        rcases exec_acks σ.core i hexec.1 with ⟨hget, hne⟩ | ⟨p, hp, rfl⟩ | hdrop
        · rcases ih ackId n hget with hmem | hmem
          · exact Or.inl (hold hmem)
          · refine Or.inr (hexec.2 (List.mem_append_right _ ?_))
            rcases hwhere with ⟨-, hst, -⟩ | ⟨hst, -⟩
            · rw [hst] at hmem
              exact (List.mem_cons.mp hmem).resolve_left fun heq => hne heq.symm
            · rw [hst] at hmem
              cases hmem
        · refine Or.inl ?_
          rw [hposted, htaken]
          exact List.mem_map_of_mem (List.mem_append_right _ (by simp [postedIn, hp]))
        · exact Or.inr (hexec.2 (List.mem_append_left _ hdrop))
      · exact (ih ackId n hn).imp hold (List.mem_cons_of_mem i)
      · refine (ih ackId n hn).imp hold fun hmem => ?_
        rw [hst] at hmem
        refine (List.mem_cons.mp hmem).resolve_left fun heq => ?_
        rw [← heq] at happ
        cases happ
      · obtain ⟨hget, hkeep⟩ := page_unwind_acks k σ.core hn
        refine (ih ackId n hget).imp hold fun hmem => hkeep ?_
        rw [hst] at hmem
        refine (List.mem_cons.mp hmem).resolve_left fun heq => ?_
        rw [← heq] at happ
        cases happ

end Runs

/-! ## 4. Failing flushes -/

/-- **Nothing is lost and nothing is repeated**: an emission was tried once, in the generation live
    at that moment, or it waits in its place; the acknowledgement of one that could not be posted is
    released. -/
structure Kept (tr : List (PageCore × PageInstr)) (σ : PageState) : Prop where
  accounted : ((triedIn tr).map Prod.fst ++ waiting σ).Perm (madeIn tr)
  once : (((triedIn tr).map Prod.fst ++ waiting σ).map (·.id)).Nodup
  rising : ((waiting σ).map (·.id)).Pairwise (· < ·)
  live : ∀ x ∈ tr, ∀ p, x.2.tries x.1 = some p → x.1.live = some p.2
  wire : σ.core.posted.filterMap Message.emission? = (postedIn tr).map wired
  released : ∀ ackId n, σ.core.pendingClientAcknowledgements.get? ackId = some n →
    n ∈ (postedIn tr).map (·.1.id) ∨ .dropAcknowledgement ackId ∈ σ.stack

theorem tries_live {c : PageCore} {i : PageInstr} {p : Emission × Generation}
    (h : i.tries c = some p) : c.live = some p.2 := by
  cases i with
  | emit event args ack =>
      obtain ⟨e, -, he⟩ := Option.bind_eq_some_iff.mp h
      obtain ⟨g, hg, rfl⟩ := Option.map_eq_some_iff.mp he
      exact hg
  | flush es g =>
      cases es with
      | nil => cases h
      | cons e es =>
          simp only [PageInstr.tries] at h
          split at h
          · rename_i hl
            exact Option.some.inj h ▸ hl
          · cases h
  | _ => cases h

section Failing

variable {url : String} {auth : JsValue} {lifecycle : Bool} {tr : List (PageCore × PageInstr)}
  {σ : PageState}

theorem run_accounts (h : page.Run Uninterrupted (opened url auth lifecycle) tr σ) :
    ((triedIn tr).map Prod.fst ++ waiting σ).Perm (madeIn tr) ∧
      ((waiting σ).map (·.id)).Pairwise (· < ·) := by
  induction h with
  | start => exact ⟨List.Perm.refl _, List.Pairwise.nil⟩
  | @step tr σ σ' a hr hc hs ih =>
      obtain ⟨hperm, hrising⟩ := ih
      have hmade : madeIn (tr ++ page.taken σ a) = madeIn tr ++ madeIn (page.taken σ a) :=
        List.filterMap_append ..
      have htried : triedIn (tr ++ page.taken σ a) = triedIn tr ++ triedIn (page.taken σ a) :=
        List.filterMap_append ..
      have hnumbers := run_numbered (hr.step hc hs)
      rw [hmade, List.map_append] at hnumbers
      rw [hmade, htried, List.map_append]
      rcases (run_lane hr.reach).waiting hc hs with ⟨e, g, hm, ht, -, hw⟩ | hw
      · rw [hm, ht, hw]
        refine ⟨?_, hrising⟩
        have hswap : ((triedIn tr).map Prod.fst ++ [e] ++ waiting σ).Perm
            ((triedIn tr).map Prod.fst ++ waiting σ ++ [e]) := by
          rw [List.append_assoc, List.append_assoc]
          exact List.perm_append_comm.append_left _
        exact hswap.trans (hperm.append_right _)
      · rw [List.append_assoc, hw, ← List.append_assoc]
        refine ⟨hperm.append_right _, ?_⟩
        -- what is made comes after all that waits
        have hrange : (((madeIn tr).map (·.id)) ++ (madeIn (page.taken σ a)).map (·.id)).Pairwise
            (· < ·) := by
          rw [hnumbers]
          exact List.pairwise_lt_range
        have hall : ((waiting σ ++ madeIn (page.taken σ a)).map (·.id)).Pairwise (· < ·) := by
          obtain ⟨-, hnew, hbelow⟩ := List.pairwise_append.mp hrange
          rw [List.map_append]
          refine List.pairwise_append.mpr ⟨hrising, hnew, fun n hn m hm => hbelow n ?_ m hm⟩
          obtain ⟨e, he, rfl⟩ := List.mem_map.mp hn
          exact List.mem_map_of_mem (hperm.subset (List.mem_append_right _ he))
        rw [← hw, List.map_append] at hall
        exact (List.pairwise_append.mp hall).2.1

/-- **A failing flush keeps the rest**, in every run in which no exception leaves a flush with
    emissions still to be posted: wherever posting fails, and whatever `bridge_error` listeners
    do. -/
theorem flush_keeps (h : page.Run Uninterrupted (opened url auth lifecycle) tr σ) : Kept tr σ where
  accounted := (run_accounts h).1
  once := by
    have hnodup : ((madeIn tr).map (·.id)).Nodup := by
      rw [run_numbered h]
      exact List.nodup_range
    exact (((run_accounts h).1.map _).nodup_iff).mpr hnodup
  rising := (run_accounts h).2
  live _ _ _ := tries_live
  wire := run_wire h
  released := run_released h

end Failing

/-- The port fails for the first of two buffered emissions, and its listener returns: the second is
    posted. -/
theorem flush_keeps_second : ∃ tr σ,
    page.Run Uninterrupted (opened "http://h/" (.object []) false) tr σ ∧
      ((triedIn tr).length = 2 ∧ (postedIn tr).length = 1 ∧ (waiting σ).length = 0) ∧ Kept tr σ := by
  obtain ⟨tr, σ, hr, hp⟩ :=
    run_of_script page Uninterrupted (opened "http://h/" (.object []) false) 100
    [.call (.emit "a" [] true), .call (.emit "b" [] true), .call (.setPort (.takes 0 "closed")),
      .call (.arrive (Message.connected "connect:1" 1 "id").toValue), .run,
      .call (.setPort .works), .ret, .ret]
    (fun r => decide ((triedIn r.1).length = 2 ∧ (postedIn r.1).length = 1 ∧ (waiting r.2).length = 0))
    (by decide)
  exact ⟨tr, σ, hr, of_decide_eq_true hp, flush_keeps hr⟩

/-- The port fails for the first of two buffered emissions, and its listener throws: the second is
    neither posted nor buffered. -/
theorem flush_drops : ∃ tr σ,
    page.Run (fun _ _ => True) (opened "http://h/" (.object []) false) tr σ ∧ σ.stack = [] ∧
      ∃ e ∈ madeIn tr, e.id = 1 ∧ e.id ∉ (triedIn tr).map (·.1.id) ∧
        e.id ∉ σ.core.outgoingBuffer.map (·.id) := by
  obtain ⟨tr, σ, hr, hp⟩ := run_of_script page (fun _ _ => True)
    (opened "http://h/" (.object []) false) 100
    [.call (.emit "a" [] false), .call (.emit "b" [] false), .call (.setPort (.takes 0 "closed")),
      .call (.arrive (Message.connected "connect:1" 1 "id").toValue), .run, .throw]
    (fun r => decide (r.2.stack.isEmpty = true ∧ ∃ e ∈ madeIn r.1, e.id = 1 ∧
      e.id ∉ (triedIn r.1).map (·.1.id) ∧ e.id ∉ r.2.core.outgoingBuffer.map (·.id)))
    (by decide)
  obtain ⟨hst, hlost⟩ := of_decide_eq_true hp
  exact ⟨tr, σ, hr, List.isEmpty_iff.mp hst, hlost⟩

/-! ## 5. While posting succeeds -/

/-- Every emission that is handed to the port is taken. -/
def Posting (σ : PageState) (a : Action PageInstr) : Prop :=
  ∀ x ∈ page.taken σ a, ∀ p ∈ x.2.tries x.1, x.1.takes (x.1.message p.1 p.2) = true

instance (σ : PageState) (a : Action PageInstr) : Decidable (Posting σ a) :=
  inferInstanceAs (Decidable (∀ x ∈ page.taken σ a, ∀ p ∈ x.2.tries x.1,
    x.1.takes (x.1.message p.1 p.2) = true))

/-- A page that is connecting is not leaving. -/
def PageCore.Arriving (c : PageCore) : Prop :=
  c.connecting = true → c.connected = false ∧ c.disconnecting = false

/-- While the page is live nothing is buffered. -/
structure PageCore.Steady (c : PageCore) : Prop where
  arriving : c.Arriving
  direct : c.live ≠ none → c.outgoingBuffer = []

/-- A flush is never interrupted: it is at the top of the stack, and the page is live. -/
structure Prompt (σ : PageState) : Prop where
  steady : σ.core.Steady
  tail : flushing σ.stack.tail = []
  head : ∀ e es g, σ.stack.head? = some (.flush (e :: es) g) → σ.core.live = some g

section Prompt

variable {c : PageCore} {i : PageInstr}

/-- What an instruction finds that executes: nothing behind it is to be flushed. -/
structure Fronted (c : PageCore) (i : PageInstr) : Prop where
  steady : c.Steady
  head : ∀ e es g, i = .flush (e :: es) g → c.live = some g
  taken : ∀ p, i.tries c = some p → c.takes (c.message p.1 p.2) = true

theorem PageCore.Arriving.posting (h : c.Arriving) (m : Message) (done failed : List PageInstr) :
    (c.posting m done failed).core.Arriving := by
  obtain ⟨port, hcore⟩ := post_core c m
  simp only [PageCore.posting, hcore]
  exact h

theorem PageCore.Arriving.disconnect (h : c.Arriving) : c.disconnect.core.Arriving := by
  unfold PageCore.disconnect
  split
  · exact h
  · dsimp only
    split
    · rename_i hc hg hr
      refine PageCore.Arriving.posting (fun hconnecting => ?_) _ _ _
      have hfalse : c.stopObservingPageHide.connected = false := (h hconnecting).1
      rw [hfalse] at hc
      cases hc
    · exact h

theorem PageCore.Arriving.postEmission (h : c.Arriving) (e : Emission) (g : Generation)
    (rest : List PageInstr) : (c.postEmission e g rest).core.Arriving := by
  obtain ⟨⟨_, _, _, _, hcore⟩, -⟩ := postEmission_spec c e g rest
  rw [hcore]
  exact h

theorem PageCore.Arriving.hear (h : c.Arriving) (m : Message) : (c.hear m).core.Arriving := by
  cases m with
  | connected requestId g id =>
      simp only [PageCore.hear, PageCore.receiveConnected]
      split
      · exact h
      · split
        · exact PageCore.Arriving.disconnect (by intro h; cases h)
        · intro h
          cases h
  | bridgeError error requestId generation =>
      simp only [PageCore.hear]
      split <;> exact h
  | connectError requestId g error =>
      simp only [PageCore.hear]
      split
      · exact h
      · intro h
        cases h
  | serverEvent g event args ackId =>
      simp only [PageCore.hear, PageCore.receiveServerEvent]
      split
      · exact h
      · split <;> exact h
  | acknowledgement g direction ackId args =>
      simp only [PageCore.hear, PageCore.receiveAcknowledgement]
      split
      · exact h
      · split <;> exact h
  | disconnected requestId g reason =>
      simp only [PageCore.hear, PageCore.receiveDisconnected]
      split
      · exact h
      · intro h
        cases h
  | _ => exact h

theorem exec_arriving (h : c.Arriving) : (pageExec i c).core.Arriving := by
  cases i with
  | receive value =>
      simp only [pageExec, PageCore.receive]
      split
      · exact h
      · refine PageCore.Arriving.hear ?_ _
        exact h
  | connectFailed =>
      intro h
      cases h
  | flush es g =>
      cases es with
      | nil => exact h
      | cons e es =>
          simp only [pageExec, PageCore.flush]
          split
          · exact h.postEmission e g _
          · exact h
  | connect =>
      simp only [pageExec, PageCore.connect]
      split
      · exact h
      · exact PageCore.Arriving.posting (fun _ => ⟨rfl, rfl⟩) _ _ _
  | disconnect => exact h.disconnect
  | pageHide =>
      simp only [pageExec]
      split
      · refine PageCore.Arriving.disconnect ?_
        exact h
      · exact h
  | emit event args ack =>
      simp only [pageExec, PageCore.queueEmission]
      split
      · exact h
      · split
        · exact h
        · refine PageCore.Arriving.postEmission ?_ _ _ _
          exact h
  | acknowledge r args =>
      simp only [pageExec, PageCore.acknowledge]
      split
      · exact h
      · split
        · exact h
        · refine PageCore.Arriving.posting ?_ _ _ _
          exact h
  | _ => exact h

/-- What is tried is posted at once, with the rest of the flush next. -/
theorem postEmission_taken {c : PageCore} {e : Emission} {g : Generation} {rest : List PageInstr}
    (h : c.takes (c.message e g) = true) : (c.postEmission e g rest).push = rest := by
  obtain ⟨-, -, -, hpush⟩ := postEmission_spec c e g rest
  rwa [if_pos h] at hpush

theorem Fronted.exec (h : Fronted c i) :
    (pageExec i c).core.Steady ∧ flushing (pageExec i c).push.tail = [] ∧
      ∀ e es g, (pageExec i c).push.head? = some (.flush (e :: es) g) →
        (pageExec i c).core.live = some g := by
  have harriving := exec_arriving (i := i) h.steady.arriving
  rcases pageExec_cases c i with hq | ⟨e, -, -, -, hl, -, hexec⟩ | ⟨e, g, -, -, -, hl, ht, hexec⟩ |
    ⟨e, es, g, rfl, hl, hexec⟩ | ⟨e, es, g, rfl, hl, hexec⟩ | ⟨value, g, id, rfl, hc, hd, hpush, hcore⟩
  · have hnone := flushing_eq_nil.mp hq.push
    refine ⟨⟨harriving, fun hl => ?_⟩, ?_, fun e es g hhead => ?_⟩
    · rw [hq.leaves.buffer]
      exact h.steady.direct fun hnone => hl (hq.leaves.live.elim id fun heq => heq.trans hnone)
    · exact flushing_eq_nil.mpr fun j hj => hnone j (List.mem_of_mem_tail hj)
    · have hx := hnone _ (List.mem_of_mem_head? hhead)
      rw [flushing_flush] at hx
      cases hx
  · rw [hexec] at harriving ⊢
    exact ⟨⟨harriving, fun hlive => absurd hl hlive⟩, rfl, nofun⟩
  · have htaken : PageCore.takes { c with emissionCount := c.emissionCount + 1 }
        (PageCore.message { c with emissionCount := c.emissionCount + 1 } e g) = true := by
      rw [← h.taken _ ht]
      apply takes_congr
      rfl
    obtain ⟨⟨_, _, _, _, hcore⟩, -⟩ :=
      postEmission_spec { c with emissionCount := c.emissionCount + 1 } e g []
    rw [hexec] at harriving ⊢
    rw [postEmission_taken htaken]
    refine ⟨⟨harriving, fun _ => ?_⟩, rfl, nofun⟩
    rw [hcore]
    exact h.steady.direct (by rw [hl]; nofun)
  · obtain ⟨⟨_, _, _, _, hcore⟩, -⟩ := postEmission_spec c e g [.flush es g]
    have htaken := h.taken (e, g) (if_pos hl)
    rw [hexec] at harriving ⊢
    rw [postEmission_taken htaken]
    refine ⟨⟨harriving, fun _ => ?_⟩, rfl, fun e' es' g' hhead => ?_⟩
    · rw [hcore]
      exact h.steady.direct (by rw [hl]; nofun)
    · rw [hcore, ← (PageInstr.flush.inj (Option.some.inj hhead)).2]
      exact hl
  · exact absurd (h.head e es g rfl) hl
  · obtain ⟨-, hdisconnecting⟩ := h.steady.arriving hc
    rw [hpush]
    refine ⟨⟨harriving, fun _ => by rw [hcore]⟩, rfl, fun e es g' hhead => ?_⟩
    rw [hcore, ← (PageInstr.flush.inj (Option.some.inj hhead)).2]
    simp [PageCore.live, hdisconnecting]

theorem PageCore.Steady.acks (h : c.Steady) (acks : OMap String EmissionId) :
    PageCore.Steady { c with pendingClientAcknowledgements := acks } := ⟨h.arriving, h.direct⟩

theorem flushing_sublist {l l' : List PageInstr} (hsub : l'.Sublist l) (h : flushing l = []) :
    flushing l' = [] := flushing_eq_nil.mpr fun j hj => flushing_eq_nil.mp h j (hsub.subset hj)

/-- Nothing pending is to be flushed. -/
theorem Prompt.of_idle {σ : PageState} (hs : σ.core.Steady) (h : flushing σ.stack = []) :
    Prompt σ where
  steady := hs
  tail := flushing_sublist (List.tail_sublist _) h
  head e es g hhead := by
    have hx := flushing_eq_nil.mp h _ (List.mem_of_mem_head? hhead)
    rw [flushing_flush] at hx
    cases hx

variable {σ σ' : PageState} {a : Action PageInstr}

/-- While application code runs, no flush is on its way. -/
theorem Prompt.settled (h : Prompt σ) (happ : page.inApp σ = true) : flushing σ.stack = [] := by
  unfold Machine.inApp at happ
  split at happ
  · rename_i hst
    rw [hst]
    rfl
  · rename_i i k hst
    have hi : flushing [i] = [] := by
      cases i with
      | flush es g => cases happ
      | _ => rfl
    have htail := h.tail
    rw [hst, List.tail_cons] at htail
    rw [hst, flushing_cons, hi, htail]
    rfl

theorem Prompt.fronted (h : Prompt σ) (hl : Lane σ) {τ : PageState}
    (hn : page.next σ = some (i, τ)) (hc : Posting σ .run) :
    Fronted σ.core i ∧ flushing τ.stack = [] := by
  have htaken : page.taken σ .run = [(σ.core, i)] := by simp [Machine.taken, hn]
  have hposts : ∀ p, i.tries σ.core = some p → σ.core.takes (σ.core.message p.1 p.2) = true :=
    fun p hp => hc (σ.core, i) (htaken ▸ List.mem_singleton_self _) p hp
  obtain ⟨-, ⟨-, hst, -⟩ | ⟨hst, hst', hq⟩⟩ := next_pending hn
  · refine ⟨⟨h.steady, fun e es g hi => h.head e es g ?_, hposts⟩, ?_⟩
    · rw [hst, hi]
      rfl
    · have htail := h.tail
      rwa [hst, List.tail_cons] at htail
  · refine ⟨⟨h.steady, fun e es g hi => ?_, hposts⟩, ?_⟩
    · have hreceives := hl.queue i (hq ▸ List.mem_cons_self)
      rw [hi] at hreceives
      cases hreceives
    · rw [hst']
      rfl

/-- An exception passes no flush. -/
theorem Prompt.uninterrupted (h : Prompt σ) (hl : Lane σ) (hc : Posting σ a) :
    Uninterrupted σ a := by
  intro j hj
  refine List.isEmpty_iff.mpr ?_
  cases a with
  | run =>
      cases hn : page.next σ with
      | none =>
          rw [dropped, hn] at hj
          cases hj
      | some x =>
          obtain ⟨-, hrest⟩ := h.fronted hl hn hc
          rw [dropped, hn, Option.elim_some] at hj
          dsimp only at hj
          split at hj
          · exact flushing_eq_nil.mp hrest j (passed_mem _ _ hj)
          · cases hj
  | throw => exact flushing_eq_nil.mp h.tail j (passed_mem _ _ hj)
  | call i => cases hj
  | ret => cases hj

theorem Prompt.step (h : Prompt σ) (hl : Lane σ) (hc : Posting σ a)
    (hs : page.step σ a = some σ') : Prompt σ' := by
  rcases step_cases hs with ⟨i, τ, rfl, hn, rfl⟩ | ⟨i, rfl, happ, hcall, rfl⟩ |
    ⟨i, k, rfl, hst, happ, rfl⟩ | ⟨i, k, rfl, hst, happ, rfl⟩
  · obtain ⟨hfront, hrest⟩ := h.fronted hl hn hc
    obtain ⟨hsteady, htail, hhead⟩ := hfront.exec
    have hcore := (next_pending hn).1
    unfold Machine.execute
    dsimp only
    rw [← hcore]
    split
    · obtain ⟨acks, heq⟩ := page_keeping.unwind τ.stack (pageExec i σ.core).core
      refine .of_idle ?_ (flushing_sublist (page_unwind_sublist _ _) hrest)
      dsimp only
      exact heq ▸ hsteady.acks acks
    · have hexec : (page.exec i σ.core).push = (pageExec i σ.core).push := rfl
      cases hp : (pageExec i σ.core).push with
      | nil =>
          refine .of_idle hsteady ?_
          rw [hexec, hp]
          exact hrest
      | cons p ps =>
          rw [hp] at htail hhead
          refine ⟨hsteady, ?_, fun e es g hh => hhead e es g ?_⟩
          · rw [hexec, hp, List.cons_append, List.tail_cons, flushing_append, hrest]
            rw [List.tail_cons] at htail
            rw [htail]
            rfl
          · rw [hexec, hp] at hh
            exact hh
  · have hi : flushing [i] = [] := by
      cases i with
      | flush es g => cases hcall
      | _ => rfl
    refine .of_idle h.steady ?_
    rw [flushing_cons, hi, h.settled happ]
    rfl
  · refine .of_idle h.steady ?_
    have htail := h.tail
    rwa [hst, List.tail_cons] at htail
  · obtain ⟨acks, heq⟩ := page_keeping.unwind k σ.core
    have htail := h.tail
    rw [hst, List.tail_cons] at htail
    refine .of_idle ?_ (flushing_sublist (page_unwind_sublist _ _) htail)
    dsimp only
    exact heq ▸ h.steady.acks acks

/-- While posting succeeds, what is tried is taken from the front of what waits, and what is made
    goes to its back. -/
theorem Prompt.waiting (h : Prompt σ) (hl : Lane σ) (hc : Posting σ a)
    (hs : page.step σ a = some σ') :
    (triedIn (page.taken σ a)).map Prod.fst ++ waiting σ' =
      waiting σ ++ madeIn (page.taken σ a) := by
  rcases hl.waiting (h.uninterrupted hl hc) hs with ⟨e, g, hm, ht, hlive, hw⟩ | hw
  · have hbuffer : σ.core.outgoingBuffer = [] := h.steady.direct (by rw [hlive]; nofun)
    have hempty : SharedWorker.waiting σ = [] := by
      obtain ⟨x, hx⟩ := List.exists_mem_of_ne_nil (page.taken σ a) fun hnil => by
        rw [hnil] at hm
        cases hm
      rcases taken_cases (M := page) σ a with hnil | ⟨i, τ, rfl, hn, htaken⟩
      · rw [hnil] at hx
        cases hx
      · obtain ⟨-, -, hfl, -⟩ := hl.next hn
        obtain ⟨-, hrest⟩ := h.fronted hl hn hc
        have hi : flushing [i] = [] := by
          cases i with
          | flush es g =>
              rw [htaken] at hm
              cases hm
          | _ => rfl
        unfold SharedWorker.waiting
        rw [← hfl, flushing_cons, hi, hrest, hbuffer]
        rfl
    rw [hm, ht, hw, hempty]
    rfl
  · exact hw

end Prompt

/-! ## 6. A disconnect before CONNECTED -/

/-- The page is not connected, and leaves as soon as it is. -/
def PageCore.Withdrawn (c : PageCore) : Prop :=
  c.connected = false ∧ (c.connecting = true → c.disconnectAfterConnect = true)

/-- A `disconnect`, by the application or by `pagehide`. -/
def PageInstr.disconnects (c : PageCore) : PageInstr → Bool
  | .disconnect => true
  | .pageHide => c.observingPageHide
  | _ => false

section Withdrawn

variable {c : PageCore} {i : PageInstr}

theorem PageCore.Withdrawn.live (h : c.Withdrawn) : c.live = none := by
  simp [PageCore.live, h.1]

theorem disconnect_withdrawn (h : c.Arriving) (hc : c.connecting = true) :
    c.disconnect.core.Withdrawn := by
  obtain ⟨hconnected, hdisconnecting⟩ := h hc
  unfold PageCore.disconnect
  rw [if_neg (by simp [hc, hdisconnecting])]
  dsimp only
  split
  · rename_i hx _ _
    have hfalse : c.stopObservingPageHide.connected = false := hconnected
    rw [hfalse] at hx
    cases hx
  · exact ⟨hconnected, fun _ => rfl⟩

theorem PageCore.Withdrawn.posting (h : c.Withdrawn) (m : Message) (done failed : List PageInstr) :
    (c.posting m done failed).core.Withdrawn := by
  obtain ⟨port, hcore⟩ := post_core c m
  simp only [PageCore.posting, hcore]
  exact h

theorem PageCore.Withdrawn.disconnect (h : c.Withdrawn) : c.disconnect.core.Withdrawn := by
  unfold PageCore.disconnect
  split
  · exact h
  · dsimp only
    split
    · rename_i hx _ _
      have hfalse : c.stopObservingPageHide.connected = false := h.1
      rw [hfalse] at hx
      cases hx
    · exact ⟨h.1, fun _ => rfl⟩

/-- A CONNECTED that comes too late: the page leaves. -/
theorem PageCore.Withdrawn.receiveConnected (h : c.Withdrawn) (ha : c.Arriving) (requestId : String)
    (g : Generation) (id : String) : (c.receiveConnected requestId g id).core.Withdrawn := by
  unfold PageCore.receiveConnected
  split
  · exact h
  · rename_i hc
    obtain ⟨hrequest, hconnecting⟩ := not_or.mp hc
    have hconnecting : c.connecting = true := by simpa using hconnecting
    have hrequest : c.requestId = some requestId := not_not.mp hrequest
    dsimp only
    rw [if_pos (h.2 hconnecting)]
    obtain ⟨hconnected, hconnecting'⟩ := disconnect_leaves
      { c with
        generation := some g, id := some id, connected := true, connecting := false
        acknowledgementSequence := 0, disconnectAfterConnect := false }
      rfl (ha hconnecting).2 nofun (by rw [hrequest]; nofun)
    refine ⟨hconnected, fun hx => ?_⟩
    rw [hconnecting'] at hx
    cases hx

theorem PageCore.Withdrawn.hear (h : c.Withdrawn) (ha : c.Arriving) (m : Message) :
    (c.hear m).core.Withdrawn := by
  cases m with
  | connected requestId g id => exact h.receiveConnected ha requestId g id
  | bridgeError error requestId generation =>
      simp only [PageCore.hear]
      split <;> exact h
  | connectError requestId g error =>
      simp only [PageCore.hear]
      split
      · exact h
      · exact ⟨rfl, (by intro h; cases h)⟩
  | serverEvent g event args ackId =>
      simp only [PageCore.hear, PageCore.receiveServerEvent]
      split
      · exact h
      · split <;> exact h
  | acknowledgement g direction ackId args =>
      simp only [PageCore.hear, PageCore.receiveAcknowledgement]
      split
      · exact h
      · split <;> exact h
  | disconnected requestId g reason =>
      simp only [PageCore.hear, PageCore.receiveDisconnected]
      split
      · exact h
      · exact ⟨rfl, (by intro h; cases h)⟩
  | _ => exact h

theorem exec_withdrawn (h : c.Withdrawn) (ha : c.Arriving) (hi : i ≠ .connect) :
    (pageExec i c).core.Withdrawn := by
  cases i with
  | connect => exact absurd rfl hi
  | receive value =>
      simp only [pageExec, PageCore.receive]
      split
      · exact h
      · refine PageCore.Withdrawn.hear ?_ ?_ _
        · exact h
        · exact ha
  | connectFailed => exact ⟨h.1, (by intro h; cases h)⟩
  | flush es g =>
      cases es with
      | nil => exact h
      | cons e es =>
          simp only [pageExec, PageCore.flush]
          rw [if_neg (by rw [h.live]; rintro ⟨⟩)]
          exact h
  | disconnect => exact h.disconnect
  | pageHide =>
      simp only [pageExec]
      split
      · refine PageCore.Withdrawn.disconnect ?_
        exact h
      · exact h
  | emit event args ack =>
      simp only [pageExec, PageCore.queueEmission]
      split
      · exact h
      · rw [show PageCore.live { c with emissionCount := c.emissionCount + 1 } = none from h.live]
        exact h
  | acknowledge r args =>
      simp only [pageExec, PageCore.acknowledge]
      split
      · exact h
      · split
        · exact h
        · refine PageCore.Withdrawn.posting ?_ _ _ _
          exact h
  | _ => exact h

end Withdrawn

/-! ## 7. Emissions in order -/

/-- **What was emitted**: posted once and in its order, in the generation of the CONNECTED that
    answered the request of that moment, or waiting behind what was posted; nothing once the page is
    to leave as soon as it is connected. -/
structure PostedInOrder (tr : List (PageCore × PageInstr)) (σ : PageState) : Prop where
  wire : σ.core.posted.filterMap Message.emission? = (postedIn tr).map wired
  order : madeIn tr = (postedIn tr).map Prod.fst ++ waiting σ
  settled : page.inApp σ = true → waiting σ = σ.core.outgoingBuffer
  once : ((postedIn tr).map (·.1.id)).Nodup
  live : ∀ x ∈ tr, ∀ p, x.2.posts x.1 = some p → x.1.live = some p.2 ∧
    ∃ requestId id, x.1.requestId = some requestId ∧ .connected requestId p.2 id ∈ x.1.heard
  withheld : ∀ tr₁ c i tr₂, tr = tr₁ ++ (c, i) :: tr₂ → i.disconnects c = true → c.connecting = true →
    (∀ x ∈ tr₂, x.2 ≠ .connect) → postedIn tr₂ = []

section Order

variable {url : String} {auth : JsValue} {lifecycle : Bool} {tr : List (PageCore × PageInstr)}
  {σ σ₀ : PageState} {C : PageState → Action PageInstr → Prop}

theorem run_prompt (h : page.Reach Posting (opened url auth lifecycle) σ) : Prompt σ := by
  induction h with
  | start => exact ⟨⟨nofun, fun hl => absurd rfl hl⟩, rfl, nofun⟩
  | step hr hc hs ih => exact ih.step (run_lane hr) hc hs

theorem run_order (h : page.Run Posting (opened url auth lifecycle) tr σ) :
    (triedIn tr).map Prod.fst ++ waiting σ = madeIn tr := by
  induction h with
  | start => rfl
  | @step tr σ σ' a hr hc hs ih =>
      have hmade : madeIn (tr ++ page.taken σ a) = madeIn tr ++ madeIn (page.taken σ a) :=
        List.filterMap_append ..
      have htried : triedIn (tr ++ page.taken σ a) = triedIn tr ++ triedIn (page.taken σ a) :=
        List.filterMap_append ..
      rw [hmade, htried, List.map_append, List.append_assoc,
        (run_prompt hr.reach).waiting (run_lane hr.reach) hc hs, ← List.append_assoc, ih]

/-- While posting succeeds, what is tried is posted. -/
theorem run_posts (h : page.Run Posting σ₀ tr σ) : postedIn tr = triedIn tr := by
  induction h with
  | start => rfl
  | @step tr σ σ' a hr hc hs ih =>
      have hposted : postedIn (tr ++ page.taken σ a) = postedIn tr ++ postedIn (page.taken σ a) :=
        List.filterMap_append ..
      have htried : triedIn (tr ++ page.taken σ a) = triedIn tr ++ triedIn (page.taken σ a) :=
        List.filterMap_append ..
      rw [hposted, htried, ih]
      refine congrArg (triedIn tr ++ ·) (List.filterMap_congr fun x hx => ?_)
      cases ht : x.2.tries x.1 with
      | none => rw [PageInstr.posts, ht]; rfl
      | some p => rw [PageInstr.posts, ht, Option.filter_some, if_pos (hc x hx p ht)]

theorem reach_wf (h : page.Reach C (opened url auth lifecycle) σ) : σ.core.Wf :=
  (h.line page_line (fun _ _ _ _ _ _ _ => trivial) (opened_lined url auth lifecycle)).inv

theorem reach_arriving (h : page.Reach C (opened url auth lifecycle) σ) : σ.core.Arriving := by
  induction h with
  | start => exact nofun
  | @step σ σ' a hr hc hs ih =>
      rcases page_keeping.step hs with ⟨i, τ, -, -, -, acks, hcore⟩ | ⟨-, acks, hcore⟩
      · rw [hcore]
        exact exec_arriving (i := i) ih
      · rw [hcore]
        exact ih

/-- A page that is withdrawn posts no emission until it connects anew. -/
theorem run_withdrawn (h : page.Run C σ₀ tr σ) (h₀ : σ₀.core.Withdrawn) (ha : σ₀.core.Arriving)
    (hno : ∀ x ∈ tr, x.2 ≠ .connect) :
    σ.core.Withdrawn ∧ σ.core.Arriving ∧ postedIn tr = [] := by
  induction h with
  | start => exact ⟨h₀, ha, rfl⟩
  | @step tr σ σ' a hr hc hs ih =>
      obtain ⟨hw, har, hnone⟩ := ih fun x hx => hno x (List.mem_append_left _ hx)
      have hposted : postedIn (tr ++ page.taken σ a) = postedIn tr ++ postedIn (page.taken σ a) :=
        List.filterMap_append ..
      rw [hposted, hnone]
      rcases page_keeping.step hs with ⟨i, τ, -, -, ht, acks, hcore⟩ | ⟨ht, acks, hcore⟩
      · have hi : i ≠ .connect := hno (σ.core, i)
          (List.mem_append_right _ (ht ▸ List.mem_singleton_self _))
        have htries : i.tries σ.core = none := by
          cases hx : i.tries σ.core with
          | none => rfl
          | some p =>
              have hl := tries_live hx
              rw [hw.live] at hl
              cases hl
        rw [hcore, ht]
        refine ⟨exec_withdrawn hw har hi, exec_arriving (i := i) har, ?_⟩
        simp [postedIn, PageInstr.posts, htries]
      · rw [hcore, ht]
        exact ⟨hw, har, rfl⟩

theorem run_withheld (h : page.Run C (opened url auth lifecycle) tr σ)
    {tr₁ tr₂ : List (PageCore × PageInstr)} {c : PageCore} {i : PageInstr}
    (htr : tr = tr₁ ++ (c, i) :: tr₂) (hi : i.disconnects c = true) (hc : c.connecting = true)
    (hno : ∀ x ∈ tr₂, x.2 ≠ .connect) : postedIn tr₂ = [] := by
  subst htr
  obtain ⟨σ₁, τ, σ₂, h₁, -, hcore, hn, hs, h₂⟩ := h.split
  dsimp only at hcore hn
  have ha : σ₁.core.Arriving := reach_arriving h₁.reach
  have hstart : σ₂.core.Withdrawn ∧ σ₂.core.Arriving := by
    rcases page_keeping.step hs with ⟨i', τ', -, hn', -, acks, hcore₂⟩ | ⟨ht, -⟩
    · obtain ⟨rfl, -⟩ := Prod.mk.inj (Option.some.inj (hn.symm.trans hn'))
      rw [hcore₂]
      refine ⟨?_, exec_arriving (i := i) ha⟩
      rw [hcore] at ha ⊢
      cases i with
      | disconnect => exact disconnect_withdrawn ha hc
      | pageHide =>
          have hobserving : c.observingPageHide = true := hi
          have hleft : PageCore.Withdrawn
              (PageCore.disconnect { c with observingPageHide := false }).core :=
            disconnect_withdrawn ha hc
          simp only [page, pageExec, if_pos hobserving]
          exact hleft
      | _ => cases hi
    · simp [Machine.taken, hn] at ht
  exact (run_withdrawn h₂ hstart.1 hstart.2 hno).2.2

/-- **Page emissions are posted once and in emit order**, in every run of the page in which posting
    succeeds. -/
theorem emissions_posted_in_order (h : page.Run Posting (opened url auth lifecycle) tr σ) :
    PostedInOrder tr σ where
  wire := run_wire h
  order := by rw [run_posts h, run_order h]
  settled happ := by
    unfold waiting
    rw [(run_prompt h.reach).settled happ]
    rfl
  once := by
    have hnodup : ((madeIn tr).map (·.id)).Nodup := by
      rw [run_numbered h]
      exact List.nodup_range
    rw [← run_order h, ← run_posts h, List.map_append, List.map_map] at hnodup
    exact (List.nodup_append.mp hnodup).1
  live x hx p hp := by
    obtain ⟨tr₁, tr₂, rfl⟩ := List.append_of_mem hx
    obtain ⟨σ₁, -, -, h₁, -, hcore, -⟩ := h.split
    have htries : x.2.tries x.1 = some p := (Option.filter_eq_some_iff.mp hp).1
    have hlive := tries_live htries
    obtain ⟨hconnected, -, hg⟩ := PageCore.live_eq.mp hlive
    obtain ⟨requestId, g, id, pre, post, hr, hg', hheard, -⟩ :=
      (hcore ▸ reach_wf h₁.reach : x.1.Wf).joined hconnected
    obtain rfl := Option.some.inj (hg.symm.trans hg')
    exact ⟨hlive, requestId, id, hr, hheard ▸ List.mem_append_right _ List.mem_cons_self⟩
  withheld _ _ _ _ := run_withheld h

end Order

/-- One emission is flushed, one is posted at once, and one waits for the next connection. -/
theorem emissions_posted_flushed : ∃ tr σ,
    page.Run Posting (opened "http://h/" (.object []) false) tr σ ∧
      ((postedIn tr).length = 2 ∧ (waiting σ).length = 1) ∧ PostedInOrder tr σ := by
  obtain ⟨tr, σ, hr, hp⟩ := run_of_script page Posting (opened "http://h/" (.object []) false) 100
    [.call (.emit "a" [] true),
      .call (.arrive (Message.connected "connect:1" 1 "id").toValue), .run, .ret,
      .call (.emit "b" [] false), .call .disconnect, .ret, .call (.emit "c" [] false)]
    (fun r => decide ((postedIn r.1).length = 2 ∧ (waiting r.2).length = 1))
    (by decide)
  exact ⟨tr, σ, hr, of_decide_eq_true hp, emissions_posted_in_order hr⟩

end Smocket.SharedWorker
