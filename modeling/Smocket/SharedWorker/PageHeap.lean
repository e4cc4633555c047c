import Smocket.Orders
import Smocket.SharedWorker.Page

/-
  File:      Smocket/SharedWorker/PageHeap.lean
  Subject:   THE HEAP OF THE PAGE in order: which generation it is in, and what waits for an answer.

  The page checks what it hears against its request and its generation, so nothing here depends on
  what the host sends. An emission is numbered once. It waits in the buffer or in a flush, then it
  is posted, and only then its acknowledgement waits under an id of its generation; releasing the
  generation empties that list. So an acknowledgement that is found was sent in the live
  generation, and it is found once.

  * `page_line` -- every step of the page keeps its heap in order;
  * `pageExec_wf` -- so does each of its instructions.
-/

namespace Smocket.SharedWorker

open Ordered EventLoop EventLoop.Machine

/-! ## 1. The heap of the page -/

/-- The messages among what the page was handed. -/
def PageCore.heard (c : PageCore) : List Message :=
  c.received.filterMap fun v => (readSharedWorkerHostMessage v).toOption

/-- An acknowledgement of this emission was run. -/
def PageEvent.isRan (n : EmissionId) : PageEvent → Bool
  | .ran m .. => decide (m = n)
  | _ => false

/-- The emission exists and has not been posted under an acknowledgement id. -/
def PageCore.Unsent (c : PageCore) (n : EmissionId) : Prop :=
  n < c.emissionCount ∧ ∀ g ackId, .sent n g ackId ∉ c.log

/-- Where the page stands, and what its log says about acknowledgements. -/
structure PageCore.Wf (c : PageCore) : Prop where
  apart : c.connecting = true → c.connected = false
  released : c.connected = false → ∀ ackId, c.pendingClientAcknowledgements.get? ackId = none
  /-- after the CONNECTED of the connection came no DISCONNECTED of it -/
  joined : c.connected = true → ∃ requestId g id pre post, c.requestId = some requestId ∧
    c.generation = some g ∧ c.heard = pre ++ .connected requestId g id :: post ∧
      ∀ reason, .disconnected requestId g reason ∉ post
  known : ∀ g, c.generation = some g → ∃ requestId id, .connected requestId g id ∈ c.heard
  pending : ∀ ackId n, c.pendingClientAcknowledgements.get? ackId = some n →
    ∃ g, c.generation = some g ∧ .sent n g ackId ∈ c.log
  buffer : (c.outgoingBuffer.map (·.id)).Nodup
  unsent : ∀ e ∈ c.outgoingBuffer, c.Unsent e.id
  sent : ∀ n g ackId, .sent n g ackId ∈ c.log → n < c.emissionCount
  sentOnce : ∀ n g ackId g' ackId', .sent n g ackId ∈ c.log → .sent n g' ackId' ∈ c.log →
    g = g' ∧ ackId = ackId'
  ran : ∀ n k ackId live, .ran n k ackId live ∈ c.log → live = some k ∧ .sent n k ackId ∈ c.log ∧
    c.pendingClientAcknowledgements.get? ackId ≠ some n
  ranOnce : ∀ n, (c.log.filter (·.isRan n)).length ≤ 1
  dispatched : ∀ k live, .dispatched k live ∈ c.log → live = some k

/-- The live generation is that of an open connection nobody is closing. -/
theorem PageCore.live_eq {c : PageCore} {g : Generation} :
    c.live = some g ↔ c.connected = true ∧ c.disconnecting = false ∧ c.generation = some g := by
  unfold PageCore.live
  cases c.connected <;> cases c.disconnecting <;> simp

/-- Posting a message touches nothing but the port. -/
theorem PageCore.Wf.posting {c : PageCore} (h : c.Wf) (m : Message) (done failed : List PageInstr) :
    (c.posting m done failed).core.Wf := by
  simp only [PageCore.posting, PageCore.post]
  split
  · exact h
  · split
    · exact { h with }
    · exact { h with }
    · exact h

/-- Nobody waits for an answer of a generation that is over. -/
theorem PageCore.Wf.releaseGeneration {c : PageCore} (h : c.Wf) : c.releaseGeneration.Wf :=
  { h with
    apart := fun _ => rfl
    released := fun _ _ => rfl
    joined := nofun
    known := nofun
    pending := nofun
    ran := fun n k ackId live hr => ⟨(h.ran n k ackId live hr).1, (h.ran n k ackId live hr).2.1, nofun⟩ }

/-- `connect` asks, and waits to be heard. -/
theorem PageCore.Wf.connect {c : PageCore} (h : c.Wf) : c.connect.core.Wf := by
  unfold PageCore.connect
  split
  · exact h
  · refine PageCore.Wf.posting ?_ _ _ _
    exact { h.releaseGeneration with apart := fun _ => rfl, joined := nofun }

/-- `disconnect` says so, and waits for the answer. -/
theorem PageCore.Wf.disconnect {c : PageCore} (h : c.Wf) : c.disconnect.core.Wf := by
  unfold PageCore.disconnect
  split
  · exact h
  · dsimp only
    split
    · refine PageCore.Wf.posting ?_ _ _ _
      exact { h with
        apart := fun _ => rfl
        released := fun _ _ => rfl
        joined := nofun
        pending := nofun
        ran := fun n k ackId live hr =>
          ⟨(h.ran n k ackId live hr).1, (h.ran n k ackId live hr).2.1, nofun⟩ }
    · exact { h with }

/-- An emission is posted once, in the live generation. -/
theorem PageCore.Wf.postEmission {c : PageCore} (h : c.Wf) {e : Emission} {g : Generation}
    (hl : c.live = some g) (he : c.Unsent e.id) (hb : e.id ∉ c.outgoingBuffer.map (·.id))
    (rest : List PageInstr) : (c.postEmission e g rest).core.Wf := by
  obtain ⟨hc, -, hg⟩ := PageCore.live_eq.mp hl
  unfold PageCore.postEmission
  split
  · refine PageCore.Wf.posting ?_ _ _ _
    have hlog : ∀ {n g' k}, .sent n g' k ∈ PageEvent.sent e.id g (ackName "client" g
        (c.acknowledgementSequence + 1)) :: c.log → n ≠ e.id → .sent n g' k ∈ c.log := fun hm hne =>
      (List.mem_cons.mp hm).resolve_left fun hx => hne (PageEvent.sent.inj hx).1
    refine { h with
      released := fun hn => by rw [show c.connected = false from hn] at hc; cases hc
      pending := fun ackId n hn => ?_
      unsent := fun x hx => ⟨(h.unsent x hx).1, fun g' k hk => ?_⟩
      sent := fun n g' k hk => ?_
      sentOnce := fun n g' k g'' k' hk hk' => ?_
      ran := fun n k ackId live hr => ?_
      ranOnce := fun n => ?_
      dispatched := fun k live hd => ?_ }
    · dsimp only at hn ⊢
      rw [OMap.get?_set] at hn
      split at hn
      · rename_i hk
        obtain rfl := Option.some.inj hn
        exact ⟨g, hg, hk ▸ List.mem_cons_self⟩
      · obtain ⟨g', hg', hs⟩ := h.pending ackId n hn
        exact ⟨g', hg', List.mem_cons_of_mem _ hs⟩
    · have hne : x.id ≠ e.id := fun hx' => hb (hx' ▸ List.mem_map_of_mem hx)
      exact (h.unsent x hx).2 g' k (hlog hk hne)
    · rcases List.mem_cons.mp hk with hk | hk
      · rw [(PageEvent.sent.inj hk).1]
        exact he.1
      · exact h.sent n g' k hk
    · by_cases hne : n = e.id
      · subst hne
        have hold : ∀ {g' k}, .sent e.id g' k ∈ PageEvent.sent e.id g (ackName "client" g
            (c.acknowledgementSequence + 1)) :: c.log → g' = g ∧ k = ackName "client" g
            (c.acknowledgementSequence + 1) := fun hm =>
          (PageEvent.sent.inj ((List.mem_cons.mp hm).resolve_right (he.2 _ _))).2
        exact ⟨(hold hk).1.trans (hold hk').1.symm, (hold hk).2.trans (hold hk').2.symm⟩
      · exact h.sentOnce n g' k g'' k' (hlog hk hne) (hlog hk' hne)
    · have hr := (List.mem_cons.mp hr).resolve_left nofun
      obtain ⟨hlive, hs, hp⟩ := h.ran n k ackId live hr
      refine ⟨hlive, List.mem_cons_of_mem _ hs, ?_⟩
      dsimp only
      rw [OMap.get?_set]
      split
      · exact fun hx => he.2 _ _ (Option.some.inj hx ▸ hs)
      · exact hp
    · exact h.ranOnce n
    · exact h.dispatched k live ((List.mem_cons.mp hd).resolve_left nofun)
  · exact h.posting _ _ _

/-- A new emission takes a number nobody has had. -/
theorem PageCore.Wf.queueEmission {c : PageCore} (h : c.Wf) (event : String) (args : List JsValue)
    (acknowledge : Bool) : (c.queueEmission event args acknowledge).core.Wf := by
  unfold PageCore.queueEmission
  split
  · exact h
  · have hfresh : ∀ x ∈ c.outgoingBuffer.map (·.id), x < c.emissionCount := fun x hx => by
      obtain ⟨e, he, rfl⟩ := List.mem_map.mp hx
      exact (h.unsent e he).1
    have hnew : ∀ g ackId, .sent c.emissionCount g ackId ∉ c.log := fun g ackId hs =>
      Nat.lt_irrefl _ (h.sent _ g ackId hs)
    have hcount : PageCore.Wf { c with emissionCount := c.emissionCount + 1 } :=
      { h with
        unsent := fun e he => ⟨Nat.lt_succ_of_lt (h.unsent e he).1, (h.unsent e he).2⟩
        sent := fun n g ackId hs => Nat.lt_succ_of_lt (h.sent n g ackId hs) }
    dsimp only
    split
    · refine { hcount with buffer := ?_, unsent := fun e he => ?_ }
      · rw [List.map_append, List.nodup_append]
        refine ⟨h.buffer, List.nodup_singleton _, fun a ha b hb => ?_⟩
        rw [List.mem_singleton.mp hb]
        exact Nat.ne_of_lt (hfresh a ha)
      · rcases List.mem_append.mp he with he | he
        · exact hcount.unsent e he
        · rw [List.mem_singleton.mp he]
          exact ⟨Nat.lt_succ_self _, hnew⟩
    · rename_i g hl
      exact hcount.postEmission hl ⟨Nat.lt_succ_self _, hnew⟩
        (fun hb => Nat.lt_irrefl _ (hfresh _ hb)) []

/-- Not posted yet, and no longer in the buffer. -/
def PageCore.Spare (c : PageCore) (n : EmissionId) : Prop :=
  c.Unsent n ∧ n ∉ c.outgoingBuffer.map (·.id)

/-- The emissions of a flush. -/
def PageCore.Flushable (c : PageCore) (es : List Emission) : Prop :=
  (es.map (·.id)).Nodup ∧ ∀ e ∈ es, c.Spare e.id

/-- A flush posts what was in the buffer, each once. -/
theorem PageCore.Wf.flush {c : PageCore} (h : c.Wf) (g : Generation) {es : List Emission}
    (hes : c.Flushable es) : (c.flush g es).core.Wf := by
  cases es with
  | nil => exact h
  | cons e es =>
      obtain ⟨hnodup, hun⟩ := hes
      have he := hun e List.mem_cons_self
      simp only [PageCore.flush]
      split
      · rename_i hl
        exact h.postEmission hl he.1 he.2 _
      · refine { h with buffer := ?_, unsent := fun x hx => ?_ }
        · rw [List.map_append, List.nodup_append]
          refine ⟨hnodup, h.buffer, fun a ha b hb hab => ?_⟩
          obtain ⟨x, hx, rfl⟩ := List.mem_map.mp ha
          exact (hun x hx).2 (hab ▸ hb)
        · exact (List.mem_append.mp hx).elim (fun hx => (hun x hx).1) (h.unsent x)

/-- An answer to the host is no emission. -/
theorem PageCore.Wf.acknowledge {c : PageCore} (h : c.Wf) (r : ReferenceId) (args : List JsValue) :
    (c.acknowledge r args).core.Wf := by
  unfold PageCore.acknowledge
  dsimp only
  split
  · exact h
  · split
    · exact { h with }
    · refine PageCore.Wf.posting ?_ _ _ _
      exact { h with }

/-- The page reads a value. -/
def PageCore.reads (c : PageCore) (value : JsValue) : PageCore :=
  { c with received := c.received ++ [value] }

/-- What the reader accepts is heard. -/
theorem PageCore.heard_reads {c : PageCore} {value : JsValue} {m : Message}
    (hread : readSharedWorkerHostMessage value = .ok m) :
    (c.reads value).heard = c.heard ++ [m] := by
  simp [PageCore.heard, PageCore.reads, List.filterMap_append, hread, Except.toOption]

/-- What it does not accept is not. -/
theorem PageCore.heard_reads_error {c : PageCore} {value : JsValue} {error : String}
    (hread : readSharedWorkerHostMessage value = .error error) :
    (c.reads value).heard = c.heard := by
  simp [PageCore.heard, PageCore.reads, List.filterMap_append, hread, Except.toOption]

/-- What is heard changes nothing, unless it is the DISCONNECTED of the connection. -/
theorem PageCore.Wf.reads {c c' : PageCore} (h : c.Wf) {value : JsValue}
    (hc' : c' = c.reads value) {m : Message} (hread : readSharedWorkerHostMessage value = .ok m)
    (hm : ∀ requestId g reason, c.connected = true → c.requestId = some requestId →
      c.generation = some g → m ≠ .disconnected requestId g reason) : c'.Wf := by
  subst hc'
  have hheard := PageCore.heard_reads (c := c) hread
  refine { h with joined := fun hc => ?_, known := fun g hg => ?_ }
  · obtain ⟨requestId, g, id, pre, post, hr, hg, hpost, hno⟩ := h.joined hc
    refine ⟨requestId, g, id, pre, post ++ [m], hr, hg, ?_, fun reason hx => ?_⟩
    · rw [hheard, hpost, List.append_assoc, List.cons_append]
    · rcases List.mem_append.mp hx with hx | hx
      · exact hno reason hx
      · exact hm requestId g reason hc hr hg (List.mem_singleton.mp hx).symm
  · obtain ⟨requestId, id, hx⟩ := h.known g hg
    exact ⟨requestId, id, hheard ▸ List.mem_append_left _ hx⟩

/-- CONNECTED opens the generation it names. -/
theorem PageCore.Wf.receiveConnected {c : PageCore} (h : c.Wf) {value : JsValue}
    {requestId : String}
    {g : Generation} {id : String}
    (hread : readSharedWorkerHostMessage value = .ok (.connected requestId g id)) :
    ((c.reads value).receiveConnected requestId g id).core.Wf := by
  have h' : (c.reads value).Wf := h.reads rfl hread nofun
  unfold PageCore.receiveConnected
  split
  · exact h'
  · rename_i hcond
    rw [not_or, not_not] at hcond
    have hconnecting : c.connecting = true := by
      have hx := hcond.2
      simpa [PageCore.reads] using hx
    have hempty := h.released (h.apart hconnecting)
    have hheard := PageCore.heard_reads (c := c) hread
    have hjoin : PageCore.Wf { c.reads value with
        generation := some g, id := some id, connected := true, connecting := false
        acknowledgementSequence := 0 } :=
      { h' with
        apart := nofun
        released := nofun
        joined := fun _ => ⟨requestId, g, id, c.heard, [], hcond.1, rfl, hheard, nofun⟩
        known := fun k hk => ⟨requestId, id, by
          obtain rfl := Option.some.inj hk
          exact hheard ▸ List.mem_append_right _ (List.mem_singleton_self _)⟩
        pending := fun ackId n hn => by
          have hn : c.pendingClientAcknowledgements.get? ackId = some n := hn
          rw [hempty ackId] at hn
          cases hn }
    dsimp only
    split
    · exact PageCore.Wf.disconnect { hjoin with }
    · exact { hjoin with buffer := List.nodup_nil, unsent := nofun }

/-- An event is dispatched in the live generation. -/
theorem PageCore.Wf.receiveServerEvent {c : PageCore} (h : c.Wf) {g : Generation}
    (hl : c.live = some g) (event : String) (args : List JsValue) (ackId : Option String) :
    (c.receiveServerEvent g event args ackId).core.Wf := by
  have hlog : PageCore.Wf { c with log := .dispatched g c.live :: c.log } := by
    refine { h with
      pending := fun k n hn => ?_
      unsent := fun e he => ⟨(h.unsent e he).1, fun k x hx => ?_⟩
      sent := fun n k x hx => h.sent n k x ((List.mem_cons.mp hx).resolve_left nofun)
      sentOnce := fun n k x k' x' hx hx' => h.sentOnce n k x k' x'
        ((List.mem_cons.mp hx).resolve_left nofun) ((List.mem_cons.mp hx').resolve_left nofun)
      ran := fun n k x live hr => ?_
      ranOnce := h.ranOnce
      dispatched := fun k live hd => ?_ }
    · obtain ⟨k', hk', hs⟩ := h.pending k n hn
      exact ⟨k', hk', List.mem_cons_of_mem _ hs⟩
    · exact (h.unsent e he).2 k x ((List.mem_cons.mp hx).resolve_left nofun)
    · obtain ⟨hlive, hs, hp⟩ := h.ran n k x live ((List.mem_cons.mp hr).resolve_left nofun)
      exact ⟨hlive, List.mem_cons_of_mem _ hs, hp⟩
    · rcases List.mem_cons.mp hd with hd | hd
      · rw [(PageEvent.dispatched.inj hd).1, (PageEvent.dispatched.inj hd).2, hl]
      · exact h.dispatched k live hd
  unfold PageCore.receiveServerEvent
  dsimp only
  split
  · exact hlog
  · exact { hlog with }

/-- An acknowledgement that waits was sent in the live generation; running it removes it. -/
theorem PageCore.Wf.receiveAcknowledgement {c : PageCore} (h : c.Wf) {g : Generation}
    (hl : c.live = some g) (ackId : String) (args : List JsValue) :
    (c.receiveAcknowledgement g ackId args).core.Wf := by
  unfold PageCore.receiveAcknowledgement
  split
  · exact h
  · rename_i n hn
    obtain ⟨k, hk, hs⟩ := h.pending ackId n hn
    obtain rfl : k = g := Option.some.inj (hk.symm.trans (PageCore.live_eq.mp hl).2.2)
    refine { h with
      released := fun hc => ?_
      pending := fun x m hm => ?_
      unsent := fun e he => ⟨(h.unsent e he).1, fun k x hx => ?_⟩
      sent := fun m k x hx => h.sent m k x ((List.mem_cons.mp hx).resolve_left nofun)
      sentOnce := fun m k x k' x' hx hx' => h.sentOnce m k x k' x'
        ((List.mem_cons.mp hx).resolve_left nofun) ((List.mem_cons.mp hx').resolve_left nofun)
      ran := fun m j x live hr => ?_
      ranOnce := fun m => ?_
      dispatched := fun j live hd => h.dispatched j live ((List.mem_cons.mp hd).resolve_left nofun) }
    · rw [h.released hc ackId] at hn
      cases hn
    · dsimp only at hm
      rw [OMap.get?_erase] at hm
      split at hm
      · cases hm
      · obtain ⟨k', hk', hs'⟩ := h.pending x m hm
        exact ⟨k', hk', List.mem_cons_of_mem _ hs'⟩
    · exact (h.unsent e he).2 k x ((List.mem_cons.mp hx).resolve_left nofun)
    · dsimp only
      rw [OMap.get?_erase]
      rcases List.mem_cons.mp hr with hr | hr
      · obtain ⟨rfl, rfl, rfl, rfl⟩ := PageEvent.ran.inj hr
        exact ⟨hl, List.mem_cons_of_mem _ hs, by simp⟩
      · obtain ⟨hlive, hs', hp⟩ := h.ran m j x live hr
        refine ⟨hlive, List.mem_cons_of_mem _ hs', ?_⟩
        split
        · exact nofun
        · exact hp
    · by_cases hmn : n = m
      · subst hmn
        have hnone : c.log.filter (·.isRan n) = [] := by
          refine List.filter_eq_nil_iff.mpr fun x hx hr => ?_
          cases x with
          | ran m j y live =>
              obtain rfl := of_decide_eq_true hr
              obtain ⟨-, hs', hp⟩ := h.ran m j y live hx
              exact hp ((h.sentOnce m k ackId j y hs hs').2 ▸ hn)
          | _ => cases hr
        dsimp only
        rw [List.filter_cons_of_pos (by simp [PageEvent.isRan]), hnone]
        exact Nat.le_refl 1
      · dsimp only
        rw [List.filter_cons_of_neg (by simpa [PageEvent.isRan] using hmn)]
        exact h.ranOnce m

/-- **Whatever the page is sent**, its heap stays in order. -/
theorem PageCore.Wf.receive {c : PageCore} (h : c.Wf) (value : JsValue) :
    (c.receive value).core.Wf := by
  unfold PageCore.receive
  dsimp only
  split
  · rename_i error hread
    have hheard := PageCore.heard_reads_error (c := c) hread
    exact { h with
      joined := fun hc => hheard ▸ h.joined hc
      known := fun g hg => hheard ▸ h.known g hg }
  · rename_i m hread
    have hreads : ∀ {c' : PageCore}, c' = c.reads value → (∀ requestId g reason, c.connected = true →
        c.requestId = some requestId → c.generation = some g →
        m ≠ .disconnected requestId g reason) → c'.Wf := fun hc' hm => h.reads hc' hread hm
    cases m with
    | bridgeError error requestId generation =>
        simp only [PageCore.hear]
        split <;> exact hreads rfl (by simp)
    | connected requestId g id => exact h.receiveConnected hread
    | connectError requestId g error =>
        simp only [PageCore.hear]
        split
        · exact hreads rfl (by simp)
        · rename_i hcond
          rw [not_or, not_not] at hcond
          have hconnecting : c.connecting = true := by simpa using hcond.2
          have h' : (c.reads value).Wf := hreads rfl (by simp)
          have hempty := h.released (h.apart hconnecting)
          exact { h' with
            apart := (by intro h; cases h)
            released := fun _ => hempty
            joined := (by intro h; cases h)
            known := (by intro _ h; cases h)
            pending := fun ackId n hn => by
              have hn : c.pendingClientAcknowledgements.get? ackId = some n := hn
              rw [hempty ackId] at hn
              cases hn }
    | serverEvent g event args ackId =>
        simp only [PageCore.hear]
        split
        · exact hreads rfl (by simp)
        · rename_i hcond
          have hlive : c.connected = true ∧ c.disconnecting = false ∧ c.generation = some g := by
            simpa [and_comm, and_assoc] using hcond
          exact PageCore.Wf.receiveServerEvent (hreads rfl (by simp)) (PageCore.live_eq.mpr hlive) _ _ _
    | acknowledgement g direction ackId args =>
        simp only [PageCore.hear]
        split
        · exact hreads rfl (by simp)
        · rename_i hcond
          have hlive : c.connected = true ∧ c.disconnecting = false ∧ c.generation = some g := by
            simpa [and_comm, and_assoc] using hcond
          exact PageCore.Wf.receiveAcknowledgement (hreads rfl (by simp))
            (PageCore.live_eq.mpr hlive) _ _
    | disconnected requestId g reason =>
        simp only [PageCore.hear]
        split
        · rename_i hcond
          refine hreads rfl fun r k x _ hr hk he => ?_
          cases he
          exact hcond.elim (fun hx => hx hk) fun hx => hx hr
        · exact { h with
            apart := fun _ => rfl
            released := fun _ _ => rfl
            joined := (by intro h; cases h)
            known := (by intro _ h; cases h)
            pending := (by intro _ _ h; cases h)
            ran := fun n k ackId live hr =>
              ⟨(h.ran n k ackId live hr).1, (h.ran n k ackId live hr).2.1, (by intro h; cases h)⟩ }
    | _ => exact hreads rfl (by simp)

/-- An acknowledgement that is dropped is waited for no longer. -/
theorem PageCore.Wf.dropAcknowledgement {c : PageCore} (h : c.Wf) (ackId : String) :
    PageCore.Wf { c with
      pendingClientAcknowledgements := c.pendingClientAcknowledgements.erase ackId } := by
  refine { h with
    released := fun hc => ?_, pending := fun k n hn => ?_, ran := fun n k x live hr => ?_ }
  · intro k
    dsimp only
    rw [OMap.get?_erase, h.released hc k, ite_self]
  · dsimp only at hn
    rw [OMap.get?_erase] at hn
    split at hn
    · cases hn
    · exact h.pending k n hn
  · obtain ⟨hlive, hs, hp⟩ := h.ran n k x live hr
    refine ⟨hlive, hs, ?_⟩
    dsimp only
    rw [OMap.get?_erase]
    split
    · exact nofun
    · exact hp

/-! ## 2. What is pending on the page -/

/-- The emissions a pending instruction holds. -/
def PageInstr.holds : PageInstr → List EmissionId
  | .flush es _ => es.map (·.id)
  | _ => []

/-- A message that is taken. -/
def PageInstr.receives : PageInstr → Bool
  | .receive _ => true
  | _ => false

/-- What a `connect` that could not be posted still has to do. -/
def PageInstr.failsConnect : PageInstr → Bool
  | .connectFailed => true
  | _ => false

/-- What may execute before what: an emission is held once, and a message is only taken once a
    `connect` is over. -/
def PageInstr.Before (i j : PageInstr) : Prop :=
  (∀ n ∈ i.holds, n ∉ j.holds) ∧ (i.receives = true → j.failsConnect = false)

/-- What a pending instruction knows. -/
def PageInstr.Ok (c : PageCore) : PageInstr → Prop
  | .flush es _ => c.Flushable es
  | .connectFailed => c.connected = false
  | _ => True

/-- One step keeps the heap in order. -/
theorem pageExec_wf {c : PageCore} (h : c.Wf) {i : PageInstr} (hok : i.Ok c) :
    (pageExec i c).core.Wf := by
  cases i with
  | receive value => exact h.receive value
  | connectFailed =>
      have hc : c.connected = false := hok
      exact { h with
        apart := nofun
        joined := fun hx => by rw [show c.connected = true from hx] at hc; cases hc }
  | dropAcknowledgement ackId => exact h.dropAcknowledgement ackId
  | flush es g => exact h.flush g hok
  | connect => exact h.connect
  | disconnect => exact h.disconnect
  | emit event args acknowledge => exact h.queueEmission event args acknowledge
  | acknowledge r args => exact h.acknowledge r args
  | pageHide =>
      simp only [pageExec]
      split
      · exact PageCore.Wf.disconnect { h with }
      · exact h
  | _ => exact { h with }

/-- A step that posts no emission and adds none to the buffer. -/
theorem PageCore.Spare.of_same {c c' : PageCore} {n : EmissionId} (h : c.Spare n)
    (hn : c'.emissionCount = c.emissionCount)
    (hb : ∀ e ∈ c'.outgoingBuffer, e ∈ c.outgoingBuffer)
    (hl : ∀ g ackId, .sent n g ackId ∈ c'.log → .sent n g ackId ∈ c.log) : c'.Spare n := by
  refine ⟨⟨hn ▸ h.1.1, fun g ackId hs => h.1.2 g ackId (hl g ackId hs)⟩, fun hx => h.2 ?_⟩
  obtain ⟨e, he, rfl⟩ := List.mem_map.mp hx
  exact List.mem_map_of_mem (hb e he)

theorem PageCore.Spare.posting {c : PageCore} {n : EmissionId} (h : c.Spare n) (m : Message)
    (done failed : List PageInstr) : (c.posting m done failed).core.Spare n := by
  simp only [PageCore.posting, PageCore.post]
  split
  · exact h
  · split <;> exact h

theorem PageCore.Spare.postEmission {c : PageCore} {n : EmissionId} (h : c.Spare n) {e : Emission}
    (he : n ≠ e.id) (g : Generation) (rest : List PageInstr) :
    (c.postEmission e g rest).core.Spare n := by
  unfold PageCore.postEmission
  split
  · refine PageCore.Spare.posting ?_ _ _ _
    exact h.of_same rfl (fun _ hx => hx) fun k ackId hs =>
      (List.mem_cons.mp hs).resolve_left fun hx => he (PageEvent.sent.inj hx).1
  · exact h.posting _ _ _

theorem PageCore.Spare.disconnect {c : PageCore} {n : EmissionId} (h : c.Spare n) :
    c.disconnect.core.Spare n := by
  unfold PageCore.disconnect
  split
  · exact h
  · dsimp only
    split
    · refine PageCore.Spare.posting ?_ _ _ _
      exact h.of_same rfl (fun _ hx => hx) fun _ _ hs => hs
    · exact h.of_same rfl (fun _ hx => hx) fun _ _ hs => hs

/-- No message from the host touches an emission that a flush holds. -/
theorem PageCore.Spare.hear {c : PageCore} {n : EmissionId} (h : c.Spare n) (m : Message) :
    (c.hear m).core.Spare n := by
  have hsame : ∀ {c' : PageCore}, c'.emissionCount = c.emissionCount →
      c'.outgoingBuffer = c.outgoingBuffer → c'.log = c.log → c'.Spare n := fun h₁ h₂ h₃ =>
    h.of_same h₁ (fun _ hx => h₂ ▸ hx) fun _ _ hs => h₃ ▸ hs
  cases m with
  | bridgeError error requestId generation =>
      simp only [PageCore.hear]
      split <;> exact h
  | connected requestId g id =>
      simp only [PageCore.hear, PageCore.receiveConnected]
      split
      · exact h
      · split
        · refine PageCore.Spare.disconnect ?_
          exact hsame rfl rfl rfl
        · exact h.of_same rfl (by intro _ h; cases h) fun _ _ hs => hs
  | connectError requestId g error =>
      simp only [PageCore.hear]
      split
      · exact h
      · exact hsame rfl rfl rfl
  | serverEvent g event args ackId =>
      simp only [PageCore.hear]
      split
      · exact h
      · unfold PageCore.receiveServerEvent
        dsimp only
        split <;> exact h.of_same rfl (fun _ hx => hx) fun _ _ hs =>
          (List.mem_cons.mp hs).resolve_left (by intro h; cases h)
  | acknowledgement g direction ackId args =>
      simp only [PageCore.hear]
      split
      · exact h
      · unfold PageCore.receiveAcknowledgement
        split
        · exact h
        · exact h.of_same rfl (fun _ hx => hx) fun _ _ hs =>
            (List.mem_cons.mp hs).resolve_left (by intro h; cases h)
  | disconnected requestId g reason =>
      simp only [PageCore.hear]
      split
      · exact h
      · exact hsame rfl rfl rfl
  | _ => exact h

/-- An emission that an instruction does not hold stays as it is. -/
theorem pageExec_spare {c : PageCore} {i : PageInstr} {n : EmissionId} (h : c.Spare n)
    (hi : n ∉ i.holds) : (pageExec i c).core.Spare n := by
  have hsame : ∀ {c' : PageCore}, c'.emissionCount = c.emissionCount →
      c'.outgoingBuffer = c.outgoingBuffer → c'.log = c.log → c'.Spare n := fun h₁ h₂ h₃ =>
    h.of_same h₁ (fun _ hx => h₂ ▸ hx) fun _ _ hs => h₃ ▸ hs
  cases i with
  | receive value =>
      simp only [pageExec, PageCore.receive]
      split
      · exact hsame rfl rfl rfl
      · refine PageCore.Spare.hear ?_ _
        exact hsame rfl rfl rfl
  | flush es g =>
      cases es with
      | nil => exact h
      | cons e es =>
          simp only [pageExec, PageCore.flush]
          split
          · exact h.postEmission (fun he => hi (he ▸ List.mem_cons_self)) _ _
          · refine ⟨h.1, fun hx => ?_⟩
            rw [List.map_append] at hx
            exact (List.mem_append.mp hx).elim hi h.2
  | connect =>
      simp only [pageExec, PageCore.connect]
      split
      · exact h
      · refine PageCore.Spare.posting ?_ _ _ _
        exact hsame rfl rfl rfl
  | disconnect => exact h.disconnect
  | emit event args acknowledge =>
      have hne : n ≠ c.emissionCount := Nat.ne_of_lt h.1.1
      have hcount : PageCore.Spare { c with emissionCount := c.emissionCount + 1 } n :=
        ⟨⟨Nat.lt_succ_of_lt h.1.1, h.1.2⟩, h.2⟩
      simp only [pageExec, PageCore.queueEmission]
      split
      · exact h
      · split
        · refine ⟨hcount.1, fun hx => ?_⟩
          rw [List.map_append] at hx
          exact (List.mem_append.mp hx).elim h.2 fun hx => hne (List.mem_singleton.mp hx)
        · exact hcount.postEmission hne _ _
  | acknowledge r args =>
      simp only [pageExec, PageCore.acknowledge]
      split
      · exact h
      · split
        · exact hsame rfl rfl rfl
        · refine PageCore.Spare.posting ?_ _ _ _
          exact hsame rfl rfl rfl
  | pageHide =>
      simp only [pageExec]
      split
      · refine PageCore.Spare.disconnect ?_
        exact hsame rfl rfl rfl
      · exact h
  | _ => exact hsame rfl rfl rfl

/-- An instruction of the page's own that holds no emission and has no say in whether the page is
    connected. -/
def PageInstr.plain : PageInstr → Bool
  | .receive _ | .arrive _ | .connectFailed | .flush .. => false
  | _ => true

/-- It holds nothing, takes nothing and fails nothing. -/
theorem PageInstr.plain_iff {i : PageInstr} :
    i.plain = true → i.holds = [] ∧ i.receives = false ∧ i.failsConnect = false := by
  cases i <;> simp [PageInstr.plain, PageInstr.holds, PageInstr.receives, PageInstr.failsConnect]

/-- So it may execute before or after anything. -/
theorem PageInstr.Before.of_plain {i j : PageInstr} (h : i.plain = true ∨ j.plain = true) :
    i.Before j := by
  rcases h with h | h
  · obtain ⟨hh, hr, -⟩ := PageInstr.plain_iff h
    exact ⟨fun n hn => by simp [hh] at hn, fun hx => by simp [hr] at hx⟩
  · obtain ⟨hh, -, hf⟩ := PageInstr.plain_iff h
    exact ⟨fun n _ hn => by simp [hh] at hn, fun _ => hf⟩

/-- It has nothing to know. -/
theorem PageInstr.Ok.of_plain {c : PageCore} {j : PageInstr} (h : j.plain = true) : j.Ok c := by
  cases j with
  | flush es g => cases h
  | connectFailed => cases h
  | _ => trivial

/-- What `posting` pushes, from what it may push. -/
theorem PageCore.posting_push {c : PageCore} {m : Message} {done failed : List PageInstr}
    {p : PageInstr} (hp : p ∈ (c.posting m done failed).push) :
    p.plain = true ∨ p ∈ done ∨ p ∈ failed := by
  simp only [PageCore.posting] at hp
  split at hp
  · exact Or.inr (Or.inl hp)
  · rcases List.mem_cons.mp hp with rfl | hp
    · exact Or.inl rfl
    · exact Or.inr (Or.inr hp)

theorem PageCore.disconnect_push {c : PageCore} {p : PageInstr} (hp : p ∈ c.disconnect.push) :
    p.plain = true := by
  unfold PageCore.disconnect at hp
  split at hp
  · cases hp
  · dsimp only at hp
    split at hp
    · rcases posting_push hp with hp | hp | hp
      · exact hp
      · rw [List.mem_singleton.mp hp]
        rfl
      · rw [List.mem_singleton.mp hp]
        rfl
    · cases hp

theorem PageCore.postEmission_push {c : PageCore} {e : Emission} {g : Generation}
    {rest : List PageInstr} {p : PageInstr} (hp : p ∈ (c.postEmission e g rest).push) :
    p.plain = true ∨ p ∈ rest := by
  unfold PageCore.postEmission at hp
  split at hp
  · rcases posting_push hp with hp | hp | hp
    · exact Or.inl hp
    · exact Or.inr hp
    · rcases List.mem_cons.mp hp with rfl | hp
      · exact Or.inl rfl
      · exact Or.inr hp
  · exact (posting_push hp).imp_right fun hp => Or.elim hp (fun hp => hp) fun hp => hp

/-- What an instruction pushes that is not plain: the rest of a `connect` that failed, or a
    flush. -/
theorem pageExec_push {c : PageCore} {i p : PageInstr} (hp : p ∈ (pageExec i c).push) :
    p.plain = true ∨ (p = .connectFailed ∧ (pageExec i c).core.connected = false) ∨
      ∃ es g, p = .flush es g ∧ ((es = c.outgoingBuffer ∧ (pageExec i c).core.outgoingBuffer = [] ∧
        (pageExec i c).core.log = c.log ∧ (pageExec i c).core.emissionCount = c.emissionCount) ∨
          ∃ e, i = .flush (e :: es) g ∧
            (pageExec i c).core = (c.postEmission e g [.flush es g]).core) := by
  cases i with
  | receive value =>
      simp only [pageExec, PageCore.receive] at hp ⊢
      split at hp
      · rw [List.mem_singleton.mp hp]
        exact Or.inl rfl
      · rename_i m hread
        cases m with
        | bridgeError error requestId generation =>
            simp only [PageCore.hear] at hp
            split at hp
            · cases hp
            · rw [List.mem_singleton.mp hp]
              exact Or.inl rfl
        | connected requestId g id =>
            simp only [PageCore.hear, PageCore.receiveConnected] at hp ⊢
            split at hp
            · cases hp
            · rename_i hcond
              rw [if_neg hcond]
              split at hp
              · exact Or.inl (PageCore.disconnect_push hp)
              · rename_i hlater
                rw [if_neg hlater]
                rcases List.mem_cons.mp hp with rfl | hp
                · exact Or.inr (Or.inr ⟨_, _, rfl, Or.inl ⟨rfl, rfl, rfl, rfl⟩⟩)
                · rw [List.mem_singleton.mp hp]
                  exact Or.inl rfl
        | connectError requestId g error =>
            simp only [PageCore.hear] at hp
            split at hp
            · cases hp
            · rw [List.mem_singleton.mp hp]
              exact Or.inl rfl
        | serverEvent g event args ackId =>
            simp only [PageCore.hear, PageCore.receiveServerEvent] at hp
            split at hp
            · cases hp
            · split at hp <;> (rw [List.mem_singleton.mp hp]; exact Or.inl rfl)
        | acknowledgement g direction ackId args =>
            simp only [PageCore.hear, PageCore.receiveAcknowledgement] at hp
            split at hp
            · cases hp
            · split at hp
              · cases hp
              · rw [List.mem_singleton.mp hp]
                exact Or.inl rfl
        | disconnected requestId g reason =>
            simp only [PageCore.hear, PageCore.receiveDisconnected] at hp
            split at hp
            · cases hp
            · split at hp
              · rw [List.mem_singleton.mp hp]
                exact Or.inl rfl
              · cases hp
        | _ => cases hp
  | flush es g =>
      cases es with
      | nil => cases hp
      | cons e es =>
          simp only [pageExec, PageCore.flush] at hp ⊢
          split at hp
          · rename_i hl
            rw [if_pos hl]
            refine (PageCore.postEmission_push hp).imp_right fun hp => Or.inr ?_
            rw [List.mem_singleton.mp hp]
            exact ⟨es, g, rfl, Or.inr ⟨e, rfl, rfl⟩⟩
          · cases hp
  | connected g =>
      simp only [pageExec] at hp
      split at hp
      · rw [List.mem_singleton.mp hp]
        exact Or.inl rfl
      · cases hp
  | dispatch x =>
      rw [List.mem_singleton.mp hp]
      exact Or.inl rfl
  | connect =>
      simp only [pageExec, PageCore.connect] at hp ⊢
      split at hp
      · cases hp
      · rename_i hc
        rw [if_neg hc]
        refine (PageCore.posting_push hp).imp_right fun hp => Or.inl ⟨?_, ?_⟩
        · exact List.mem_singleton.mp (hp.resolve_left (by intro h; cases h))
        · simp only [PageCore.posting, PageCore.post]
          split
          · rfl
          · split <;> rfl
  | disconnect => exact Or.inl (PageCore.disconnect_push hp)
  | emit event args acknowledge =>
      simp only [pageExec, PageCore.queueEmission] at hp
      split at hp
      · cases hp
      · split at hp
        · cases hp
        · exact Or.inl ((PageCore.postEmission_push hp).resolve_right (by intro h; cases h))
  | acknowledge r args =>
      simp only [pageExec, PageCore.acknowledge] at hp
      split at hp
      · cases hp
      · split at hp
        · cases hp
        · exact (PageCore.posting_push hp).imp_right fun hp =>
            hp.elim (by intro h; cases h) (by intro h; cases h)
  | pageHide =>
      simp only [pageExec] at hp
      split at hp
      · exact Or.inl (PageCore.disconnect_push hp)
      · cases hp
  | messageError =>
      rw [List.mem_singleton.mp hp]
      exact Or.inl rfl
  | _ => cases hp

/-- The one thing that is posted is the task of a message. -/
theorem pageExec_post {c : PageCore} {i p : PageInstr} (hp : p ∈ (pageExec i c).post) :
    ∃ value, i = .arrive value ∧ p = .receive value := by
  have hposting : ∀ {c : PageCore} {m done failed}, (c.posting m done failed).post = [] := rfl
  have hdisconnect : ∀ {c : PageCore}, c.disconnect.post = [] := by
    intro c
    unfold PageCore.disconnect
    split
    · rfl
    · dsimp only
      split <;> rfl
  have hemission : ∀ {c : PageCore} {e g rest}, (c.postEmission e g rest).post = [] := by
    intro c e g rest
    unfold PageCore.postEmission
    split <;> rfl
  cases i with
  | arrive value => exact ⟨value, rfl, List.mem_singleton.mp hp⟩
  | receive value =>
      simp only [pageExec, PageCore.receive] at hp
      split at hp
      · cases hp
      · rename_i m hread
        cases m with
        | connected requestId g id =>
            simp only [PageCore.hear, PageCore.receiveConnected] at hp
            split at hp
            · cases hp
            · split at hp
              · rw [hdisconnect] at hp
                cases hp
              · cases hp
        | serverEvent g event args ackId =>
            simp only [PageCore.hear, PageCore.receiveServerEvent] at hp
            split at hp
            · cases hp
            · split at hp <;> cases hp
        | acknowledgement g direction ackId args =>
            simp only [PageCore.hear, PageCore.receiveAcknowledgement] at hp
            split at hp
            · cases hp
            · split at hp <;> cases hp
        | bridgeError error requestId generation =>
            simp only [PageCore.hear] at hp
            split at hp <;> cases hp
        | connectError requestId g error =>
            simp only [PageCore.hear] at hp
            split at hp <;> cases hp
        | disconnected requestId g reason =>
            simp only [PageCore.hear] at hp
            split at hp <;> cases hp
        | _ => cases hp
  | flush es g =>
      cases es with
      | nil => cases hp
      | cons e es =>
          simp only [pageExec, PageCore.flush] at hp
          split at hp
          · rw [hemission] at hp
            cases hp
          · cases hp
  | connect =>
      simp only [pageExec, PageCore.connect] at hp
      split at hp
      · cases hp
      · rw [hposting] at hp
        cases hp
  | disconnect =>
      rw [show (pageExec .disconnect c).post = c.disconnect.post from rfl, hdisconnect] at hp
      cases hp
  | emit event args acknowledge =>
      simp only [pageExec, PageCore.queueEmission] at hp
      split at hp
      · cases hp
      · split at hp
        · cases hp
        · rw [hemission] at hp
          cases hp
  | acknowledge r args =>
      simp only [pageExec, PageCore.acknowledge] at hp
      split at hp
      · cases hp
      · split at hp <;> cases hp
  | pageHide =>
      simp only [pageExec] at hp
      split at hp
      · rw [hdisconnect] at hp
        cases hp
      · cases hp
  | _ => cases hp

/-- What an instruction pushes knows what it must. -/
theorem pageExec_spawn {c : PageCore} (h : c.Wf) {i : PageInstr} (hok : i.Ok c) {p : PageInstr}
    (hp : p ∈ (pageExec i c).spawned) : p.Ok (pageExec i c).core := by
  rcases List.mem_append.mp hp with hp | hp
  · rcases pageExec_push hp with hp | ⟨rfl, hc⟩ | ⟨es, g, rfl, ⟨rfl, hb, hl, hn⟩ | ⟨e, rfl, hcore⟩⟩
    · exact .of_plain hp
    · exact hc
    · refine ⟨h.buffer, fun e he => ⟨⟨hn ▸ (h.unsent e he).1, ?_⟩, by simp [hb]⟩⟩
      rw [hl]
      exact (h.unsent e he).2
    · obtain ⟨hnodup, hspare⟩ := hok
      obtain ⟨hne, hnodup⟩ := List.nodup_cons.mp hnodup
      refine ⟨hnodup, fun x hx => ?_⟩
      have hxe : x.id ≠ e.id := fun hxe =>
        hne (List.mem_map.mpr ⟨x, hx, hxe⟩)
      rw [hcore]
      exact (hspare x (List.mem_cons_of_mem _ hx)).postEmission hxe _ _
  · obtain ⟨value, -, rfl⟩ := pageExec_post hp
    trivial

theorem PageCore.posting_connected (c : PageCore) (m : Message) (done failed : List PageInstr) :
    (c.posting m done failed).core.connected = c.connected := by
  simp only [PageCore.posting, PageCore.post]
  split
  · rfl
  · split <;> rfl

theorem PageCore.disconnect_connected {c : PageCore} (h : c.connected = false) :
    c.disconnect.core.connected = false := by
  unfold PageCore.disconnect
  split
  · exact h
  · dsimp only
    split
    · rw [PageCore.posting_connected]
    · exact h

theorem PageCore.postEmission_connected (c : PageCore) (e : Emission) (g : Generation)
    (rest : List PageInstr) : (c.postEmission e g rest).core.connected = c.connected := by
  unfold PageCore.postEmission
  split
  · rw [PageCore.posting_connected]
  · rw [PageCore.posting_connected]

/-- Only a message makes the page connected. -/
theorem pageExec_connected {c : PageCore} {i : PageInstr} (h : c.connected = false)
    (hi : i.receives = false) : (pageExec i c).core.connected = false := by
  cases i with
  | receive value => cases hi
  | flush es g =>
      cases es with
      | nil => exact h
      | cons e es =>
          simp only [pageExec, PageCore.flush]
          split
          · rw [PageCore.postEmission_connected, h]
          · exact h
  | connect =>
      simp only [pageExec, PageCore.connect]
      split
      · exact h
      · rw [PageCore.posting_connected]
        rfl
  | disconnect => exact PageCore.disconnect_connected h
  | emit event args acknowledge =>
      simp only [pageExec, PageCore.queueEmission]
      split
      · exact h
      · split
        · exact h
        · rw [PageCore.postEmission_connected]
          exact h
  | acknowledge r args =>
      simp only [pageExec, PageCore.acknowledge]
      split
      · exact h
      · split
        · exact h
        · rw [PageCore.posting_connected]
          exact h
  | pageHide =>
      simp only [pageExec]
      split
      · refine PageCore.disconnect_connected ?_
        exact h
      · exact h
  | _ => exact h

/-- What a pending instruction knows stays true while what may execute before it executes. -/
theorem pageExec_stable {c : PageCore} {i j : PageInstr} (hj : j.Ok c) (hij : i.Before j) :
    j.Ok (pageExec i c).core := by
  cases j with
  | flush es g =>
      exact ⟨hj.1, fun e he => pageExec_spare (hj.2 e he) fun hi =>
        hij.1 _ hi (List.mem_map_of_mem he)⟩
  | connectFailed =>
      refine pageExec_connected hj ?_
      cases hi : i.receives with
      | false => rfl
      | true => cases hij.2 hi
  | _ => trivial

/-- Of what an instruction pushes, one at most is not plain. -/
theorem pageExec_inner (c : PageCore) (i : PageInstr) :
    (pageExec i c).push.Pairwise fun p q => p.plain = true ∨ q.plain = true := by
  have hposting : ∀ {c : PageCore} {m : Message} {done failed : List PageInstr},
      done.Pairwise (fun p q => p.plain = true ∨ q.plain = true) →
      failed.Pairwise (fun p q => p.plain = true ∨ q.plain = true) →
      (c.posting m done failed).push.Pairwise fun p q => p.plain = true ∨ q.plain = true := by
    intro c m done failed hd hf
    simp only [PageCore.posting]
    split
    · exact hd
    · exact List.pairwise_cons.mpr ⟨fun _ _ => Or.inl rfl, hf⟩
  have hemission : ∀ {c : PageCore} {e : Emission} {g : Generation} {rest : List PageInstr},
      rest.Pairwise (fun p q => p.plain = true ∨ q.plain = true) →
      (c.postEmission e g rest).push.Pairwise fun p q => p.plain = true ∨ q.plain = true := by
    intro c e g rest hr
    unfold PageCore.postEmission
    split
    · exact hposting hr (List.pairwise_cons.mpr ⟨fun _ _ => Or.inl rfl, hr⟩)
    · exact hposting hr hr
  have hplain : ∀ {l : List PageInstr}, (∀ p ∈ l, p.plain = true) →
      l.Pairwise fun p q => p.plain = true ∨ q.plain = true := fun hl =>
    List.pairwise_of_forall_mem_list fun p hp _ _ => Or.inl (hl p hp)
  have hdisconnect : ∀ {c : PageCore}, c.disconnect.push.Pairwise
      fun p q => p.plain = true ∨ q.plain = true := hplain fun _ => PageCore.disconnect_push
  cases i with
  | receive value =>
      simp only [pageExec, PageCore.receive]
      split
      · exact List.pairwise_singleton _ _
      · rename_i m hread
        cases m with
        | bridgeError error requestId generation =>
            simp only [PageCore.hear]
            split
            · exact List.Pairwise.nil
            · exact List.pairwise_singleton _ _
        | connected requestId g id =>
            simp only [PageCore.hear, PageCore.receiveConnected]
            split
            · exact List.Pairwise.nil
            · split
              · exact hdisconnect
              · exact List.pairwise_pair.mpr (Or.inr rfl)
        | connectError requestId g error =>
            simp only [PageCore.hear]
            split
            · exact List.Pairwise.nil
            · exact List.pairwise_singleton _ _
        | serverEvent g event args ackId =>
            simp only [PageCore.hear, PageCore.receiveServerEvent]
            split
            · exact List.Pairwise.nil
            · split <;> exact List.pairwise_singleton _ _
        | acknowledgement g direction ackId args =>
            simp only [PageCore.hear, PageCore.receiveAcknowledgement]
            split
            · exact List.Pairwise.nil
            · split
              · exact List.Pairwise.nil
              · exact List.pairwise_singleton _ _
        | disconnected requestId g reason =>
            simp only [PageCore.hear, PageCore.receiveDisconnected]
            split
            · exact List.Pairwise.nil
            · dsimp only
              split
              · exact List.pairwise_singleton _ _
              · exact List.Pairwise.nil
        | _ => exact List.Pairwise.nil
  | flush es g =>
      cases es with
      | nil => exact List.Pairwise.nil
      | cons e es =>
          simp only [pageExec, PageCore.flush]
          split
          · exact hemission (List.pairwise_singleton _ _)
          · exact List.Pairwise.nil
  | connected g =>
      simp only [pageExec]
      split
      · exact List.pairwise_singleton _ _
      · exact List.Pairwise.nil
  | dispatch x => exact List.pairwise_singleton _ _
  | connect =>
      simp only [pageExec, PageCore.connect]
      split
      · exact List.Pairwise.nil
      · exact hposting List.Pairwise.nil (List.pairwise_singleton _ _)
  | disconnect => exact hdisconnect
  | emit event args acknowledge =>
      simp only [pageExec, PageCore.queueEmission]
      split
      · exact List.Pairwise.nil
      · split
        · exact List.Pairwise.nil
        · exact hemission List.Pairwise.nil
  | acknowledge r args =>
      simp only [pageExec, PageCore.acknowledge]
      split
      · exact List.Pairwise.nil
      · split
        · exact List.Pairwise.nil
        · exact hposting List.Pairwise.nil List.Pairwise.nil
  | pageHide =>
      simp only [pageExec]
      split
      · exact hdisconnect
      · exact List.Pairwise.nil
  | messageError => exact List.pairwise_singleton _ _
  | _ => exact List.Pairwise.nil

/-- **Every step of the page keeps its heap in order**, whatever it is sent. -/
theorem page_line : page.Line (fun _ _ => True) PageCore.Wf PageInstr.Ok PageInstr.Before where
  core _ _ hr := pageExec_wf hr.inv hr.ok
  spawn _ _ hr _ hp := pageExec_spawn hr.inv hr.ok hp
  stable _ _ _ _ hj hij := pageExec_stable hj hij
  call _ i _ _ := by cases i <;> trivial
  handle _ i _ _ _ hi := by cases i <;> cases hi
  push c i j p _ hj hij hp := by
    rcases pageExec_push hp with hp | ⟨rfl, -⟩ | ⟨es, g, rfl, ⟨rfl, -⟩ | ⟨e, rfl, -⟩⟩
    · exact .of_plain (Or.inl hp)
    · exact ⟨nofun, nofun⟩
    · refine ⟨fun n hn hnj => ?_, nofun⟩
      cases j with
      | flush es g =>
          obtain ⟨x, hx, rfl⟩ := List.mem_map.mp hnj
          exact (hj.2 x hx).2 hn
      | _ => cases hnj
    · exact ⟨fun n hn => hij.1 n (List.mem_cons_of_mem _ hn), nofun⟩
  post _ _ _ _ hp := by
    obtain ⟨value, -, rfl⟩ := pageExec_post hp
    exact ⟨fun _ _ => nofun, fun _ => rfl⟩
  inner c i _ := by
    refine List.pairwise_append.mpr ⟨(pageExec_inner c i).imp .of_plain, ?_, fun p _ q hq => ?_⟩
    · refine List.pairwise_of_forall_mem_list fun p _ q hq => ?_
      obtain ⟨value, -, rfl⟩ := pageExec_post hq
      exact ⟨fun _ _ => nofun, fun _ => rfl⟩
    · obtain ⟨value, -, rfl⟩ := pageExec_post hq
      exact ⟨fun _ _ => nofun, fun _ => rfl⟩
  callRel _ i _ hc := by
    cases i with
    | arrive value => exact ⟨fun _ hn => (by cases hn), nofun⟩
    | _ => first | exact .of_plain (Or.inl rfl) | cases hc
  handleRel _ i _ hi := by cases i <;> cases hi
  free _ _ _ := trivial

/-- A page that has just been opened. -/
theorem opened_lined (url : String) (auth : JsValue) (lifecycle : Bool) :
    Lined PageCore.Wf PageInstr.Ok PageInstr.Before (opened url auth lifecycle).core
      (opened url auth lifecycle).pending where
  inv :=
    { apart := nofun
      released := fun _ _ => rfl
      joined := nofun
      known := nofun
      pending := nofun
      buffer := List.nodup_nil
      unsent := nofun
      sent := nofun
      sentOnce := nofun
      ran := nofun
      ranOnce := fun _ => Nat.zero_le _
      dispatched := nofun }
  ok j hj := by
    rw [List.mem_singleton.mp hj]
    trivial
  rel := List.pairwise_singleton _ _

end Smocket.SharedWorker
