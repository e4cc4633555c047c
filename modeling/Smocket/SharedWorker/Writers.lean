import Mathlib.Algebra.Group.Nat.Defs
import Smocket.SharedWorker.Grammar
import Smocket.SharedWorker.Page

/-
  File:      Smocket/SharedWorker/Writers.lean
  Subject:   THE WRITERS PRODUCE WHAT THE READERS ACCEPT.

  The page reads its own messages before it posts them. The host does not: what it posts is in order
  as long as the texts it is given are (`HostInstr.Legible`).

  * `reach_accepted` -- the page posts what its own reader accepts;
  * `host_legible` -- the host posts what is in order, if it is given no empty text;
  * `writers_accepted` -- both, over every run;
  * `writers_refused` -- an empty error makes a message no page accepts.
-/

namespace Smocket.SharedWorker

open Ordered EventLoop EventLoop.Machine

/-! ## 1. The readers explain themselves -/

/-- An error has a text. -/
def Explains {α : Type} (x : Except String α) : Prop := ∀ e, x = .error e → e ≠ ""

theorem Explains.ok {α : Type} (a : α) : Explains (.ok a : Except String α) := nofun

/-- An error the code throws has a text. -/
theorem Explains.error {α : Type} {e : String} (h : e ≠ "") :
    Explains (.error e : Except String α) :=
  fun _ he => Except.error.inj he ▸ h

/-- Of two readers the one that fails explains why. -/
theorem Explains.bind {α β : Type} {x : Except String α} {f : α → Except String β} (h : Explains x)
    (hf : ∀ a, Explains (f a)) : Explains (x >>= f) := by
  cases x with
  | error e => exact .error (h e rfl)
  | ok a => exact hf a

/-- A text with something behind it is not empty. -/
theorem append_ne_empty {s t : String} (h : t ≠ "") : s ++ t ≠ "" := by
  intro he
  have hlen := congrArg String.length he
  simp at hlen
  exact h hlen.2

/-- The readers of the fields, one after the other. -/
theorem requireNonEmptyString_explains (v : JsValue) (key : String) :
    Explains (requireNonEmptyString v key) := by
  have he : Explains (.error ((v.get "type").text ++ "." ++ key ++ " must be a non-empty string") :
      Except String String) := .error (append_ne_empty (by decide))
  unfold requireNonEmptyString
  dsimp only
  split
  · split
    · exact he
    · exact .ok _
  · exact he

theorem requireGeneration_explains (v : JsValue) : Explains (requireGeneration v) := by
  have he : Explains (.error ((v.get "type").text ++ ".generation must be a positive integer") :
      Except String Nat) := .error (append_ne_empty (by decide))
  unfold requireGeneration
  dsimp only
  split
  · split
    · exact .ok _
    · exact he
  · exact he

theorem requireArgs_explains (v : JsValue) : Explains (requireArgs v) := by
  unfold requireArgs
  split
  · split
    · exact .ok _
    · exact .error (by decide)
  · exact .error (append_ne_empty (by decide))

theorem requireEvent_explains (v : JsValue) : Explains (requireEvent v) := by
  refine .bind (requireNonEmptyString_explains v "event") fun event => ?_
  split
  · exact .error (append_ne_empty (by decide))
  · exact .ok _

/-- An absent field is no error. -/
theorem optional_explains {α : Type} {v : JsValue} {key : String} {read : Except String α}
    (h : Explains read) : Explains (optional v key read) := by
  unfold optional
  split
  · exact .ok _
  · cases read with
    | error e => exact .error (h e rfl)
    | ok a => exact .ok _

theorem requireDirection_explains (v : JsValue) : Explains (requireDirection v) := by
  unfold requireDirection
  split
  · split
    · exact .ok _
    · split
      · exact .ok _
      · exact .error (by decide)
  · exact .error (by decide)

theorem requireAuth_explains (v : JsValue) : Explains (requireAuth v) := by
  unfold requireAuth
  split
  · exact .ok _
  · exact .error (by decide)

/-- The fields of a message are read in the order of the source; the first that fails explains
    why. -/
theorem readFields_explains (v : JsValue) (type : String) : Explains (readFields v type) := by
  have hstring := requireNonEmptyString_explains v
  have hgen := requireGeneration_explains v
  unfold readFields
  split
  · exact .bind (hstring _) fun _ => .bind (hstring _) fun _ => .bind (requireAuth_explains v)
      fun _ => .ok _
  · exact .bind (hstring _) fun _ => .bind hgen fun _ => .bind (hstring _) fun _ => .ok _
  · exact .bind (hstring _) fun _ => .bind hgen fun _ => .bind (hstring _) fun _ => .ok _
  · exact .bind hgen fun _ => .bind (requireEvent_explains v) fun _ =>
      .bind (requireArgs_explains v) fun _ => .bind (optional_explains (hstring _)) fun _ => .ok _
  · exact .bind hgen fun _ => .bind (requireEvent_explains v) fun _ =>
      .bind (requireArgs_explains v) fun _ => .bind (optional_explains (hstring _)) fun _ => .ok _
  · exact .bind hgen fun _ => .bind (hstring _) fun _ => .bind (requireArgs_explains v)
      fun _ => .bind (requireDirection_explains v) fun _ => .ok _
  · exact .bind (hstring _) fun _ => .bind hgen fun _ => .bind (hstring _) fun _ => .ok _
  · exact .bind (hstring _) fun _ => .bind hgen fun _ => .bind (hstring _) fun _ => .ok _
  · exact .bind (hstring _) fun _ => .bind (optional_explains (hstring _)) fun _ =>
      .bind (optional_explains hgen) fun _ => .ok _
  · exact .error fun he => by simpa using congrArg String.length he

/-- So does the reader of page messages. -/
theorem readSharedWorkerPageMessage_explains (v : JsValue) :
    Explains (readSharedWorkerPageMessage v) := by
  have hbridge : Explains (readSharedWorkerBridgeMessage v) := by
    unfold readSharedWorkerBridgeMessage
    split
    · exact .error (by decide)
    · split
      · exact .error fun he => by simpa using congrArg String.length he
      · exact .bind (requireNonEmptyString_explains v "type") fun _ => readFields_explains v _
  refine hbridge.bind fun m => ?_
  split <;> first
    | exact .ok _
    | exact .error (by decide)
    | exact .error (append_ne_empty (by decide))

/-! ## 2. The page -/

/-- Everything the page's port took is accepted by the reader of page messages. -/
def PageCore.Accepted (c : PageCore) : Prop :=
  ∀ m ∈ c.posted, readSharedWorkerPageMessage m.toValue = .ok m

/-- One step of the page posts only what it has read first. -/
theorem pageExec_accepted {c : PageCore} (h : c.Accepted) (i : PageInstr) :
    (pageExec i c).core.Accepted := by
  intro m hm
  rcases pageExec_posts c i with hp | ⟨x, hp, hread, -⟩
  · exact h m (hp ▸ hm)
  · rw [hp] at hm
    rcases List.mem_append.mp hm with hm | hm
    · exact h m hm
    · rwa [List.mem_singleton.mp hm]

/-- So does a run. -/
theorem reach_accepted {C : PageState → Action PageInstr → Prop} {url : String} {auth : JsValue}
    {lifecycle : Bool} {π : PageState} (h : page.Reach C (opened url auth lifecycle) π) :
    π.core.Accepted := by
  have hM : Inductive page (fun _ _ => True) PageCore.Accepted (fun _ _ => True)
      fun _ => (none : Option Unit) :=
    .of_facts (fun c i h => pageExec_accepted h.inv i) (fun _ _ _ _ _ => trivial)
      (fun _ _ _ _ _ => trivial) (fun _ _ _ _ => trivial) (fun _ _ _ _ _ _ _ _ => trivial)
      fun _ _ _ => trivial
  exact (h.inv_ok hM (fun _ _ _ _ _ _ _ => trivial)
    ⟨fun _ hm => (by cases hm), fun _ _ => trivial,
      List.pairwise_of_forall fun _ _ => Apart.of_none rfl⟩).inv

/-! ## 3. The host -/

/-- What the host's port took, and what the host will put into messages. -/
structure HostCore.Legible (c : HostCore) : Prop where
  posted : ∀ m ∈ c.posted, m.WellFormed ∧ m.fromHost = true
  active : ∀ g, c.active = some g → c.created g = true
  drawn : ∀ g, c.created g = true → g ≤ c.nextGeneration
  created : ∀ g, c.created g = true → (c.states g).requestId ≠ "" ∧ isGeneration g = true
  reason : ∀ g r, (c.states g).disconnectReason = some r → r ≠ ""
  references : ∀ r g, (c.references r).state = some g → (c.references r).ackId ≠ ""
  failure : c.failure ≠ some ""

/-- The message that stands in for one that could not be cloned is in order. -/
theorem cloneError_wellFormed {m : Message} (h : m.WellFormed) (error : String) :
    (cloneError m error).WellFormed := by
  have he : "could not clone host message: " ++ error ≠ "" := by
    intro he
    simpa using congrArg String.length he
  cases m with
  | connect r url auth => exact ⟨he, fun hr => h.1 (Option.some.inj hr), nofun⟩
  | connected r g id | connectError r g id | disconnect r g id | disconnected r g id =>
      exact ⟨he, fun hr => h.1 (Option.some.inj hr), fun n hn => Option.some.inj hn ▸ h.2.1⟩
  | clientEvent g event args ackId | serverEvent g event args ackId =>
      exact ⟨he, nofun, fun n hn => Option.some.inj hn ▸ h.1⟩
  | acknowledgement g d ackId args => exact ⟨he, nofun, fun n hn => Option.some.inj hn ▸ h.1⟩
  | bridgeError e r g => exact ⟨he, h.2.1, h.2.2⟩

/-- A message in order may be posted. -/
theorem HostCore.Legible.post {c : HostCore} (h : c.Legible) {m : Message} (hm : m.WellFormed)
    (hf : m.fromHost = true) : (c.post m).1.Legible := by
  have hsay : ∀ x : Message, x.WellFormed → x.fromHost = true →
      HostCore.Legible { c with posted := c.posted ++ [x] } := fun x hx hxf =>
    { h with
      posted := fun y hy => by
        rcases List.mem_append.mp hy with hy | hy
        · exact h.posted y hy
        · rw [List.mem_singleton.mp hy]
          exact ⟨hx, hxf⟩ }
  unfold HostCore.post
  split
  · exact hsay m hm hf
  · split
    · exact hsay m hm hf
    · exact hsay _ (cloneError_wellFormed hm _) rfl
  · exact h

/-- An error with a text may be reported. -/
theorem HostCore.Legible.reportBridgeError {c : HostCore} (h : c.Legible) {error : String}
    (he : error ≠ "") : (c.reportBridgeError error).Legible :=
  h.post ⟨he, nofun, nofun⟩ rfl

/-- A state keeps its request id, and its reason stays a text. -/
theorem HostCore.Legible.setState {c : HostCore} (h : c.Legible) {g : Generation}
    {f : ConnectionState → ConnectionState} (hr : ∀ x, (f x).requestId = x.requestId)
    (hd : ∀ x, (f x).disconnectReason = x.disconnectReason ∨
      ∃ r, (f x).disconnectReason = some r ∧ r ≠ "") : (c.setState g f).Legible :=
  { h with
    created := fun k hk => by
      rw [HostCore.setState_same ConnectionState.requestId hr]
      exact h.created k hk
    reason := fun k r hk => by
      simp only [HostCore.setState, modify_apply] at hk
      split at hk
      · rcases hd (c.states g) with he | ⟨x, he, hx⟩
        · exact h.reason g r (he ▸ hk)
        · rw [he] at hk
          exact Option.some.inj hk ▸ hx
      · exact h.reason k r hk }

/-- A request with an id draws a generation that is a safe integer. -/
theorem HostCore.Legible.connectRest {c : HostCore} (h : c.Legible) {requestId : String}
    (hr : requestId ≠ "") (hg : isGeneration (c.nextGeneration + 1 : Nat) = true)
    (replaced : Option Generation) : (c.connectRest requestId replaced).Legible := by
  unfold HostCore.connectRest
  dsimp only
  split
  · rename_i error hfail
    have h' : HostCore.Legible { c with
        nextGeneration := c.nextGeneration + 1
        log := .started (c.nextGeneration + 1) replaced :: c.log } :=
      { h with drawn := fun k hk => Nat.le_succ_of_le (h.drawn k hk) }
    exact h'.post ⟨hr, hg, fun he => h.failure (he ▸ hfail)⟩ rfl
  · refine { h with
      active := fun k hk => ?_, drawn := fun k hk => ?_, created := fun k hk => ?_
      reason := fun k r hk => ?_ }
    · obtain rfl := Option.some.inj hk
      exact Function.update_self ..
    · by_cases hk' : k = c.nextGeneration + 1
      · exact Nat.le_of_eq hk'
      · dsimp only at hk
        rw [Function.update_of_ne hk'] at hk
        exact Nat.le_succ_of_le (h.drawn k hk)
    · by_cases hk' : k = c.nextGeneration + 1
      · subst hk'
        dsimp only
        rw [Function.update_self]
        exact ⟨hr, hg⟩
      · dsimp only at hk ⊢
        rw [Function.update_of_ne hk'] at hk ⊢
        exact h.created k hk
    · by_cases hk' : k = c.nextGeneration + 1
      · subst hk'
        simp at hk
      · dsimp only at hk
        rw [Function.update_of_ne hk'] at hk
        exact h.reason k r hk

/-- Whatever comes after an end, if anything, is a request with an id. -/
theorem HostCore.Legible.continue {c : HostCore} (h : c.Legible) {next : Option String}
    (hn : next ≠ some "") (hg : next ≠ none → isGeneration (c.nextGeneration + 1 : Nat) = true)
    (replaced : Option Generation) : (c.continue next replaced).Legible := by
  unfold HostCore.continue
  split
  · exact h
  · exact h.connectRest (fun he => hn (he ▸ rfl)) (hg nofun) replaced

/-- Ending a generation passes on what comes next. -/
theorem HostCore.Legible.finish {c : HostCore} (h : c.Legible) (g : Generation) (reason : String)
    (notify disconnectSocket : Bool) {next : Option String} (hn : next ≠ some "")
    (hg : next ≠ none → isGeneration (c.nextGeneration + 1 : Nat) = true) :
    (c.finish g reason notify disconnectSocket next).core.Legible := by
  unfold HostCore.finish
  split
  · exact h.continue hn hg none
  · have h' : (c.setState g fun s =>
        { s with finished := true, pendingServerAcknowledgements := .empty }).Legible :=
      h.setState (fun _ => rfl) fun _ => Or.inl rfl
    refine { h' with active := fun k hk => ?_, references := fun r k hk => ?_ }
    · dsimp only at hk
      split at hk
      · cases hk
      · exact h.active k hk
    · dsimp only at hk ⊢
      split at hk
      · cases hk
      · rename_i hne
        rw [if_neg hne]
        exact h.references r k hk

/-- A disconnect keeps its reason for the message to come. -/
theorem HostCore.Legible.disconnect {c : HostCore} (h : c.Legible) (g : Generation)
    {reason : String}
    (hr : reason ≠ "") (notify : Bool) {next : Option String} (hn : next ≠ some "")
    (hg : next ≠ none → isGeneration (c.nextGeneration + 1 : Nat) = true) :
    (c.disconnect g reason notify next).core.Legible := by
  have h' : (c.setState g fun s => { s with disconnectReason := some reason }).Legible :=
    h.setState (fun _ => rfl) fun _ => Or.inr ⟨reason, rfl, hr⟩
  exact h'.finish g reason notify true hn hg

/-- What a pending instruction brings with it. -/
def HostInstr.Supplied (c : HostCore) : HostInstr → Prop
  | .disconnectSocket g => c.created g = true
  | .onConnect g id => c.created g = true ∧ id ≠ ""
  | .onDisconnect g reason => c.created g = true ∧ reason ≠ ""
  | .onAny _ event args _ => event ∉ RESERVED_EVENTS ∧ encodes args = true
  | .acknowledge _ args => encodes args = true
  | .notify g reason next => c.created g = true ∧ reason ≠ "" ∧ next ≠ some ""
  | _ => True

/-- The instruction may draw a generation. -/
def HostInstr.draws : HostInstr → Bool
  | .handleMessage value =>
      match readSharedWorkerPageMessage value with
      | .ok (.connect ..) => true
      | _ => false
  | .notify _ _ next => next.isSome
  | _ => false

/-- What the host is given: no error of a connection, close reason or event name that it puts into a
    message is empty, no event is called `bridge_error`, and generations stay safe integers. -/
def HostInstr.Legible (c : HostCore) (i : HostInstr) : Prop :=
  (i.draws = true → c.nextGeneration + 1 < 2 ^ 53) ∧
    match i with
    | .onConnectError g error => c.owns g = true → error ≠ ""
    | .onAny g event _ _ => c.owns g = true → event ≠ "" ∧ event ≠ "bridge_error"
    | .close reason => c.closed = false → c.active ≠ none → reason ≠ ""
    | .setFailure failure => failure ≠ some ""
    | _ => True

instance (c : HostCore) (i : HostInstr) : Decidable (i.Legible c) :=
  haveI : Decidable (match i with
      | .onConnectError g error => c.owns g = true → error ≠ ""
      | .onAny g event _ _ => c.owns g = true → event ≠ "" ∧ event ≠ "bridge_error"
      | .close reason => c.closed = false → c.active ≠ none → reason ≠ ""
      | .setFailure failure => failure ≠ some ""
      | _ => True) :=
    match i with
    | .onConnectError g error => inferInstanceAs (Decidable (c.owns g = true → error ≠ ""))
    | .onAny g event _ _ =>
        inferInstanceAs (Decidable (c.owns g = true → event ≠ "" ∧ event ≠ "bridge_error"))
    | .close reason =>
        inferInstanceAs (Decidable (c.closed = false → c.active ≠ none → reason ≠ ""))
    | .setFailure failure => inferInstanceAs (Decidable (failure ≠ some ""))
    | .app .. | .handleMessage .. | .disconnectSocket .. | .notify .. | .emitted ..
    | .emitFinally .. | .arrive .. | .onMessageError | .onConnect .. | .onDisconnect ..
    | .acknowledge .. | .setPort .. => .isTrue trivial
  inferInstanceAs (Decidable ((i.draws = true → c.nextGeneration + 1 < 2 ^ 53) ∧ _))

/-- The id of an acknowledgement has a text around its numbers. -/
theorem ackName_ne_empty (side : String) (g n : Nat) : ackName side g n ≠ "" := by
  intro he
  have hlen := congrArg String.length he
  simp [ackName] at hlen

/-- The next generation is safe while there are fewer than 2^53. -/
theorem isGeneration_next {n : Nat} (h : n + 1 < 2 ^ 53) : isGeneration (n + 1 : Nat) = true := by
  simp only [isGeneration, Bool.and_eq_true, decide_eq_true_eq]
  omega

/-- The live generation has a request id and is a safe integer. -/
theorem HostCore.Legible.owned {c : HostCore} (h : c.Legible) {g : Generation}
    (ho : c.owns g = true) : (c.states g).requestId ≠ "" ∧ isGeneration g = true := by
  simp only [HostCore.owns, Bool.and_eq_true, decide_eq_true_eq] at ho
  exact h.created g (h.active g ho.2)

/-- What is done for the live generation only need be in order for that one. -/
theorem HostCore.Legible.withOwner {c : HostCore} (h : c.Legible) {generation : Generation}
    {requestId : Option String} {f : Generation → Effect HostCore HostInstr}
    (hf : ∀ g, c.active = some g → (f g).core.Legible) :
    (c.withOwner generation requestId f).core.Legible := by
  unfold HostCore.withOwner
  split
  · rename_i g hg
    exact hf g ((HostCore.owner_ok hg).1 ▸ (HostCore.owner_ok hg).2)
  · exact h
  · rename_i error herr
    refine h.reportBridgeError ?_
    unfold HostCore.owner at herr
    split at herr
    · split at herr
      · cases herr
      · cases herr
        decide
    · split at herr
      · cases herr
      · split at herr
        · cases herr
          decide
        · split at herr
          · cases herr
            decide
          · cases herr

/-- An acknowledgement function keeps its id or is used up. -/
theorem HostCore.Legible.setReference {c : HostCore} (h : c.Legible) (r : ReferenceId)
    {f : Reference → Reference}
    (hf : ∀ x, (f x).state = none ∨ ((f x).state = x.state ∧ (f x).ackId = x.ackId)) :
    (c.setReference r f).Legible := by
  refine { h with references := fun k g hk => ?_ }
  simp only [HostCore.setReference, modify_apply] at hk ⊢
  split at hk
  · rename_i hkr
    rw [if_pos hkr]
    rcases hf (c.references r) with hn | ⟨hst, hid⟩
    · rw [hn] at hk
      cases hk
    · rw [hid]
      exact h.references r g (hst ▸ hk)
  · rename_i hkr
    rw [if_neg hkr]
    exact h.references k g hk

/-- An event may carry the id of an acknowledgement. -/
theorem HostCore.Legible.handleClientEvent {c : HostCore} (h : c.Legible) (g k : Generation)
    {ackId : Option String} (hk : ackId ≠ some "") :
    (c.handleClientEvent g k ackId).core.Legible := by
  have h' : (c.setState g fun s => { s with early := s.early || !s.opened }).Legible :=
    h.setState (fun _ => rfl) fun _ => Or.inl rfl
  unfold HostCore.handleClientEvent
  dsimp only
  split
  · exact { h' with }
  · refine { h' with references := fun r x hx => ?_ }
    simp only [Function.update_apply] at hx ⊢
    split at hx
    · rename_i hr
      rw [if_pos hr]
      exact fun he => hk (congrArg some he)
    · rename_i hr
      rw [if_neg hr]
      exact h.references r x hx

/-- The answer of an acknowledgement names its id. -/
theorem HostCore.Legible.runAcknowledgement {c : HostCore} (h : c.Legible) (g k : Generation)
    (ackId : String) : (c.runAcknowledgement g k ackId).Legible := by
  unfold HostCore.runAcknowledgement
  split
  · exact h
  · have h' : (c.setState g fun s => { s with
        pendingServerAcknowledgements := s.pendingServerAcknowledgements.erase ackId }).Legible :=
      h.setState (fun _ => rfl) fun _ => Or.inl rfl
    exact { h' with }

/-- **The host keeps its messages in order.** -/
theorem hostExec_legible {c : HostCore} (h : c.Legible) {i : HostInstr} (hs : i.Supplied c)
    (hl : i.Legible c) : (hostExec i c).core.Legible := by
  obtain ⟨hdraw, hl⟩ := hl
  cases i with
  | handleMessage value =>
      simp only [hostExec, HostCore.handleMessage]
      split
      · exact h
      · split
        · rename_i error hread
          exact h.reportBridgeError (readSharedWorkerPageMessage_explains value _ hread)
        · rename_i requestId _ _ hread
          have hg : isGeneration (c.nextGeneration + 1 : Nat) = true :=
            isGeneration_next (hdraw (by simp [HostInstr.draws, hread]))
          have hr : requestId ≠ "" := (readSharedWorkerPageMessage_wellFormed hread).1
          unfold HostCore.connect
          split
          · exact h.connectRest hr hg none
          · exact h.disconnect _ (by decide) _ (fun he => hr (Option.some.inj he)) fun _ => hg
        · rename_i hread
          have hk := (readSharedWorkerPageMessage_wellFormed hread).2.2.2
          exact h.withOwner fun g _ => h.handleClientEvent g _ hk
        · exact h.withOwner fun g _ => h.runAcknowledgement g _ _
        · rename_i hread
          have hr := (readSharedWorkerPageMessage_wellFormed hread).2.2
          exact h.withOwner fun g _ => h.disconnect g hr _ (by simp) (by simp)
        · exact h
  | notify g reason next =>
      obtain ⟨hc, hr, hn⟩ := hs
      have hmsg : (Message.disconnected (c.states g).requestId g reason).WellFormed :=
        ⟨(h.created g hc).1, (h.created g hc).2, hr⟩
      refine (h.post hmsg rfl).continue hn (fun hne => ?_) (some g)
      rw [HostCore.post_nextGeneration]
      exact isGeneration_next (hdraw (by cases next <;> simp_all [HostInstr.draws]))
  | emitFinally r =>
      simp only [hostExec]
      split
      · exact h
      · exact h.setReference r fun x => Or.inl rfl
  | emitted r => exact h.setReference r fun x => Or.inr ⟨rfl, rfl⟩
  | onMessageError =>
      simp only [hostExec]
      split
      · exact h
      · exact h.reportBridgeError (by decide)
  | onConnect g id =>
      have h' : (c.setState g fun s => { s with opened := true }).Legible :=
        h.setState (fun _ => rfl) fun _ => Or.inl rfl
      simp only [hostExec, HostCore.onConnect]
      split
      · exact h'
      · rename_i ho
        have ho : (c.setState g fun s => { s with opened := true }).owns g = true := by simpa using ho
        have hp := h'.post (m := .connected _ g id) ⟨(h'.owned ho).1, (h'.owned ho).2, hs.2⟩ rfl
        split
        · exact hp
        · exact hp.disconnect g (by decide) _ (by simp) (by simp)
  | onConnectError g error =>
      simp only [hostExec, HostCore.onConnectError]
      split
      · exact h
      · rename_i ho
        have ho : c.owns g = true := by simpa using ho
        exact (h.post (m := .connectError _ g error) ⟨(h.owned ho).1, (h.owned ho).2, hl ho⟩ rfl).finish
          _ _ _ _ (by simp) (by simp)
  | onDisconnect g reason => exact h.finish _ _ _ _ (by simp) (by simp)
  | onAny g event args asksAnswer =>
      simp only [hostExec, HostCore.forwardServerEvent]
      split
      · exact h
      · rename_i ho
        have ho : c.owns g = true := by simpa using ho
        have hm : ∀ k, k ≠ some "" → (Message.serverEvent g event args k).WellFormed := fun k hk =>
          ⟨(h.owned ho).2, ⟨(hl ho).1, hs.1, (hl ho).2⟩, hs.2, hk⟩
        split
        · have hset := h.setState (g := g) (f := fun s =>
            { s with
              nextAcknowledgement := (c.states g).nextAcknowledgement + 1
              pendingServerAcknowledgements := s.pendingServerAcknowledgements.set
                (ackName "server" g ((c.states g).nextAcknowledgement + 1)) c.eventCount })
            (fun _ => rfl) fun _ => Or.inl rfl
          have hp := HostCore.Legible.post (c := { c.setState g _ with
              eventCount := c.eventCount + 1
              log := .forwarded c.eventCount g
                (ackName "server" g ((c.states g).nextAcknowledgement + 1)) :: c.log }) { hset with }
            (hm (some (ackName "server" g ((c.states g).nextAcknowledgement + 1)))
              fun he => ackName_ne_empty _ _ _ (Option.some.inj he)) rfl
          split
          · exact hp
          · exact hp.setState (fun _ => rfl) fun _ => Or.inl rfl
        · exact h.post (hm none (by intro h; cases h)) rfl
  | acknowledge r args =>
      have h' : (c.setReference r fun x => { x with answered := true, state := none }).Legible :=
        h.setReference r fun _ => Or.inl rfl
      simp only [hostExec, HostCore.acknowledge]
      split
      · exact h
      · split
        · exact h'
        · rename_i g hg
          split
          · exact h'
          · rename_i ho
            have ho : (c.setReference r fun x => { x with answered := true, state := none }).owns g =
              true := by simpa using ho
            exact h'.post (m := .acknowledgement g .client _ args)
              ⟨(h'.owned ho).2, h.references r g hg, hs⟩ rfl
  | close reason =>
      have h' : HostCore.Legible { c with closed := true } := { h with }
      simp only [hostExec, HostCore.close]
      split
      · exact h
      · rename_i hc
        split
        · exact h'
        · rename_i g ha
          refine h'.disconnect g (hl (by simpa using hc) fun hn => ?_) _ (by simp) (by simp)
          rw [show c.active = some g from ha] at hn
          cases hn
  | setFailure failure => exact { h with failure := hl }
  | _ => exact { h with }

/-- The end of a generation lets its socket go and tells the page. -/
theorem HostCore.finish_spawned {c : HostCore} {g : Generation} {reason : String}
    {notify disconnectSocket : Bool} {next : Option String} {j : HostInstr}
    (hj : j ∈ (c.finish g reason notify disconnectSocket next).spawned) :
    j = .disconnectSocket g ∨ j = .notify g reason next := by
  unfold HostCore.finish at hj
  split at hj
  · cases hj
  · simp only [Effect.spawned, List.append_nil, List.mem_append] at hj
    refine hj.imp (fun hj => ?_) fun hj => ?_
    · split at hj
      · exact List.mem_singleton.mp hj
      · cases hj
    · split at hj
      · exact List.mem_singleton.mp hj
      · cases hj

/-- What ends a generation brings its reason with it. -/
theorem supplied_of_finish {c c' : HostCore} {g : Generation} {reason : String}
    {notify disconnectSocket : Bool} {next : Option String} {j : HostInstr}
    (hj : j ∈ (c'.finish g reason notify disconnectSocket next).spawned) (hc : c.created g = true)
    (hr : reason ≠ "") (hn : next ≠ some "") : j.Supplied c := by
  rcases HostCore.finish_spawned hj with rfl | rfl
  · exact hc
  · exact ⟨hc, hr, hn⟩

/-- What has been created stays created. -/
theorem HostInstr.Supplied.mono {c c' : HostCore} {j : HostInstr} (h : j.Supplied c)
    (hc : ∀ g, c.created g = true → c'.created g = true) : j.Supplied c' := by
  cases j with
  | disconnectSocket g => exact hc g h
  | onConnect g id => exact ⟨hc g h.1, h.2⟩
  | onDisconnect g reason => exact ⟨hc g h.1, h.2⟩
  | notify g reason next => exact ⟨hc g h.1, h.2⟩
  | onAny g event args asksAnswer => exact h
  | acknowledge r args => exact h
  | _ => trivial

/-- What an instruction of the host leaves pending knows its texts. -/
theorem hostExec_supplied {c : HostCore} (h : c.Legible) {i j : HostInstr} (hs : i.Supplied c)
    (hl : i.Legible c) (hj : j ∈ (hostExec i c).spawned) : j.Supplied (hostExec i c).core := by
  refine HostInstr.Supplied.mono ?_ (hostExec_grows h.drawn i).created
  cases i with
  | handleMessage value =>
      simp only [hostExec, HostCore.handleMessage] at hj
      split at hj
      · cases hj
      · split at hj
        · cases hj
        · rename_i hread
          have hr := (readSharedWorkerPageMessage_wellFormed hread).1
          unfold HostCore.connect at hj
          split at hj
          · cases hj
          · rename_i g ha
            exact supplied_of_finish hj (h.active g ha) (by decide) fun he => hr (Option.some.inj he)
        · unfold HostCore.withOwner at hj
          split at hj
          · unfold HostCore.handleClientEvent at hj
            dsimp only at hj
            split at hj
            · rw [List.mem_singleton.mp hj]
              trivial
            · simp only [Effect.spawned, List.append_nil, List.mem_cons, List.not_mem_nil,
                or_false] at hj
              rcases hj with rfl | rfl | rfl <;> trivial
          · cases hj
          · cases hj
        · unfold HostCore.withOwner at hj
          split at hj <;> cases hj
        · rename_i hread
          have hr := (readSharedWorkerPageMessage_wellFormed hread).2.2
          unfold HostCore.withOwner at hj
          split at hj
          · rename_i g hg
            obtain ⟨rfl, ha⟩ := HostCore.owner_ok hg
            exact supplied_of_finish hj (h.active _ ha) hr (by intro h; cases h)
          · cases hj
          · cases hj
        · cases hj
  | disconnectSocket g =>
      simp only [hostExec, HostCore.disconnectSocket, Effect.spawned, List.append_nil] at hj
      split at hj
      · rw [List.mem_singleton.mp hj]
        exact ⟨hs, by decide⟩
      · rw [List.mem_singleton.mp hj]
        trivial
  | arrive value =>
      rw [List.mem_singleton.mp hj]
      trivial
  | onConnect g id =>
      simp only [hostExec, HostCore.onConnect] at hj
      split at hj
      · rw [List.mem_singleton.mp hj]
        exact hs.1
      · split at hj
        · cases hj
        · exact supplied_of_finish hj hs.1 (by decide) (by intro h; cases h)
  | onConnectError g error =>
      simp only [hostExec, HostCore.onConnectError] at hj
      split at hj
      · cases hj
      · rename_i ho
        have ho : c.owns g = true := by simpa using ho
        simp only [HostCore.owns, Bool.and_eq_true, decide_eq_true_eq] at ho
        exact supplied_of_finish hj (h.active g ho.2) (by decide) (by intro h; cases h)
  | onDisconnect g reason =>
      refine supplied_of_finish hj hs.1 ?_ (by intro h; cases h)
      cases hd : (c.states g).disconnectReason with
      | none => exact hs.2
      | some r => exact h.reason g r hd
  | close reason =>
      simp only [hostExec, HostCore.close] at hj
      split at hj
      · cases hj
      · rename_i hc
        split at hj
        · cases hj
        · rename_i g ha
          refine supplied_of_finish hj (h.active g ha) (hl.2 (by simpa using hc) fun hn => ?_)
            (by intro h; cases h)
          rw [show c.active = some g from ha] at hn
          cases hn
  | _ => cases hj

/-- **Every message of the host is in order**, in a run that is given no empty text. -/
theorem host_legible : Inductive host (fun c i => i.Legible c) HostCore.Legible
    (fun c i => i.Supplied c) fun _ => (none : Option Unit) := by
  refine .of_facts (fun c i h => hostExec_legible h.inv h.ok h.good)
    (fun c i h j hj => hostExec_supplied h.inv h.ok h.good hj) (fun c i j h hj => ?_)
    (fun c i h hc => ?_) (fun c i is _ _ his => ?_) fun c i hi => ?_
  · exact HostInstr.Supplied.mono hj (hostExec_grows h.inv.drawn i).created
  · cases i with
    | onConnect g id =>
        simp only [host, hostCallable, Bool.and_eq_true, decide_eq_true_eq] at hc
        exact hc
    | onDisconnect g reason =>
        simp only [host, hostCallable, Bool.and_eq_true] at hc
        refine ⟨hc.1, fun he => ?_⟩
        rw [he] at hc
        exact absurd hc.2 (by decide)
    | onAny g event args asksAnswer =>
        simp only [host, hostCallable, Bool.and_eq_true, Bool.not_eq_true'] at hc
        exact ⟨by simpa using hc.1.2, hc.2⟩
    | acknowledge r args => exact (Bool.and_eq_true_iff.mp hc).2
    | disconnectSocket g => cases hc
    | notify g reason next => cases hc
    | _ => trivial
  · cases i <;> cases his
  · cases i with
    | emitFinally r => exact ⟨(by intro h; cases h), trivial⟩
    | _ => cases hi

/-- A host that has just been attached has posted nothing. -/
theorem attached_legible : HostCore.Legible {} where
  posted _ := nofun
  active _ := nofun
  drawn _ := nofun
  created _ := nofun
  reason _ _ := nofun
  references _ _ := nofun
  failure := nofun

/-! ## 4. Every run -/

/-- **The writers produce what the readers accept.** Whatever the application calls on the page,
    every message the page hands to its port is accepted by the reader of page messages. In every
    run of a host that is given no empty text to put into a message and no event called
    `bridge_error`, and that draws fewer than 2^53 generations, every message on its port is
    accepted by the reader of host messages. -/
theorem writers_accepted (m : Message) :
    (∀ C url auth lifecycle π, page.Reach C (opened url auth lifecycle) π →
      m ∈ π.core.posted → readSharedWorkerPageMessage m.toValue = .ok m) ∧
    ∀ σ, host.Reach (host.Obeys fun c i => i.Legible c) attached σ →
      m ∈ σ.core.posted → readSharedWorkerHostMessage m.toValue = .ok m := by
  refine ⟨fun C url auth lifecycle π h => reach_accepted h m, fun σ h hm => ?_⟩
  have hl := (h.inv_ok host_legible (fun _ _ => id) ⟨attached_legible, fun _ hj => (by cases hj),
    .nil⟩).inv
  exact readSharedWorkerHostMessage_accepts.mpr (hl.posted m hm)

/-- A page connects, hears an event and goes; a host tells it so. -/
theorem writers_accepted_run :
    (∃ π, page.Reach (fun _ _ => True) (opened "http://h/" (.object []) true) π ∧
      π.core.posted.length = 1 ∧
      ∀ m ∈ π.core.posted, readSharedWorkerPageMessage m.toValue = .ok m) ∧
    ∃ σ, host.Reach (host.Obeys fun c i => i.Legible c) attached σ ∧ σ.core.posted.length = 3 ∧
      ∀ m ∈ σ.core.posted, readSharedWorkerHostMessage m.toValue = .ok m := by
  obtain ⟨π, hπ, hp⟩ := reach_of_script page (fun _ _ => True)
    (opened "http://h/" (.object []) true) 100 [] (fun π => decide (π.core.posted.length = 1))
    (by decide)
  obtain ⟨σ, hσ, hs⟩ := reach_of_script host (host.Obeys fun c i => i.Legible c) attached 100
    [.call (.arrive (Message.connect "page:1" "http://h/" (.object [])).toValue), .run,
      .call (.onConnect 1 "id"), .call (.onAny 1 "news" [] true),
      .call (.onDisconnect 1 "io server disconnect")]
    (fun σ => decide (σ.core.posted.length = 3)) (by decide)
  exact ⟨⟨π, hπ, of_decide_eq_true hp, fun m => (writers_accepted m).1 _ _ _ _ π hπ⟩, σ, hσ,
    of_decide_eq_true hs, fun m => (writers_accepted m).2 σ hσ⟩

/-- A connection middleware rejects with an error whose message is empty; the CONNECT_ERROR of the
    host is refused by its reader. -/
theorem writers_refused :
    ∃ σ, host.Reach (fun _ _ => True) attached σ ∧
      ∃ m ∈ σ.core.posted, ∀ m', readSharedWorkerHostMessage m.toValue ≠ .ok m' := by
  obtain ⟨σ, hσ, hs⟩ := reach_of_script host (fun _ _ => True) attached 100
    [.call (.arrive (Message.connect "page:1" "http://h/" (.object [])).toValue), .run,
      .call (.onConnectError 1 "")]
    (fun σ => σ.core.posted.any fun m =>
      match readSharedWorkerHostMessage m.toValue with
      | .ok _ => false
      | .error _ => true)
    (by decide)
  obtain ⟨m, hm, hread⟩ := List.any_eq_true.mp hs
  refine ⟨σ, hσ, m, hm, fun m' he => ?_⟩
  simp [he] at hread

end Smocket.SharedWorker
