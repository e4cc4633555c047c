import Smocket.SharedWorker.Bridge

/-
  File:      Smocket/SharedWorker/Isolation.lean
  Subject:   TRAFFIC NEVER CROSSES GENERATIONS, whatever is in flight. Each end checks what it is
             sent against the generation it is in; neither relies on the other.

  * `hostExec_tracks` -- every instruction of the host keeps its log in order;
  * `traffic_isolated` -- acknowledgements are run once and in their generation, events are passed
    on in theirs.
-/

namespace Smocket.SharedWorker

open Ordered EventLoop EventLoop.Machine

/-! ## 1. What the host keeps -/

/-- The generations drawn, newest first. -/
def HostCore.generations (c : HostCore) : List Generation :=
  c.log.filterMap fun
    | .started g _ => some g
    | _ => none

def HostEvent.isAnswered (e : EventId) : HostEvent → Bool
  | .answered x .. => decide (x = e)
  | _ => false

/-- The event waits for an answer. -/
def HostCore.Awaits (c : HostCore) (g : Generation) (ackId : String) (e : EventId) : Prop :=
  (c.states g).pendingServerAcknowledgements.get? ackId = some e

/-- What the log of the host says. -/
structure HostCore.Tracks (c : HostCore) : Prop where
  drawn : ∀ g ∈ c.generations, g ≤ c.nextGeneration
  rising : c.generations.Pairwise (· > ·)
  awaits : ∀ g ackId e, c.Awaits g ackId e → .forwarded e g ackId ∈ c.log
  forwarded : ∀ e g ackId, .forwarded e g ackId ∈ c.log → e < c.eventCount
  forwardedOnce : ∀ e g ackId g' ackId', .forwarded e g ackId ∈ c.log →
    .forwarded e g' ackId' ∈ c.log → g = g' ∧ ackId = ackId'
  answered : ∀ e k ackId active, .answered e k ackId active ∈ c.log →
    active = some k ∧ .forwarded e k ackId ∈ c.log ∧ ¬c.Awaits k ackId e
  answeredOnce : ∀ e, (c.log.filter (·.isAnswered e)).length ≤ 1
  emitted : ∀ k g active, .emitted k g active ∈ c.log → g = k ∧ active = some k

/-- A step that logs nothing, and lets no event wait that did not. -/
theorem HostCore.Tracks.frame {c c' : HostCore} (h : c.Tracks) (hl : c'.log = c.log)
    (hn : c'.nextGeneration = c.nextGeneration) (he : c'.eventCount = c.eventCount)
    (ha : ∀ g ackId e, c'.Awaits g ackId e → c.Awaits g ackId e) : c'.Tracks := by
  have hg : c'.generations = c.generations := by rw [HostCore.generations, hl]; rfl
  exact
    { drawn := by rw [hg, hn]; exact h.drawn
      rising := hg ▸ h.rising
      awaits := fun g ackId e hx => hl ▸ h.awaits g ackId e (ha g ackId e hx)
      forwarded := by rw [hl, he]; exact h.forwarded
      forwardedOnce := by rw [hl]; exact h.forwardedOnce
      answered := fun e k ackId active hx => by
        rw [hl] at hx ⊢
        obtain ⟨hk, hf, hw⟩ := h.answered e k ackId active hx
        exact ⟨hk, hf, fun hx => hw (ha k ackId e hx)⟩
      answeredOnce := by rw [hl]; exact h.answeredOnce
      emitted := by rw [hl]; exact h.emitted }

theorem HostCore.Tracks.post {c : HostCore} (h : c.Tracks) (m : Message) : (c.post m).1.Tracks := by
  unfold HostCore.post
  split
  · exact { h with }
  · split <;> exact { h with }
  · exact h

/-- A change of a state that lets no event wait. -/
theorem HostCore.Tracks.setState {c : HostCore} (h : c.Tracks) {g : Generation}
    {f : ConnectionState → ConnectionState}
    (hf : ∀ s ackId e, (f s).pendingServerAcknowledgements.get? ackId = some e →
      s.pendingServerAcknowledgements.get? ackId = some e) : (c.setState g f).Tracks := by
  refine h.frame rfl rfl rfl fun k ackId e hw => ?_
  simp only [HostCore.Awaits, HostCore.setState, modify_apply] at hw ⊢
  split at hw
  · rename_i hk
    exact hf _ _ _ (hk ▸ hw)
  · exact hw

/-- A connect draws a larger generation than all before it. -/
theorem HostCore.Tracks.connectRest {c : HostCore} (h : c.Tracks) (requestId : String)
    (replaced : Option Generation) : (c.connectRest requestId replaced).Tracks := by
  have hlog : HostCore.Tracks { c with
      nextGeneration := c.nextGeneration + 1
      log := .started (c.nextGeneration + 1) replaced :: c.log } :=
    { h with
      drawn := fun g hg => (List.mem_cons.mp hg).elim Nat.le_of_eq fun hg =>
        Nat.le_succ_of_le (h.drawn g hg)
      rising := List.pairwise_cons.mpr ⟨fun g hg => Nat.lt_succ_of_le (h.drawn g hg), h.rising⟩
      awaits := fun g ackId e hw => List.mem_cons_of_mem _ (h.awaits g ackId e hw)
      forwarded := fun e g ackId hx => h.forwarded e g ackId ((List.mem_cons.mp hx).resolve_left nofun)
      forwardedOnce := fun e g ackId g' ackId' hx hx' => h.forwardedOnce e g ackId g' ackId'
        ((List.mem_cons.mp hx).resolve_left nofun) ((List.mem_cons.mp hx').resolve_left nofun)
      answered := fun e k ackId active hx => by
        obtain ⟨hk, hf, hw⟩ :=
          h.answered e k ackId active ((List.mem_cons.mp hx).resolve_left nofun)
        exact ⟨hk, List.mem_cons_of_mem _ hf, hw⟩
      answeredOnce := h.answeredOnce
      emitted := fun k g active hx => h.emitted k g active ((List.mem_cons.mp hx).resolve_left nofun) }
  unfold HostCore.connectRest
  dsimp only
  split
  · exact hlog.post _
  · refine hlog.frame rfl rfl rfl fun k ackId e hw => ?_
    simp only [HostCore.Awaits, Function.update_apply] at hw ⊢
    split at hw
    · cases hw
    · exact hw

theorem HostCore.Tracks.continue {c : HostCore} (h : c.Tracks) (next : Option String)
    (replaced : Option Generation) : (c.continue next replaced).Tracks := by
  unfold HostCore.continue
  split
  · exact h
  · exact h.connectRest _ _

theorem HostCore.Tracks.finish {c : HostCore} (h : c.Tracks) (g : Generation) (reason : String)
    (notify disconnectSocket : Bool) (next : Option String) :
    (c.finish g reason notify disconnectSocket next).core.Tracks := by
  unfold HostCore.finish
  split
  · exact h.continue _ _
  · have hset := h.setState (g := g) (f := fun s =>
      { s with finished := true, pendingServerAcknowledgements := .empty }) fun _ _ _ hx => by cases hx
    exact { hset with }

theorem HostCore.Tracks.disconnect {c : HostCore} (h : c.Tracks) (g : Generation) (reason : String)
    (notify : Bool) (next : Option String) : (c.disconnect g reason notify next).core.Tracks :=
  (h.setState (g := g) (f := fun s => { s with disconnectReason := some reason })
    fun _ _ _ hx => hx).finish g reason notify true next

/-- A client event is emitted for the generation that is active. -/
theorem HostCore.Tracks.handleClientEvent {c : HostCore} (h : c.Tracks) {g k : Generation}
    (hk : g = k) (hg : c.active = some g) (ackId : Option String) :
    (c.handleClientEvent g k ackId).core.Tracks := by
  subst hk
  have hset := h.setState (g := g) (f := fun s => { s with early := s.early || !s.opened })
    fun _ _ _ hx => hx
  have hlog : HostCore.Tracks { c.setState g fun s => { s with early := s.early || !s.opened } with
      log := .emitted g g c.active :: c.log } :=
    { hset with
      awaits := fun g ackId e hw => List.mem_cons_of_mem _ (hset.awaits g ackId e hw)
      forwarded := fun e g ackId hx =>
        hset.forwarded e g ackId ((List.mem_cons.mp hx).resolve_left nofun)
      forwardedOnce := fun e g ackId g' ackId' hx hx' => hset.forwardedOnce e g ackId g' ackId'
        ((List.mem_cons.mp hx).resolve_left nofun) ((List.mem_cons.mp hx').resolve_left nofun)
      answered := fun e k ackId active hx => by
        obtain ⟨hk, hf, hw⟩ :=
          hset.answered e k ackId active ((List.mem_cons.mp hx).resolve_left nofun)
        exact ⟨hk, List.mem_cons_of_mem _ hf, hw⟩
      answeredOnce := hset.answeredOnce
      emitted := fun k g' active hx => by
        rcases List.mem_cons.mp hx with hx | hx
        · obtain ⟨rfl, rfl, rfl⟩ := HostEvent.emitted.inj hx
          exact ⟨rfl, hg⟩
        · exact h.emitted k g' active hx }
  unfold HostCore.handleClientEvent
  dsimp only
  split
  · exact hlog
  · exact { hlog with }

/-- An answer is run once: its event waited, and waits no more. -/
theorem HostCore.Tracks.runAcknowledgement {c : HostCore} (h : c.Tracks) {g k : Generation}
    (hk : g = k) (hg : c.active = some g) (ackId : String) :
    (c.runAcknowledgement g k ackId).Tracks := by
  subst hk
  unfold HostCore.runAcknowledgement
  split
  · exact h
  · rename_i e he
    have hf := h.awaits g ackId e he
    have hset := h.setState (g := g) (f := fun s => { s with
        pendingServerAcknowledgements := s.pendingServerAcknowledgements.erase ackId })
      fun s k x hx => by
        dsimp only at hx
        rw [OMap.get?_erase] at hx
        split at hx
        · cases hx
        · exact hx
    refine { hset with
      awaits := fun k x n hw => List.mem_cons_of_mem _ (hset.awaits k x n hw)
      forwarded := fun n k x hx => hset.forwarded n k x ((List.mem_cons.mp hx).resolve_left nofun)
      forwardedOnce := fun n k x k' x' hx hx' => hset.forwardedOnce n k x k' x'
        ((List.mem_cons.mp hx).resolve_left nofun) ((List.mem_cons.mp hx').resolve_left nofun)
      answered := fun n k x active hx => ?_
      answeredOnce := fun n => ?_
      emitted := fun k g' active hx =>
        hset.emitted k g' active ((List.mem_cons.mp hx).resolve_left nofun) }
    · rcases List.mem_cons.mp hx with hx | hx
      · obtain ⟨rfl, rfl, rfl, rfl⟩ := HostEvent.answered.inj hx
        refine ⟨hg, List.mem_cons_of_mem _ hf, ?_⟩
        simp [HostCore.Awaits, HostCore.setState, OMap.get?_erase]
      · obtain ⟨hk, hf, hw⟩ := hset.answered n k x active hx
        exact ⟨hk, List.mem_cons_of_mem _ hf, hw⟩
    · dsimp only
      by_cases hn : e = n
      · subst hn
        have hnone : c.log.filter (·.isAnswered e) = [] := by
          refine List.filter_eq_nil_iff.mpr fun x hx hr => ?_
          cases x with
          | answered n k y active =>
              obtain rfl := of_decide_eq_true hr
              obtain ⟨-, hf', hw⟩ := h.answered n k y active hx
              obtain ⟨rfl, rfl⟩ := h.forwardedOnce n k y g ackId hf' hf
              exact hw he
          | _ => cases hr
        rw [List.filter_cons_of_pos (by simp [HostEvent.isAnswered])]
        exact Nat.le_of_eq (congrArg (·.length + 1) hnone)
      · rw [List.filter_cons_of_neg (by simpa [HostEvent.isAnswered] using hn)]
        exact h.answeredOnce n

/-- A forwarded event is a new one. -/
theorem HostCore.Tracks.forwardServerEvent {c : HostCore} (h : c.Tracks) (g : Generation)
    (event : String) (args : List JsValue) (asksAnswer : Bool) :
    (c.forwardServerEvent g event args asksAnswer).Tracks := by
  unfold HostCore.forwardServerEvent
  split
  · exact h
  · split
    · dsimp only
      generalize hn : (c.states g).nextAcknowledgement + 1 = n
      have hlog : HostCore.Tracks { c.setState g fun s =>
          { s with
            nextAcknowledgement := n
            pendingServerAcknowledgements :=
              s.pendingServerAcknowledgements.set (ackName "server" g n) c.eventCount } with
          eventCount := c.eventCount + 1
          log := .forwarded c.eventCount g (ackName "server" g n) :: c.log } := by
        have hnew : ∀ {e k x}, .forwarded e k x ∈ c.log → e ≠ c.eventCount := fun hx =>
          Nat.ne_of_lt (h.forwarded _ _ _ hx)
        have hold : ∀ {e k x}, .forwarded e k x ∈
            .forwarded c.eventCount g (ackName "server" g n) :: c.log → e ≠ c.eventCount →
            .forwarded e k x ∈ c.log := fun hx hne =>
          (List.mem_cons.mp hx).resolve_left fun hx => hne (HostEvent.forwarded.inj hx).1
        have hwaits : ∀ {k x e}, (c.setState g fun s =>
            { s with
              nextAcknowledgement := n
              pendingServerAcknowledgements := s.pendingServerAcknowledgements.set
                (ackName "server" g n) c.eventCount }).Awaits k x e →
            (k = g ∧ x = ackName "server" g n ∧ e = c.eventCount) ∨ c.Awaits k x e := by
          intro k x e hw
          simp only [HostCore.Awaits, HostCore.setState, modify_apply] at hw ⊢
          split at hw
          · rename_i hk
            dsimp only at hw
            rw [OMap.get?_set] at hw
            split at hw
            · rename_i hx
              exact Or.inl ⟨hk, hx, (Option.some.inj hw).symm⟩
            · exact Or.inr (hk ▸ hw)
          · exact Or.inr hw
        refine { h with
          awaits := fun k x e hw => ?_
          forwarded := fun e k x hx => ?_
          forwardedOnce := fun e k x k' x' hx hx' => ?_
          answered := fun e k x active hx => ?_
          answeredOnce := h.answeredOnce
          emitted := fun k g' active hx =>
            h.emitted k g' active ((List.mem_cons.mp hx).resolve_left (by intro h; cases h)) }
        · rcases hwaits hw with ⟨rfl, rfl, rfl⟩ | hw
          · exact List.mem_cons_self
          · exact List.mem_cons_of_mem _ (h.awaits k x e hw)
        · rcases List.mem_cons.mp hx with hx | hx
          · rw [(HostEvent.forwarded.inj hx).1]
            exact Nat.lt_succ_self _
          · exact Nat.lt_succ_of_lt (h.forwarded e k x hx)
        · by_cases hne : e = c.eventCount
          · subst hne
            have heq : ∀ {k x}, .forwarded c.eventCount k x ∈
                .forwarded c.eventCount g (ackName "server" g n) :: c.log →
                k = g ∧ x = ackName "server" g n := fun hx =>
              (HostEvent.forwarded.inj ((List.mem_cons.mp hx).resolve_right fun hx => hnew hx rfl)).2
            exact ⟨(heq hx).1.trans (heq hx').1.symm, (heq hx).2.trans (heq hx').2.symm⟩
          · exact h.forwardedOnce e k x k' x' (hold hx hne) (hold hx' hne)
        · obtain ⟨hk, hf, hw⟩ :=
            h.answered e k x active ((List.mem_cons.mp hx).resolve_left (by intro h; cases h))
          refine ⟨hk, List.mem_cons_of_mem _ hf, fun hx => ?_⟩
          rcases hwaits hx with ⟨-, -, he⟩ | hx
          · exact hnew hf he
          · exact hw hx
      split
      · exact hlog.post _
      · refine (hlog.post _).setState fun s k x hx => ?_
        dsimp only at hx
        rw [OMap.get?_erase] at hx
        split at hx
        · cases hx
        · exact hx
    · exact h.post _

theorem HostCore.Tracks.withOwner {c : HostCore} (h : c.Tracks) {generation : Generation}
    {requestId : Option String} {f : Generation → Effect HostCore HostInstr}
    (hf : ∀ g, g = generation → c.active = some g → (f g).core.Tracks) :
    (c.withOwner generation requestId f).core.Tracks := by
  unfold HostCore.withOwner
  split
  · rename_i g hg
    exact hf g (HostCore.owner_ok hg).1 ((HostCore.owner_ok hg).2)
  · exact h
  · exact h.post _

/-- **Every instruction of the host keeps the log in order**, whatever it is sent. -/
theorem hostExec_tracks {c : HostCore} (h : c.Tracks) (i : HostInstr) :
    (hostExec i c).core.Tracks := by
  cases i with
  | handleMessage value =>
      simp only [hostExec, HostCore.handleMessage]
      split
      · exact h
      · split
        · exact h.post _
        · unfold HostCore.connect
          split
          · exact h.connectRest _ _
          · exact h.disconnect _ _ _ _
        · exact h.withOwner fun g hk hg => h.handleClientEvent hk hg _
        · exact h.withOwner fun g hk hg => h.runAcknowledgement hk hg _
        · exact h.withOwner fun g _ _ => h.disconnect _ _ _ _
        · exact h
  | notify g reason next => exact (h.post _).continue _ _
  | emitFinally r =>
      simp only [hostExec]
      split
      · exact h
      · exact { h with }
  | onMessageError =>
      simp only [hostExec]
      split
      · exact h
      · exact h.post _
  | onConnect g id =>
      have hset := h.setState (g := g) (f := fun s => { s with opened := true }) fun _ _ _ hx => hx
      simp only [hostExec, HostCore.onConnect]
      split
      · exact hset
      · split
        · exact hset.post _
        · exact (hset.post _).disconnect _ _ _ _
  | onConnectError g error =>
      simp only [hostExec, HostCore.onConnectError]
      split
      · exact h
      · exact (h.post _).finish _ _ _ _ _
  | onDisconnect g reason => exact h.finish _ _ _ _ _
  | onAny g event args asksAnswer => exact h.forwardServerEvent _ _ _ _
  | acknowledge r args =>
      have hset : (c.setReference r fun x => { x with answered := true, state := none }).Tracks :=
        { h with }
      simp only [hostExec, HostCore.acknowledge]
      split
      · exact h
      · split
        · exact hset
        · split
          · exact hset
          · exact hset.post _
  | close reason =>
      have hclosed : HostCore.Tracks { c with closed := true } := { h with }
      simp only [hostExec, HostCore.close]
      split
      · exact h
      · split
        · exact hclosed
        · exact hclosed.disconnect _ _ _ _
  | _ => exact { h with }

theorem host_tracks :
    host.Line (fun _ _ => True) HostCore.Tracks (fun _ _ => True) fun _ _ => True where
  core _ i hr := hostExec_tracks hr.inv i
  spawn _ _ _ _ _ := trivial
  stable _ _ _ _ _ _ := trivial
  call _ _ _ _ := trivial
  handle _ _ _ _ _ _ _ _ := trivial
  push _ _ _ _ _ _ _ _ := trivial
  post _ _ _ _ _ := trivial
  inner _ _ _ := List.pairwise_of_forall fun _ _ => trivial
  callRel _ _ _ _ := trivial
  handleRel _ _ _ _ := ⟨List.pairwise_of_forall fun _ _ => trivial, fun _ _ _ => trivial⟩
  free _ _ _ := trivial

theorem attached_tracks : HostCore.Tracks {} where
  drawn := nofun
  rising := List.Pairwise.nil
  awaits := nofun
  forwarded := nofun
  forwardedOnce := nofun
  answered := nofun
  answeredOnce _ := Nat.zero_le _
  emitted := nofun

/-! ## 2. Both ends -/

/-- What the page has done belongs to the generation it was in. -/
structure PageCore.Isolated (c : PageCore) : Prop where
  ranOnce : ∀ n, (c.log.filter (·.isRan n)).length ≤ 1
  ran : ∀ n k ackId live, .ran n k ackId live ∈ c.log →
    live = some k ∧ .sent n k ackId ∈ c.log ∧
      ∀ g ackId', .sent n g ackId' ∈ c.log → g = k ∧ ackId' = ackId
  dispatched : ∀ k live, .dispatched k live ∈ c.log → live = some k

/-- What the host has done belongs to the generation that was active; generations rise. -/
structure HostCore.Isolated (c : HostCore) : Prop where
  rising : c.generations.Pairwise (· > ·)
  answeredOnce : ∀ e, (c.log.filter (·.isAnswered e)).length ≤ 1
  answered : ∀ e k ackId active, .answered e k ackId active ∈ c.log →
    active = some k ∧ .forwarded e k ackId ∈ c.log ∧
      ∀ g ackId', .forwarded e g ackId' ∈ c.log → g = k ∧ ackId' = ackId
  emitted : ∀ k g active, .emitted k g active ∈ c.log → g = k ∧ active = some k

/-- **Traffic never crosses generations**: in every run of a page and a host over FIFO channels,
    with any delays, any calls and any ports, an acknowledgement is run at most once, by an answer
    of the generation and under the id it was sent with, while that generation is live; the page
    dispatches and the host emits only what belongs to the live generation; and every connect draws
    a larger generation. -/
theorem traffic_isolated (url : String) (auth : JsValue) (lifecycle : Bool) {σ : BridgeState}
    (h : bridge.Reach (fun _ _ => True) (joined url auth lifecycle) σ) :
    σ.left.core.Isolated ∧ σ.right.core.Isolated := by
  have hleft := h.lined_left page_line (fun _ _ _ _ _ _ _ => trivial) (fun _ _ => trivial)
    (fun _ _ => ⟨fun _ _ hn => (by cases hn), fun _ => rfl⟩) (opened_lined url auth lifecycle)
  have hright := h.lined_right host_tracks (fun _ _ _ _ _ _ _ => trivial) (fun _ _ => trivial)
    (fun _ _ => trivial) ⟨attached_tracks, fun _ _ => trivial, List.Pairwise.nil⟩
  refine ⟨⟨hleft.inv.ranOnce, fun n k ackId live hr => ?_, hleft.inv.dispatched⟩,
    ⟨hright.inv.rising, hright.inv.answeredOnce, fun e k ackId active hr => ?_,
      hright.inv.emitted⟩⟩
  · obtain ⟨hl, hs, -⟩ := hleft.inv.ran n k ackId live hr
    exact ⟨hl, hs, fun g ackId' hs' => hleft.inv.sentOnce n g ackId' k ackId hs' hs⟩
  · obtain ⟨hk, hf, -⟩ := hright.inv.answered e k ackId active hr
    exact ⟨hk, hf, fun g ackId' hf' => hright.inv.forwardedOnce e g ackId' k ackId hf' hf⟩

/-- Each end asks the other for an answer and gets it; then the page leaves and connects again. -/
theorem traffic_isolated_run :
    ∃ σ, bridge.Reach (fun _ _ => True) (joined "http://h/" (.object []) true) σ ∧
      σ.right.core.generations = [2, 1] ∧ (σ.left.core.log.filter (·.isRan 0)).length = 1 ∧
      (σ.right.core.log.filter (·.isAnswered 0)).length = 1 ∧
      σ.left.core.Isolated ∧ σ.right.core.Isolated := by
  obtain ⟨σ, hσ, hp⟩ : ∃ σ, bridge.Reach (fun _ _ => True) (joined "http://h/" (.object []) true) σ ∧
      (decide (σ.right.core.generations = [2, 1]) &&
        decide ((σ.left.core.log.filter (·.isRan 0)).length = 1) &&
        decide ((σ.right.core.log.filter (·.isAnswered 0)).length = 1)) = true :=
    Duplex.reach_of_turns (fun (_ : BridgeState) (_ : Turn PageInstr HostInstr) => True)
    [.left .run, .right .run, .right (.call (.onConnect 1 "a")), .right .run,
      .left .run, .left .run, .left .run, .left .ret,
      .left (.call (.emit "question" [] true)), .left .run, .right .run, .right .ret, .right .run,
      .right .run, .right (.call (.acknowledge 0 [])), .right .run, .left .run, .left .ret,
      .right (.call (.onAny 1 "news" [] true)), .right .run, .left .run,
      .left (.call (.acknowledge 0 [])), .left .run, .left .ret, .right .run,
      .left (.call .disconnect), .left .run, .left .ret, .left (.call .connect), .left .run,
      .right .run, .right .run, .right .run, .right .run, .right .run]
    (fun σ => decide (σ.right.core.generations = [2, 1]) &&
      decide ((σ.left.core.log.filter (·.isRan 0)).length = 1) &&
      decide ((σ.right.core.log.filter (·.isAnswered 0)).length = 1)) (by decide)
  simp only [Bool.and_eq_true, decide_eq_true_eq] at hp
  exact ⟨σ, hσ, hp.1.1, hp.1.2, hp.2, traffic_isolated _ _ _ hσ⟩

end Smocket.SharedWorker
