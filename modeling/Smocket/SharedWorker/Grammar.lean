import Smocket.Orders
import Smocket.SharedWorker.Host

/-
  File:      Smocket/SharedWorker/Grammar.lean
  Subject:   THE HOST'S STREAM, generation by generation: CONNECTED, events and acknowledgements,
             one terminal message.

  A generation is live from `connect` on until `finish`, and only a live one posts. Whoever finishes
  it owes its terminal message: `connect_error` has just posted it, everybody else leaves a `notify`
  pending. `notify` names a generation nothing else posts for, and no other generation starts before
  it has run (`HostInstr.Before`).

  * `host_line` -- every step of the host keeps what it has posted in order;
  * `hostExec_quiet` -- without a live generation it says nothing of any;
  * `host_grammar` -- one grammar for each generation, in every run.
-/

namespace Smocket.SharedWorker

open Ordered EventLoop EventLoop.Machine

/-! ## 1. Kinds of messages -/

/-- CONNECT_ERROR and DISCONNECTED end their generation. -/
def Message.ends (g : Generation) : Message → Bool
  | .connectError _ h _ | .disconnected _ h _ => decide (h = g)
  | _ => false

/-- CONNECTED opens it. -/
def Message.opens (g : Generation) : Message → Bool
  | .connected _ h _ => decide (h = g)
  | _ => false

/-- An event of the server, in the generation. -/
def Message.isServerEvent (g : Generation) : Message → Bool
  | .serverEvent h .. => decide (h = g)
  | _ => false

/-- CONNECTED, SERVER_EVENT and ACK. -/
def Message.speaks (g : Generation) : Message → Bool
  | .connected _ h _ | .serverEvent h .. | .acknowledgement h .. => decide (h = g)
  | _ => false

theorem Message.ends_generation {m : Message} {g : Generation} (h : m.ends g = true) :
    m.generation? = some g := by
  cases m <;> simp_all [Message.ends, Message.generation?]

theorem Message.speaks_generation {m : Message} {g : Generation} (h : m.speaks g = true) :
    m.generation? = some g := by
  cases m <;> simp_all [Message.speaks, Message.generation?]

theorem Message.isServerEvent_generation {m : Message} {g : Generation}
    (h : m.isServerEvent g = true) : m.generation? = some g := by
  cases m <;> simp_all [Message.isServerEvent, Message.generation?]

/-- Every `q` of the stream has a `p` before it. -/
def Preceded (p q : Message → Prop) (l : List Message) : Prop :=
  ∀ pre m post, l = pre ++ m :: post → q m → ∃ m' ∈ pre, p m'

theorem Preceded.nil {p q : Message → Prop} : Preceded p q [] := fun pre m post h => by
  cases pre <;> cases h

/-- One more message is preceded where something of the list precedes it. -/
theorem Preceded.concat {p q : Message → Prop} {l : List Message} {m : Message}
    (h : Preceded p q l) (hm : q m → ∃ m' ∈ l, p m') : Preceded p q (l ++ [m]) := by
  intro pre x post he hx
  rcases List.eq_nil_or_concat post with rfl | ⟨post, y, rfl⟩
  · obtain ⟨rfl, hx'⟩ := List.append_inj' he rfl
    exact hm ((List.singleton_injective hx') ▸ hx)
  · have he' : l ++ [m] = (pre ++ x :: post) ++ [y] := by
      rw [he, List.concat_eq_append, List.append_assoc, List.cons_append]
    exact h pre x post (List.append_inj' he' rfl).1 hx

/-- **The grammar of a generation**: at most one terminal message, nothing of the generation after
    it, and no event before CONNECTED. -/
structure Grammar (l : List Message) (g : Generation) : Prop where
  terminal : (l.filter (·.ends g)).length ≤ 1
  last : l.Pairwise fun m m' => m.ends g = true → m'.speaks g = false
  events : Preceded (·.opens g = true) (·.isServerEvent g = true) l

/-- After a terminal message of a generation nothing names the generation. -/
def Closed (l : List Message) : Prop :=
  l.Pairwise fun m m' => ∀ g, m.ends g = true → m'.generation? ≠ some g

/-- A generation has one last message at most. -/
theorem Closed.terminal {l : List Message} (h : Closed l) (g : Generation) :
    (l.filter (·.ends g)).length ≤ 1 := by
  have hpair : (l.filter (·.ends g)).Pairwise fun _ _ => False :=
    (List.Pairwise.filter _ h).imp_of_mem fun {a b} ha hb hab =>
      hab g (List.mem_filter.mp ha).2 (Message.ends_generation (List.mem_filter.mp hb).2)
  generalize l.filter (·.ends g) = k at hpair
  match k, hpair with
  | [], _ => exact Nat.zero_le _
  | [_], _ => exact Nat.le_refl _
  | _ :: b :: _, hpair => exact ((List.pairwise_cons.mp hpair).1 b List.mem_cons_self).elim

/-- After it comes nothing of that generation. -/
theorem Closed.last {l : List Message} (h : Closed l) (g : Generation) :
    l.Pairwise fun m m' => m.ends g = true → m'.speaks g = false :=
  h.imp fun hab he => Bool.eq_false_iff.mpr fun hs => hab g he (Message.speaks_generation hs)

/-! ## 2. The heap of the host -/

/-- The socket may dispatch events. -/
def ConnectionState.talks (s : ConnectionState) : Bool := s.opened || s.early

/-- Which connection is live, and what the port has taken. -/
structure HostCore.Wf (c : HostCore) : Prop where
  port : c.port = .works
  active : ∀ g, c.active = some g ↔ c.created g = true ∧ (c.states g).finished = false
  created : ∀ g, c.created g = true → g ≤ c.nextGeneration
  last : ∀ g, c.active = some g → g = c.nextGeneration
  drawn : ∀ m ∈ c.posted, ∀ g, m.generation? = some g → g ≤ c.nextGeneration
  ended : ∀ m ∈ c.posted, ∀ g, m.ends g = true → c.created g = true →
    (c.states g).finished = true
  closed : Closed c.posted
  talks : ∀ g, c.active = some g → (c.states g).talks = true → ∃ m ∈ c.posted, m.opens g = true
  events : ∀ g, Preceded (·.opens g = true) (·.isServerEvent g = true) c.posted
  started : ∀ g g', .started g' (some g) ∈ c.log → (∃ m ∈ c.posted, m.ends g = true) ∧
    Preceded (·.ends g = true) (fun m => ∃ k, g < k ∧ m.generation? = some k) c.posted

/-- A step that posts nothing, and neither starts nor finishes a generation. -/
theorem HostCore.Wf.frame {c c' : HostCore} (h : c.Wf) (hport : c'.port = c.port)
    (ha : c'.active = c.active) (hn : c'.nextGeneration = c.nextGeneration)
    (hc : c'.created = c.created) (hp : c'.posted = c.posted)
    (hl : ∀ g g', .started g' (some g) ∈ c'.log → .started g' (some g) ∈ c.log)
    (hs : ∀ g, (c'.states g).finished = (c.states g).finished)
    (ht : ∀ g, (c'.states g).talks = (c.states g).talks) : c'.Wf where
  port := hport.trans h.port
  active g := by rw [ha, hc, hs]; exact h.active g
  created := by rw [hc, hn]; exact h.created
  last := by rw [ha, hn]; exact h.last
  drawn := by rw [hp, hn]; exact h.drawn
  ended m hm g := by rw [hc, hs]; exact h.ended m (hp ▸ hm) g
  closed := by rw [hp]; exact h.closed
  talks g hg hg' := by
    rw [ha] at hg
    rw [hp]
    exact h.talks g hg (ht g ▸ hg')
  events g := by rw [hp]; exact h.events g
  started g g' hg := by rw [hp]; exact h.started g g' (hl g g' hg)

/-- The port takes a message. -/
def HostCore.say (c : HostCore) (m : Message) : HostCore := { c with posted := c.posted ++ [m] }

/-- A port that works takes what it is given. -/
theorem HostCore.post_works {c : HostCore} (h : c.port = .works) (m : Message) :
    c.post m = (c.say m, true) := by
  simp only [HostCore.post, h, HostCore.say]

/-- What may be posted: a message of a generation already drawn that has no terminal message yet. -/
theorem HostCore.Wf.say {c : HostCore} (h : c.Wf) {m : Message}
    (hg : ∀ g, m.generation? = some g → g ≤ c.nextGeneration ∧ ∀ x ∈ c.posted, x.ends g = false)
    (he : ∀ g, m.ends g = true → c.created g = true → (c.states g).finished = true)
    (ho : ∀ g, m.isServerEvent g = true → ∃ x ∈ c.posted, x.opens g = true) : (c.say m).Wf where
  port := h.port
  active := h.active
  created := h.created
  last := h.last
  drawn x hx g hxg := by
    rcases List.mem_append.mp hx with hx | hx
    · exact h.drawn x hx g hxg
    · exact (hg g (List.mem_singleton.mp hx ▸ hxg)).1
  ended x hx g hxg := by
    rcases List.mem_append.mp hx with hx | hx
    · exact h.ended x hx g hxg
    · exact he g (List.mem_singleton.mp hx ▸ hxg)
  closed := by
    refine List.pairwise_append.mpr
      ⟨h.closed, List.pairwise_singleton _ _, fun x hx y hy g hxg hyg => ?_⟩
    obtain rfl := List.mem_singleton.mp hy
    exact absurd hxg (by simp [(hg g hyg).2 x hx])
  talks g ha ht := by
    obtain ⟨x, hx, hxo⟩ := h.talks g ha ht
    exact ⟨x, List.mem_append_left _ hx, hxo⟩
  events g := (h.events g).concat (ho g)
  started g g' hg := by
    obtain ⟨⟨x, hx, hxe⟩, hp⟩ := h.started g g' hg
    exact ⟨⟨x, List.mem_append_left _ hx, hxe⟩, hp.concat fun _ => ⟨x, hx, hxe⟩⟩

/-- A message that names no generation may always be posted. -/
theorem HostCore.Wf.say_none {c : HostCore} (h : c.Wf) {m : Message} (hm : m.generation? = none) :
    (c.say m).Wf := by
  refine h.say (fun g hg => ?_) (fun g hg => ?_) fun g hg => ?_
  · rw [hm] at hg
    cases hg
  · exact absurd (Message.ends_generation hg) (by simp [hm])
  · exact absurd (Message.isServerEvent_generation hg) (by simp [hm])

/-! ## 3. The functions of the host -/

theorem HostCore.setState_same {β : Type} (p : ConnectionState → β) {c : HostCore}
    {g k : Generation}
    {f : ConnectionState → ConnectionState} (hf : ∀ x, p (f x) = p x) :
    p ((c.setState g f).states k) = p (c.states k) := by
  simp only [HostCore.setState, modify_apply]
  split
  · rename_i hk
    rw [hf, hk]
  · rfl

/-- Writing to a state keeps the grammar, where it neither finishes it nor lets it talk. -/
theorem HostCore.Wf.setState {c : HostCore} (h : c.Wf) {g : Generation}
    {f : ConnectionState → ConnectionState} (hf : ∀ x, (f x).finished = x.finished)
    (ht : ∀ x, (f x).talks = x.talks) : (c.setState g f).Wf :=
  h.frame rfl rfl rfl rfl rfl (fun _ _ hl => hl)
    (fun _ => HostCore.setState_same ConnectionState.finished hf)
    fun _ => HostCore.setState_same ConnectionState.talks ht

/-- Once CONNECTED is posted the socket may talk. -/
theorem HostCore.Wf.open {c : HostCore} (h : c.Wf) {g : Generation}
    {f : ConnectionState → ConnectionState} (hf : ∀ x, (f x).finished = x.finished)
    (ho : c.active = some g → ∃ m ∈ c.posted, m.opens g = true) : (c.setState g f).Wf :=
  { h with
    active := fun k => by
      rw [HostCore.setState_same ConnectionState.finished hf]
      exact h.active k
    ended := fun m hm k hk hc => by
      rw [HostCore.setState_same ConnectionState.finished hf]
      exact h.ended m hm k hk hc
    talks := fun k hk ht => by
      by_cases hkg : k = g
      · exact hkg ▸ ho (hkg ▸ hk)
      · simp only [HostCore.setState, modify_apply, if_neg hkg] at ht
        exact h.talks k hk ht }

/-- A generation is finished. -/
theorem HostCore.Wf.finished {c c' : HostCore} (h : c.Wf) {g : Generation} (hg : c.active = some g)
    (hport : c'.port = c.port) (ha : c'.active = none) (hn : c'.nextGeneration = c.nextGeneration)
    (hc : c'.created = c.created) (hp : c'.posted = c.posted) (hl : c'.log = c.log)
    (hs : ∀ k, (c'.states k).finished = true ↔ k = g ∨ (c.states k).finished = true) : c'.Wf where
  port := hport.trans h.port
  active k := by
    rw [ha, hc]
    refine ⟨nofun, fun ⟨hk, hf⟩ => ?_⟩
    have hk' : c.active = some k := (h.active k).mpr ⟨hk, by
      refine Bool.eq_false_iff.mpr fun hx => ?_
      rw [(hs k).mpr (Or.inr hx)] at hf
      cases hf⟩
    rw [(hs k).mpr (Or.inl (Option.some.inj (hk'.symm.trans hg)))] at hf
    cases hf
  created := by rw [hc, hn]; exact h.created
  last k hk := by rw [ha] at hk; cases hk
  drawn := by rw [hp, hn]; exact h.drawn
  ended m hm k hk hk' := by
    rw [hp] at hm
    rw [hc] at hk'
    exact (hs k).mpr (Or.inr (h.ended m hm k hk hk'))
  closed := by rw [hp]; exact h.closed
  talks k hk := by rw [ha] at hk; cases hk
  events k := by rw [hp]; exact h.events k
  started k k' hk := by
    rw [hl] at hk
    rw [hp]
    exact h.started k k' hk

/-- What `finish` leaves of the heap. -/
theorem HostCore.Wf.finish {c : HostCore} (h : c.Wf) {g : Generation} (hg : c.created g = true)
    (reason : String) (notify disconnectSocket : Bool) {next : Option String}
    (hnext : next = none ∨ c.active = some g) :
    (c.finish g reason notify disconnectSocket next).core.Wf := by
  unfold HostCore.finish
  split
  · rename_i hf
    have hnext : next = none := hnext.resolve_right fun ha => by
      rw [((h.active g).mp ha).2] at hf
      cases hf
    subst hnext
    exact h
  · rename_i hf
    have ha : c.active = some g := (h.active g).mpr ⟨hg, Bool.eq_false_iff.mpr hf⟩
    refine h.finished ha rfl (if_pos ha) rfl rfl rfl rfl fun k => ?_
    simp only [HostCore.setState, modify_apply]
    by_cases hk : k = g
    · simp [hk]
    · simp [hk]

/-- The next generation is drawn while none is active. -/
theorem HostCore.Wf.connectRest {c : HostCore} (h : c.Wf) (ha : c.active = none)
    (requestId : String) {replaced : Option Generation}
    (hr : ∀ g, replaced = some g → g = c.nextGeneration ∧ ∃ m ∈ c.posted, m.ends g = true) :
    (c.connectRest requestId replaced).Wf := by
  have hdrawn : ∀ x ∈ c.posted, ∀ k, x.generation? = some k → k ≤ c.nextGeneration + 1 :=
    fun x hx k hk => Nat.le_succ_of_le (h.drawn x hx k hk)
  have hcreated : ∀ k, c.created k = true → k ≠ c.nextGeneration + 1 := fun k hk he =>
    absurd (he ▸ h.created k hk) (Nat.not_succ_le_self _)
  have hstarted : ∀ g g', .started g' (some g) ∈ HostEvent.started (c.nextGeneration + 1) replaced ::
      c.log → (∃ m ∈ c.posted, m.ends g = true) ∧ Preceded (·.ends g = true)
        (fun m => ∃ k, g < k ∧ m.generation? = some k) c.posted := by
    intro g g' hg
    rcases List.mem_cons.mp hg with he | hg
    · obtain ⟨rfl, hm⟩ := hr g (HostEvent.started.inj he).2.symm
      refine ⟨hm, fun pre m post hl ⟨k, hk, hmk⟩ => ?_⟩
      have hle := h.drawn m (hl ▸ List.mem_append_right _ List.mem_cons_self) k hmk
      exact absurd hk (Nat.not_lt.mpr hle)
    · exact h.started g g' hg
  unfold HostCore.connectRest
  dsimp only
  split
  · rename_i error hfail
    have h' : HostCore.Wf { c with
        nextGeneration := c.nextGeneration + 1
        log := .started (c.nextGeneration + 1) replaced :: c.log } :=
      { port := h.port
        active := h.active
        created := fun k hk => Nat.le_succ_of_le (h.created k hk)
        last := fun k hk => by
          rw [show c.active = some k from hk] at ha
          cases ha
        drawn := hdrawn
        ended := h.ended
        closed := h.closed
        talks := h.talks
        events := h.events
        started := hstarted }
    rw [HostCore.post_works h'.port]
    refine h'.say (fun k hk => ?_) (fun k hk hck => ?_) fun k hk => (by cases hk)
    · obtain rfl := Option.some.inj hk
      refine ⟨Nat.le_refl _, fun x hx => Bool.eq_false_iff.mpr fun hxe => ?_⟩
      exact absurd (h.drawn x hx _ (Message.ends_generation hxe)) (Nat.not_succ_le_self _)
    · exact absurd (of_decide_eq_true hk).symm (hcreated k hck)
  · exact
      { port := h.port
        active := fun k => by
          by_cases hk : k = c.nextGeneration + 1
          · simp [hk]
          · have hold := h.active k
            rw [ha] at hold
            simpa [hk, Ne.symm hk] using hold
        created := fun k hk => by
          by_cases hk' : k = c.nextGeneration + 1
          · exact Nat.le_of_eq hk'
          · dsimp only at hk
            rw [Function.update_of_ne hk'] at hk
            exact Nat.le_succ_of_le (h.created k hk)
        last := fun k hk => (Option.some.inj hk).symm
        drawn := hdrawn
        ended := fun x hx k hk hck => by
          by_cases hk' : k = c.nextGeneration + 1
          · subst hk'
            exact absurd (h.drawn x hx _ (Message.ends_generation hk)) (Nat.not_succ_le_self _)
          · dsimp only at hck ⊢
            rw [Function.update_of_ne hk'] at hck ⊢
            exact h.ended x hx k hk hck
        closed := h.closed
        talks := fun k hk ht => by
          obtain rfl := Option.some.inj hk
          simp [ConnectionState.talks] at ht
        events := h.events
        started := hstarted }

/-- After an end the next request, if any, is started. -/
theorem HostCore.Wf.continue {c : HostCore} (h : c.Wf) (ha : c.active = none)
    (next : Option String) {replaced : Option Generation}
    (hr : ∀ g, replaced = some g → g = c.nextGeneration ∧ ∃ m ∈ c.posted, m.ends g = true) :
    (c.continue next replaced).Wf := by
  unfold HostCore.continue
  split
  · exact h
  · exact h.connectRest ha _ hr

theorem HostCore.Wf.disconnect {c : HostCore} (h : c.Wf) {g : Generation} (hg : c.created g = true)
    (reason : String) (notify : Bool) {next : Option String}
    (hnext : next = none ∨ c.active = some g) : (c.disconnect g reason notify next).core.Wf :=
  have h' : (c.setState g fun s => { s with disconnectReason := some reason }).Wf :=
    h.setState (fun _ => rfl) fun _ => rfl
  h'.finish hg reason notify true hnext

/-- The generation a host owns is the live one. -/
theorem HostCore.owns_iff {c : HostCore} (h : c.Wf) {g : Generation} :
    c.owns g = true ↔ c.active = some g := by
  simp only [HostCore.owns, Bool.and_eq_true, Bool.not_eq_true', decide_eq_true_eq]
  exact ⟨And.right, fun ha => ⟨((h.active g).mp ha).2, ha⟩⟩

/-- A generation that is not finished has no terminal message. -/
theorem HostCore.Wf.unended {c : HostCore} (h : c.Wf) {g : Generation} (hc : c.created g = true)
    (hf : (c.states g).finished = false) : ∀ x ∈ c.posted, x.ends g = false := fun x hx => by
  refine Bool.eq_false_iff.mpr fun hxe => ?_
  rw [h.ended x hx g hxe hc] at hf
  cases hf

/-- A message of the active generation may be posted, an event once CONNECTED was. -/
theorem HostCore.Wf.say_active {c : HostCore} (h : c.Wf) {g : Generation} (hg : c.active = some g)
    {m : Message} (hm : ∀ k, m.generation? = some k → k = g) (he : m.ends g = false)
    (ho : m.isServerEvent g = true → ∃ x ∈ c.posted, x.opens g = true) : (c.say m).Wf := by
  obtain ⟨hc, hf⟩ := (h.active g).mp hg
  refine h.say (fun k hk => ?_) (fun k hk _ => ?_) fun k hk => ?_
  · obtain rfl := hm k hk
    exact ⟨h.created k hc, h.unended hc hf⟩
  · obtain rfl := hm k (Message.ends_generation hk)
    rw [he] at hk
    cases hk
  · obtain rfl := hm k (Message.isServerEvent_generation hk)
    exact ho hk

theorem HostCore.owns_setState {c : HostCore} {g k : Generation}
    {f : ConnectionState → ConnectionState} (hf : ∀ x, (f x).finished = x.finished) :
    (c.setState k f).owns g = c.owns g := by
  unfold HostCore.owns
  rw [HostCore.setState_same ConnectionState.finished hf]
  rfl

/-- Posting commutes with the end of a generation. -/
theorem HostCore.finish_say (c : HostCore) (g : Generation) (m : Message) (reason : String)
    (notify disconnectSocket : Bool) :
    ((c.say m).finish g reason notify disconnectSocket none).core =
      (c.finish g reason notify disconnectSocket none).core.say m := by
  unfold HostCore.finish
  split
  · rename_i hf
    rw [if_pos (show (c.states g).finished = true from hf)]
    rfl
  · rename_i hf
    rw [if_neg (show ¬ (c.states g).finished = true from hf)]
    rfl

/-- An end is final. -/
theorem HostCore.finish_finished {c : HostCore} {g : Generation} {reason : String}
    {notify disconnectSocket : Bool} :
    ((c.finish g reason notify disconnectSocket none).core.states g).finished = true := by
  unfold HostCore.finish
  split
  · assumption
  · simp [HostCore.setState]

/-- A socket that connects opens its generation. -/
theorem HostCore.Wf.onConnect {c : HostCore} (h : c.Wf) (g : Generation) (id : String) :
    (c.onConnect g id).core.Wf := by
  have hsame : (c.setState g fun s => { s with opened := true }).owns g = c.owns g :=
    HostCore.owns_setState fun _ => rfl
  unfold HostCore.onConnect
  dsimp only
  split
  · rename_i hown
    refine h.open (fun _ => rfl) fun ha => ?_
    have ho : c.owns g = true := (HostCore.owns_iff h).mpr ha
    rw [hsame, ho] at hown
    cases hown
  · rename_i hown
    have ha : c.active = some g := by
      rw [hsame] at hown
      exact (HostCore.owns_iff h).mp (by simpa using hown)
    rw [HostCore.post_works (c := c.setState g _) h.port]
    dsimp only
    rw [if_pos rfl]
    have h' : (c.say (.connected ((c.setState g fun s => { s with opened := true }).states g).requestId
        g id)).Wf := h.say_active ha (fun k hk => (Option.some.inj hk).symm) rfl nofun
    exact h'.open (f := fun s => { s with opened := true }) (fun _ => rfl)
      fun _ => ⟨_, List.mem_append_right _ (List.mem_singleton_self _), decide_eq_true rfl⟩

/-- One that cannot connect ends it. -/
theorem HostCore.Wf.onConnectError {c : HostCore} (h : c.Wf) (g : Generation) (error : String) :
    (c.onConnectError g error).core.Wf := by
  unfold HostCore.onConnectError
  split
  · exact h
  · rename_i hown
    have ha : c.active = some g := (HostCore.owns_iff h).mp (by simpa using hown)
    obtain ⟨hc, hf⟩ := (h.active g).mp ha
    rw [HostCore.post_works h.port, HostCore.finish_say]
    have hcore : (c.finish g "connect error" false false none).core.nextGeneration =
        c.nextGeneration ∧ (c.finish g "connect error" false false none).core.posted = c.posted := by
      rw [HostCore.finish, if_neg (by simp [hf])]
      exact ⟨rfl, rfl⟩
    refine (h.finish hc "connect error" false false (Or.inl rfl)).say (fun k hk => ?_)
      (fun k hk _ => ?_) nofun
    · obtain rfl := Option.some.inj hk
      rw [hcore.1, hcore.2]
      exact ⟨h.created g hc, h.unended hc hf⟩
    · obtain rfl := of_decide_eq_true hk
      exact HostCore.finish_finished

/-- What `forwardServerEvent` needs of the run: an event comes from a socket that talks. -/
theorem HostCore.Wf.forwardServerEvent {c : HostCore} (h : c.Wf) {g : Generation}
    (ht : (c.states g).talks = true) (event : String) (args : List JsValue) (asksAnswer : Bool) :
    (c.forwardServerEvent g event args asksAnswer).Wf := by
  unfold HostCore.forwardServerEvent
  split
  · exact h
  · rename_i hown
    have ha : c.active = some g := (HostCore.owns_iff h).mp (by simpa using hown)
    have hopen := h.talks g ha ht
    split
    · dsimp only
      rw [HostCore.post_works (by exact h.port)]
      dsimp only
      rw [if_pos rfl]
      have h' : (c.say (.serverEvent g event args
          (some (ackName "server" g ((c.states g).nextAcknowledgement + 1))))).Wf :=
        h.say_active ha (fun k hk => (Option.some.inj hk).symm) rfl fun _ => hopen
      refine h'.frame rfl rfl rfl rfl rfl (fun _ _ hl => ?_) (fun _ => ?_) fun _ => ?_
      · exact (List.mem_cons.mp hl).resolve_left nofun
      · exact HostCore.setState_same ConnectionState.finished fun _ => rfl
      · exact HostCore.setState_same ConnectionState.talks fun _ => rfl
    · rw [HostCore.post_works h.port]
      exact h.say_active (m := .serverEvent g event args none) ha
        (fun k hk => (Option.some.inj hk).symm) rfl fun _ => hopen

/-- An acknowledgement is sent for the live generation or not at all. -/
theorem HostCore.Wf.acknowledge {c : HostCore} (h : c.Wf) (r : ReferenceId) (args : List JsValue) :
    (c.acknowledge r args).Wf := by
  have hset : ∀ f, (c.setReference r f).Wf := fun f =>
    h.frame rfl rfl rfl rfl rfl (fun _ _ hl => hl) (fun _ => rfl) fun _ => rfl
  unfold HostCore.acknowledge
  dsimp only
  split
  · exact h
  · split
    · exact hset _
    · rename_i g _
      split
      · exact hset _
      · rename_i hown
        have ha : c.active = some g := (HostCore.owns_iff (hset _)).mp (by simpa using hown)
        rw [HostCore.post_works (hset _).port]
        exact (hset _).say_active (m := .acknowledgement g .client _ args) ha
          (fun k hk => (Option.some.inj hk).symm) rfl nofun

theorem HostCore.Wf.reportBridgeError {c : HostCore} (h : c.Wf) (error : String) :
    (c.reportBridgeError error).Wf := by
  rw [HostCore.reportBridgeError, HostCore.post_works h.port]
  exact h.say_none rfl

/-- An event of the page is passed on once the page has been told of its connection. -/
theorem HostCore.Wf.handleClientEvent {c : HostCore} (h : c.Wf) {g : Generation}
    (ho : c.active = some g → ∃ m ∈ c.posted, m.opens g = true) (k : Generation)
    (ackId : Option String) : (c.handleClientEvent g k ackId).core.Wf := by
  have h' : (c.setState g fun s => { s with early := s.early || !s.opened }).Wf :=
    h.open (fun _ => rfl) ho
  unfold HostCore.handleClientEvent
  dsimp only
  split
  all_goals
    exact h'.frame rfl rfl rfl rfl rfl (fun _ _ hl => (List.mem_cons.mp hl).resolve_left nofun)
      (fun _ => rfl) fun _ => rfl

theorem HostCore.Wf.runAcknowledgement {c : HostCore} (h : c.Wf) (g k : Generation)
    (ackId : String) : (c.runAcknowledgement g k ackId).Wf := by
  unfold HostCore.runAcknowledgement
  split
  · exact h
  · refine h.frame rfl rfl rfl rfl rfl (fun _ _ hl => ?_) (fun _ => ?_) fun _ => ?_
    · exact (List.mem_cons.mp hl).resolve_left nofun
    · exact HostCore.setState_same ConnectionState.finished fun _ => rfl
    · exact HostCore.setState_same ConnectionState.talks fun _ => rfl

/-- Only the live generation has an owner. -/
theorem HostCore.owner_ok {c : HostCore} {generation g : Generation} {requestId : Option String}
    (h : c.owner generation requestId = .ok g) : g = generation ∧ c.active = some g := by
  unfold HostCore.owner at h
  split at h
  · split at h <;> cases h
  · rename_i k hk
    split at h
    · cases h
    · rename_i hlt
      split at h
      · cases h
      · rename_i hgt
        split at h
        · cases h
        · cases h
          exact ⟨Nat.le_antisymm (Nat.not_lt.mp hlt) (Nat.not_lt.mp hgt), hk⟩

theorem HostCore.Wf.withOwner {c : HostCore} (h : c.Wf) {generation : Generation}
    {requestId : Option String} {f : Generation → Effect HostCore HostInstr}
    (hf : c.active = some generation → (f generation).core.Wf) :
    (c.withOwner generation requestId f).core.Wf := by
  unfold HostCore.withOwner
  split
  · rename_i g hg
    obtain ⟨rfl, ha⟩ := HostCore.owner_ok hg
    exact hf ha
  · exact h
  · exact h.reportBridgeError _

/-- What a value of the page may be handled for: an event is one for an open generation. -/
def HostCore.Heard (c : HostCore) (value : JsValue) : Prop :=
  match readSharedWorkerPageMessage value with
  | .ok (.clientEvent g _ _ _) => ∃ m ∈ c.posted, m.opens g = true
  | _ => True

instance (c : HostCore) (value : JsValue) : Decidable (c.Heard value) :=
  match h : readSharedWorkerPageMessage value with
  | .ok (.clientEvent g _ _ _) => decidable_of_iff (∃ m ∈ c.posted, m.opens g = true) (by
      rw [HostCore.Heard, h])
  | .ok (.connect ..) | .ok (.connected ..) | .ok (.connectError ..) | .ok (.serverEvent ..)
  | .ok (.acknowledgement ..) | .ok (.disconnect ..) | .ok (.disconnected ..)
  | .ok (.bridgeError ..) | .error _ => isTrue (by rw [HostCore.Heard, h]; trivial)

theorem HostCore.Heard.opened {c : HostCore} {value : JsValue} (h : c.Heard value) {g : Generation}
    {event : String} {args : List JsValue} {ackId : Option String}
    (hread : readSharedWorkerPageMessage value = .ok (.clientEvent g event args ackId)) :
    ∃ m ∈ c.posted, m.opens g = true := by
  rwa [HostCore.Heard, hread] at h

/-- What a page can have heard it can still have heard later. -/
theorem HostCore.Heard.mono {c c' : HostCore} {value : JsValue} (h : c.Heard value)
    (hp : ∀ m ∈ c.posted, m ∈ c'.posted) : c'.Heard value := by
  unfold HostCore.Heard at h ⊢
  split at h
  · obtain ⟨m, hm, hmo⟩ := h
    exact ⟨m, hp m hm, hmo⟩
  · trivial

/-- **Whatever the page sends**, what the host posts stays in order. -/
theorem HostCore.Wf.handleMessage {c : HostCore} (h : c.Wf) {value : JsValue} (hv : c.Heard value) :
    (c.handleMessage value).core.Wf := by
  unfold HostCore.handleMessage
  split
  · exact h
  · split
    · exact h.reportBridgeError _
    · unfold HostCore.connect
      split
      · rename_i ha
        exact h.connectRest ha _ nofun
      · rename_i g ha
        exact h.disconnect ((h.active g).mp ha).1 _ _ (Or.inr ha)
    · rename_i hread
      exact h.withOwner fun _ => h.handleClientEvent (fun _ => hv.opened hread) _ _
    · exact h.withOwner fun _ => h.runAcknowledgement _ _ _
    · exact h.withOwner fun ha => h.disconnect ((h.active _).mp ha).1 _ _ (Or.inl rfl)
    · exact h

/-- `close` ends the live generation. -/
theorem HostCore.Wf.close {c : HostCore} (h : c.Wf) (reason : String) :
    (c.close reason).core.Wf := by
  have h' : HostCore.Wf { c with closed := true } :=
    h.frame rfl rfl rfl rfl rfl (fun _ _ hl => hl) (fun _ => rfl) fun _ => rfl
  unfold HostCore.close
  split
  · exact h
  · dsimp only
    split
    · exact h'
    · rename_i g ha
      exact h'.disconnect ((h.active g).mp ha).1 _ _ (Or.inl rfl)

/-! ## 4. What no step takes back -/

/-- Later in a run. -/
structure HostCore.Grows (c c' : HostCore) : Prop where
  posted : ∀ m ∈ c.posted, m ∈ c'.posted
  created : ∀ g, c.created g = true → c'.created g = true
  talks : ∀ g, c.created g = true → (c.states g).talks = true → (c'.states g).talks = true

theorem HostCore.Grows.refl (c : HostCore) : c.Grows c := ⟨fun _ => id, fun _ => id, fun _ _ => id⟩

theorem HostCore.Grows.trans {c c' c'' : HostCore} (h : c.Grows c') (h' : c'.Grows c'') :
    c.Grows c'' :=
  ⟨fun m hm => h'.posted m (h.posted m hm), fun g hg => h'.created g (h.created g hg),
    fun g hg ht => h'.talks g (h.created g hg) (h.talks g hg ht)⟩

theorem HostCore.Grows.of_same {c c' : HostCore} (hp : c'.posted = c.posted)
    (hc : c'.created = c.created) (ht : ∀ g, (c'.states g).talks = (c.states g).talks) :
    c.Grows c' :=
  ⟨fun _ hm => hp ▸ hm, fun _ hg => hc ▸ hg, fun g _ hg => (ht g).trans hg⟩

theorem HostCore.Grows.post (c : HostCore) (m : Message) : c.Grows (c.post m).1 := by
  have hsay : ∀ x, c.Grows { c with posted := c.posted ++ [x] } := fun _ =>
    ⟨fun _ => List.mem_append_left _, fun _ => id, fun _ _ => id⟩
  unfold HostCore.post
  split
  · exact hsay m
  · split
    · exact hsay m
    · exact hsay _
  · exact .refl c

theorem HostCore.post_created (c : HostCore) (m : Message) : (c.post m).1.created = c.created := by
  unfold HostCore.post
  split <;> [rfl; (split <;> rfl); rfl]

theorem HostCore.post_nextGeneration (c : HostCore) (m : Message) :
    (c.post m).1.nextGeneration = c.nextGeneration := by
  unfold HostCore.post
  split <;> [rfl; (split <;> rfl); rfl]

theorem HostCore.Grows.setState (c : HostCore) {g : Generation}
    {f : ConnectionState → ConnectionState} (hf : ∀ x, x.talks = true → (f x).talks = true) :
    c.Grows (c.setState g f) := by
  refine ⟨fun _ => id, fun _ => id, fun k _ ht => ?_⟩
  simp only [HostCore.setState, modify_apply]
  split
  · rename_i hk
    exact hf _ (hk ▸ ht)
  · exact ht

theorem HostCore.Grows.connectRest {c : HostCore}
    (h : ∀ g, c.created g = true → g ≤ c.nextGeneration) (requestId : String)
    (replaced : Option Generation) : c.Grows (c.connectRest requestId replaced) := by
  unfold HostCore.connectRest
  dsimp only
  split
  · refine .trans ?_ (.post _ _)
    exact .of_same rfl rfl fun _ => rfl
  · refine ⟨fun _ => id, fun g hg => ?_, fun g hg ht => ?_⟩
    · simp only [Function.update_apply]
      split
      · rfl
      · exact hg
    · have hne : g ≠ c.nextGeneration + 1 := fun he => absurd (he ▸ h g hg) (Nat.not_succ_le_self _)
      simpa [hne] using ht

theorem HostCore.Grows.continue {c : HostCore}
    (h : ∀ g, c.created g = true → g ≤ c.nextGeneration) (next : Option String)
    (replaced : Option Generation) : c.Grows (c.continue next replaced) := by
  unfold HostCore.continue
  split
  · exact .refl c
  · exact .connectRest h _ _

/-- An end takes nothing back. -/
theorem HostCore.Grows.finish {c : HostCore}
    (h : ∀ g, c.created g = true → g ≤ c.nextGeneration) (g : Generation) (reason : String)
    (notify disconnectSocket : Bool) (next : Option String) :
    c.Grows (c.finish g reason notify disconnectSocket next).core := by
  unfold HostCore.finish
  split
  · exact .continue h _ _
  · have hset := HostCore.Grows.setState c (g := g) (f := fun s =>
      { s with finished := true, pendingServerAcknowledgements := .empty }) fun _ => id
    exact ⟨hset.posted, hset.created, hset.talks⟩

theorem HostCore.Grows.disconnect {c : HostCore}
    (h : ∀ g, c.created g = true → g ≤ c.nextGeneration) (g : Generation) (reason : String)
    (notify : Bool) (next : Option String) : c.Grows (c.disconnect g reason notify next).core := by
  have hset := HostCore.Grows.setState c (g := g) (f := fun s =>
    { s with disconnectReason := some reason }) fun _ => id
  unfold HostCore.disconnect
  exact hset.trans (HostCore.Grows.finish (c := c.setState g _) h g reason notify true next)

theorem HostCore.Grows.withOwner {c : HostCore} {generation : Generation}
    {requestId : Option String}
    {f : Generation → Effect HostCore HostInstr} (hf : ∀ g, c.Grows (f g).core) :
    c.Grows (c.withOwner generation requestId f).core := by
  unfold HostCore.withOwner
  split
  · exact hf _
  · exact .refl c
  · exact .post c _

/-- Nor does any step of the host. -/
theorem hostExec_grows {c : HostCore} (h : ∀ g, c.created g = true → g ≤ c.nextGeneration)
    (i : HostInstr) : c.Grows (hostExec i c).core := by
  cases i with
  | handleMessage value =>
      simp only [hostExec, HostCore.handleMessage]
      split
      · exact .refl c
      · split
        · exact .post c _
        · unfold HostCore.connect
          split
          · exact .connectRest h _ _
          · exact .disconnect h _ _ _ _
        · refine .withOwner fun g => ?_
          have hset := HostCore.Grows.setState c (g := g)
            (f := fun s => { s with early := s.early || !s.opened }) fun x hx => by
              simp only [ConnectionState.talks, Bool.or_eq_true] at hx ⊢
              exact hx.imp_right Or.inl
          unfold HostCore.handleClientEvent
          dsimp only
          split <;> exact ⟨hset.posted, hset.created, hset.talks⟩
        · refine .withOwner fun g => ?_
          dsimp only
          unfold HostCore.runAcknowledgement
          split
          · exact .refl c
          · exact .of_same rfl rfl fun _ => HostCore.setState_same ConnectionState.talks fun _ => rfl
        · exact .withOwner fun g => .disconnect h _ _ _ _
        · exact .refl c
  | notify g reason next =>
      refine (HostCore.Grows.post c _).trans (.continue (fun k hk => ?_) next (some g))
      rw [HostCore.post_created] at hk
      rw [HostCore.post_nextGeneration]
      exact h k hk
  | emitFinally r =>
      simp only [hostExec]
      split
      · exact .refl c
      · exact .of_same rfl rfl fun _ => rfl
  | onMessageError =>
      simp only [hostExec]
      split
      · exact .refl c
      · exact .post c _
  | onConnect g id =>
      have hset := HostCore.Grows.setState c (g := g) (f := fun s => { s with opened := true })
        fun _ _ => rfl
      simp only [hostExec, HostCore.onConnect]
      split
      · exact hset
      · have hpost := hset.trans (.post _ (.connected ((c.setState g fun s =>
          { s with opened := true }).states g).requestId g id))
        split
        · exact hpost
        · refine hpost.trans (.disconnect (fun k hk => ?_) _ _ _ _)
          rw [HostCore.post_created] at hk
          rw [HostCore.post_nextGeneration]
          exact h k hk
  | onConnectError g error =>
      simp only [hostExec, HostCore.onConnectError]
      split
      · exact .refl c
      · refine (HostCore.Grows.post c _).trans (.finish (fun k hk => ?_) _ _ _ _ _)
        rw [HostCore.post_created] at hk
        rw [HostCore.post_nextGeneration]
        exact h k hk
  | onDisconnect g reason => exact .finish h _ _ _ _ _
  | onAny g event args asksAnswer =>
      simp only [hostExec, HostCore.forwardServerEvent]
      split
      · exact .refl c
      · split
        · split
          · refine .trans ?_ (.post _ _)
            exact .of_same rfl rfl fun _ => HostCore.setState_same ConnectionState.talks fun _ => rfl
          · refine .trans ?_ (.trans (.post _ _) (.setState _ fun _ => id))
            exact .of_same rfl rfl fun _ => HostCore.setState_same ConnectionState.talks fun _ => rfl
        · exact .post c _
  | acknowledge r args =>
      have hset : ∀ f, c.Grows (c.setReference r f) := fun _ => .of_same rfl rfl fun _ => rfl
      simp only [hostExec, HostCore.acknowledge]
      split
      · exact .refl c
      · split
        · exact hset _
        · split
          · exact hset _
          · exact (hset _).trans (.post _ _)
  | close reason =>
      have hclosed : c.Grows { c with closed := true } := .of_same rfl rfl fun _ => rfl
      simp only [hostExec, HostCore.close]
      split
      · exact .refl c
      · split
        · exact hclosed
        · exact hclosed.trans (HostCore.Grows.disconnect (c := { c with closed := true }) h _ _ _ _)
  | _ => exact .of_same rfl rfl fun _ => rfl

/-! ## 5. What is pending -/

/-- What a pending instruction knows. -/
def HostInstr.Ok (c : HostCore) : HostInstr → Prop
  | .handleMessage value => c.Heard value
  | .disconnectSocket g | .onConnect g _ | .onDisconnect g _ => c.created g = true
  | .onAny g .. => c.created g = true ∧ (c.states g).talks = true
  | .notify g _ _ => c.active = none ∧ g = c.nextGeneration ∧ c.created g = true ∧
      (c.states g).finished = true ∧ ∀ x ∈ c.posted, x.ends g = false
  | _ => True

/-- A message of the page, or the rest of a `connect`, may start a generation. -/
def HostInstr.starts : HostInstr → Bool
  | .handleMessage _ | .notify .. => true
  | _ => false

/-- The notification that ends a generation. -/
def HostInstr.notifies : HostInstr → Bool
  | .notify .. => true
  | _ => false

/-- What may execute before what: no generation starts before a notification. -/
def HostInstr.Before (i j : HostInstr) : Prop := i.starts = true → j.notifies = false

/-- What a polite run executes: posts succeed, and the page posts no event for a generation whose
    CONNECTED it cannot have seen. -/
def HostInstr.Polite (c : HostCore) : HostInstr → Prop
  | .setPort port => port = .works
  | .arrive value => c.Heard value
  | _ => True

instance (c : HostCore) (i : HostInstr) : Decidable (i.Polite c) := by
  unfold HostInstr.Polite
  split <;> infer_instance

/-- Without a live generation nothing is owned. -/
theorem HostCore.owns_none {c : HostCore} (ha : c.active = none) (g : Generation) :
    c.owns g = false := by
  simp [HostCore.owns, ha]

/-- While no generation is active, nothing but a start touches one. -/
structure HostCore.Quiet (c : HostCore) (e : Effect HostCore HostInstr) : Prop where
  active : e.core.active = none
  nextGeneration : e.core.nextGeneration = c.nextGeneration
  created : e.core.created = c.created
  finished : ∀ g, (e.core.states g).finished = (c.states g).finished
  posted : ∀ m ∈ e.core.posted, m ∈ c.posted ∨ m.generation? = none
  push : ∀ p ∈ e.push, p.starts = false

/-- Without a live generation the host says nothing of any. -/
theorem hostExec_quiet {c : HostCore} (h : c.Wf) (ha : c.active = none) {i : HostInstr}
    (hs : i.starts = false) (hok : i.Ok c) : c.Quiet (hostExec i c) := by
  have hsame : ∀ {c' : HostCore} {post : List HostInstr}, c'.active = c.active →
      c'.nextGeneration = c.nextGeneration → c'.created = c.created →
      (∀ g, (c'.states g).finished = (c.states g).finished) → c'.posted = c.posted →
      c.Quiet { core := c', post } := fun h₁ h₂ h₃ h₄ h₅ =>
    ⟨h₁.trans ha, h₂, h₃, h₄, fun m hm => Or.inl (h₅ ▸ hm), nofun⟩
  cases i with
  | handleMessage value => cases hs
  | notify g reason next => cases hs
  | disconnectSocket g =>
      refine ⟨ha, rfl, rfl, fun _ => rfl, fun _ => Or.inl, fun p hp => ?_⟩
      simp only [hostExec, HostCore.disconnectSocket] at hp
      split at hp <;> exact List.mem_singleton.mp hp ▸ rfl
  | emitFinally r =>
      simp only [hostExec]
      split <;> exact hsame rfl rfl rfl (fun _ => rfl) rfl
  | onMessageError =>
      simp only [hostExec, HostCore.reportBridgeError, HostCore.post_works h.port]
      split
      · exact hsame rfl rfl rfl (fun _ => rfl) rfl
      · refine ⟨ha, rfl, rfl, fun _ => rfl, fun m hm => ?_, nofun⟩
        exact (List.mem_append.mp hm).imp_right fun hm => by rw [List.mem_singleton.mp hm]; rfl
  | onConnect g id =>
      have hown := HostCore.owns_none (c := c.setState g fun s => { s with opened := true }) ha g
      simp only [hostExec, HostCore.onConnect, hown, Bool.not_false, if_true]
      exact ⟨ha, rfl, rfl, fun _ => HostCore.setState_same ConnectionState.finished fun _ => rfl,
        fun _ => Or.inl, fun p hp => List.mem_singleton.mp hp ▸ rfl⟩
  | onConnectError g error =>
      simp only [hostExec, HostCore.onConnectError, HostCore.owns_none ha, Bool.not_false, if_true]
      exact hsame rfl rfl rfl (fun _ => rfl) rfl
  | onDisconnect g reason =>
      have hf : (c.states g).finished = true := by
        refine Bool.not_eq_false _ |>.mp fun hf => ?_
        rw [(h.active g).mpr ⟨hok, hf⟩] at ha
        cases ha
      simp only [hostExec, HostCore.onDisconnect, HostCore.finish, hf, if_true, HostCore.continue]
      exact hsame rfl rfl rfl (fun _ => rfl) rfl
  | onAny g event args asksAnswer =>
      simp only [hostExec, HostCore.forwardServerEvent, HostCore.owns_none ha, Bool.not_false, if_true]
      exact hsame rfl rfl rfl (fun _ => rfl) rfl
  | acknowledge r args =>
      have hown := fun k => HostCore.owns_none (c := c.setReference r fun x =>
        { x with answered := true, state := none }) ha k
      simp only [hostExec, HostCore.acknowledge]
      split
      · exact hsame rfl rfl rfl (fun _ => rfl) rfl
      · split
        · exact hsame rfl rfl rfl (fun _ => rfl) rfl
        · rw [hown]
          exact hsame rfl rfl rfl (fun _ => rfl) rfl
  | close reason =>
      simp only [hostExec, HostCore.close]
      split
      · exact hsame rfl rfl rfl (fun _ => rfl) rfl
      · rw [show ({ c with closed := true } : HostCore).active = none from ha]
        exact ⟨rfl, rfl, rfl, fun _ => rfl, fun _ => Or.inl, nofun⟩
  | _ => exact hsame rfl rfl rfl (fun _ => rfl) rfl

/-- **Every instruction keeps the heap well formed.** -/
theorem hostExec_wf {c : HostCore} (h : c.Wf) {i : HostInstr} (hok : i.Ok c) (hp : i.Polite c) :
    (hostExec i c).core.Wf := by
  have hsame : ∀ {c' : HostCore}, c'.port = c.port → c'.active = c.active →
      c'.nextGeneration = c.nextGeneration → c'.created = c.created → c'.posted = c.posted →
      c'.log = c.log → c'.states = c.states → c'.Wf := fun h₁ h₂ h₃ h₄ h₅ h₆ h₇ =>
    h.frame h₁ h₂ h₃ h₄ h₅ (fun _ _ hl => h₆ ▸ hl) (fun _ => by rw [h₇]) fun _ => by rw [h₇]
  cases i with
  | handleMessage value => exact h.handleMessage hok
  | notify g reason next =>
      obtain ⟨ha, hg, hc, hf, hx⟩ := hok
      simp only [hostExec, HostCore.post_works h.port]
      have h' : (c.say (.disconnected (c.states g).requestId g reason)).Wf := by
        refine h.say (fun k hk => ?_) (fun k hk _ => ?_) nofun
        · obtain rfl := Option.some.inj hk
          exact ⟨Nat.le_of_eq hg, hx⟩
        · obtain rfl := of_decide_eq_true hk
          exact hf
      refine h'.continue ha next fun k hk => ?_
      obtain rfl := Option.some.inj hk
      exact ⟨hg, _, List.mem_append_right _ (List.mem_singleton_self _), decide_eq_true rfl⟩
  | emitFinally r =>
      simp only [hostExec]
      split <;> exact hsame rfl rfl rfl rfl rfl rfl rfl
  | onMessageError =>
      simp only [hostExec]
      split
      · exact h
      · exact h.reportBridgeError _
  | onConnect g id => exact h.onConnect g id
  | onConnectError g error => exact h.onConnectError g error
  | onDisconnect g reason => exact h.finish hok _ _ _ (Or.inl rfl)
  | onAny g event args asksAnswer => exact h.forwardServerEvent hok.2 _ _ _
  | acknowledge r args => exact h.acknowledge r args
  | close reason => exact h.close reason
  | setPort port =>
      exact { h with port := hp }
  | _ => exact hsame rfl rfl rfl rfl rfl rfl rfl

/-- What an instruction of the host itself leaves pending: no message of the page, and a
    notification last. -/
structure Calm (e : Effect HostCore HostInstr) : Prop where
  post : e.post = []
  push : e.push.Pairwise HostInstr.Before

theorem Calm.nothing (c : HostCore) : Calm { core := c } := ⟨rfl, .nil⟩

theorem Calm.finish (c : HostCore) (g : Generation) (reason : String)
    (notify disconnectSocket : Bool) (next : Option String) :
    Calm (c.finish g reason notify disconnectSocket next) := by
  unfold HostCore.finish
  split
  · exact .nothing _
  · refine ⟨rfl, List.pairwise_append.mpr ⟨?_, ?_, fun p hp _ _ hs => ?_⟩⟩
    · split <;> [exact List.pairwise_singleton _ _; exact .nil]
    · split <;> [exact List.pairwise_singleton _ _; exact .nil]
    · split at hp
      · rw [List.mem_singleton.mp hp] at hs
        cases hs
      · cases hp

theorem Calm.withOwner {c : HostCore} {generation : Generation} {requestId : Option String}
    {f : Generation → Effect HostCore HostInstr} (hf : ∀ g, Calm (f g)) :
    Calm (c.withOwner generation requestId f) := by
  unfold HostCore.withOwner
  split
  · exact hf _
  · exact .nothing _
  · exact .nothing _

/-- Every instruction is calm but the one that hands over a message. -/
theorem hostExec_calm (c : HostCore) (i : HostInstr) :
    Calm (hostExec i c) ∨ ∃ value, i = .arrive value := by
  cases i with
  | arrive value => exact Or.inr ⟨value, rfl⟩
  | handleMessage value =>
      refine Or.inl ?_
      simp only [hostExec, HostCore.handleMessage]
      split
      · exact .nothing _
      · split
        · exact .nothing _
        · unfold HostCore.connect
          split
          · exact .nothing _
          · exact .finish ..
        · refine .withOwner fun g => ?_
          unfold HostCore.handleClientEvent
          dsimp only
          split
          · exact ⟨rfl, List.pairwise_singleton _ _⟩
          · exact ⟨rfl, by simp [HostInstr.Before, HostInstr.starts]⟩
        · exact .withOwner fun _ => .nothing _
        · exact .withOwner fun _ => .finish ..
        · exact .nothing _
  | disconnectSocket g =>
      refine Or.inl ?_
      simp only [hostExec, HostCore.disconnectSocket]
      split <;> exact ⟨rfl, List.pairwise_singleton _ _⟩
  | onConnect g id =>
      refine Or.inl ?_
      simp only [hostExec, HostCore.onConnect]
      split
      · exact ⟨rfl, List.pairwise_singleton _ _⟩
      · split
        · exact .nothing _
        · exact .finish ..
  | onConnectError g error =>
      refine Or.inl ?_
      simp only [hostExec, HostCore.onConnectError]
      split
      · exact .nothing _
      · exact .finish ..
  | onDisconnect g reason => exact Or.inl (.finish ..)
  | close reason =>
      refine Or.inl ?_
      simp only [hostExec, HostCore.close]
      split
      · exact .nothing _
      · split
        · exact .nothing _
        · exact .finish ..
  | _ => exact Or.inl (.nothing _)

/-- What a step leaves pending, it may leave. -/
theorem HostCore.Wf.finish_spawn {c : HostCore} (h : c.Wf) {g : Generation}
    (hc : c.created g = true)
    {reason : String} {notify disconnectSocket : Bool} {next : Option String} {j : HostInstr}
    (hj : j ∈ (c.finish g reason notify disconnectSocket next).spawned) :
    j.Ok (c.finish g reason notify disconnectSocket next).core := by
  unfold HostCore.finish at hj ⊢
  split at hj
  · cases hj
  · rename_i hf
    rw [if_neg hf]
    have ha : c.active = some g := (h.active g).mpr ⟨hc, Bool.eq_false_iff.mpr hf⟩
    simp only [Effect.spawned, List.append_nil, List.mem_append] at hj
    rcases hj with hj | hj
    · split at hj
      · obtain rfl := List.mem_singleton.mp hj
        exact hc
      · cases hj
    · split at hj
      · obtain rfl := List.mem_singleton.mp hj
        refine ⟨if_pos ha, h.last g ha, hc, ?_, h.unended hc (Bool.eq_false_iff.mpr hf)⟩
        simp [HostCore.setState]
      · cases hj

theorem HostCore.Wf.disconnect_spawn {c : HostCore} (h : c.Wf) {g : Generation}
    (hc : c.created g = true) {reason : String} {notify : Bool} {next : Option String} {j : HostInstr}
    (hj : j ∈ (c.disconnect g reason notify next).spawned) :
    j.Ok (c.disconnect g reason notify next).core := by
  have h' : (c.setState g fun s => { s with disconnectReason := some reason }).Wf :=
    h.setState (fun _ => rfl) fun _ => rfl
  exact h'.finish_spawn hc hj

theorem HostCore.handleClientEvent_spawn {c : HostCore} {g k : Generation} {ackId : Option String}
    {j : HostInstr} (hj : j ∈ (c.handleClientEvent g k ackId).spawned) (c' : HostCore) :
    j.Ok c' := by
  unfold HostCore.handleClientEvent at hj
  dsimp only at hj
  split at hj
  · obtain rfl := List.mem_singleton.mp hj
    trivial
  · simp only [Effect.spawned, List.append_nil, List.mem_cons, List.not_mem_nil, or_false] at hj
    rcases hj with rfl | rfl | rfl <;> trivial

theorem HostCore.withOwner_spawn {c : HostCore} {generation : Generation}
    {requestId : Option String}
    {f : Generation → Effect HostCore HostInstr} {j : HostInstr}
    (hf : c.active = some generation → j ∈ (f generation).spawned → j.Ok (f generation).core)
    (hj : j ∈ (c.withOwner generation requestId f).spawned) :
    j.Ok (c.withOwner generation requestId f).core := by
  unfold HostCore.withOwner at hj ⊢
  split at hj
  · rename_i g hg
    obtain ⟨rfl, ha⟩ := HostCore.owner_ok hg
    exact hf ha hj
  · cases hj
  · cases hj

/-- What an instruction leaves pending may be executed. -/
theorem hostExec_spawn {c : HostCore} (h : c.Wf) {i j : HostInstr} (hok : i.Ok c) (hp : i.Polite c)
    (hj : j ∈ (hostExec i c).spawned) : j.Ok (hostExec i c).core := by
  cases i with
  | handleMessage value =>
      simp only [hostExec, HostCore.handleMessage] at hj ⊢
      split at hj
      · cases hj
      · rename_i hopen
        rw [if_neg hopen]
        split at hj
        · cases hj
        · unfold HostCore.connect at hj ⊢
          split at hj
          · cases hj
          · rename_i g ha
            exact h.disconnect_spawn ((h.active g).mp ha).1 hj
        · exact HostCore.withOwner_spawn (fun _ hj => HostCore.handleClientEvent_spawn hj _) hj
        · exact HostCore.withOwner_spawn (fun _ hj => (by cases hj)) hj
        · exact HostCore.withOwner_spawn
            (fun ha hj => h.disconnect_spawn ((h.active _).mp ha).1 hj) hj
        · cases hj
  | disconnectSocket g =>
      simp only [hostExec, HostCore.disconnectSocket, Effect.spawned, List.append_nil] at hj
      split at hj
      · obtain rfl := List.mem_singleton.mp hj
        exact hok
      · obtain rfl := List.mem_singleton.mp hj
        trivial
  | arrive value =>
      obtain rfl := List.mem_singleton.mp hj
      exact hp
  | onConnect g id =>
      simp only [hostExec, HostCore.onConnect, HostCore.post_works (c := c.setState g _) h.port] at hj ⊢
      split at hj
      · rename_i hown
        rw [if_pos hown]
        obtain rfl := List.mem_singleton.mp hj
        exact hok
      · cases hj
  | onConnectError g error =>
      simp only [hostExec, HostCore.onConnectError] at hj
      split at hj
      · cases hj
      · unfold HostCore.finish at hj
        split at hj <;> cases hj
  | onDisconnect g reason => exact h.finish_spawn hok hj
  | close reason =>
      have h' : HostCore.Wf { c with closed := true } :=
        h.frame rfl rfl rfl rfl rfl (fun _ _ hl => hl) (fun _ => rfl) fun _ => rfl
      simp only [hostExec, HostCore.close] at hj ⊢
      split at hj
      · cases hj
      · rename_i hopen
        rw [if_neg hopen]
        split at hj
        · cases hj
        · rename_i g ha
          have ha' : c.active = some g := ha
          simp only [ha'] at hj ⊢
          exact HostCore.Wf.disconnect_spawn (c := { c with closed := true, active := some g })
            (ha' ▸ h') ((h.active g).mp ha').1 hj
  | _ => cases hj

/-- **Every step of the host keeps what it has posted in order**, if the page only speaks of
    generations it has heard of. -/
theorem host_line : Line host (fun c i => i.Polite c) HostCore.Wf (fun c i => i.Ok c)
    HostInstr.Before where
  core c i h := hostExec_wf h.inv h.ok h.good
  spawn c i h j hj := hostExec_spawn h.inv h.ok h.good hj
  stable c i j h hj hb := by
    have hgrow := hostExec_grows h.inv.created i
    cases j with
    | handleMessage value => exact HostCore.Heard.mono hj hgrow.posted
    | disconnectSocket g => exact hgrow.created g hj
    | onDisconnect g reason => exact hgrow.created g hj
    | onConnect g id => exact hgrow.created g hj
    | onAny g event args asksAnswer => exact ⟨hgrow.created g hj.1, hgrow.talks g hj.1 hj.2⟩
    | notify g reason next =>
        obtain ⟨ha, hg, hc, hf, hx⟩ := hj
        have hs : i.starts = false := Bool.eq_false_iff.mpr fun hs => by cases hb hs
        have hq : c.Quiet (host.exec i c) := hostExec_quiet h.inv ha hs h.ok
        refine ⟨hq.active, hg.trans hq.nextGeneration.symm, hq.created ▸ hc, (hq.finished g).trans hf,
          fun x hxm => ?_⟩
        rcases hq.posted x hxm with hxm | hxm
        · exact hx x hxm
        · exact Bool.eq_false_iff.mpr fun hxe => by
            rw [Message.ends_generation hxe] at hxm
            cases hxm
    | _ => trivial
  call c i h hc := by
    cases i with
    | onAny g event args asksAnswer =>
        simp only [host, hostCallable, Bool.and_eq_true, Bool.or_eq_true] at hc
        exact ⟨hc.1.1.1, by simpa [ConnectionState.talks] using hc.1.1.2⟩
    | onConnect g id => exact (Bool.and_eq_true_iff.mp hc).1
    | onDisconnect g reason => exact (Bool.and_eq_true_iff.mp hc).1
    | handleMessage _ | disconnectSocket _ | notify _ _ _ => cases hc
    | _ => trivial
  handle c i is _ _ his := by
    cases i <;> cases his
  push c i j p h hj hb hp hs := by
    by_cases hst : i.starts = true
    · exact hb hst
    · cases j with
      | notify g reason next =>
          have hq := hostExec_quiet h.inv hj.1 (Bool.eq_false_iff.mpr hst) h.ok
          rw [hq.push p hp] at hs
          cases hs
      | _ => rfl
  post c i j p hp hs := by
    rcases hostExec_calm c i with hcalm | ⟨value, rfl⟩
    · rw [show (host.exec i c).post = [] from hcalm.post] at hp
      cases hp
    · rw [List.mem_singleton.mp hp]
      rfl
  inner c i _ := by
    rcases hostExec_calm c i with hcalm | ⟨value, rfl⟩
    · rw [Effect.spawned, show (host.exec i c).post = [] from hcalm.post, List.append_nil]
      exact hcalm.push
    · exact List.pairwise_singleton _ _
  callRel c i j hc hs := by
    cases i with
    | handleMessage _ | notify _ _ _ => cases hc
    | _ => cases hs
  handleRel c i is his := by
    cases i <;> cases his
  free c i hi := by
    cases i with
    | emitFinally r => trivial
    | _ => cases hi

/-- A host that has just been attached has said nothing. -/
theorem attached_wf : HostCore.Wf {} where
  port := rfl
  active _ := ⟨nofun, fun h => by cases h.1⟩
  created _ := nofun
  last _ := nofun
  drawn _ := nofun
  ended _ := nofun
  closed := .nil
  talks _ := nofun
  events _ := .nil
  started _ _ := nofun

/-! ## 6. Every run -/

/-- **The host's stream follows one grammar per generation.** In every run whose posts succeed, over
    messages of the page of any kind, lifecycle events of any socket and calls of `close` in any
    order: each generation has at most one terminal message, no CONNECTED, SERVER_EVENT or ACK after
    it, and no SERVER_EVENT before a CONNECTED; and once a connect has replaced a live generation,
    the terminal message of that generation precedes every message of a later one. -/
theorem host_grammar {σ : HostState}
    (h : host.Reach (host.Obeys fun c i => i.Polite c) attached σ) :
    (∀ g, Grammar σ.core.posted g) ∧
      ∀ g g', .started g' (some g) ∈ σ.core.log →
        Preceded (·.ends g = true) (fun m => ∃ k, g < k ∧ m.generation? = some k) σ.core.posted := by
  have hw : σ.core.Wf :=
    (h.line host_line (fun _ _ => id) ⟨attached_wf, fun _ hj => (by cases hj), .nil⟩).inv
  exact ⟨fun g => ⟨hw.closed.terminal g, hw.closed.last g, hw.events g⟩,
    fun g g' hg => (hw.started g g' hg).2⟩

/-- A page connects, hears an event, and connects again. -/
theorem host_grammar_replaced :
    ∃ σ, host.Reach (host.Obeys fun c i => i.Polite c) attached σ ∧
      σ.core.posted.length = 3 ∧ Grammar σ.core.posted 1 := by
  obtain ⟨σ, hσ, hp⟩ := reach_of_script host (host.Obeys fun c i => i.Polite c) attached 100
    [.call (.arrive (Message.connect "page:1" "http://h/" (.object [])).toValue), .run,
      .call (.onConnect 1 "id"), .call (.onAny 1 "news" [] false),
      .call (.arrive (Message.connect "page:2" "http://h/" (.object [])).toValue), .run]
    (fun σ => decide (σ.core.posted.length = 3)) (by decide)
  exact ⟨σ, hσ, of_decide_eq_true hp, (host_grammar hσ).1 1⟩

end Smocket.SharedWorker
