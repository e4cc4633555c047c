import Smocket.Hooks
import Smocket.Observers
import Smocket.Setup

/-
  File:      Smocket/Wrappers.lean
  Subject:   STACKS OF `DroppingAdapter` AND `TracingAdapter` around an adapter of the application.

  The base may implement any of the optional hooks; a wrapper implements all of them, and forwards
  or defaults what the adapter below it does not. A broadcast goes through the stack twice: once to
  narrow its recipients, once to be traced.

  * `filter_spec`, `trace_spec` -- what a stack makes of the two calls, by induction on the stack;
  * `stack_law` -- the composition law of a stack;
  * `recipients_through`, `broadcast_through`, `removeSocket_through` -- the runtime's adapters are
    such stacks;
  * `run_released` -- no wrapper keeps state for a sid that has been removed;
  * **`adapter_stacks`** -- both together.
-/

namespace Smocket

open Ordered EventLoop EventLoop.Machine

/-! ## 1. Adapter objects -/

/-- The identities of an adapter's `rooms` and `sids`. -/
structure Maps where
  rooms : Nat
  sids : Nat
  deriving DecidableEq

/-- An adapter of the application, or a wrapper with its own references to the maps. -/
inductive SmocketAdapter where
  | base (maps : Maps)
  | wrapper (maps : Maps) (layer : Layer) (adapter : SmocketAdapter)

/-- What the base implements, over its own state `S`; the hooks are optional. A delivery is a
    `D`. -/
structure BaseAdapter (S D : Type) where
  add : String → String → S → S
  del : String → String → S → S
  socketsIn : List String → S → OSet String
  filterBroadcastRecipients : Option (List String → S → OSet String × S)
  traceBroadcast : Option (BroadcastTrace → S → S)
  scheduleDelivery : Option (String → D → S → S)
  removeSocket : Option (String → S → S)

/-- The wrapper drops the sid. -/
def Layer.drops (sid : String) : Layer → Bool
  | .dropping dropped => dropped.contains sid
  | .tracing _ => false

def Layer.isTracing : Layer → Bool
  | .dropping _ => false
  | .tracing _ => true

/-- What a wrapper's `filterBroadcastRecipients` makes of the set it was delegated. -/
def Layer.retain (sids : List String) (delegated : OSet String) : Layer → OSet String
  | .dropping dropped =>
      OSet.ofList (sids.filter fun sid => decide (sid ∈ delegated) && !dropped.contains sid)
  | .tracing _ => delegated

namespace SmocketAdapter

variable {S D : Type} (B : BaseAdapter S D)

def maps : SmocketAdapter → Maps
  | .base maps | .wrapper maps _ _ => maps

/-- `new DroppingAdapter(adapter)`. -/
def newDropping (adapter : SmocketAdapter) : SmocketAdapter :=
  .wrapper adapter.maps (.dropping []) adapter

/-- `new TracingAdapter(adapter)`. -/
def newTracing (adapter : SmocketAdapter) : SmocketAdapter :=
  .wrapper adapter.maps (.tracing []) adapter

/-- The wrappers, outermost first. -/
def layers : SmocketAdapter → List Layer
  | .base _ => []
  | .wrapper _ layer adapter => layer :: adapter.layers

/-- The adapter itself and those below it. -/
def levels : SmocketAdapter → List SmocketAdapter
  | .base maps => [.base maps]
  | .wrapper maps layer adapter => .wrapper maps layer adapter :: adapter.levels

/-- The maps of the base. -/
def baseMaps : SmocketAdapter → Maps
  | .base maps => maps
  | .wrapper _ _ adapter => adapter.baseMaps

def add (sid room : String) : SmocketAdapter → S → S
  | .base _ => B.add sid room
  | .wrapper _ _ adapter => adapter.add sid room

def del (sid room : String) : SmocketAdapter → S → S
  | .base _ => B.del sid room
  | .wrapper _ _ adapter => adapter.del sid room

def socketsIn (rooms : List String) : SmocketAdapter → S → OSet String
  | .base _ => B.socketsIn rooms
  | .wrapper _ _ adapter => adapter.socketsIn rooms

def filterBroadcastRecipients : SmocketAdapter → Option (List String → S → OSet String × S)
  | .base _ => B.filterBroadcastRecipients
  | .wrapper _ layer adapter => some fun sids s =>
      let delegated := match adapter.filterBroadcastRecipients with
        | some filter => filter sids s
        | none => (OSet.ofList sids, s)
      (layer.retain sids delegated.1, delegated.2)

/-- `traceBroadcast`: a `TracingAdapter` records and does not forward. -/
def traceBroadcast : SmocketAdapter → Option (BroadcastTrace → S → SmocketAdapter × S)
  | .base maps => B.traceBroadcast.map fun hook trace s => (.base maps, hook trace s)
  | .wrapper maps (.dropping dropped) adapter => some fun trace s =>
      match adapter.traceBroadcast with
      | some hook =>
          (.wrapper maps (.dropping dropped) (hook trace s).1, (hook trace s).2)
      | none => (.wrapper maps (.dropping dropped) adapter, s)
  | .wrapper maps (.tracing traces) adapter => some fun trace s =>
      (.wrapper maps (.tracing (traces ++ [trace])) adapter, s)

/-- `scheduleDelivery`, with the deliveries it defers. -/
def scheduleDelivery : SmocketAdapter → Option (String → D → S → S × List D)
  | .base _ => B.scheduleDelivery.map fun hook sid deliver s => (hook sid deliver s, [])
  | .wrapper _ _ adapter => some fun sid deliver s =>
      match adapter.scheduleDelivery with
      | some hook => hook sid deliver s
      | none => (s, [deliver])

/-- `removeSocket`: a `DroppingAdapter` forgets the sid first. -/
def removeSocket : SmocketAdapter → Option (String → S → SmocketAdapter × S)
  | .base maps => B.removeSocket.map fun hook sid s => (.base maps, hook sid s)
  | .wrapper maps layer adapter => some fun sid s =>
      match adapter.removeSocket with
      | some hook => (.wrapper maps (layer.setDropped sid false) (hook sid s).1, (hook sid s).2)
      | none => (.wrapper maps (layer.setDropped sid false) adapter, s)

/-! ## 2. The calls of the core -/

/-- The end of `BroadcastOperator.recipients`, from the routed list `out` on. -/
def recipients {α : Type} (id : α → String) (out : List α) (adapter : SmocketAdapter) (s : S) :
    List α × S :=
  match adapter.filterBroadcastRecipients B with
  | none => (out, s)
  | some filter =>
      let retained := filter (out.map id) s
      (out.filter fun socket => decide (id socket ∈ retained.1), retained.2)

/-- `BroadcastOperator.trace`. -/
def trace (trace : BroadcastTrace) (adapter : SmocketAdapter) (s : S) : SmocketAdapter × S :=
  match adapter.traceBroadcast B with
  | none => (adapter, s)
  | some hook => hook trace s

/-- `BroadcastOperator.emit` up to its deliveries: the recipients, then their trace. `routing` holds
    the other fields of the trace. -/
def broadcast {α : Type} (id : α → String) (out : List α) (routing : BroadcastTrace)
    (adapter : SmocketAdapter) (s : S) : List α × SmocketAdapter × S :=
  let r := recipients B id out adapter s
  (r.1, trace B { routing with recipients := r.1.map id } adapter r.2)

/-- `scheduleReceive`: through the hook, or deferred. -/
def schedule (sid : String) (deliver : D) (adapter : SmocketAdapter) (s : S) : S × List D :=
  match adapter.scheduleDelivery B with
  | some hook => hook sid deliver s
  | none => (s, [deliver])

/-- `adapter.removeSocket?.(sid)`. -/
def remove (sid : String) (adapter : SmocketAdapter) (s : S) : SmocketAdapter × S :=
  match adapter.removeSocket B with
  | some hook => hook sid s
  | none => (adapter, s)

/-! ## 3. What a stack makes of a call -/

/-- A stack as its constructors build it: each wrapper refers to the maps of the adapter below. -/
inductive Built : SmocketAdapter → Prop
  | base (maps : Maps) : Built (.base maps)
  | wrapper (layer : Layer) {adapter : SmocketAdapter} (h : Built adapter) :
      Built (.wrapper adapter.maps layer adapter)

theorem Built.newDropping {a : SmocketAdapter} (h : a.Built) : a.newDropping.Built := .wrapper _ h

theorem Built.newTracing {a : SmocketAdapter} (h : a.Built) : a.newTracing.Built := .wrapper _ h

/-- **At every level the maps are the base's own.** -/
theorem Built.maps_eq {a : SmocketAdapter} (h : a.Built) : ∀ l ∈ a.levels, l.maps = a.baseMaps := by
  have hself : a.maps = a.baseMaps := by
    induction h with
    | base maps => rfl
    | wrapper layer h ih => exact ih
  induction h with
  | base maps =>
      intro l hl
      rw [List.mem_singleton.mp hl]
      rfl
  | @wrapper layer adapter h ih =>
      intro l hl
      rcases List.mem_cons.mp hl with rfl | hl
      · exact hself
      · exact ih hself l hl

end SmocketAdapter

section Stack

variable {S D : Type} {B : BaseAdapter S D}

/-- The base keeps the sid, asked about `sids`; without the hook it keeps all. -/
def BaseAdapter.retains (B : BaseAdapter S D) (sids : List String) (s : S) (sid : String) : Bool :=
  match B.filterBroadcastRecipients with
  | some filter => decide (sid ∈ (filter sids s).1)
  | none => true

/-- The base after it has been asked. -/
def BaseAdapter.asked (B : BaseAdapter S D) (sids : List String) (s : S) : S :=
  match B.filterBroadcastRecipients with
  | some filter => (filter sids s).2
  | none => s

/-- The base after a call of one of its hooks with the arguments `x`, if it has the hook. -/
def hooked {α : Type} (hook : Option (α → S → S)) (x : α) (s : S) : S :=
  match hook with
  | some hook => hook x s
  | none => s

theorem retain_mem {layer : Layer} {sids : List String} {delegated : OSet String} {sid : String}
    (h : sid ∈ sids) :
    sid ∈ layer.retain sids delegated ↔ sid ∈ delegated ∧ layer.drops sid = false := by
  cases layer with
  | dropping dropped => simp [Layer.retain, Layer.drops, OSet.mem_ofList, h]
  | tracing traces => simp [Layer.retain, Layer.drops]

/-- **A stack keeps, of the sids it is asked about, those the base keeps and no wrapper drops.** It
    lacks the hook only if it is a base without it. -/
theorem filter_spec (a : SmocketAdapter) (sids : List String) (s : S) :
    match a.filterBroadcastRecipients B with
    | some filter => (∀ sid ∈ sids, sid ∈ (filter sids s).1 ↔
        B.retains sids s sid = true ∧ a.layers.any (Layer.drops sid) = false) ∧
        (filter sids s).2 = B.asked sids s
    | none => a.layers = [] ∧ B.filterBroadcastRecipients = none := by
  induction a with
  | base maps =>
      simp only [SmocketAdapter.filterBroadcastRecipients, BaseAdapter.retains, BaseAdapter.asked]
      cases B.filterBroadcastRecipients with
      | none => exact ⟨rfl, rfl⟩
      | some filter => exact ⟨fun sid _ => by simp [SmocketAdapter.layers], rfl⟩
  | wrapper maps layer adapter ih =>
      simp only [SmocketAdapter.filterBroadcastRecipients]
      cases hf : adapter.filterBroadcastRecipients B with
      | some filter =>
          rw [hf] at ih
          refine ⟨fun sid hsid => ?_, ih.2⟩
          rw [retain_mem hsid, ih.1 sid hsid]
          simp only [SmocketAdapter.layers, List.any_cons, Bool.or_eq_false_iff]
          tauto
      | none =>
          rw [hf] at ih
          refine ⟨fun sid hsid => ?_, ?_⟩
          · rw [retain_mem hsid]
            simp [BaseAdapter.retains, ih.2, SmocketAdapter.layers, ih.1, OSet.mem_ofList, hsid]
          · simp [BaseAdapter.asked, ih.2]

/-- **Whom the core delivers to.** -/
theorem recipients_eq {α : Type} (id : α → String) (out : List α) (a : SmocketAdapter) (s : S) :
    a.recipients B id out s =
      (out.filter fun x => B.retains (out.map id) s (id x) && !a.layers.any (Layer.drops (id x)),
        B.asked (out.map id) s) := by
  have h := filter_spec (B := B) a (out.map id) s
  unfold SmocketAdapter.recipients
  cases hf : a.filterBroadcastRecipients B with
  | some filter =>
      rw [hf] at h
      refine Prod.ext (List.filter_congr fun x hx => ?_) h.2
      rw [Bool.eq_iff_iff, decide_eq_true_eq, h.1 _ (List.mem_map_of_mem hx)]
      simp
  | none =>
      rw [hf] at h
      simp [BaseAdapter.retains, BaseAdapter.asked, h.1, h.2]

theorem traceBroadcast_outermost {trace : BroadcastTrace} {pre post : List Layer}
    {traces : List BroadcastTrace} (h : ∀ l ∈ pre, l.isTracing = false) :
    traceBroadcast trace (pre ++ .tracing traces :: post) =
      pre ++ .tracing (traces ++ [trace]) :: post := by
  induction pre with
  | nil => rfl
  | cons l pre ih =>
      cases l with
      | dropping dropped =>
          simp only [List.cons_append, traceBroadcast, ih fun l hl => h l (List.mem_cons_of_mem _ hl)]
      | tracing traces => cases h _ List.mem_cons_self

theorem traceBroadcast_none {trace : BroadcastTrace} {layers : List Layer}
    (h : ∀ l ∈ layers, l.isTracing = false) : traceBroadcast trace layers = layers := by
  induction layers with
  | nil => rfl
  | cons l layers ih =>
      cases l with
      | dropping dropped =>
          simp only [traceBroadcast, ih fun l hl => h l (List.mem_cons_of_mem _ hl)]
      | tracing traces => cases h _ List.mem_cons_self

/-- **A trace is recorded by the outermost `TracingAdapter`**, and reaches the base if there is
    none. -/
theorem trace_spec (a : SmocketAdapter) (t : BroadcastTrace) (s : S) :
    (a.trace B t s).1.layers = traceBroadcast t a.layers ∧
      (a.trace B t s).2 = if a.layers.any Layer.isTracing then s else hooked B.traceBroadcast t s := by
  unfold SmocketAdapter.trace
  induction a with
  | base maps =>
      simp only [SmocketAdapter.traceBroadcast, hooked]
      cases B.traceBroadcast with
      | none => exact ⟨rfl, rfl⟩
      | some hook => exact ⟨rfl, rfl⟩
  | wrapper maps layer adapter ih =>
      cases layer with
      | dropping dropped =>
          simp only [SmocketAdapter.traceBroadcast, SmocketAdapter.layers, List.any_cons,
            Layer.isTracing, Bool.false_or, Smocket.traceBroadcast]
          cases hf : adapter.traceBroadcast B with
          | none =>
              rw [hf] at ih
              exact ⟨congrArg _ ih.1, ih.2⟩
          | some hook =>
              rw [hf] at ih
              exact ⟨congrArg _ ih.1, ih.2⟩
      | tracing traces =>
          simp [SmocketAdapter.traceBroadcast, SmocketAdapter.layers, Layer.isTracing,
            Smocket.traceBroadcast]

/-- **A delivery reaches the base's hook once**; without the hook it is deferred once. -/
theorem schedule_spec (a : SmocketAdapter) (sid : String) (deliver : D) (s : S) :
    a.schedule B sid deliver s =
      match B.scheduleDelivery with
      | some hook => (hook sid deliver s, [])
      | none => (s, [deliver]) := by
  unfold SmocketAdapter.schedule
  induction a with
  | base maps =>
      simp only [SmocketAdapter.scheduleDelivery]
      cases B.scheduleDelivery with
      | none => rfl
      | some hook => rfl
  | wrapper maps layer adapter ih => exact ih

/-- **A removal reaches the base's hook once**, and every `DroppingAdapter` forgets the sid. -/
theorem remove_spec (a : SmocketAdapter) (sid : String) (s : S) :
    (a.remove B sid s).1.layers = a.layers.map (Layer.setDropped sid false) ∧
      (a.remove B sid s).2 = hooked B.removeSocket sid s := by
  unfold SmocketAdapter.remove
  induction a with
  | base maps =>
      simp only [SmocketAdapter.removeSocket, hooked]
      cases B.removeSocket with
      | none => exact ⟨rfl, rfl⟩
      | some hook => exact ⟨rfl, rfl⟩
  | wrapper maps layer adapter ih =>
      simp only [SmocketAdapter.removeSocket]
      cases hf : adapter.removeSocket B with
      | none =>
          rw [hf] at ih
          exact ⟨congrArg _ ih.1, ih.2⟩
      | some hook =>
          rw [hf] at ih
          exact ⟨congrArg _ ih.1, ih.2⟩

theorem setDropped_released (sid : String) (l : Layer) :
    (l.setDropped sid false).drops sid = false := by
  cases l with
  | dropping dropped => simp [Layer.setDropped, Layer.drops]
  | tracing traces => rfl

/-! ## 4. The composition law -/

/-- **What a stack does to the calls of the core.** -/
structure StackLaw (B : BaseAdapter S D) (a : SmocketAdapter) : Prop where
  /-- membership is the base's, at every level -/
  maps : ∀ l ∈ a.levels, l.maps = a.baseMaps
  add : ∀ sid room, a.add B sid room = B.add sid room
  del : ∀ sid room, a.del B sid room = B.del sid room
  socketsIn : ∀ rooms, a.socketsIn B rooms = B.socketsIn rooms
  /-- the recipients are the routed ones the base retains and no wrapper drops, in their order -/
  recipients : ∀ {α : Type} (id : α → String) (out : List α) (routing : BroadcastTrace) (s : S),
    (a.broadcast B id out routing s).1 =
      out.filter fun x => B.retains (out.map id) s (id x) && !a.layers.any (Layer.drops (id x))
  /-- the trace names the recipients; the outermost `TracingAdapter` records it -/
  traced : ∀ {α : Type} (id : α → String) (out : List α) (routing : BroadcastTrace) (s : S)
    (pre post : List Layer) (traces : List BroadcastTrace),
    a.layers = pre ++ .tracing traces :: post → (∀ l ∈ pre, l.isTracing = false) →
      let r := a.broadcast B id out routing s
      r.2.1.layers =
          pre ++ .tracing (traces ++ [{ routing with recipients := r.1.map id }]) :: post ∧
        r.2.2 = B.asked (out.map id) s
  /-- without one, the base's hook is given it -/
  forwarded : ∀ {α : Type} (id : α → String) (out : List α) (routing : BroadcastTrace) (s : S),
    (∀ l ∈ a.layers, l.isTracing = false) →
      let r := a.broadcast B id out routing s
      r.2.1.layers = a.layers ∧
        r.2.2 = hooked B.traceBroadcast { routing with recipients := r.1.map id }
          (B.asked (out.map id) s)
  scheduled : ∀ sid deliver s, a.schedule B sid deliver s =
    match B.scheduleDelivery with
    | some hook => (hook sid deliver s, [])
    | none => (s, [deliver])
  removed : ∀ sid s, (a.remove B sid s).2 = hooked B.removeSocket sid s ∧
    ∀ l ∈ (a.remove B sid s).1.layers, l.drops sid = false

theorem stack_law (B : BaseAdapter S D) {a : SmocketAdapter} (h : a.Built) : StackLaw B a where
  maps := h.maps_eq
  add sid room := by
    induction a with
    | base maps => rfl
    | wrapper maps layer adapter ih => cases h with | wrapper _ h => exact ih h
  del sid room := by
    induction a with
    | base maps => rfl
    | wrapper maps layer adapter ih => cases h with | wrapper _ h => exact ih h
  socketsIn rooms := by
    induction a with
    | base maps => rfl
    | wrapper maps layer adapter ih => cases h with | wrapper _ h => exact ih h
  recipients id out routing s := congrArg Prod.fst (recipients_eq id out a s)
  traced id out routing s pre post traces hl hpre := by
    have hspec := trace_spec (B := B) a
      { routing with recipients := (a.recipients B id out s).1.map id } (a.recipients B id out s).2
    refine ⟨?_, ?_⟩
    · exact hspec.1.trans (hl ▸ traceBroadcast_outermost hpre)
    · refine hspec.2.trans ?_
      rw [if_pos (by simp [hl, Layer.isTracing]), recipients_eq]
  forwarded id out routing s hl := by
    have hspec := trace_spec (B := B) a
      { routing with recipients := (a.recipients B id out s).1.map id } (a.recipients B id out s).2
    refine ⟨hspec.1.trans (traceBroadcast_none hl), hspec.2.trans ?_⟩
    rw [if_neg (by simpa using hl), recipients_eq]
    simp only [SmocketAdapter.broadcast, recipients_eq]
  scheduled := schedule_spec a
  removed sid s := by
    refine ⟨(remove_spec a sid s).2, fun l hl => ?_⟩
    rw [(remove_spec a sid s).1] at hl
    obtain ⟨l, -, rfl⟩ := List.mem_map.mp hl
    exact setDropped_released sid l

end Stack

/-! ## 5. The adapters of the runtime are stacks -/

/-- An adapter of the runtime as an object. -/
def SmocketAdapter.ofLayers (maps : Maps) : List Layer → SmocketAdapter
  | [] => .base maps
  | layer :: layers => .wrapper maps layer (ofLayers maps layers)

@[simp] theorem ofLayers_layers (maps : Maps) (ls : List Layer) :
    (SmocketAdapter.ofLayers maps ls).layers = ls := by
  induction ls with
  | nil => rfl
  | cons l ls ih => exact congrArg (l :: ·) ih

/-- The routed list, before the adapter is asked. -/
def BroadcastOperator.routed (op : BroadcastOperator) (σ : Core) : List SocketId :=
  let A := (op.adapterIn σ).1
  let roster := σ.memb.rosters op.nsp
  let targets :=
    if op.targetRooms.elems.isEmpty then roster.keys else (A.socketsIn op.targetRooms).elems
  let excluded := A.socketsIn op.exceptRooms
  targets.filterMap fun sid =>
    if sid ∈ excluded then none
    else (roster.get? sid).bind fun s =>
      if op.isVolatile && !σ.isClientReady s then none else some s

/-- What the trace of a broadcast says besides its recipients. -/
def BroadcastOperator.routing (op : BroadcastOperator) (σ : Core) (event : String) :
    BroadcastTrace where
  event := event
  rooms := op.targetRooms.elems
  exceptRooms := op.exceptRooms.elems
  excluded := ((op.adapterIn σ).1.socketsIn op.exceptRooms).elems
  recipients := []
  isVolatile := op.isVolatile

theorem filter_layers (layers : List Layer) (sid : String) :
    filterBroadcastRecipients layers sid = !layers.any (Layer.drops sid) := by
  induction layers with
  | nil => rfl
  | cons l layers ih =>
      simp only [filterBroadcastRecipients, List.all_cons, List.any_cons, Bool.not_or] at ih ⊢
      rw [ih]
      cases l <;> rfl

section Runtime

variable {S D : Type} {B : BaseAdapter S D}

/-- A trace is recorded in the adapter the operator captured. -/
theorem Namespace.trace_captured (N : Namespace) (A : Adapter) (k : Nat) (t : BroadcastTrace) :
    (N.trace k t).captured A k = ((N.captured A k).1, traceBroadcast t (N.captured A k).2) := by
  unfold Namespace.trace
  by_cases hk : k = N.adapter
  · simp [captured, hk]
  · simp [captured, hk]

/-- **A broadcast of the runtime goes through the stack the operator captured**, around a base that
    implements neither the filter nor the trace hook. -/
theorem broadcast_through (hf : B.filterBroadcastRecipients = none) (σ : Core)
    (op : BroadcastOperator) {event : String} (he : event ∉ RESERVED_EVENTS) (maps : Maps) (s : S) :
    let r := (SmocketAdapter.ofLayers maps (op.adapterIn σ).2).broadcast B
      (fun s => (σ.conn.sockets s).id) (op.routed σ) (op.routing σ event) s
    (broadcast σ op event).push = r.1.map (fun s => .mail (.sendBroadcast s event)) ∧
      (op.adapterIn { σ with srv := (broadcast σ op event).part }).2 = r.2.1.layers := by
  have hrec : (op.recipients σ).1 = ((SmocketAdapter.ofLayers maps (op.adapterIn σ).2).recipients B
      (fun s => (σ.conn.sockets s).id) (op.routed σ) s).1 := by
    rw [recipients_eq]
    simp only [BroadcastOperator.recipients, filter_layers, BaseAdapter.retains, hf, ofLayers_layers,
      Bool.true_and]
    rfl
  simp only [broadcast, if_neg he, SmocketAdapter.broadcast]
  refine ⟨by rw [hrec], ?_⟩
  rw [(Smocket.trace_spec ..).1, ← hrec]
  simp only [BroadcastOperator.adapterIn, Srv.setNamespace, modify_apply, if_true, ofLayers_layers,
    Namespace.trace_captured]
  rfl

/-- **A removal of the runtime goes through it as well.** -/
theorem removeSocket_through (σ : Core) (s : SocketId) (maps : Maps) (b : S) :
    let n := (σ.conn.sockets s).nsp
    ((removeSocket σ s).part.namespaces n).layers =
      ((SmocketAdapter.ofLayers maps (σ.srv.namespaces n).layers).remove B
        (σ.conn.sockets s).id b).1.layers := by
  simp [removeSocket, (remove_spec ..).1, Srv.setNamespace]

end Runtime

/-! ## 6. Removed sids -/

variable {P : Platform}

/-- The wrappers of the namespace keep nothing for the sid. -/
def Srv.Spares (ν : Srv) (n : NspId) (sid : String) : Prop :=
  ∀ l ∈ (ν.namespaces n).layers, l.drops sid = false

theorem setDropped_drops {sid sid' : String} {dropped : Bool} {l : Layer} (hne : sid' ≠ sid)
    (h : l.drops sid = false) : (l.setDropped sid' dropped).drops sid = false := by
  cases l with
  | tracing traces => rfl
  | dropping l =>
      simp only [Layer.drops, Layer.setDropped, List.contains_eq_mem, decide_eq_false_iff_not] at h ⊢
      split
      · split
        · exact h
        · simp [h, hne.symm]
      · exact fun hm => h (List.mem_filter.mp hm).1

theorem traceBroadcast_drops {t : BroadcastTrace} {sid : String} {ls : List Layer}
    (h : ∀ l ∈ ls, l.drops sid = false) : ∀ l ∈ traceBroadcast t ls, l.drops sid = false := by
  induction ls with
  | nil => exact h
  | cons l ls ih =>
      have hls := ih fun l hl => h l (List.mem_cons_of_mem _ hl)
      cases l with
      | dropping dropped =>
          intro l hl
          rcases List.mem_cons.mp hl with rfl | hl
          · exact h _ List.mem_cons_self
          · exact hls l hl
      | tracing traces =>
          intro l hl
          rcases List.mem_cons.mp hl with rfl | hl
          · rfl
          · exact h l (List.mem_cons_of_mem _ hl)

/-- Nothing is kept for a sid the adapter does not know. -/
theorem execSrv_spares {σ : Core} {i : SrvInstr} {n : NspId} {sid : String} (h : σ.srv.Spares n sid)
    (hn : n < σ.srv.nspCount) (hstart : σ.srv.admissionStarted = true)
    (hsids : (σ.memb.adapters n).sids.get? sid = none) : (execSrv P σ i).part.Spares n sid := by
  have hset : ∀ (m : NspId) (g : Namespace → Namespace),
      (m = n → ∀ N, (∀ l ∈ N.layers, l.drops sid = false) → ∀ l ∈ (g N).layers, l.drops sid = false) →
      (σ.srv.setNamespace m g).Spares n sid := by
    intro m g hg
    simp only [Srv.Spares, Srv.setNamespace, modify_apply]
    split
    · rename_i hm
      exact hg hm.symm _ (hm ▸ h)
    · exact h
  by_cases hi : i.adapted = false
  · intro l hl
    rw [((execSrv_adapters hi).namespaces n).layers] at hl
    exact h l hl
  cases i with
  | factoryReturns r => exact h
  | adapter results =>
      rw [show (execSrv P σ (.adapter results)).part = σ.srv by simp [execSrv, adapter, hstart]]
      exact h
  | createNamespace name attachTo closed k =>
      simp only [execSrv, createNamespace]
      split
      · split <;> exact h
      · have hreg : (((σ.srv.register name (σ.srv.newNamespace name attachTo closed)).addChild
            attachTo σ.srv.nspCount).namespaces n) = σ.srv.namespaces n := by
          cases attachTo <;> exact Function.update_of_ne hn.ne _ _
        exact fun l hl => h l (hreg ▸ hl)
  | broadcast op event =>
      simp only [execSrv, broadcast]
      split
      · exact h
      · refine hset _ _ fun _ N hN => ?_
        unfold Namespace.trace
        split
        · exact traceBroadcast_drops hN
        · exact hN
  | setDropped m layer sid' dropped =>
      simp only [execSrv, setDropped]
      split
      · exact h
      · rename_i hknown
        refine hset _ _ fun hm N hN => ?_
        subst hm
        have hne : sid' ≠ sid := fun he => hknown (by rw [he, hsids]; rfl)
        intro l hl
        rw [List.mem_iff_getElem?] at hl
        obtain ⟨k, hk⟩ := hl
        rw [List.getElem?_modify] at hk
        obtain ⟨l', hl', rfl⟩ := Option.map_eq_some_iff.mp hk
        have hfree := hN l' (List.mem_of_getElem? hl')
        split
        · exact setDropped_drops hne hfree
        · exact hfree
  | removeSocket s =>
      refine hset _ _ fun _ N hN l hl => ?_
      obtain ⟨l', hl', rfl⟩ := List.mem_map.mp hl
      by_cases hs : (σ.conn.sockets s).id = sid
      · exact hs ▸ setDropped_released _ l'
      · exact setDropped_drops hs (hN l' hl')
  | _ => exact absurd rfl hi

/-- **No wrapper keeps state for a sid that has been removed**, whatever the application calls in
    the course of the removal or later. -/
def Released (tr : List (Core × Instr)) (σ : Core) : Prop :=
  ∀ n sid, .removeSocket n sid ∈ callsIn tr → σ.srv.Spares n sid

theorem run_released {C : State → Action Instr → Prop} {tr : List (Core × Instr)} {σ : State}
    (h : (runtime P).Run C newServer tr σ) : Released tr σ.core := by
  induction h with
  | start => exact fun _ _ hm => absurd hm List.not_mem_nil
  | @step tr σ σ' a hr hc hs ih =>
      intro n sid hm
      rcases (server_keeping P).step hs with ⟨i, τ, rfl, hn, ht, hsrv⟩ | ⟨ht, hsrv⟩
      · rw [Srv.Spares, hsrv]
        rw [ht, callsIn, List.flatMap_append, List.mem_append] at hm
        rcases hm with hm | hm
        · have hfree := ih n sid hm
          cases i with
          | srv i =>
              obtain ⟨x, hx, hcall⟩ := List.mem_flatMap.mp hm
              obtain ⟨s, hs', hnsp, hid⟩ := mem_calls_removeSocket.mp hcall
              obtain ⟨hlt, hname⟩ := removed_name hr hx hs'
              rw [hname] at hnsp hid
              have hw := (reach_wf hr.reach).1
              refine execSrv_spares hfree ?_ ?_ ?_
              · exact hnsp ▸ (reach_homed hr.reach).1.conn.socket s
              · exact reach_started hr.reach ((Nat.zero_le _).trans_lt (hw.conn.peer_lt hlt))
              · exact hid ▸ ((reach_membInv hr.reach).1.gone hw.conn hlt
                  ((run_removals hr).cleaned x hx s hs').1 n).1
          | _ => exact hfree
        · rw [List.flatMap_singleton] at hm
          obtain ⟨s, hi, rfl, rfl⟩ := mem_calls_removeSocket.mp hm
          obtain rfl := removes_eq_some hi
          intro l hl
          simp only [runtime, exec, execSrv, removeSocket, Srv.setNamespace, modify_apply,
            if_true] at hl
          obtain ⟨l', -, rfl⟩ := List.mem_map.mp hl
          exact setDropped_released _ l'
      · rw [ht, List.append_nil] at hm
        rw [Srv.Spares, hsrv]
        exact ih n sid hm

/-! ## 7. Stacks -/

/-- **Wrapper stacks compose**: around any base, whatever hooks it has, a stack obeys the
    composition law; and in no run does a wrapper keep state for a sid the core has removed. -/
theorem adapter_stacks {S D : Type} (B : BaseAdapter S D) {a : SmocketAdapter} (ha : a.Built)
    {C : State → Action Instr → Prop} {tr : List (Core × Instr)} {σ : State}
    (h : (runtime P).Run C newServer tr σ) : StackLaw B a ∧ Released tr σ.core :=
  ⟨stack_law B ha, run_released h⟩

/-- A base with hooks of its own, which keep nothing from the sid `"x"` and note their calls. -/
def notingBase : BaseAdapter (List String) Unit where
  add _ _ := id
  del _ _ := id
  socketsIn _ _ := .empty
  filterBroadcastRecipients := some fun sids notes =>
    (OSet.ofList (sids.filter (· ≠ "x")), notes ++ ["filter"])
  traceBroadcast := some fun t notes => notes ++ ("trace" :: t.recipients)
  scheduleDelivery := some fun sid _ notes => notes ++ ["schedule", sid]
  removeSocket := some fun sid notes => notes ++ ["remove", sid]

/-- A dropped client disconnects; the packet its `DelayingAdapter` drains calls a listener, which
    asks for it to be dropped again. A wrapped base is asked to filter and to trace a broadcast, and
    told of the removal. -/
theorem adapter_stacks_drain : ∃ tr σ, (runtime unary).Run Returning newServer tr σ ∧
    .removeSocket 0 "" ∈ callsIn tr ∧
    tr.countP (fun x => match x.2 with | .srv (.setDropped ..) => true | _ => false) = 2 ∧
    StackLaw notingBase (SmocketAdapter.base ⟨0, 1⟩).newDropping ∧
    (let a := (SmocketAdapter.base ⟨0, 1⟩).newDropping
      let r := a.broadcast notingBase id ["", "x"] ⟨"e", [], [], [], [], false⟩ []
      r.1 = [""] ∧ r.2.2 = ["filter", "trace", ""] ∧ (a.remove notingBase "" []).2 = ["remove", ""]) ∧
    σ.core.srv.Spares 0 "" := by
  obtain ⟨tr, σ, hr, hp⟩ := run_of_script (runtime unary) Returning newServer 90
    [.call (.srv (.adapter [.fresh .delaying [.tracing [], .dropping []]])),
      .call (.srv (.serverConnect "/" false false)), .run, .run, .ret, .ret, .ret,
      .call (.srv (.setDropped 0 1 "" true)), .call (.mail (.setDelay 0 "" (some 5))),
      .call (.mail (.serverEmit 0 "greet" .plain)), .ret, .call (.ctl (.clientDisconnect 0)), .ret,
      .run, .ret, .call (.srv (.setDropped 0 1 "" true)), .ret, .ret]
    (fun r => decide (.removeSocket 0 "" ∈ callsIn r.1 ∧
      r.1.countP (fun x => match x.2 with | .srv (.setDropped ..) => true | _ => false) = 2))
    (by decide)
  obtain ⟨hrem, hcount⟩ := of_decide_eq_true hp
  have h := adapter_stacks notingBase (SmocketAdapter.Built.base ⟨0, 1⟩).newDropping hr
  have hlaw := h.1
  have hsent := hlaw.recipients id ["", "x"] ⟨"e", [], [], [], [], false⟩ []
  have htold := (hlaw.forwarded id ["", "x"] ⟨"e", [], [], [], [], false⟩ [] (by decide)).2
  rw [hsent] at htold
  exact ⟨tr, σ, hr, hrem, hcount, hlaw, ⟨hsent.trans (by decide), htold.trans (by decide),
    (hlaw.removed "" []).1⟩, h.2 0 "" hrem⟩

end Smocket
