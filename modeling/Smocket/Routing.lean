import Smocket.Setup

/-
  File:      Smocket/Routing.lean
  Subject:   THE TWO ROUTES OF A BROADCAST. `recipients` unions the rooms of the adapter the
             operator captured and resolves their sids in the roster; `managementSockets` scans the
             roster room by room.

  * `Core.Selected` -- the specification, a property of the sets of rooms alone;
  * `BroadcastOperator.mem_managementSockets` -- `managementSockets` selects what it says;
  * `BroadcastOperator.mem_recipients` -- so does `recipients` through the present adapter;
  * `BroadcastOperator.mem_recipients_retired` -- what it selects through a replaced one;
  * `reach_builtin` -- in the runs of a server with built-in adapters.
-/

namespace Smocket

open Ordered EventLoop EventLoop.Machine

variable {P : Platform}

/-! ## 1. What an operator selects -/

/-- **The specification**: the roster sockets in some target room (all of them where there is no
    target room) and in no except room. -/
def Core.Selected (σ : Core) (n : NspId) (targets excepts : String → Prop) (s : SocketId) : Prop :=
  s ∈ (σ.memb.rosters n).values ∧
    ((∀ room, ¬ targets room) ∨ ∃ room, targets room ∧ room ∈ (σ.memb.sockets s).rooms) ∧
    ∀ room, excepts room → room ∉ (σ.memb.sockets s).rooms

def BroadcastOperator.Selects (op : BroadcastOperator) (σ : Core) : SocketId → Prop :=
  σ.Selected op.nsp (· ∈ op.targetRooms) (· ∈ op.exceptRooms)

/-- A member of a roster is a socket of that namespace, under its own sid. -/
theorem Core.Wf.mem_roster {σ : Core} (h : σ.Wf P) {n : NspId} {s : SocketId}
    (hs : s ∈ (σ.memb.rosters n).values) : s < σ.conn.socketCount ∧ (σ.conn.sockets s).nsp = n ∧
      (σ.memb.rosters n).get? (σ.conn.sockets s).id = some s := by
  obtain ⟨sid, hsid⟩ := OMap.mem_values.mp hs
  obtain ⟨h1, h2, rfl⟩ := h.roster n sid s hsid
  exact ⟨h1, h2, hsid⟩

/-- One scan of the roster adds the sockets in the room, none twice. -/
theorem scanRoom_spec {σ : Core} (hκ : σ.conn.Wf P) (room : String) :
    ∀ {sockets acc : List SocketId}, (∀ s ∈ acc, s < σ.conn.socketCount) →
      (∀ s ∈ sockets, s < σ.conn.socketCount) → acc.Nodup →
      (σ.scanRoom sockets acc room).Nodup ∧ ∀ s, s ∈ σ.scanRoom sockets acc room ↔
        s ∈ acc ∨ (s ∈ sockets ∧ room ∈ (σ.memb.sockets s).rooms)
  | [], acc, _, _, hnd => ⟨hnd, fun s => by simp [Core.scanRoom]⟩
  | x :: sockets, acc, hacc, hso, hnd => by
      have hx : x < σ.conn.socketCount := hso x List.mem_cons_self
      have hso' : ∀ s ∈ sockets, s < σ.conn.socketCount := fun s hs =>
        hso s (List.mem_cons_of_mem _ hs)
      have hid : (σ.conn.sockets x).id ∈ acc.map (fun s => (σ.conn.sockets s).id) ↔ x ∈ acc := by
        rw [List.mem_map]
        constructor
        · rintro ⟨t, ht, he⟩
          exact hκ.id_inj (hacc t ht) hx he ▸ ht
        · exact fun h => ⟨x, h, rfl⟩
      simp only [Core.scanRoom, List.foldl_cons, hid]
      split
      · rename_i hskip
        obtain ⟨h1, h2⟩ := scanRoom_spec hκ room hacc hso' hnd
        refine ⟨h1, fun s => (h2 s).trans ?_⟩
        rw [List.mem_cons]
        constructor
        · rintro (h | h)
          · exact Or.inl h
          · exact Or.inr ⟨Or.inr h.1, h.2⟩
        · rintro (h | ⟨rfl | h, hr⟩)
          · exact Or.inl h
          · exact Or.inl (hskip.resolve_right fun hn => hn hr)
          · exact Or.inr ⟨h, hr⟩
      · rename_i hnew
        simp only [not_or, not_not] at hnew
        have hacc' : ∀ s ∈ acc ++ [x], s < σ.conn.socketCount := fun s hs => by
          rcases List.mem_append.mp hs with hs | hs
          · exact hacc s hs
          · exact List.mem_singleton.mp hs ▸ hx
        have hnd' : (acc ++ [x]).Nodup :=
          hnd.append (List.nodup_singleton x) fun y hy hy' => hnew.1 (List.mem_singleton.mp hy' ▸ hy)
        obtain ⟨h1, h2⟩ := scanRoom_spec hκ room hacc' hso' hnd'
        refine ⟨h1, fun s => (h2 s).trans ?_⟩
        rw [List.mem_append, List.mem_singleton, List.mem_cons]
        constructor
        · rintro ((h | rfl) | h)
          · exact Or.inl h
          · exact Or.inr ⟨Or.inl rfl, hnew.2⟩
          · exact Or.inr ⟨Or.inr h.1, h.2⟩
        · rintro (h | ⟨rfl | h, hr⟩)
          · exact Or.inl (Or.inl h)
          · exact Or.inl (Or.inr rfl)
          · exact Or.inr ⟨h, hr⟩

/-- Scanning room after room. -/
theorem scanRooms_spec {σ : Core} (hκ : σ.conn.Wf P) {sockets : List SocketId}
    (hso : ∀ s ∈ sockets, s < σ.conn.socketCount) :
    ∀ (rooms : List String) {acc : List SocketId}, (∀ s ∈ acc, s < σ.conn.socketCount) → acc.Nodup →
      (rooms.foldl (σ.scanRoom sockets) acc).Nodup ∧
        ∀ s, s ∈ rooms.foldl (σ.scanRoom sockets) acc ↔
          s ∈ acc ∨ (s ∈ sockets ∧ ∃ room ∈ rooms, room ∈ (σ.memb.sockets s).rooms)
  | [], acc, _, hnd => ⟨hnd, fun s => by simp⟩
  | room :: rooms, acc, hacc, hnd => by
      obtain ⟨h1, h2⟩ := scanRoom_spec hκ room hacc hso hnd
      have hacc' : ∀ s ∈ σ.scanRoom sockets acc room, s < σ.conn.socketCount := fun s hs =>
        ((h2 s).mp hs).elim (hacc s) fun h => hso s h.1
      obtain ⟨h3, h4⟩ := scanRooms_spec hκ hso rooms hacc' h1
      refine ⟨h3, fun s => ?_⟩
      rw [List.foldl_cons, h4, h2]
      simp only [List.mem_cons, exists_eq_or_imp]
      tauto

/-- Nobody is in a roster twice. -/
theorem roster_values_nodup {σ : Core} (h : σ.Wf P) (n : NspId) :
    (σ.memb.rosters n).values.Nodup :=
  OMap.values_nodup fun k j v hk hj => by
    rw [← (h.roster n k v hk).2.2, (h.roster n j v hj).2.2]

/-- **`managementSockets` selects what the specification says**, no socket twice. -/
theorem BroadcastOperator.mem_managementSockets {σ : Core} (h : σ.Wf P) (op : BroadcastOperator) :
    (op.managementSockets σ).Nodup ∧ ∀ s, s ∈ op.managementSockets σ ↔ op.Selects σ s := by
  have hso : ∀ s ∈ (σ.memb.rosters op.nsp).values, s < σ.conn.socketCount := fun s hs =>
    (h.mem_roster hs).1
  have hcand : ∀ s, (s ∈ if op.targetRooms.elems.isEmpty then (σ.memb.rosters op.nsp).values
      else op.targetRooms.elems.foldl (σ.scanRoom (σ.memb.rosters op.nsp).values) []) ↔
      s ∈ (σ.memb.rosters op.nsp).values ∧ ((∀ room, room ∉ op.targetRooms) ∨
        ∃ room, room ∈ op.targetRooms ∧ room ∈ (σ.memb.sockets s).rooms) := by
    intro s
    split
    · rename_i he
      have := OSet.isEmpty_iff.mp he
      tauto
    · rename_i he
      have hne : ¬ ∀ room, room ∉ op.targetRooms := fun hn => he (OSet.isEmpty_iff.mpr hn)
      rw [(scanRooms_spec h.conn hso _ (fun _ h => absurd h List.not_mem_nil) .nil).2 s]
      simp only [List.not_mem_nil, false_or, hne]
      rfl
  constructor
  · unfold managementSockets
    refine List.Nodup.filter _ ?_
    split
    · exact roster_values_nodup h _
    · exact (scanRooms_spec h.conn hso _ (fun _ h => absurd h List.not_mem_nil) .nil).1
  · intro s
    unfold managementSockets
    rw [List.mem_filter, hcand]
    simp only [Selects, Core.Selected, Bool.not_eq_true', List.any_eq_false, decide_eq_true_eq,
      and_assoc]
    rfl

/-- In the index of its namespace a roster socket has the rooms it lists itself, unless a cleanup
    of it is under way. -/
theorem joined_iff {σ : Core} (hw : σ.Wf P) {n : NspId} {s : SocketId}
    (hs : s ∈ (σ.memb.rosters n).values) (hno : ¬ σ.memb.Owes s) {room : String} :
    σ.memb.Joined σ.conn n (σ.conn.sockets s).id room ↔ room ∈ (σ.memb.sockets s).rooms := by
  obtain ⟨hlt, hn, -⟩ := hw.mem_roster hs
  constructor
  · rintro ⟨t, ht, -, hid, -, hr⟩
    exact hw.conn.id_inj ht hlt hid ▸ hr
  · intro hr
    refine ⟨s, hlt, hn, rfl, ?_, hr⟩
    by_contra hc
    exact hno ⟨by simpa using hc, room, hr⟩

/-- What an index that stands for the relation `r` makes `recipients` select, where no wrapper
    narrows it: no socket twice. -/
theorem BroadcastOperator.mem_recipients_of {σ : Core} (hw : σ.Wf P) (op : BroadcastOperator)
    {r : String → String → Prop} (hr : (op.adapterIn σ).1.Mirrors r)
    (hlayers : (op.adapterIn σ).2 = []) :
    (op.recipients σ).1.Nodup ∧ ∀ s, s ∈ (op.recipients σ).1 ↔
      (s ∈ (σ.memb.rosters op.nsp).values ∧
        ((∀ room, room ∉ op.targetRooms) ∨
          ∃ room, room ∈ op.targetRooms ∧ r (σ.conn.sockets s).id room) ∧
        ∀ room, room ∈ op.exceptRooms → ¬ r (σ.conn.sockets s).id room) ∧
      (op.isVolatile = true → σ.isClientReady s = true) := by
  have hroster : ∀ {sid s}, (σ.memb.rosters op.nsp).get? sid = some s ↔
      s ∈ (σ.memb.rosters op.nsp).values ∧ (σ.conn.sockets s).id = sid := fun {sid s} => by
    constructor
    · exact fun hs => ⟨OMap.mem_values.mpr ⟨sid, hs⟩, (hw.roster _ sid s hs).2.2⟩
    · rintro ⟨hs, hid⟩
      exact hid ▸ (hw.mem_roster hs).2.2
  have htargets : ∀ s ∈ (σ.memb.rosters op.nsp).values,
      ((σ.conn.sockets s).id ∈ if op.targetRooms.elems.isEmpty then (σ.memb.rosters op.nsp).keys
        else ((op.adapterIn σ).1.socketsIn op.targetRooms).elems) ↔
      (∀ room, room ∉ op.targetRooms) ∨
        ∃ room, room ∈ op.targetRooms ∧ r (σ.conn.sockets s).id room := by
    intro s hs
    split
    · rename_i he
      refine iff_of_true ?_ (Or.inl (OSet.isEmpty_iff.mp he))
      rw [OMap.mem_keys, (hw.mem_roster hs).2.2]
      rfl
    · rename_i he
      have hne : ¬ ∀ room, room ∉ op.targetRooms := fun hn => he (OSet.isEmpty_iff.mpr hn)
      rw [← OSet.mem_def, hr.mem_socketsIn, or_iff_right hne]
  have hkeep : ∀ s, filterBroadcastRecipients (op.adapterIn σ).2 (σ.conn.sockets s).id = true :=
    fun s => by simp [filterBroadcastRecipients, hlayers]
  have hresolve : ∀ sid s,
      (if sid ∈ (op.adapterIn σ).1.socketsIn op.exceptRooms then none
        else ((σ.memb.rosters op.nsp).get? sid).bind fun s =>
          if op.isVolatile && !σ.isClientReady s then none else some s) = some s ↔
      sid ∉ (op.adapterIn σ).1.socketsIn op.exceptRooms ∧
        (σ.memb.rosters op.nsp).get? sid = some s ∧
        (op.isVolatile = true → σ.isClientReady s = true) := by
    intro sid s
    split
    · rename_i he
      exact iff_of_false (by intro h; cases h) fun h => h.1 he
    · rename_i he
      simp only [he, not_false_iff, true_and, Option.bind_eq_some_iff]
      constructor
      · rintro ⟨t, ht, h⟩
        split at h
        · cases h
        · rename_i hv
          obtain rfl := Option.some.inj h
          exact ⟨ht, by simpa using hv⟩
      · rintro ⟨ht, hv⟩
        refine ⟨s, ht, if_neg ?_⟩
        simpa using hv
  constructor
  · unfold recipients
    refine List.Nodup.filter _ (List.Nodup.filterMap (fun sid sid' s h1 h2 => ?_) ?_)
    · rw [← (hroster.mp ((hresolve sid s).mp h1).2.1).2, (hroster.mp ((hresolve sid' s).mp h2).2.1).2]
    · split
      · exact OMap.nodup _
      · exact OSet.nodup _
  · intro s
    simp only [recipients, List.mem_filter, hkeep, and_true, List.mem_filterMap]
    constructor
    · rintro ⟨sid, hsid, hs⟩
      obtain ⟨hx, hget, hv⟩ := (hresolve sid s).mp hs
      obtain ⟨hm, rfl⟩ := hroster.mp hget
      exact ⟨⟨hm, (htargets s hm).mp hsid, fun room hroom hin =>
        hx (hr.mem_socketsIn.mpr ⟨room, hroom, hin⟩)⟩, hv⟩
    · rintro ⟨⟨hm, ht, hx⟩, hv⟩
      refine ⟨(σ.conn.sockets s).id, (htargets s hm).mpr ht, (hresolve _ s).mpr
        ⟨fun he => ?_, hroster.mpr ⟨hm, rfl⟩, hv⟩⟩
      obtain ⟨room, hroom, hin⟩ := hr.mem_socketsIn.mp he
      exact hx room hroom hin

/-- The adapter the operator captured is the one its namespace has in place. -/
def BroadcastOperator.Current (op : BroadcastOperator) (σ : Core) : Prop :=
  op.adapter = (σ.srv.namespaces op.nsp).adapter

instance (op : BroadcastOperator) (σ : Core) : Decidable (op.Current σ) :=
  inferInstanceAs (Decidable (_ = _))

/-- An operator that is current routes through the adapter of its namespace. -/
theorem BroadcastOperator.Current.adapterIn {op : BroadcastOperator} {σ : Core} (h : op.Current σ) :
    op.adapterIn σ = (σ.memb.adapters op.nsp, (σ.srv.namespaces op.nsp).layers) := if_pos h

/-- Any other routes through the one it captured. -/
theorem BroadcastOperator.adapterIn_retired {op : BroadcastOperator} {σ : Core}
    (h : ¬ op.Current σ) : op.adapterIn σ =
      (((σ.srv.namespaces op.nsp).retired op.adapter).index,
        ((σ.srv.namespaces op.nsp).retired op.adapter).layers) := if_neg h

/-- **Through the present adapter `recipients` selects what the specification says**; a volatile
    operator keeps the sockets whose client is ready. -/
theorem BroadcastOperator.mem_recipients {σ : Core} (hw : σ.Wf P) (h : MembInv σ.conn σ.memb)
    (hno : ∀ s, ¬ σ.memb.Owes s) {op : BroadcastOperator} (hop : op.Current σ)
    (hlayers : (σ.srv.namespaces op.nsp).layers = []) :
    (op.recipients σ).1.Nodup ∧ ∀ s, s ∈ (op.recipients σ).1 ↔
      op.Selects σ s ∧ (op.isVolatile = true → σ.isClientReady s = true) := by
  have hspec := op.mem_recipients_of hw (r := σ.memb.Joined σ.conn op.nsp)
    (by rw [hop.adapterIn]; exact h.mirrors _) (by rw [hop.adapterIn]; exact hlayers)
  refine ⟨hspec.1, fun s => (hspec.2 s).trans (and_congr_left fun _ => ?_)⟩
  refine and_congr_right fun hs => ?_
  simp only [joined_iff hw hs (hno s)]

omit P in
theorem Adapter.mirrors_empty : ({} : Adapter).Mirrors fun _ _ => False where
  sids sid room := iff_of_false (OMap.not_has_empty _ _) id
  rooms sid room := iff_of_false (OMap.not_has_empty _ _) id
  inhabited room members h := by cases h

/-- **Through a replaced adapter**, which nobody joined, it selects the whole roster or nobody. -/
theorem BroadcastOperator.mem_recipients_retired {σ : Core} (hw : σ.Wf P) {op : BroadcastOperator}
    (hop : op.adapterIn σ = ({}, [])) :
    (op.recipients σ).1.Nodup ∧ ∀ s, s ∈ (op.recipients σ).1 ↔
      s ∈ (σ.memb.rosters op.nsp).values ∧ (∀ room, room ∉ op.targetRooms) ∧
        (op.isVolatile = true → σ.isClientReady s = true) := by
  have hspec := op.mem_recipients_of hw (by rw [hop]; exact Adapter.mirrors_empty) (by rw [hop])
  refine ⟨hspec.1, fun s => (hspec.2 s).trans ?_⟩
  simp only [and_false, exists_false, or_false, not_false_eq_true, implies_true, and_true, and_assoc]

/-! ## 2. Servers with built-in adapters -/

def FactoryResult.isBuiltin : FactoryResult → Bool
  | .fresh base layers => decide (base = .builtin) && layers.isEmpty
  | .earlier _ | .reused => true

/-- The adapters the application supplies, if any, are built-in ones. -/
def suppliesBuiltin : Instr → Bool
  | .srv (.adapter results) => results.all FactoryResult.isBuiltin
  | .srv (.factoryReturns r) => r.isBuiltin
  | _ => true

/-- Built-in adapters, now and before; nobody has joined the replaced ones. -/
structure Namespace.Builtin (N : Namespace) : Prop where
  base : N.base = .builtin
  layers : N.layers = []
  retired : ∀ k, N.retired k = {}

/-- Every adapter, current or retired, is the built-in one, without layers. -/
structure Srv.Builtin (ν : Srv) : Prop where
  namespaces : ∀ n, (ν.namespaces n).Builtin
  factory : ν.factoryResult.isBuiltin = true

theorem Srv.Builtin.setNamespace {ν : Srv} (h : ν.Builtin) (n : NspId) {g : Namespace → Namespace}
    (hg : ∀ N, N.Builtin → (g N).Builtin) : (ν.setNamespace n g).Builtin where
  namespaces m := by
    simp only [Srv.setNamespace, modify_apply]
    split
    · exact hg _ (h.namespaces n)
    · exact h.namespaces m
  factory := h.factory

theorem Srv.Builtin.same {ν ν' : Srv} (h : ν.Builtin) (hs : ν.SameAdapters ν') : ν'.Builtin where
  namespaces n := by
    obtain ⟨hb, hl, -, hr⟩ := hs.namespaces n
    exact ⟨hb.trans (h.namespaces n).base, hl.trans (h.namespaces n).layers,
      by rw [hr]; exact (h.namespaces n).retired⟩
  factory := by rw [hs.factory]; exact h.factory

theorem FactoryResult.builtin_fresh {base : AdapterBase} {layers : List Layer}
    (h : (FactoryResult.fresh base layers).isBuiltin = true) : base = .builtin ∧ layers = [] := by
  simpa only [isBuiltin, Bool.and_eq_true, decide_eq_true_eq, List.isEmpty_iff] using h

/-- An empty adapter makes way for another one. -/
theorem Namespace.Builtin.useAdapter {N : Namespace} (h : N.Builtin) {r : FactoryResult}
    (hr : r.isBuiltin = true) : (N.useAdapter {} r).Builtin := by
  have hretired : ∀ k, Function.update N.retired N.adapter
      { index := {}, base := N.base, layers := N.layers } k = {} := fun k => by
    rw [Function.update_apply, h.base, h.layers]
    split
    · rfl
    · exact h.retired k
  cases r with
  | fresh base layers =>
      obtain ⟨hb, hl⟩ := FactoryResult.builtin_fresh hr
      exact ⟨hb, hl, hretired⟩
  | earlier k => exact ⟨congrArg RetiredAdapter.base (hretired k),
      congrArg RetiredAdapter.layers (hretired k), hretired⟩
  | reused => exact h

/-- A namespace starts with what its factory supplied. -/
theorem Srv.Builtin.createNamespace {σ : Core} (h : σ.srv.Builtin) (name : String)
    (attachTo : Option ParentId) (closed : Bool) (k : Cont) :
    (createNamespace σ name attachTo closed k).part.Builtin := by
  have hN : (σ.srv.newNamespace name attachTo closed).Builtin := by
    unfold Srv.newNamespace
    dsimp only
    split
    · rename_i hr
      exact Namespace.Builtin.useAdapter ⟨rfl, rfl, fun _ => rfl⟩ (hr ▸ h.factory)
    · exact ⟨rfl, rfl, fun _ => rfl⟩
  have hreg : ((σ.srv.register name (σ.srv.newNamespace name attachTo closed)).addChild attachTo
      σ.srv.nspCount).Builtin := by
    refine ⟨fun n => ?_, ?_⟩ <;> cases attachTo <;>
      simp only [Srv.addChild, Srv.register, Function.update_apply]
    · split
      · exact hN
      · exact h.namespaces n
    · split
      · exact hN
      · exact h.namespaces n
    · exact h.factory
    · exact h.factory
  unfold Smocket.createNamespace
  split
  · split <;> exact h
  · exact hreg

/-- `Server.adapter` runs before anybody is admitted, so it retires empty adapters. -/
theorem Srv.Builtin.adapter {σ : Core} (h : σ.srv.Builtin) {results : List FactoryResult}
    (hempty : σ.srv.admissionStarted = false → ∀ n, σ.memb.adapters n = {})
    (hr : results.all FactoryResult.isBuiltin = true) : (adapter σ results).part.Builtin := by
  refine adapter_induct h (fun _ => ⟨h.namespaces, h.factory⟩) fun hopen ν hν n r hmem =>
    hν.setNamespace n fun N hN => ?_
  rw [hempty hopen]
  exact hN.useAdapter (List.all_eq_true.mp hr r hmem)

theorem Namespace.Builtin.trace {N : Namespace} (h : N.Builtin) (adapter : Nat)
    (trace : BroadcastTrace) : (N.trace adapter trace).Builtin := by
  unfold Namespace.trace
  split
  · exact ⟨h.base, by simp [h.layers, traceBroadcast], h.retired⟩
  · refine ⟨h.base, h.layers, fun k => ?_⟩
    dsimp only
    rw [modify_apply, h.retired, h.retired]
    split <;> rfl

/-- One step of the server keeps to them. -/
theorem execSrv_builtin {σ : Core} (h : σ.srv.Builtin)
    (hempty : σ.srv.admissionStarted = false → ∀ n, σ.memb.adapters n = {}) {i : SrvInstr}
    (hi : suppliesBuiltin (.srv i) = true) : (execSrv P σ i).part.Builtin := by
  by_cases ha : i.adapted = false
  · exact h.same (execSrv_adapters ha)
  cases i with
  | adapter results => exact h.adapter hempty hi
  | factoryReturns r => exact ⟨h.namespaces, hi⟩
  | createNamespace name attachTo closed k => exact h.createNamespace name attachTo closed k
  | broadcast op event =>
      simp only [execSrv, broadcast]
      split
      · exact h
      · exact h.setNamespace _ fun N hN => hN.trace _ _
  | setDropped n layer sid dropped =>
      simp only [execSrv, setDropped]
      split
      · exact h
      · exact h.setNamespace _ fun N hN => ⟨hN.base, by simp [hN.layers], hN.retired⟩
  | removeSocket s =>
      exact h.setNamespace _ fun N hN => ⟨hN.base, by simp [hN.layers], hN.retired⟩
  | _ => exact absurd rfl ha

/-- A cleanup with a built-in adapter, from its removal hook on. -/
def inBuiltinCleanup : Instr → Bool
  | .srv (.removeSocket _) | .mail (.removeDeliveries _) => true
  | .memb (.drainEnd _) | .memb (.cleanupMembershipRest _) => true
  | _ => false

/-- Where factories only supply built-in adapters, every run keeps to them. -/
theorem builtin_inductive (P : Platform) :
    Inductive (runtime P) (fun _ i => suppliesBuiltin i = true)
      (fun σ => ((σ.Wf P ∧ MembInv σ.conn σ.memb) ∧ σ.Started) ∧ σ.srv.Builtin)
      (fun σ i => ((i.Valid σ ∧ MembOk σ i) ∧ σ.Opens i) ∧ True) fun _ => (none : Option Unit) := by
  refine Machine.Layer.inductive (Machine.Layer.inductive (membership_inductive P)
    (fun _ _ _ => trivial) (started_layer P (fun _ _ => True) fun _ _ _ => trivial))
    (fun _ _ _ => trivial) (Machine.Layer.of_facts ?_ ?_ ?_ ?_ ?_ ?_)
  · intro σ i hI _ h
    cases i with
    | srv i => exact execSrv_builtin h.inv (unstarted_empty hI.1.1 hI.1.2 hI.2) h.good
    | _ => exact h.inv
  · exact fun _ _ _ _ _ _ _ => trivial
  · exact fun _ _ _ _ _ _ _ _ => trivial
  · exact fun _ _ _ _ _ => trivial
  · exact fun _ _ _ _ _ _ _ _ => trivial
  · intro σ i hi
    unfold suppliesBuiltin
    split
    · cases hi
    · cases hi
    · rfl

/-- **With built-in adapters a cleanup runs no application code.** -/
theorem builtin_section (P : Platform) :
    Section (runtime P) (fun _ i => suppliesBuiltin i = true)
      (fun σ => ((σ.Wf P ∧ MembInv σ.conn σ.memb) ∧ σ.Started) ∧ σ.srv.Builtin)
      (fun σ i => ((i.Valid σ ∧ MembOk σ i) ∧ σ.Opens i) ∧ True) (fun i => inBuiltinCleanup i = true)
      fun _ => False where
  app i hi := by
    cases i with
    | app x => cases hi
    | _ => rfl
  frame _ hi := hi.elim
  push σ i h hi j hj := by
    unfold inBuiltinCleanup at hi
    split at hi
    · obtain rfl := List.mem_singleton.mp hj
      exact Or.inl rfl
    · simp only [runtime, exec, execMail, removeDeliveries, (h.inv.2.namespaces _).base] at hj
      cases hj
    · cases hj
    · cases hj
    · cases hi
  chain σ i h := by
    by_cases hi : ∃ j ∈ (exec P i σ).push, inBuiltinCleanup j = true
    · obtain ⟨j, hj, hc⟩ := hi
      have hby := spawnedBy (List.mem_append_left (exec P i σ).post hj)
      have hcase : (∃ s, i = .memb (.cleanupMembership s)) ∨ ∃ s, i = .srv (.removeSocket s) := by
        unfold inBuiltinCleanup at hc
        split at hc
        case h_5 => cases hc
        all_goals
          simp only [Instr.SpawnedBy, SrvInstr.SpawnedBy, MailInstr.SpawnedBy,
            MembInstr.SpawnedBy] at hby
          grind
      rcases hcase with ⟨s, rfl⟩ | ⟨s, rfl⟩
      · simp only [runtime, exec, execMemb, cleanupMembership]
        split
        · exact .nil
        · exact chain_of_all (by simp [inBuiltinCleanup])
      · exact .singleton _
    · exact chain_of_tail fun j hj hc => hi ⟨j, List.mem_of_mem_tail hj, hc⟩
  fails σ i h hi := by
    unfold inBuiltinCleanup at hi
    split at hi
    · rfl
    · simp only [runtime, exec, execMail, removeDeliveries, (h.inv.2.namespaces _).base]
    · rfl
    · rfl
    · cases hi
  handleChain σ i is _ _ his := by
    rcases onThrow_handle his with rfl | ⟨a, err, rfl, -⟩
    · exact .nil
    · exact .singleton _

theorem reach_builtin {σ : State}
    (h : (runtime P).Reach ((runtime P).Obeys fun _ i => suppliesBuiltin i = true) newServer σ) :
    σ.core.Wf P ∧ MembInv σ.core.conn σ.core.memb ∧ σ.core.srv.Builtin ∧
      ∀ s, σ.core.memb.Owes s → .memb (.cleanupMembershipRest s) ∈ σ.pending := by
  have h₀ : Keeps (fun σ => ((σ.Wf P ∧ MembInv σ.conn σ.memb) ∧ σ.Started) ∧ σ.srv.Builtin)
      (fun σ i => ((i.Valid σ ∧ MembOk σ i) ∧ σ.Opens i) ∧ True) (fun _ => (none : Option Unit))
      newServer.core newServer.pending :=
    ⟨⟨⟨(newServer_keeps P).inv, newServer_started⟩, fun _ => ⟨rfl, rfl, fun _ => rfl⟩, rfl⟩,
      fun _ hj => absurd hj List.not_mem_nil, .nil⟩
  have hk := h.inv_ok (builtin_inductive P) (fun _ _ ho => ho) h₀
  refine ⟨hk.inv.1.1.1, hk.inv.1.1.2, hk.inv.2, fun s ho => ?_⟩
  obtain ⟨j, hj, rfl⟩ := h.debts
    (cleanup_debts (fun _ h => h.1.1) (fun _ _ h => h.1.1.1) fun _ => rfl) (builtin_section P)
    (builtin_inductive P) (fun _ _ ho => ho) (fun _ _ _ _ _ _ _ hA => hA.elim) h₀ .nil
    (fun _ ht => by cases ht.1) s ho
  exact hj

end Smocket
