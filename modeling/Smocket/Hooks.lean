import Smocket.Rosters
import Smocket.Deliveries
import Smocket.Grounds
import Smocket.Traces

/-
  File:      Smocket/Hooks.lean
  Subject:   WHAT THE CORE CALLS ON AN ADAPTER, and in which order. `removeSocket` comes once for
             each socket that is cleaned up, after its rooms and its sid have left the indexes and
             before the socket leaves the roster; nothing is added for its sid afterwards.

  `scheduleDelivery` is called with the sid of the server socket the client was paired with last.
  Whether that is the sender, and whether its sid is still in use, depends on who sends when.

  * `run_calls` -- the calls of a run make the indexes and what an application's adapter holds;
  * `removal_protocol` -- the protocol of removals, in every run;
  * `schedulesOwn_iff` -- packets are scheduled by their senders exactly where `SendsPaired` holds;
  * `schedules_stale` -- a handler of the new connection sends under the old sid.
-/

namespace Smocket

open Ordered EventLoop EventLoop.Machine

variable {P : Platform}

/-! ## 1. Calls -/

/-- A call on the adapter of a namespace. -/
inductive AdapterCall where
  | add (n : NspId) (sid room : String)
  | del (n : NspId) (sid room : String)
  /-- `sids.delete` -/
  | forget (n : NspId) (sid : String)
  | removeSocket (n : NspId) (sid : String)
  | scheduleDelivery (n : NspId) (sid : String) (d : Delivery)
  deriving DecidableEq

/-- The calls of `ServerSocket.join`. -/
def Core.joins (σ : Core) (s : SocketId) (rooms : List String) : List AdapterCall :=
  if (σ.memb.sockets s).acceptsRoomJoins then
    rooms.map (.add (σ.conn.sockets s).nsp (σ.conn.sockets s).id)
  else []

/-- The calls of `ServerSocket.leave`, for each room. -/
def Core.leavings (σ : Core) (s : SocketId) (rooms : List String) : List AdapterCall :=
  rooms.map (.del (σ.conn.sockets s).nsp (σ.conn.sockets s).id)

/-- The packet an instruction hands to the hook of an adapter, and the socket whose sid it is
    scheduled under: the one its client completed a pairing with last. -/
def Core.schedules (σ : Core) (i : Instr) : Option (Delivery × SocketId) :=
  (σ.handsOver i).bind fun d =>
    ((σ.conn.clients d.client).serverSocket.filter fun t =>
      decide ((σ.srv.namespaces (σ.conn.sockets t).nsp).base ≠ .builtin)).map fun t => (d, t)

/-- The calls an instruction makes. -/
def Core.calls (σ : Core) (i : Instr) : List AdapterCall :=
  match i with
  | .memb (.enter s) => σ.joins s [(σ.conn.sockets s).id]
  | .memb (.join s rooms) => σ.joins s rooms
  | .memb (.leave s room) => σ.leavings s [room]
  | .memb (.socketsJoin op rooms) => (op.managementSockets σ).flatMap fun s => σ.joins s rooms
  | .memb (.socketsLeave op rooms) => (op.managementSockets σ).flatMap fun s => σ.leavings s rooms
  | .memb (.cleanupMembership s) =>
      if (σ.memb.sockets s).membershipCleaned then []
      else σ.leavings s (σ.memb.sockets s).rooms.elems ++
        [.forget (σ.conn.sockets s).nsp (σ.conn.sockets s).id]
  | .srv (.removeSocket s) => [.removeSocket (σ.conn.sockets s).nsp (σ.conn.sockets s).id]
  | i => (σ.schedules i).toList.map fun x =>
      .scheduleDelivery (σ.conn.sockets x.2).nsp (σ.conn.sockets x.2).id x.1

/-- The calls of a run. -/
def callsIn (tr : List (Core × Instr)) : List AdapterCall := tr.flatMap fun x => x.1.calls x.2

/-- The condition on a packet's sender: where the adapter of the socket its client completed a
    pairing with last has the hook, that socket is the sender, and is not cleaned up. -/
def Core.SendsPaired (σ : Core) (i : Instr) : Prop :=
  ∀ d ∈ σ.handsOver i, ∀ t ∈ (σ.conn.clients d.client).serverSocket,
    (σ.srv.namespaces (σ.conn.sockets t).nsp).base ≠ .builtin →
      t = d.sender ∧ (σ.memb.sockets d.sender).membershipCleaned = false

instance (σ : Core) (i : Instr) : Decidable (σ.SendsPaired i) :=
  inferInstanceAs (Decidable (∀ d ∈ σ.handsOver i, ∀ t ∈ (σ.conn.clients d.client).serverSocket,
    (σ.srv.namespaces (σ.conn.sockets t).nsp).base ≠ .builtin →
      t = d.sender ∧ (σ.memb.sockets d.sender).membershipCleaned = false))

/-- The packet that reaches the hook of an application's own adapter. -/
def Core.hooked (σ : Core) (i : Instr) : List Delivery :=
  (σ.schedules i).toList.filterMap fun x =>
    if (σ.srv.namespaces (σ.conn.sockets x.2).nsp).base = .custom then some x.1 else none

/-! What the two indexes of an adapter make of the calls. -/

def Adapter.take (n : NspId) (A : Adapter) : AdapterCall → Adapter
  | .add m sid room => if n = m then A.add sid room else A
  | .del m sid room => if n = m then A.del sid room else A
  | .forget m sid => if n = m then { A with sids := A.sids.erase sid } else A
  | _ => A

theorem joins_take {σ : Core} {μ : Memb} {s : SocketId}
    (h : (μ.sockets s).acceptsRoomJoins = (σ.memb.sockets s).acceptsRoomJoins)
    (rooms : List String) (n : NspId) :
    (μ.join σ.conn s rooms).adapters n =
      (σ.joins s rooms).foldl (Adapter.take n) (μ.adapters n) := by
  have hfold : ∀ (rooms : List String) (μ : Memb),
      (rooms.foldl (Memb.joinRoom σ.conn s) μ).adapters n =
        (rooms.map (.add (σ.conn.sockets s).nsp (σ.conn.sockets s).id)).foldl (Adapter.take n)
          (μ.adapters n) := by
    intro rooms
    induction rooms with
    | nil => exact fun _ => rfl
    | cons room rooms ih =>
        intro μ
        rw [List.foldl_cons, ih, List.map_cons, List.foldl_cons]
        congr 1
        simp only [Memb.joinRoom, Memb.setSocket, Memb.setAdapter, modify_apply, Adapter.take]
        split <;> simp_all
  unfold Memb.join Core.joins
  rw [h]
  split
  · exact hfold rooms μ
  · rfl

theorem leavings_take {σ : Core} {μ : Memb} {s : SocketId} {n : NspId} (rooms : List String) :
    (rooms.foldl (fun μ room => μ.leave σ.conn s room) μ).adapters n =
      (σ.leavings s rooms).foldl (Adapter.take n) (μ.adapters n) := by
  unfold Core.leavings
  induction rooms generalizing μ with
  | nil => rfl
  | cons room rooms ih =>
      rw [List.foldl_cons, ih, List.map_cons, List.foldl_cons]
      congr 1
      simp only [Memb.leave, Memb.setSocket, Memb.setAdapter, modify_apply, Adapter.take]
      split <;> simp_all

theorem join_accepts (κ : Conn) (s t : SocketId) (μ : Memb) (rooms : List String) :
    ((μ.join κ s rooms).sockets t).acceptsRoomJoins = (μ.sockets t).acceptsRoomJoins := by
  unfold Memb.join
  split
  · exact List.foldlRecOn (motive := fun ν : Memb => (ν.sockets t).acceptsRoomJoins = _) _ _ rfl
      fun ν hν room _ => (joinRoom_accepts ..).trans hν
  · rfl

/-- **`calls` tells what happens to the indexes.** -/
theorem exec_take (σ : Core) (i : Instr) (n : NspId) :
    (exec P i σ).core.memb.adapters n = (σ.calls i).foldl (Adapter.take n) (σ.memb.adapters n) := by
  have hsched : ∀ j, ((σ.schedules j).toList.map fun x => AdapterCall.scheduleDelivery
      (σ.conn.sockets x.2).nsp (σ.conn.sockets x.2).id x.1).foldl (Adapter.take n)
        (σ.memb.adapters n) = σ.memb.adapters n := fun j => by
    cases σ.schedules j <;> rfl
  cases i with
  | memb i =>
      cases i with
      | enter s =>
          exact joins_take (μ := σ.memb.setRoster _ _) rfl _ n
      | join s rooms => exact joins_take rfl rooms n
      | leave s room => exact leavings_take [room]
      | socketsJoin op rooms =>
          have hfold : ∀ (l : List SocketId) (μ : Memb),
              (∀ s, (μ.sockets s).acceptsRoomJoins = (σ.memb.sockets s).acceptsRoomJoins) →
              (l.foldl (fun μ s => μ.join σ.conn s rooms) μ).adapters n =
                (l.flatMap fun s => σ.joins s rooms).foldl (Adapter.take n) (μ.adapters n) := by
            intro l
            induction l with
            | nil => exact fun _ _ => rfl
            | cons s l ih =>
                intro μ hμ
                rw [List.foldl_cons, ih _ fun t => (join_accepts ..).trans (hμ t),
                  joins_take (hμ s), List.flatMap_cons, List.foldl_append]
          exact hfold _ _ fun _ => rfl
      | socketsLeave op rooms =>
          have hfold : ∀ (l : List SocketId) (μ : Memb),
              (l.foldl (fun μ s => rooms.foldl (fun μ room => μ.leave σ.conn s room) μ) μ).adapters n =
                (l.flatMap fun s => σ.leavings s rooms).foldl (Adapter.take n) (μ.adapters n) := by
            intro l
            induction l with
            | nil => exact fun _ => rfl
            | cons s l ih =>
                intro μ
                rw [List.foldl_cons, ih, leavings_take, List.flatMap_cons, List.foldl_append]
          exact hfold _ _
      | cleanupMembership s =>
          simp only [exec, execMemb, cleanupMembership, Core.calls]
          split
          · rfl
          · simp only [Memb.startCleanup, Memb.setSocket, Memb.setAdapter, modify_apply,
              List.foldl_append, List.foldl_cons, List.foldl_nil, Core.leavings, List.foldl_map,
              Adapter.take]
            split <;> simp_all
      | drainEnd s => rfl
      | cleanupMembershipRest s => rfl
  | srv i => cases i <;> rfl
  | _ => exact (hsched _).symm

theorem pump_held (μ : Mail) (n : NspId) (sid : String) : (μ.pump n sid).1.held = μ.held := by
  unfold Mail.pump
  split
  · rfl
  · split
    · rfl
    · split <;> rfl

theorem scheduleReceive_held (σ : Core) (μ : Mail) (d : Delivery) :
    (scheduleReceive σ μ d).part.held = μ.held ++
      (((σ.conn.clients d.client).serverSocket.filter fun t =>
        decide ((σ.srv.namespaces (σ.conn.sockets t).nsp).base ≠ .builtin)).map
          fun t => (d, t)).toList.filterMap fun x =>
        if (σ.srv.namespaces (σ.conn.sockets x.2).nsp).base = .custom then some x.1 else none := by
  unfold scheduleReceive
  split
  · rename_i hnone
    simp [hnone]
  · rename_i t ht
    dsimp only
    split
    · rename_i hb
      simp [ht, Option.filter, hb]
    · rename_i hb
      have hsame : (μ.scheduleDelivery (σ.conn.sockets t).nsp (σ.conn.sockets t).id d).1.held =
          μ.held := by
        unfold Mail.scheduleDelivery
        dsimp only
        split
        · rfl
        · exact pump_held ..
      simp [ht, Option.filter, hb, hsame]
    · rename_i hb
      simp [ht, Option.filter, hb]

/-- `held` tells the calls of that hook. -/
theorem exec_held (σ : Core) (i : Instr) :
    (exec P i σ).core.mail.held = σ.mail.held ++ σ.hooked i := by
  have hsend : ∀ s serial event reply survived,
      (sendToClient σ s serial event reply survived).part.held = σ.mail.held ++
        (((σ.packet s serial event reply survived).bind fun d =>
          ((σ.conn.clients d.client).serverSocket.filter fun t =>
            decide ((σ.srv.namespaces (σ.conn.sockets t).nsp).base ≠ .builtin)).map
              fun t => (d, t)).toList.filterMap fun x =>
          if (σ.srv.namespaces (σ.conn.sockets x.2).nsp).base = .custom then some x.1 else none) := by
    intro s serial event reply survived
    rcases sendToClient_packet σ s serial event reply survived with ⟨hp, he⟩ | ⟨d, μ, hp, hμ, he⟩
    · simp [hp, he]
    · rw [he, hp, scheduleReceive_held, hμ.held]
      rfl
  cases i with
  | mail i =>
      cases hi : i.schedules with
      | false =>
          have hh : σ.hooked (.mail i) = [] := by
            cases i <;> first | rfl | cases hi
          rw [hh, List.append_nil]
          exact (execMail_same σ hi).held
      | true =>
          cases i with
          | serverEmitRest s serial event reply was =>
              simp only [exec, execMail, serverEmitRest, Core.hooked, Core.schedules, Core.handsOver]
              cases (σ.life.sockets s).active with
              | false => simp
              | true => exact hsend ..
          | sendBroadcastRest s serial event was => exact hsend ..
          | pumpRun r =>
              simp only [exec, execMail, pumpRun]
              split <;> simp [Core.hooked, Core.schedules, Core.handsOver, Mail.setScheduler]
          | pumpRest r =>
              simp only [exec, execMail, pumpRest]
              split
              · rw [pump_held]
                exact (List.append_nil _).symm
              · simp [Core.hooked, Core.schedules, Core.handsOver]
          | removeDeliveries s =>
              simp only [exec, execMail, removeDeliveries]
              split
              · simp [Core.hooked, Core.schedules, Core.handsOver]
              · simp [Core.hooked, Core.schedules, Core.handsOver]
              · split <;> simp [Core.hooked, Core.schedules, Core.handsOver, Mail.setScheduler]
          | cancelTimer | setDelay =>
              simp [exec, execMail, Core.hooked, Core.schedules, Core.handsOver, Mail.setScheduler]
          | _ => cases hi
  | _ => simp [exec, Core.hooked, Core.schedules, Core.handsOver]

/-- The indexes and what an application's adapter holds, which no exception handler touches. -/
structure Core.SameIndexes (σ σ' : Core) : Prop where
  adapters : σ'.memb.adapters = σ.memb.adapters
  held : σ'.mail.held = σ.mail.held

theorem indexes_keeping (P : Platform) : Keeping (runtime P) Core.SameIndexes where
  refl _ := ⟨rfl, rfl⟩
  trans h h' := ⟨h'.adapters.trans h.adapters, h'.held.trans h.held⟩
  run σ i hr := by
    rcases onThrow_run hr with ⟨t, rfl⟩ | ⟨t, rfl⟩ | ⟨r, rfl⟩
    · exact ⟨rfl, rfl⟩
    · exact ⟨rfl, rfl⟩
    · exact ⟨rfl, rfl⟩

/-- **The calls of a run are all that happens to its adapters**: they make the indexes and what an
    application's adapter holds. -/
theorem run_calls {C : State → Action Instr → Prop} {tr : List (Core × Instr)} {σ : State}
    (h : (runtime P).Run C newServer tr σ) :
    (∀ n, σ.core.memb.adapters n = (callsIn tr).foldl (Adapter.take n) {}) ∧
      σ.core.mail.held = tr.flatMap fun x => x.1.hooked x.2 := by
  induction h with
  | start => exact ⟨fun _ => rfl, rfl⟩
  | @step tr σ σ' a hr hc hs ih =>
      obtain ⟨hindexes, hheld⟩ := ih
      rcases (indexes_keeping P).step hs with ⟨i, τ, rfl, -, ht, hsame⟩ | ⟨ht, hsame⟩
      · rw [ht, callsIn, List.flatMap_append, List.flatMap_singleton, List.flatMap_append,
          List.flatMap_singleton]
        refine ⟨fun n => ?_, ?_⟩
        · rw [hsame.adapters, List.foldl_append, ← callsIn, ← hindexes n]
          exact exec_take σ.core i n
        · rw [hsame.held, ← hheld]
          exact exec_held σ.core i
      · rw [ht, List.append_nil]
        exact ⟨fun n => hsame.adapters ▸ hindexes n, hsame.held ▸ hheld⟩

/-! ## 2. Removals -/

/-- Membership, but for the flag that a drain is under way. -/
structure Core.SameMembers (σ σ' : Core) : Prop where
  conn : σ'.conn = σ.conn
  cleaned : ∀ s, (σ'.memb.sockets s).membershipCleaned = (σ.memb.sockets s).membershipCleaned
  rosters : σ'.memb.rosters = σ.memb.rosters

theorem members_keeping (P : Platform) : Keeping (runtime P) Core.SameMembers where
  refl _ := ⟨rfl, fun _ => rfl, rfl⟩
  trans h h' := ⟨h'.conn.trans h.conn, fun s => (h'.cleaned s).trans (h.cleaned s),
    h'.rosters.trans h.rosters⟩
  run σ i hr := by
    rcases onThrow_run hr with ⟨t, rfl⟩ | ⟨t, rfl⟩ | ⟨r, rfl⟩
    · exact ⟨rfl, fun _ => rfl, rfl⟩
    · refine ⟨rfl, fun s => ?_, rfl⟩
      simp only [runtime, exec, execMemb, Memb.setSocket, modify_apply]
      split
      · rename_i hs
        rw [hs]
      · rfl
    · exact ⟨rfl, fun _ => rfl, rfl⟩

/-- The socket whose removal the instruction calls the adapter for. -/
def Instr.removes : Instr → Option SocketId
  | .srv (.removeSocket s) => some s
  | _ => none

theorem removes_eq_some {i : Instr} {s : SocketId} (h : i.removes = some s) :
    i = .srv (.removeSocket s) := by
  unfold Instr.removes at h
  split at h
  · rw [Option.some.inj h]
  · cases h

theorem removes_headed (P : Platform) :
    Headed (runtime P) (fun i => i.removes.isSome = true) fun σ i => ∀ s, i.removes = some s →
      (σ.memb.sockets s).membershipCleaned = true where
  app i hi := by
    cases i with
    | app x => cases hi
    | _ => rfl
  head σ i j hj _ s hs := by
    obtain rfl := removes_eq_some hs
    obtain rfl : i = .memb (.cleanupMembership s) := by
      simpa using spawnedBy (List.mem_append_left _ (List.mem_of_mem_head? hj))
    simp only [runtime, exec, execMemb, cleanupMembership] at hj ⊢
    split
    · assumption
    · simp [Memb.startCleanup, Memb.setSocket]
  tail σ i j hj hH := by
    obtain ⟨s, hs⟩ := Option.isSome_iff_exists.mp hH
    obtain rfl := removes_eq_some hs
    obtain rfl : i = .memb (.cleanupMembership s) := by
      simpa using spawnedBy (List.mem_append_left _ (List.mem_of_mem_tail hj))
    simp only [runtime, exec, execMemb, cleanupMembership] at hj
    split at hj <;> simp at hj
  post σ i j hj hH := by
    obtain ⟨s, hs⟩ := Option.isSome_iff_exists.mp hH
    obtain rfl := removes_eq_some hs
    obtain rfl : i = .memb (.cleanupMembership s) := by
      simpa using spawnedBy (List.mem_append_right _ hj)
    simp only [runtime, exec, execMemb, cleanupMembership] at hj
    split at hj <;> cases hj
  call σ i hc hH := by
    obtain ⟨s, hs⟩ := Option.isSome_iff_exists.mp hH
    obtain rfl := removes_eq_some hs
    cases hc
  handle σ i is his j hj hH := by
    obtain ⟨s, hs⟩ := Option.isSome_iff_exists.mp hH
    obtain rfl := removes_eq_some hs
    rcases onThrow_handle his with rfl | ⟨a, err, rfl, -⟩
    · cases hj
    · simp at hj

/-- What the trace of a run tells of removals. -/
structure Removals (tr : List (Core × Instr)) (σ : State) : Prop where
  /-- whoever was removed is cleaned up, and is not about to be removed again -/
  cleaned : ∀ x ∈ tr, ∀ s, x.2.removes = some s →
    (σ.core.memb.sockets s).membershipCleaned = true ∧ .srv (.removeSocket s) ∉ σ.pending
  called : ∀ s, (σ.core.memb.sockets s).membershipCleaned = true →
    .srv (.removeSocket s) ∈ σ.pending ∨ ∃ x ∈ tr, x.2.removes = some s
  once : tr.Pairwise fun x y => ∀ s, x.2.removes = some s → y.2.removes ≠ some s
  started : ∀ s, .srv (.removeSocket s) ∈ σ.pending →
    (σ.core.memb.sockets s).membershipCleaned = true
  /-- a removal follows the first half of the cleanup at once -/
  follows : ∀ s, .srv (.removeSocket s) ∈ σ.pending → ∃ tr₀ c,
    tr = tr₀ ++ [(c, .memb (.cleanupMembership s))] ∧
      (c.memb.sockets s).membershipCleaned = false ∧ σ.core.conn = c.conn ∧
      σ.core.memb.rosters = c.memb.rosters

theorem Removals.step {tr : List (Core × Instr)} {σ σ' : State} {a : Action Instr}
    (h : Removals tr σ) (hH : ∀ j ∈ σ.stack.tail ++ σ.queue, ¬ j.removes.isSome = true)
    (hs : (runtime P).step σ a = some σ') : Removals (tr ++ (runtime P).taken σ a) σ' := by
  -- whose removal is pending has just been cleaned up
  have hpushed : ∀ s, .srv (.removeSocket s) ∈ σ'.pending → a = .run ∧ ∃ τ,
      (runtime P).next σ = some (.memb (.cleanupMembership s), τ) ∧
      (σ.core.memb.sockets s).membershipCleaned = false := fun s hs' => by
    obtain ⟨i, τ, rfl, hn, -, hp⟩ := (removes_headed P).pushed hH hs hs' rfl
    obtain rfl : i = .memb (.cleanupMembership s) := by
      simpa using spawnedBy (List.mem_append_left _ (List.mem_of_mem_head? hp))
    refine ⟨rfl, τ, hn, ?_⟩
    by_contra hc
    rw [Bool.not_eq_false] at hc
    simp [runtime, exec, execMemb, cleanupMembership, hc] at hp
  have hdue : ∀ s, .srv (.removeSocket s) ∈ σ.pending →
      a = .run ∧ ∃ τ, (runtime P).next σ = some (.srv (.removeSocket s), τ) :=
    fun s hp => (removes_headed P).due hH hs hp rfl
  have hlive : ∀ s, .srv (.removeSocket s) ∈ σ'.pending →
      (σ.core.memb.sockets s).membershipCleaned = false := fun s hs' => by
    obtain ⟨-, -, -, hc⟩ := hpushed s hs'
    exact hc
  rcases (members_keeping P).step hs with ⟨i, τ, rfl, hn, htk, hsame⟩ | ⟨htk, hsame⟩
  · have hc' : ∀ s, (σ'.core.memb.sockets s).membershipCleaned = true ↔
        (σ.core.memb.sockets s).membershipCleaned = true ∨ i = .memb (.cleanupMembership s) :=
      fun s => by
        rw [hsame.cleaned]
        exact cleaned_exec_iff
    -- a removal that is executed was pending, so the cleanup before it is the last entry
    have hi : ∀ s, i.removes = some s → (σ.core.memb.sockets s).membershipCleaned = true := by
      intro s hi
      obtain rfl := removes_eq_some hi
      exact h.started s (next_mem hn).1
    rw [htk]
    refine ⟨fun x hx s hxs => ?_, fun s hs' => ?_, ?_, fun s hs' => ?_, fun s hs' => ?_⟩
    · have hc : (σ.core.memb.sockets s).membershipCleaned = true := by
        rcases List.mem_append.mp hx with hx | hx
        · exact (h.cleaned x hx s hxs).1
        · obtain rfl := List.mem_singleton.mp hx
          exact hi s hxs
      refine ⟨(hc' s).mpr (Or.inl hc), fun hp => ?_⟩
      rw [hlive s hp] at hc
      cases hc
    · by_cases hc : (σ.core.memb.sockets s).membershipCleaned = true
      · rcases h.called s hc with hp | ⟨x, hx, hxs⟩
        · obtain ⟨-, τ', hn'⟩ := hdue s hp
          obtain ⟨rfl, -⟩ := Prod.mk.inj (Option.some.inj (hn.symm.trans hn'))
          exact Or.inr ⟨_, List.mem_append_right _ (List.mem_singleton_self _), rfl⟩
        · exact Or.inr ⟨x, List.mem_append_left _ hx, hxs⟩
      · obtain rfl := ((hc' s).mp hs').resolve_left hc
        refine Or.inl ?_
        have hσ' : σ' = (runtime P).execute (.memb (.cleanupMembership s)) τ := by
          simpa [Machine.step, hn] using hs.symm
        rw [hσ', execute]
        simp [runtime, exec, execMemb, cleanupMembership, ← (next_pending hn).1, hc, Config.pending]
    · refine List.pairwise_append.mpr
        ⟨h.once, List.pairwise_singleton _ _, fun x hx y hy s hxs hys => ?_⟩
      obtain rfl := List.mem_singleton.mp hy
      obtain rfl := removes_eq_some hys
      exact (h.cleaned x hx s hxs).2 (next_mem hn).1
    · exact (hc' s).mpr (Or.inr (by
        obtain ⟨-, τ', hn', -⟩ := hpushed s hs'
        exact (Prod.mk.inj (Option.some.inj (hn.symm.trans hn'))).1))
    · obtain ⟨-, τ', hn', hc⟩ := hpushed s hs'
      obtain ⟨rfl, -⟩ := Prod.mk.inj (Option.some.inj (hn.symm.trans hn'))
      refine ⟨tr, σ.core, rfl, hc, hsame.conn, hsame.rosters.trans ?_⟩
      simp only [runtime, exec, execMemb, cleanupMembership]
      split <;> rfl
  · -- nothing was executed, so no removal was due and none is
    have hfree : ∀ s, .srv (.removeSocket s) ∉ σ'.pending := fun s hs' => by
      obtain ⟨rfl, τ, hn, -⟩ := hpushed s hs'
      simp [taken, hn] at htk
    rw [htk, List.append_nil]
    refine ⟨fun x hx s hxs => ⟨?_, hfree s⟩, fun s hs' => Or.inr ?_, h.once,
      fun s hs' => absurd hs' (hfree s), fun s hs' => absurd hs' (hfree s)⟩
    · rw [hsame.cleaned]
      exact (h.cleaned x hx s hxs).1
    · rw [hsame.cleaned] at hs'
      refine (h.called s hs').resolve_left fun hp => ?_
      obtain ⟨rfl, τ, hn⟩ := hdue s hp
      simp [taken, hn] at htk

theorem run_removals {C : State → Action Instr → Prop} {tr : List (Core × Instr)} {σ : State}
    (h : (runtime P).Run C newServer tr σ) : Removals tr σ := by
  induction h with
  | start =>
      refine ⟨fun _ hx => absurd hx List.not_mem_nil, fun s hs => ?_, .nil,
        fun _ hs => absurd hs List.not_mem_nil, fun _ hs => absurd hs List.not_mem_nil⟩
      cases hs
  | step hr _ hs ih =>
      exact ih.step (hr.reach.headed (removes_headed P) fun _ hj => absurd hj List.not_mem_nil).2 hs

/-! ## 3. The protocol -/

@[simp] theorem mem_joins {σ : Core} {s : SocketId} {rooms : List String} {a : AdapterCall} :
    a ∈ σ.joins s rooms ↔ (σ.memb.sockets s).acceptsRoomJoins = true ∧
      ∃ room ∈ rooms, a = .add (σ.conn.sockets s).nsp (σ.conn.sockets s).id room := by
  unfold Core.joins
  split
  · rename_i h
    simp only [List.mem_map, h, true_and]
    exact exists_congr fun _ => and_congr_right fun _ => eq_comm
  · rename_i h
    simp [h]

@[simp] theorem mem_leavings {σ : Core} {s : SocketId} {rooms : List String} {a : AdapterCall} :
    a ∈ σ.leavings s rooms ↔
      ∃ room ∈ rooms, a = .del (σ.conn.sockets s).nsp (σ.conn.sockets s).id room := by
  simp only [Core.leavings, List.mem_map]
  exact exists_congr fun _ => and_congr_right fun _ => eq_comm

theorem mem_calls_removeSocket {σ : Core} {i : Instr} {n : NspId} {sid : String} :
    .removeSocket n sid ∈ σ.calls i ↔ ∃ s, i.removes = some s ∧ (σ.conn.sockets s).nsp = n ∧
      (σ.conn.sockets s).id = sid := by
  cases i with
  | memb i =>
      cases i with
      | cleanupMembership s =>
          simp only [Core.calls]
          split <;> simp [Instr.removes]
      | _ => simp [Core.calls, Instr.removes]
  | srv i =>
      cases i with
      | removeSocket s => simp [Core.calls, Instr.removes, eq_comm]
      | _ => simp [Core.calls, Instr.removes]
  | _ => simp [Core.calls, Instr.removes]

theorem mem_calls_add {σ : Core} {i : Instr} {n : NspId} {sid room : String}
    (h : .add n sid room ∈ σ.calls i) :
    ∃ s, (σ.memb.sockets s).acceptsRoomJoins = true ∧ (σ.conn.sockets s).id = sid ∧
      (i.Valid σ → σ.Wf P → s < σ.conn.socketCount) := by
  cases i with
  | memb i =>
      cases i with
      | enter s =>
          obtain ⟨ha, room, -, he⟩ := mem_joins.mp h
          exact ⟨s, ha, (AdapterCall.add.inj he).2.1.symm,
            fun hv _ => hv (.socket s) (List.mem_singleton_self _)⟩
      | join s rooms =>
          obtain ⟨ha, room, -, he⟩ := mem_joins.mp h
          exact ⟨s, ha, (AdapterCall.add.inj he).2.1.symm,
            fun hv _ => hv (.socket s) (List.mem_singleton_self _)⟩
      | socketsJoin op rooms =>
          obtain ⟨s, hs, h⟩ := List.mem_flatMap.mp h
          obtain ⟨ha, room, -, he⟩ := mem_joins.mp h
          exact ⟨s, ha, (AdapterCall.add.inj he).2.1.symm, fun _ hw => hw.management_lt hs⟩
      | cleanupMembership s =>
          simp only [Core.calls] at h
          split at h <;> simp at h
      | _ => simp [Core.calls] at h
  | srv i => cases i <;> simp [Core.calls] at h
  | _ => simp [Core.calls] at h

theorem schedules_eq_some {σ : Core} {i : Instr} {d : Delivery} {t : SocketId} :
    σ.schedules i = some (d, t) ↔ σ.handsOver i = some d ∧
      (σ.conn.clients d.client).serverSocket = some t ∧
      (σ.srv.namespaces (σ.conn.sockets t).nsp).base ≠ .builtin := by
  simp only [Core.schedules, Option.bind_eq_some_iff, Option.map_eq_some_iff, Option.filter_eq_some_iff]
  constructor
  · rintro ⟨e, he, u, ⟨hu, hb⟩, heq⟩
    obtain ⟨rfl, rfl⟩ := Prod.mk.inj heq
    exact ⟨he, hu, by simpa using hb⟩
  · rintro ⟨hd, ht, hb⟩
    exact ⟨d, hd, t, ⟨ht, by simpa using hb⟩, rfl⟩

theorem mem_calls_schedule {σ : Core} {i : Instr} {n : NspId} {sid : String} {d : Delivery} :
    .scheduleDelivery n sid d ∈ σ.calls i ↔ ∃ t, σ.schedules i = some (d, t) ∧
      (σ.conn.sockets t).nsp = n ∧ (σ.conn.sockets t).id = sid := by
  have hother : ∀ j, .scheduleDelivery n sid d ∈ ((σ.schedules j).toList.map fun x =>
      AdapterCall.scheduleDelivery (σ.conn.sockets x.2).nsp (σ.conn.sockets x.2).id x.1) ↔
        ∃ t, σ.schedules j = some (d, t) ∧ (σ.conn.sockets t).nsp = n ∧
          (σ.conn.sockets t).id = sid := fun j => by
    simp only [List.mem_map, Option.mem_toList, AdapterCall.scheduleDelivery.injEq]
    constructor
    · rintro ⟨⟨e, t⟩, hs, hn, hid, rfl⟩
      exact ⟨t, hs, hn, hid⟩
    · rintro ⟨t, hs, hn, hid⟩
      exact ⟨(d, t), hs, hn, hid, rfl⟩
  cases i with
  | memb i =>
      cases i with
      | cleanupMembership s =>
          simp only [Core.calls]
          split <;> simp [Core.schedules, Core.handsOver]
      | _ => simp [Core.calls, Core.schedules, Core.handsOver]
  | srv i =>
      cases i with
      | removeSocket s => simp [Core.calls, Core.schedules, Core.handsOver]
      | _ => exact hother _
  | _ => exact hother _

/-- Whatever the run, the adapters mirror the living sockets. -/
theorem reach_membInv {C : State → Action Instr → Prop} {σ : State}
    (h : (runtime P).Reach C newServer σ) :
    MembInv σ.core.conn σ.core.memb ∧ ∀ i ∈ σ.pending, MembOk σ.core i := by
  have hk := h.inv_ok (membership_inductive P) (fun _ _ _ _ _ _ _ => trivial) (newServer_keeps P)
  exact ⟨hk.inv.2, fun i hi => (hk.ok i hi).2⟩

/-- What is known where an entry of the trace was made. -/
theorem entry_facts {C : State → Action Instr → Prop} {tr₁ tr₂ : List (Core × Instr)}
    {x : Core × Instr} {σ : State} (h : (runtime P).Run C newServer (tr₁ ++ x :: tr₂) σ) :
    ∃ σ₁ τ, (runtime P).Run C newServer tr₁ σ₁ ∧ σ₁.core = x.1 ∧
      (runtime P).next σ₁ = some (x.2, τ) ∧ x.1.Wf P ∧ x.2.Valid x.1 ∧
      x.1.conn.Extends σ.core.conn := by
  obtain ⟨σ₁, τ, σ₂, h₁, hc, hx, hn, hs, h₂⟩ := h.split
  have hw := reach_wf h₁.reach
  refine ⟨σ₁, τ, h₁, hx, hn, hx ▸ hw.1, hx ▸ hw.2 _ (next_mem hn).1, ?_⟩
  exact hx ▸ (reach_later h₁.reach ((Reach.start.step hc hs).trans h₂.reach)).1

/-- Whoever was removed still has the name it was removed by. -/
theorem removed_name {C : State → Action Instr → Prop} {tr : List (Core × Instr)} {σ : State}
    (h : (runtime P).Run C newServer tr σ) {x : Core × Instr} (hx : x ∈ tr) {s : SocketId}
    (hs : x.2.removes = some s) :
    s < σ.core.conn.socketCount ∧ x.1.conn.sockets s = σ.core.conn.sockets s := by
  obtain ⟨tr₁, tr₂, rfl⟩ := List.append_of_mem hx
  obtain ⟨-, -, -, -, -, -, hv, hE⟩ := entry_facts h
  rw [removes_eq_some hs] at hv
  have hsx : s < x.1.conn.socketCount := hv (.socket s) (List.mem_singleton_self _)
  exact ⟨hsx.trans_le hE.sockets, (hE.socketOf s hsx).symm⟩

/-- A sid that was removed is that of one socket, whose removal is in the trace. -/
theorem removed_iff {C : State → Action Instr → Prop} {tr : List (Core × Instr)} {σ : State}
    (h : (runtime P).Run C newServer tr σ) {s : SocketId} (hs : s < σ.core.conn.socketCount)
    {n : NspId} :
    .removeSocket n (σ.core.conn.sockets s).id ∈ callsIn tr ↔
      (σ.core.conn.sockets s).nsp = n ∧ ∃ x ∈ tr, x.2.removes = some s := by
  have hw := (reach_wf h.reach).1
  constructor
  · intro hn
    obtain ⟨x, hx, hcall⟩ := List.mem_flatMap.mp hn
    obtain ⟨t, ht, hnsp, hid⟩ := mem_calls_removeSocket.mp hcall
    obtain ⟨htlt, hname⟩ := removed_name h hx ht
    rw [hname] at hnsp hid
    obtain rfl := hw.conn.id_inj htlt hs hid
    exact ⟨hnsp, x, hx, ht⟩
  · rintro ⟨hn, x, hx, hxs⟩
    obtain ⟨-, hname⟩ := removed_name h hx hxs
    exact List.mem_flatMap.mpr ⟨x, hx, mem_calls_removeSocket.mpr ⟨s, hxs, by rw [hname, hn],
      by rw [hname]⟩⟩

/-- Whoever is cleaned up when an instruction executes has been removed, but for the removal
    itself. -/
theorem cleaned_iff {C : State → Action Instr → Prop} {tr : List (Core × Instr)} {σ : State}
    (h : (runtime P).Run C newServer tr σ) {s : SocketId}
    (hno : .srv (.removeSocket s) ∉ σ.pending) :
    (σ.core.memb.sockets s).membershipCleaned = true ↔ ∃ x ∈ tr, x.2.removes = some s := by
  have hR := run_removals h
  exact ⟨fun hc => (hR.called s hc).resolve_left hno, fun ⟨x, hx, hs⟩ => (hR.cleaned x hx s hs).1⟩

/-- **The removal protocol** of a trace. -/
structure RemovalProtocol (P : Platform) (tr : List (Core × Instr)) (σ : State) : Prop where
  /-- no sid is removed twice -/
  once : (callsIn tr).Pairwise fun a b => ∀ m n sid,
    a = .removeSocket m sid → b ≠ .removeSocket n sid
  /-- unless that is what happens next, whoever has been cleaned up has been removed, and no other -/
  each : ∀ s < σ.core.conn.socketCount, .srv (.removeSocket s) ∉ σ.pending →
    ((σ.core.memb.sockets s).membershipCleaned = true ↔
      .removeSocket (σ.core.conn.sockets s).nsp (σ.core.conn.sockets s).id ∈ callsIn tr)
  /-- the calls before it take the socket's rooms and its sid out of the indexes -/
  after : ∀ tr₁ x tr₂ s, tr = tr₁ ++ x :: tr₂ → x.2 = .srv (.removeSocket s) →
    (∃ tr₀ c, tr₁ = tr₀ ++ [(c, .memb (.cleanupMembership s))] ∧
      c.calls (.memb (.cleanupMembership s)) = c.leavings s (c.memb.sockets s).rooms.elems ++
        [.forget (c.conn.sockets s).nsp (c.conn.sockets s).id]) ∧
    ∀ n, (x.1.memb.adapters n).sids.get? (x.1.conn.sockets s).id = none ∧
      ∀ room, ¬ (x.1.memb.adapters n).rooms.Has room (x.1.conn.sockets s).id
  /-- whoever leaves a roster has been removed -/
  leaves : ∀ tr₁ x tr₂ n sid s, tr = tr₁ ++ x :: tr₂ →
    (x.1.memb.rosters n).get? sid = some s →
    ((exec P x.2 x.1).core.memb.rosters n).get? sid ≠ some s → .removeSocket n sid ∈ callsIn tr₁
  /-- nothing is added for a sid that was removed -/
  adds : ∀ tr₁ x tr₂ m n sid room, tr = tr₁ ++ x :: tr₂ → .removeSocket m sid ∈ callsIn tr₁ →
    .add n sid room ∉ x.1.calls x.2

/-- A packet is scheduled with the sid of its sender, and that has not been removed. -/
def SchedulesOwn (tr : List (Core × Instr)) : Prop :=
  ∀ tr₁ x tr₂ n sid d, tr = tr₁ ++ x :: tr₂ → .scheduleDelivery n sid d ∈ x.1.calls x.2 →
    sid = (x.1.conn.sockets d.sender).id ∧ ∀ m, .removeSocket m sid ∉ callsIn tr₁

theorem removesOnce {C : State → Action Instr → Prop} {tr : List (Core × Instr)} {σ : State}
    (h : (runtime P).Run C newServer tr σ) :
    (callsIn tr).Pairwise fun a b => ∀ m n sid, a = .removeSocket m sid → b ≠ .removeSocket n sid := by
  refine List.pairwise_flatMap.mpr ⟨fun x _ => ?_, ?_⟩
  · -- the one instruction that makes such a call makes no other
    by_cases hx : ∃ s, x.2 = .srv (.removeSocket s)
    · obtain ⟨s, hs⟩ := hx
      rw [hs]
      exact List.pairwise_singleton _ _
    · refine List.pairwise_of_forall_mem_list fun a ha b _ m n sid hm => ?_
      obtain ⟨s, hs, -⟩ := mem_calls_removeSocket.mp (hm ▸ ha)
      exact absurd ⟨s, removes_eq_some hs⟩ hx
  · refine (run_removals h).once.imp_of_mem fun {x y} hx hy hxy a ha b hb m n sid hm hn => ?_
    obtain ⟨s, hs, -, hid⟩ := mem_calls_removeSocket.mp (hm ▸ ha)
    obtain ⟨t, ht, -, hid'⟩ := mem_calls_removeSocket.mp (hn ▸ hb)
    obtain ⟨hslt, hname⟩ := removed_name h hx hs
    obtain ⟨htlt, hname'⟩ := removed_name h hy ht
    rw [hname] at hid
    rw [hname'] at hid'
    obtain rfl := (reach_wf h.reach).1.conn.id_inj hslt htlt (hid.trans hid'.symm)
    exact hxy s hs ht

/-- Only the second half of a cleanup takes a socket out of a roster. -/
theorem leaves_roster {σ : Core} (hw : σ.Wf P) {i : Instr} (hi : i.Valid σ) {n : NspId}
    {sid : String} {s : SocketId} (hr : (σ.memb.rosters n).get? sid = some s)
    (hr' : ((exec P i σ).core.memb.rosters n).get? sid ≠ some s) :
    i = .memb (.cleanupMembershipRest s) := by
  obtain ⟨hs, rfl, rfl⟩ := hw.roster n sid s hr
  cases i with
  | memb i =>
      cases i with
      | enter t =>
          simp only [exec, execMemb, enter, join_rosters, Memb.setRoster, modify_apply] at hr'
          split at hr'
          · simp only [OMap.get?_set] at hr'
            split at hr'
            · rename_i hid
              have ht : t < σ.conn.socketCount := hi (.socket t) (List.mem_singleton_self _)
              exact absurd (congrArg some (hw.conn.id_inj hs ht hid).symm) hr'
            · rename_i hn _
              exact absurd (hn ▸ hr) hr'
          · exact absurd hr hr'
      | join t rooms => exact absurd (by simpa [exec, execMemb] using hr) hr'
      | leave t room => exact absurd hr hr'
      | socketsJoin op rooms =>
          simp only [exec, execMemb] at hr'
          rw [foldl_rosters (fun μ s => join_rosters μ _ s rooms)] at hr'
          exact absurd hr hr'
      | socketsLeave op rooms =>
          simp only [exec, execMemb] at hr'
          rw [foldl_rosters (f := fun μ s => rooms.foldl (fun μ room => μ.leave σ.conn s room) μ)
            (fun μ s => foldl_rosters (f := fun μ room => μ.leave σ.conn s room) (fun _ _ => rfl)
              rooms μ)] at hr'
          exact absurd hr hr'
      | cleanupMembership t =>
          simp only [exec, execMemb, cleanupMembership] at hr'
          split at hr' <;> exact absurd hr hr'
      | drainEnd t => exact absurd hr hr'
      | cleanupMembershipRest t =>
          simp only [exec, execMemb, Memb.endCleanup, Memb.setRoster, modify_apply] at hr'
          split at hr'
          · simp only [OMap.get?_erase] at hr'
            split at hr'
            · rename_i hid
              have ht : t < σ.conn.socketCount := hi (.socket t) (List.mem_singleton_self _)
              rw [hw.conn.id_inj hs ht hid]
            · rename_i hn _
              exact absurd (hn ▸ hr) hr'
          · exact absurd hr hr'
  | _ => exact absurd hr hr'

/-- No removal is due while another instruction executes. -/
theorem not_due {C : State → Action Instr → Prop} {σ τ : State} {i : Instr}
    (h : (runtime P).Reach C newServer σ) (hn : (runtime P).next σ = some (i, τ)) {s : SocketId}
    (hi : i.removes ≠ some s) : .srv (.removeSocket s) ∉ σ.pending := fun hp => by
  have hH := (h.headed (removes_headed P) fun _ hj => absurd hj List.not_mem_nil).2
  obtain ⟨-, τ', hn'⟩ := (removes_headed P).due hH
    (show (runtime P).step σ .run = some ((runtime P).execute i τ) by simp [step, hn]) hp rfl
  obtain ⟨rfl, -⟩ := Prod.mk.inj (Option.some.inj (hn.symm.trans hn'))
  exact hi rfl

/-- **The protocol of removals.** -/
theorem removal_protocol {C : State → Action Instr → Prop} {tr : List (Core × Instr)} {σ : State}
    (h : (runtime P).Run C newServer tr σ) : RemovalProtocol P tr σ where
  once := removesOnce h
  each s hs hno := by
    rw [removed_iff h hs, cleaned_iff h hno]
    exact (and_iff_right rfl).symm
  after tr₁ x tr₂ s htr hx := by
    subst htr
    obtain ⟨σ₁, τ, h₁, hcore, hn, hw, hv, -⟩ := entry_facts h
    rw [hx] at hn hv
    obtain ⟨tr₀, c, rfl, hc, -⟩ := (run_removals h₁).follows s (next_mem hn).1
    refine ⟨⟨tr₀, c, rfl, by simp [Core.calls, hc]⟩, fun n => ?_⟩
    rw [← hcore] at hw hv ⊢
    exact (reach_membInv h₁.reach).1.gone hw.conn (hv (.socket s) (List.mem_singleton_self _))
      ((run_removals h₁).started s (next_mem hn).1) n
  leaves tr₁ x tr₂ n sid s htr hr hr' := by
    subst htr
    obtain ⟨σ₁, τ, h₁, hcore, hn, hw, hv, -⟩ := entry_facts h
    have hx := leaves_roster hw hv hr hr'
    obtain ⟨hs, rfl, rfl⟩ := hw.roster n sid s hr
    rw [hx] at hn
    rw [← hcore] at hs ⊢
    refine (removed_iff h₁ hs).mpr ⟨rfl, (cleaned_iff h₁ ?_).mp ?_⟩
    · exact not_due h₁.reach hn nofun
    · exact (reach_membInv h₁.reach).2 _ (next_mem hn).1
  adds tr₁ x tr₂ m n sid room htr hrem hadd := by
    subst htr
    obtain ⟨σ₁, τ, h₁, hcore, hn, hw, hv, -⟩ := entry_facts h
    obtain ⟨s, ha, rfl, hs⟩ := mem_calls_add hadd
    have hs := hs hv hw
    rw [← hcore] at ha hs hrem
    obtain ⟨-, y, hy, hys⟩ := (removed_iff h₁ hs).mp hrem
    rw [(reach_membInv h₁.reach).1.refuses s ((run_removals h₁).cleaned y hy s hys).1] at ha
    cases ha

/-- Who hands over a packet is a socket, and the instruction is no removal. -/
theorem handsOver_sender {σ : Core} {i : Instr} (hi : i.Valid σ) {d : Delivery}
    (hd : σ.handsOver i = some d) : d.sender < σ.conn.socketCount ∧ i.removes = none := by
  unfold Core.handsOver at hd
  split at hd
  · split at hd
    · exact ⟨(Delivery.Queued.of_packet (hi _ (List.mem_singleton_self _)) hd).1.1, rfl⟩
    · cases hd
  · exact ⟨(Delivery.Queued.of_packet (hi _ (List.mem_singleton_self _)) hd).1.1, rfl⟩
  · cases hd

/-- **Packets are scheduled by their senders exactly where the condition holds.** -/
theorem schedulesOwn_iff {C : State → Action Instr → Prop} {tr : List (Core × Instr)} {σ : State}
    (h : (runtime P).Run C newServer tr σ) :
    SchedulesOwn tr ↔ ∀ x ∈ tr, x.1.SendsPaired x.2 := by
  constructor
  · intro hown x hx d hd t ht hb
    obtain ⟨tr₁, tr₂, rfl⟩ := List.append_of_mem hx
    obtain ⟨σ₁, τ, h₁, hcore, hn, hw, hv, -⟩ := entry_facts h
    obtain ⟨hs, hrem⟩ := handsOver_sender hv hd
    obtain ⟨hid, hno⟩ := hown tr₁ x tr₂ _ _ d rfl
      (mem_calls_schedule.mpr ⟨t, schedules_eq_some.mpr ⟨hd, ht, hb⟩, rfl, rfl⟩)
    obtain rfl := hw.conn.id_inj (hw.conn.paired _ _ ht).1 hs hid
    refine ⟨rfl, ?_⟩
    rw [← hcore] at hs hno ⊢
    by_contra hc
    refine hno _ ((removed_iff h₁ hs).mpr ⟨rfl, (cleaned_iff h₁ ?_).mp (by simpa using hc)⟩)
    exact not_due h₁.reach hn (by simp [hrem])
  · intro hall tr₁ x tr₂ n sid d htr hcall
    subst htr
    obtain ⟨σ₁, τ, h₁, hcore, hn, hw, hv, -⟩ := entry_facts h
    obtain ⟨t, ht, rfl, rfl⟩ := mem_calls_schedule.mp hcall
    obtain ⟨hd, ht, hb⟩ := schedules_eq_some.mp ht
    obtain ⟨hs, -⟩ := handsOver_sender hv hd
    obtain ⟨rfl, hc⟩ := hall x (by simp) d hd t ht hb
    refine ⟨rfl, fun m hm => ?_⟩
    rw [← hcore] at hs hm hc
    obtain ⟨-, y, hy, hys⟩ := (removed_iff h₁ hs).mp hm
    rw [((run_removals h₁).cleaned y hy _ hys).1] at hc
    cases hc

/-- No exception leaves a listener. -/
def Returning (_ : State) (a : Action Instr) : Prop := a ≠ .throw

instance (σ : State) (a : Action Instr) : Decidable (Returning σ a) :=
  match a with
  | .throw => isFalse fun h => h rfl
  | .run | .call _ | .ret => isTrue nofun

end Smocket
