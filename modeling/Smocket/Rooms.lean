import Smocket.Connections

/-
  File:      Smocket/Rooms.lean
  Subject:   ROOMS AND ROUTING (`adapters.ts`, `broadcast.ts`, `sockets.ts`): the built-in
             adapter's indexes, membership changes and cleanup, and the two selections of
             `BroadcastOperator`.
-/

namespace Smocket

open Ordered EventLoop

/-! ## 1. The built-in adapter -/

/-- `Adapter.add`. -/
def Adapter.add (A : Adapter) (sid room : String) : Adapter where
  rooms := A.rooms.set room (((A.rooms.get? room).getD .empty).insert sid)
  sids := A.sids.set sid (((A.sids.get? sid).getD .empty).insert room)

/-- `Adapter.del`; an emptied room loses its key, an emptied sid keeps it. -/
def Adapter.del (A : Adapter) (sid room : String) : Adapter where
  rooms :=
    match A.rooms.get? room with
    | none => A.rooms
    | some members =>
        if (members.erase sid).elems.isEmpty then A.rooms.erase room
        else A.rooms.set room (members.erase sid)
  sids :=
    match A.sids.get? sid with
    | none => A.sids
    | some joined => A.sids.set sid (joined.erase room)

/-- `Adapter.socketsIn`. -/
def Adapter.socketsIn (A : Adapter) (rooms : OSet String) : OSet String :=
  rooms.elems.foldl (fun sids room =>
    ((A.rooms.get? room).getD .empty).elems.foldl OSet.insert sids) .empty

/-! ## 2. Membership of one socket -/

def Memb.setSocket (μ : Memb) (s : SocketId) (g : Membership → Membership) : Memb :=
  { μ with sockets := modify μ.sockets s g }

def Memb.setAdapter (μ : Memb) (n : NspId) (g : Adapter → Adapter) : Memb :=
  { μ with adapters := modify μ.adapters n g }

def Memb.setRoster (μ : Memb) (n : NspId) (g : OMap String SocketId → OMap String SocketId) :
    Memb :=
  { μ with rosters := modify μ.rosters n g }

/-- One turn of the loop of `ServerSocket.join`. -/
def Memb.joinRoom (κ : Conn) (s : SocketId) (μ : Memb) (room : String) : Memb :=
  (μ.setAdapter (κ.sockets s).nsp fun A => A.add (κ.sockets s).id room).setSocket s fun x =>
    { x with rooms := x.rooms.insert room }

/-- `ServerSocket.join`. -/
def Memb.join (μ : Memb) (κ : Conn) (s : SocketId) (rooms : List String) : Memb :=
  if (μ.sockets s).acceptsRoomJoins then rooms.foldl (Memb.joinRoom κ s) μ else μ

/-- `ServerSocket.leave`. -/
def Memb.leave (μ : Memb) (κ : Conn) (s : SocketId) (room : String) : Memb :=
  (μ.setAdapter (κ.sockets s).nsp fun A => A.del (κ.sockets s).id room).setSocket s fun x =>
    { x with rooms := x.rooms.erase room }

/-- `ServerSocket.cleanupMembership`, up to the adapter's removal hook: leave every room in the
    adapter, drop the sid, open the drain. -/
def Memb.startCleanup (μ : Memb) (κ : Conn) (s : SocketId) : Memb :=
  let S := κ.sockets s
  (μ.setAdapter S.nsp fun A =>
      let A := (μ.sockets s).rooms.elems.foldl (fun A room => A.del S.id room) A
      { A with sids := A.sids.erase S.id }).setSocket s fun x =>
    { x with membershipCleaned := true, acceptsRoomJoins := false, drainingAdapterDelivery := true }

/-- The rest of it: empty the live `rooms` set, leave the roster. -/
def Memb.endCleanup (μ : Memb) (κ : Conn) (s : SocketId) : Memb :=
  (μ.setSocket s fun x => { x with rooms := .empty }).setRoster (κ.sockets s).nsp fun R =>
    R.erase (κ.sockets s).id

/-! ## 3. Broadcast operators -/

namespace BroadcastOperator

/-- `BroadcastOperator.to`, also `in` (both words are taken in Lean). -/
def toRooms (op : BroadcastOperator) (rooms : List String) : BroadcastOperator :=
  { op with targetRooms := OSet.ofList (op.targetRooms.elems ++ rooms) }

def except (op : BroadcastOperator) (rooms : List String) : BroadcastOperator :=
  { op with exceptRooms := OSet.ofList (op.exceptRooms.elems ++ rooms) }

def timeout (op : BroadcastOperator) (ms : Nat) : BroadcastOperator :=
  { op with timeoutMs := some ms }

def compress (op : BroadcastOperator) (_compress : Bool) : BroadcastOperator := op

/-- The getter `volatile`. -/
def volatile (op : BroadcastOperator) : BroadcastOperator := { op with isVolatile := true }

end BroadcastOperator

/-- `filterBroadcastRecipients` through a stack of wrappers: a sid stays unless some
    `DroppingAdapter` drops it. -/
def filterBroadcastRecipients (layers : List Layer) (sid : String) : Bool :=
  layers.all fun
    | .dropping dropped => !dropped.contains sid
    | .tracing _ => true

/-- `isClientReady`. -/
def Core.isClientReady (σ : Core) (s : SocketId) : Bool := (σ.conn.peer s).connected

/-- Adapter `k` of a namespace, its indexes and wrappers: the one in place, which has the index `A`,
    or one that `useAdapter` has replaced. -/
def Namespace.captured (N : Namespace) (A : Adapter) (k : Nat) : Adapter × List Layer :=
  if k = N.adapter then (A, N.layers) else ((N.retired k).index, (N.retired k).layers)

/-- The adapter an operator captured. -/
def BroadcastOperator.adapterIn (op : BroadcastOperator) (σ : Core) : Adapter × List Layer :=
  (σ.srv.namespaces op.nsp).captured (σ.memb.adapters op.nsp) op.adapter

/-- `BroadcastOperator.recipients`, the routed sockets and the excluded sids. -/
def BroadcastOperator.recipients (op : BroadcastOperator) (σ : Core) :
    List SocketId × OSet String :=
  let A := (op.adapterIn σ).1
  let roster := σ.memb.rosters op.nsp
  let targets :=
    if op.targetRooms.elems.isEmpty then roster.keys else (A.socketsIn op.targetRooms).elems
  let excluded := A.socketsIn op.exceptRooms
  let out := targets.filterMap fun sid =>
    if sid ∈ excluded then none
    else (roster.get? sid).bind fun s =>
      if op.isVolatile && !σ.isClientReady s then none else some s
  (out.filter fun s => filterBroadcastRecipients (op.adapterIn σ).2 (σ.conn.sockets s).id, excluded)

/-- The inner loop of `managementSockets`; the ids of `candidates` are the set `seen`. -/
def Core.scanRoom (σ : Core) (sockets candidates : List SocketId) (room : String) : List SocketId :=
  sockets.foldl (fun candidates s =>
    if (σ.conn.sockets s).id ∈ candidates.map (fun s => (σ.conn.sockets s).id) ∨
        room ∉ (σ.memb.sockets s).rooms then candidates
    else candidates ++ [s]) candidates

/-- `BroadcastOperator.managementSockets`. -/
def BroadcastOperator.managementSockets (op : BroadcastOperator) (σ : Core) : List SocketId :=
  let sockets := (σ.memb.rosters op.nsp).values
  let candidates :=
    if op.targetRooms.elems.isEmpty then sockets
    else op.targetRooms.elems.foldl (σ.scanRoom sockets) []
  candidates.filter fun s => !op.exceptRooms.elems.any fun room =>
    decide (room ∈ (σ.memb.sockets s).rooms)

/-! ## 4. The instructions -/

/-- `this.sockets.set(id, socket); socket.join(id)` in `continuePair`. -/
def enter (σ : Core) (s : SocketId) : Out Memb :=
  let S := σ.conn.sockets s
  { part := (σ.memb.setRoster S.nsp fun R => R.set S.id s).join σ.conn s [S.id]
    log := [.admitted s] }

/-- `ServerSocket.cleanupMembership`. -/
def cleanupMembership (σ : Core) (s : SocketId) : Out Memb :=
  if (σ.memb.sockets s).membershipCleaned then { part := σ.memb }
  else
    { part := σ.memb.startCleanup σ.conn s
      push := [.srv (.removeSocket s), .memb (.drainEnd s), .memb (.cleanupMembershipRest s)] }

def execMemb (σ : Core) : MembInstr → Out Memb
  | .enter s => enter σ s
  | .join s rooms => { part := σ.memb.join σ.conn s rooms }
  | .leave s room => { part := σ.memb.leave σ.conn s room }
  | .socketsJoin op rooms =>
      { part := (op.managementSockets σ).foldl (fun μ s => μ.join σ.conn s rooms) σ.memb }
  | .socketsLeave op rooms =>
      { part := (op.managementSockets σ).foldl
          (fun μ s => rooms.foldl (fun μ room => μ.leave σ.conn s room) μ) σ.memb }
  | .cleanupMembership s => cleanupMembership σ s
  | .drainEnd s =>
      { part := σ.memb.setSocket s fun x => { x with drainingAdapterDelivery := false } }
  | .cleanupMembershipRest s => { part := σ.memb.endCleanup σ.conn s }

end Smocket
