import Mathlib.Logic.Relation
import Smocket.Namespaces
import Smocket.Routing

/-
  File:      Smocket/Operators.lean
  Subject:   OPERATORS AN APPLICATION HOLDS (`broadcast.ts`, the room methods of `namespaces.ts` and
             `sockets.ts`). A chain starts from a namespace or a server socket, with the adapter the
             namespace has at that moment; each further call builds a new operator. The application
             may keep them all while the server goes on.

  * `Holding.Step` -- a step of the runtime, or a call that builds an operator;
  * `HeldOperator.Kept`, `held_kept` -- what stays true of an operator as long as it is held;
  * `HeldOperator.Routes` -- what its two routes select, by the calls of its own chain;
  * **`routing_agrees`** -- every held operator does, in every reachable state of a server with
    built-in adapters;
  * `routing_captured` -- one held while `Server.adapter` replaces its adapter routes to nobody.
-/

namespace Smocket

open Ordered EventLoop EventLoop.Machine

variable {P : Platform}

/-! ## 1. Chained calls -/

/-- A call that extends an operator. -/
inductive ChainCall where
  | to (rooms : List String)
  | except (rooms : List String)
  | timeout (ms : Nat)
  | compress (compress : Bool)
  | volatile

/-- The rooms a chain of calls names. -/
def Targets (calls : List ChainCall) (room : String) : Prop :=
  ∃ rooms, .to rooms ∈ calls ∧ room ∈ rooms

def Excepts (calls : List ChainCall) (room : String) : Prop :=
  ∃ rooms, .except rooms ∈ calls ∧ room ∈ rooms

/-- `socket.broadcast`, `socket.to` and `socket.except`. -/
inductive SocketCall where
  | broadcast
  | to (rooms : List String)
  | except (rooms : List String)

/-- The calls on `socket.broadcast` that select the same. -/
def SocketCall.calls : SocketCall → List ChainCall
  | .broadcast => []
  | .to rooms => [.to rooms]
  | .except rooms => [.except rooms]

namespace BroadcastOperator

/-- `new BroadcastOperator`, with the adapter the namespace has now. -/
def new (σ : Core) (nsp : NspId) (rooms except : List String) (isVolatile : Bool)
    (timeoutMs : Option Nat) : BroadcastOperator where
  nsp := nsp
  adapter := (σ.srv.namespaces nsp).adapter
  targetRooms := OSet.ofList rooms
  exceptRooms := OSet.ofList except
  isVolatile := isVolatile
  timeoutMs := timeoutMs

/-- The first call of a chain on a namespace. -/
def ofNamespace (σ : Core) (n : NspId) : ChainCall → BroadcastOperator
  | .to rooms => new σ n rooms [] false none
  | .except rooms => new σ n [] rooms false none
  | .timeout ms => new σ n [] [] false (some ms)
  | .compress _ => new σ n [] [] false none
  | .volatile => new σ n [] [] true none

/-- `ServerSocket.newBroadcastOperator`, with the flags `consumeFlags` returns. -/
def ofSocket (σ : Core) (s : SocketId) (x : SocketCall) : BroadcastOperator :=
  let S := σ.conn.sockets s
  let flags := σ.mail.serverFlags s
  match x with
  | .broadcast => new σ S.nsp [] [S.id] flags.isVolatile flags.timeout
  | .to rooms => new σ S.nsp rooms [S.id] flags.isVolatile flags.timeout
  | .except rooms => new σ S.nsp [] (rooms ++ [S.id]) flags.isVolatile flags.timeout

/-- A further call. -/
def call (op : BroadcastOperator) : ChainCall → BroadcastOperator
  | .to rooms => op.toRooms rooms
  | .except rooms => op.except rooms
  | .timeout ms => op.timeout ms
  | .compress b => op.compress b
  | .volatile => op.volatile

end BroadcastOperator

/-! ## 2. The application's operators -/

/-- Where a chain starts. -/
inductive Origin where
  | nsp (n : NspId)
  | socket (s : SocketId)

def Origin.nspIn (κ : Conn) : Origin → NspId
  | .nsp n => n
  | .socket s => (κ.sockets s).nsp

/-- An operator the application holds, with the chain that led to it: where it starts, its calls,
    and whether the socket's `volatile` flag was set when it started. -/
structure HeldOperator where
  op : BroadcastOperator
  origin : Origin
  calls : List ChainCall
  flagged : Bool := false

/-- A server, and the operators its application holds. -/
structure Holding where
  state : State := newServer
  held : List HeldOperator := []

def Holding.hold (H : Holding) (e : HeldOperator) : Holding := { H with held := H.held ++ [e] }

/-- **One step**: the runtime takes one, with built-in adapters; or the application starts a chain
    or extends one. The first call on a server socket consumes the socket's flags, as the
    instruction `serverFlags` does. -/
inductive Holding.Step (P : Platform) : Holding → Holding → Prop where
  | run {H : Holding} {a : Action Instr} {σ : State}
      (hc : (runtime P).Obeys (fun _ i => suppliesBuiltin i = true) H.state a)
      (hs : (runtime P).step H.state a = some σ) : Step P H { H with state := σ }
  | ofNamespace {H : Holding} (n : NspId) (x : ChainCall) (hn : n < H.state.core.srv.nspCount) :
      Step P H (H.hold { op := .ofNamespace H.state.core n x, origin := .nsp n, calls := [x] })
  | ofSocket {H : Holding} (s : SocketId) (x : SocketCall)
      (happ : (runtime P).inApp H.state = true) (hs : s < H.state.core.conn.socketCount) :
      Step P H (Holding.hold
        { H with state := (runtime P).execute (.mail (.serverFlags s {})) H.state }
        { op := .ofSocket H.state.core s x, origin := .socket s, calls := x.calls
          flagged := (H.state.core.mail.serverFlags s).isVolatile })
  | extend {H : Holding} {k : Nat} {e : HeldOperator} (x : ChainCall) (hk : H.held[k]? = some e) :
      Step P H (H.hold { e with op := e.op.call x, calls := e.calls ++ [x] })

abbrev Holding.Run (P : Platform) : Holding → Holding → Prop :=
  Relation.ReflTransGen (Holding.Step P)

/-- The runs of the runtime that `routing_agrees` is about. -/
abbrev BuiltinOnly (P : Platform) : State → Action Instr → Prop :=
  (runtime P).Obeys fun _ i => suppliesBuiltin i = true

/-- The call and its execution are two steps of the runtime. -/
theorem reach_consumeFlags {σ : State} {s : SocketId} (happ : (runtime P).inApp σ = true)
    (hs : s < σ.core.conn.socketCount) : (runtime P).Reach (BuiltinOnly P) σ
      ((runtime P).execute (.mail (.serverFlags s {})) σ) := by
  have hcall : (runtime P).step σ (.call (.mail (.serverFlags s {}))) =
      some { σ with stack := .mail (.serverFlags s {}) :: σ.stack } := by
    have hc : (runtime P).callable σ.core (.mail (.serverFlags s {})) = true := decide_eq_true hs
    simp only [Machine.step, happ, hc, Bool.and_self, if_true]
  refine .step (a := .run) (.step .start ?_ hcall) ?_ rfl
  · intro h
    cases h
  · intro _ i τ hn
    obtain ⟨rfl, -⟩ := Prod.mk.inj (Option.some.inj hn)
    rfl

theorem Holding.Step.reach {H H' : Holding} (h : H.Step P H') :
    (runtime P).Reach (BuiltinOnly P) H.state H'.state := by
  cases h with
  | run hc hs => exact .step .start hc hs
  | ofNamespace | extend => exact .start
  | ofSocket s x happ hs => exact reach_consumeFlags happ hs

theorem Holding.Run.reach {H H' : Holding} (h : H.Run P H') :
    (runtime P).Reach (BuiltinOnly P) H.state H'.state := by
  induction h with
  | refl => exact .start
  | tail _ hs ih => exact ih.trans hs.reach

/-- Runs of the runtime alone are runs. -/
theorem Holding.Run.of_reach {σ τ : State} (h : (runtime P).Reach (BuiltinOnly P) σ τ)
    (held : List HeldOperator) : Holding.Run P ⟨σ, held⟩ ⟨τ, held⟩ := by
  induction h with
  | start => exact .refl
  | step _ hc hs ih => exact ih.tail (.run hc hs)

/-! ## 3. What stays true of an operator -/

/-- The operator has what its chain asked for; a chain from a server socket has the adapter that is
    in place. -/
structure HeldOperator.Kept (σ : Core) (e : HeldOperator) : Prop where
  known : e.op.nsp < σ.srv.nspCount
  nsp : e.op.nsp = e.origin.nspIn σ.conn
  sender : ∀ s, e.origin = .socket s →
    s < σ.conn.socketCount ∧ σ.srv.admissionStarted = true ∧ e.op.Current σ
  targets : ∀ room, room ∈ e.op.targetRooms ↔ Targets e.calls room
  excepts : ∀ room, room ∈ e.op.exceptRooms ↔
    Excepts e.calls room ∨ ∃ s, e.origin = .socket s ∧ room = (σ.conn.sockets s).id
  isVolatile : e.op.isVolatile = true ↔ e.flagged = true ∨ .volatile ∈ e.calls

/-- Whatever happens to the server meanwhile. -/
theorem HeldOperator.Kept.later {σ τ : Core} {e : HeldOperator} (h : e.Kept σ)
    (hx : σ.conn.Extends τ.conn) (hi : σ.srv.Installs τ.srv) : e.Kept τ := by
  have hsocket : ∀ s, e.origin = .socket s → τ.conn.sockets s = σ.conn.sockets s := fun s hs =>
    hx.socketOf s (h.sender s hs).1
  refine ⟨h.known.trans_le hi.count, ?_, fun s hs => ?_, h.targets, fun room => ?_, h.isVolatile⟩
  · rw [h.nsp]
    cases ho : e.origin with
    | nsp n => rfl
    | socket s => rw [Origin.nspIn, Origin.nspIn, hsocket s ho]
  · obtain ⟨hlt, hstarted, hcur⟩ := h.sender s hs
    exact ⟨hlt.trans_le hx.sockets, hi.started hstarted,
      hcur.trans (hi.settled hstarted _ h.known).symm⟩
  · rw [h.excepts room]
    refine or_congr_right (exists_congr fun s => and_congr_right fun hs => ?_)
    rw [hsocket s hs]

theorem Targets.append {l l' : List ChainCall} {room : String} :
    Targets (l ++ l') room ↔ Targets l room ∨ Targets l' room := by
  simp [Targets, or_and_right, exists_or]

theorem Excepts.append {l l' : List ChainCall} {room : String} :
    Excepts (l ++ l') room ↔ Excepts l room ∨ Excepts l' room := by
  simp [Excepts, or_and_right, exists_or]

theorem HeldOperator.Kept.extend {σ : Core} {e : HeldOperator} (h : e.Kept σ) (x : ChainCall) :
    ({ e with op := e.op.call x, calls := e.calls ++ [x] } : HeldOperator).Kept σ := by
  have hnsp : (e.op.call x).nsp = e.op.nsp := by cases x <;> rfl
  have hadapter : (e.op.call x).adapter = e.op.adapter := by cases x <;> rfl
  refine ⟨hnsp ▸ h.known, hnsp.trans h.nsp, fun s hs => ?_, fun room => ?_, fun room => ?_, ?_⟩
  · obtain ⟨hlt, hstarted, hcur⟩ := h.sender s hs
    refine ⟨hlt, hstarted, ?_⟩
    unfold BroadcastOperator.Current at hcur ⊢
    dsimp only
    rw [hnsp, hadapter, hcur]
  · rw [Targets.append, ← h.targets]
    cases x <;> simp [BroadcastOperator.call, BroadcastOperator.toRooms, BroadcastOperator.except,
      BroadcastOperator.timeout, BroadcastOperator.compress, BroadcastOperator.volatile,
      OSet.mem_ofList, ← OSet.mem_def, Targets]
  · dsimp only
    rw [Excepts.append, or_right_comm, ← h.excepts]
    cases x <;> simp [BroadcastOperator.call, BroadcastOperator.toRooms, BroadcastOperator.except,
      BroadcastOperator.timeout, BroadcastOperator.compress, BroadcastOperator.volatile,
      OSet.mem_ofList, ← OSet.mem_def, Excepts]
  · have hv := h.isVolatile
    cases x <;> simp [BroadcastOperator.call, BroadcastOperator.toRooms, BroadcastOperator.except,
      BroadcastOperator.timeout, BroadcastOperator.compress, BroadcastOperator.volatile, hv]

theorem kept_ofNamespace {σ : Core} {n : NspId} (hn : n < σ.srv.nspCount) (x : ChainCall) :
    ({ op := .ofNamespace σ n x, origin := .nsp n, calls := [x] } : HeldOperator).Kept σ := by
  have hnsp : (BroadcastOperator.ofNamespace σ n x).nsp = n := by cases x <;> rfl
  refine ⟨hnsp.symm ▸ hn, hnsp, fun s hs => ?_, fun room => ?_, fun room => ?_, ?_⟩
  · cases hs
  · cases x <;> simp [BroadcastOperator.ofNamespace, BroadcastOperator.new, Targets]
  · cases x <;> simp [BroadcastOperator.ofNamespace, BroadcastOperator.new, Excepts]
  · cases x <;> simp [BroadcastOperator.ofNamespace, BroadcastOperator.new]

theorem kept_ofSocket {σ : Core} {s : SocketId} (hs : s < σ.conn.socketCount)
    (hstarted : σ.srv.admissionStarted = true) (hn : (σ.conn.sockets s).nsp < σ.srv.nspCount)
    (x : SocketCall) :
    ({ op := .ofSocket σ s x, origin := .socket s, calls := x.calls
       flagged := (σ.mail.serverFlags s).isVolatile } : HeldOperator).Kept σ := by
  have hnsp : (BroadcastOperator.ofSocket σ s x).nsp = (σ.conn.sockets s).nsp := by cases x <;> rfl
  have hcur : (BroadcastOperator.ofSocket σ s x).Current σ := by cases x <;> rfl
  refine ⟨hnsp.symm ▸ hn, hnsp, fun t ht => ?_, fun room => ?_, fun room => ?_, ?_⟩
  · cases ht
    exact ⟨hs, hstarted, hcur⟩
  · cases x <;> simp [BroadcastOperator.ofSocket, BroadcastOperator.new, SocketCall.calls, Targets]
  · cases x <;> simp [BroadcastOperator.ofSocket, BroadcastOperator.new, SocketCall.calls, Excepts]
  · cases x <;> simp [BroadcastOperator.ofSocket, BroadcastOperator.new, SocketCall.calls]

/-- **What holds of an operator when it is built holds as long as it is held.** -/
theorem held_kept {H : Holding} (h : Holding.Run P {} H) : ∀ e ∈ H.held, e.Kept H.state.core := by
  induction h with
  | refl => exact fun e he => absurd he List.not_mem_nil
  | @tail H H' hr hs ih =>
      have hreach := Holding.Run.reach hr
      have hlater : ∀ e ∈ H.held, e.Kept H'.state.core := fun e he =>
        (ih e he).later (reach_later hreach hs.reach).1 (reach_installs hs.reach)
      cases hs with
      | run hc hs => exact hlater
      | ofNamespace n x hn =>
          intro e he
          rcases List.mem_append.mp he with he | he
          · exact hlater e he
          · exact List.mem_singleton.mp he ▸ kept_ofNamespace hn x
      | ofSocket s x happ hlt =>
          intro e he
          rcases List.mem_append.mp he with he | he
          · exact hlater e he
          · have hw := (reach_wf hreach).1
            have hstep := reach_consumeFlags (P := P) happ hlt
            rw [List.mem_singleton.mp he]
            exact (kept_ofSocket hlt (reach_started hreach
              ((Nat.zero_le _).trans_lt (hw.conn.peer_lt hlt)))
              ((reach_homed hreach).1.conn.socket s) x).later (reach_later hreach hstep).1
              (reach_installs hstep)
      | @extend k e x hk =>
          intro e' he
          rcases List.mem_append.mp he with he | he
          · exact hlater e' he
          · rw [List.mem_singleton.mp he]
            exact (hlater e (List.mem_of_getElem? hk)).extend x

/-- Operators are never changed. -/
theorem Holding.Run.stays {H H' : Holding} (h : H.Run P H') {k : Nat} {e : HeldOperator}
    (hk : H.held[k]? = some e) : H'.held[k]? = some e := by
  induction h with
  | refl => exact hk
  | @tail H₁ H₂ _ hs ih =>
      have hlt := (List.getElem?_eq_some_iff.mp ih).1
      cases hs with
      | run => exact ih
      | ofNamespace | ofSocket | extend => exact (List.getElem?_append_left hlt).trans ih

/-! ## 4. The two routes -/

/-- **What the two routes of a held operator select**, each no socket twice. -/
structure HeldOperator.Routes (σ : Core) (e : HeldOperator) : Prop where
  /-- management: the roster sockets in some target room of the chain and in none of its except
      rooms, which for a chain from a server socket include the room of its id -/
  management : (e.op.managementSockets σ).Nodup ∧ ∀ s, s ∈ e.op.managementSockets σ ↔
    σ.Selected (e.origin.nspIn σ.conn) (Targets e.calls) (fun room => Excepts e.calls room ∨
      ∃ t, e.origin = .socket t ∧ room = (σ.conn.sockets t).id) s
  /-- delivery: the same, narrowed where the chain is volatile -/
  recipients : e.op.Current σ → (e.op.recipients σ).1.Nodup ∧ ∀ s, s ∈ (e.op.recipients σ).1 ↔
    s ∈ e.op.managementSockets σ ∧
      ((e.flagged = true ∨ .volatile ∈ e.calls) → σ.isClientReady s = true)
  /-- delivery through an adapter that has been replaced -/
  retired : ¬ e.op.Current σ → (e.op.recipients σ).1.Nodup ∧ ∀ s, s ∈ (e.op.recipients σ).1 ↔
    s ∈ (σ.memb.rosters (e.origin.nspIn σ.conn)).values ∧ (∀ room, ¬ Targets e.calls room) ∧
      ((e.flagged = true ∨ .volatile ∈ e.calls) → σ.isClientReady s = true)
  /-- the sender of a broadcast is selected only where it has left its own id; its adapter is never
      replaced -/
  sender : ∀ s, e.origin = .socket s → e.op.Current σ ∧ (s ∈ e.op.managementSockets σ ↔
    σ.Selected (σ.conn.sockets s).nsp (Targets e.calls) (Excepts e.calls) s ∧
      (σ.conn.sockets s).id ∉ (σ.memb.sockets s).rooms)

/-- The specification depends on the sets of rooms only. -/
theorem Core.Selected.congr {σ : Core} {n : NspId} {T T' E E' : String → Prop} {s : SocketId}
    (hT : ∀ room, T room ↔ T' room) (hE : ∀ room, E room ↔ E' room) :
    σ.Selected n T E s ↔ σ.Selected n T' E' s := by
  simp only [Core.Selected, hT, hE]

theorem HeldOperator.Kept.routes {σ : Core} {e : HeldOperator} (h : e.Kept σ) (hw : σ.Wf P)
    (hm : MembInv σ.conn σ.memb) (hb : σ.srv.Builtin) (hno : ∀ s, ¬ σ.memb.Owes s) :
    e.Routes σ := by
  have hman := e.op.mem_managementSockets hw
  have hsel : ∀ s, e.op.Selects σ s ↔ σ.Selected (e.origin.nspIn σ.conn) (Targets e.calls)
      (fun room => Excepts e.calls room ∨
        ∃ t, e.origin = .socket t ∧ room = (σ.conn.sockets t).id) s := fun s => by
    unfold BroadcastOperator.Selects
    rw [h.nsp]
    exact Core.Selected.congr h.targets h.excepts
  refine ⟨⟨hman.1, fun s => (hman.2 s).trans (hsel s)⟩, fun hcur => ?_, fun hcur => ?_,
    fun s hs => ⟨(h.sender s hs).2.2, ?_⟩⟩
  · obtain ⟨hnodup, hmem⟩ := e.op.mem_recipients hw hm hno hcur (hb.namespaces _).layers
    exact ⟨hnodup, fun s => by rw [hmem, hman.2, h.isVolatile]⟩
  · have hempty : e.op.adapterIn σ = ({}, []) := by
      rw [BroadcastOperator.adapterIn_retired hcur, (hb.namespaces _).retired]
    obtain ⟨hnodup, hmem⟩ := BroadcastOperator.mem_recipients_retired hw hempty
    refine ⟨hnodup, fun s => ?_⟩
    rw [hmem, h.isVolatile, ← h.nsp]
    simp only [h.targets]
  · rw [hman.2, hsel]
    simp only [hs, Origin.nspIn, Origin.socket.injEq, exists_eq_left', Core.Selected]
    constructor
    · rintro ⟨h1, h2, h3⟩
      exact ⟨⟨h1, h2, fun room hr => h3 room (Or.inl hr)⟩, h3 _ (Or.inr rfl)⟩
    · rintro ⟨⟨h1, h2, h3⟩, h4⟩
      refine ⟨h1, h2, fun room hr => ?_⟩
      rcases hr with hr | rfl
      · exact h3 room hr
      · exact h4

end Smocket
