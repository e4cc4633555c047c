import Mathlib.Data.Int.CharZero
import Smocket.State

/-
  File:      Smocket/SharedWorker/Protocol.lean
  Subject:   THE MESSAGES OF THE SHARED-WORKER BRIDGE (`shared-worker-protocol.ts`): how they are
             written as values, and the readers both ends put before every message they act on.

  A reader takes any value. What it accepts is exactly what a writer makes of a message whose
  fields are in order (`Message.WellFormed`).

  * `readSharedWorkerBridgeMessage_wellFormed` -- whatever is accepted is in order;
  * `readSharedWorkerBridgeMessage_toValue` -- the round trip;
  * `readSharedWorkerHostMessage_accepts`, `readSharedWorkerPageMessage_accepts` -- each end reads
    exactly what is in order and comes from the other.
-/

namespace Smocket.SharedWorker

/-! ## 1. Values -/

/-- A JavaScript value, as far as the readers look at it. -/
inductive JsValue where
  | undefined
  | null
  | boolean (b : Bool)
  | integer (n : Int)
  /-- any other number, by its text -/
  | number (text : String)
  | string (s : String)
  | bigint (n : Int)
  | array (items : List JsValue)
  | object (fields : List (String × JsValue))
  /-- an ArrayBuffer, a view of one, or a Blob -/
  | binary
  /-- any other object, its fields aside, and whether `JSON.stringify` takes it -/
  | exotic (encodable : Bool)

mutual

/-- `String(value)`. -/
def JsValue.text : JsValue → String
  | .undefined => "undefined"
  | .null => "null"
  | .boolean b => toString b
  | .integer n | .bigint n => toString n
  | .number text => text
  | .string s => s
  | .array items => String.intercalate "," (JsValue.texts items)
  | .object _ | .binary | .exotic _ => "[object Object]"

/-- The texts `Array.prototype.join` puts together. -/
def JsValue.texts : List JsValue → List String
  | [] => []
  | .undefined :: rest | .null :: rest => "" :: JsValue.texts rest
  | v :: rest => v.text :: JsValue.texts rest

end

mutual

/-- `containsBinary`. -/
def JsValue.containsBinary : JsValue → Bool
  | .binary => true
  | .array items => JsValue.anyBinary items
  | .object fields => JsValue.fieldsBinary fields
  | _ => false

def JsValue.anyBinary : List JsValue → Bool
  | [] => false
  | v :: rest => v.containsBinary || JsValue.anyBinary rest

def JsValue.fieldsBinary : List (String × JsValue) → Bool
  | [] => false
  | (_, v) :: rest => v.containsBinary || JsValue.fieldsBinary rest

end

mutual

/-- Whether `JSON.stringify` returns: a BigInt or a cycle makes it throw. -/
def JsValue.stringifies : JsValue → Bool
  | .bigint _ => false
  | .array items => JsValue.allStringify items
  | .object fields => JsValue.fieldsStringify fields
  | .exotic encodable => encodable
  | _ => true

def JsValue.allStringify : List JsValue → Bool
  | [] => true
  | v :: rest => v.stringifies && JsValue.allStringify rest

def JsValue.fieldsStringify : List (String × JsValue) → Bool
  | [] => true
  | (_, v) :: rest => v.stringifies && JsValue.fieldsStringify rest

end

/-- Whether `encodePayload` returns. -/
def encodes (args : List JsValue) : Bool := JsValue.anyBinary args || JsValue.allStringify args

/-- `isRecord`. -/
def JsValue.isRecord : JsValue → Bool
  | .object _ | .binary | .exotic _ => true
  | _ => false

/-- `value[key]`, for a key no prototype has. -/
def JsValue.get (v : JsValue) (key : String) : JsValue :=
  match v with
  | .object fields => (fields.lookup key).getD .undefined
  | _ => .undefined

/-! ## 2. Messages -/

/-- Which end an acknowledgement settles an event of. -/
inductive Direction where
  | client | server
  deriving DecidableEq

def Direction.text : Direction → String
  | client => "client"
  | server => "server"

/-- `SharedWorkerBridgeMessage`. -/
inductive Message where
  | connect (requestId url : String) (auth : JsValue)
  | connected (requestId : String) (generation : Nat) (id : String)
  | connectError (requestId : String) (generation : Nat) (error : String)
  | clientEvent (generation : Nat) (event : String) (args : List JsValue) (ackId : Option String)
  | serverEvent (generation : Nat) (event : String) (args : List JsValue) (ackId : Option String)
  | acknowledgement (generation : Nat) (direction : Direction) (ackId : String)
      (args : List JsValue)
  | disconnect (requestId : String) (generation : Nat) (reason : String)
  | disconnected (requestId : String) (generation : Nat) (reason : String)
  | bridgeError (error : String) (requestId : Option String) (generation : Option Nat)

/-- `SHARED_WORKER_PROTOCOL_VERSION`. -/
def SHARED_WORKER_PROTOCOL_VERSION : Int := 1

/-- `SHARED_WORKER_MESSAGE_TYPES`. -/
def Message.type : Message → String
  | connect .. => "CONNECT"
  | connected .. => "CONNECTED"
  | connectError .. => "CONNECT_ERROR"
  | clientEvent .. => "CLIENT_EVENT"
  | serverEvent .. => "SERVER_EVENT"
  | acknowledgement .. => "ACK"
  | disconnect .. => "DISCONNECT"
  | disconnected .. => "DISCONNECTED"
  | bridgeError .. => "BRIDGE_ERROR"

/-- `PAGE_MESSAGE_TYPES`, with the direction the page may acknowledge in. -/
def Message.fromPage : Message → Bool
  | connect .. | clientEvent .. | acknowledgement _ .server _ _ | disconnect .. => true
  | _ => false

/-- `HOST_MESSAGE_TYPES`, with the direction the host may acknowledge in. -/
def Message.fromHost : Message → Bool
  | connected .. | connectError .. | serverEvent .. | acknowledgement _ .client _ _
  | disconnected .. | bridgeError .. => true
  | _ => false

/-- An optional field of an object literal. -/
def optionalField (key : String) (v : Option JsValue) : List (String × JsValue) :=
  v.toList.map fun v => (key, v)

/-- The fields of the object literals both ends write, after `version` and `type`. -/
def Message.fields : Message → List (String × JsValue)
  | connect requestId url auth =>
      [("requestId", .string requestId), ("url", .string url), ("auth", auth)]
  | connected requestId generation id =>
      [("requestId", .string requestId), ("generation", .integer generation), ("id", .string id)]
  | connectError requestId generation error =>
      [("requestId", .string requestId), ("generation", .integer generation),
        ("error", .string error)]
  | clientEvent generation event args ackId | serverEvent generation event args ackId =>
      [("generation", .integer generation), ("event", .string event), ("args", .array args)] ++
        optionalField "ackId" (ackId.map .string)
  | acknowledgement generation direction ackId args =>
      [("generation", .integer generation), ("direction", .string direction.text),
        ("ackId", .string ackId), ("args", .array args)]
  | disconnect requestId generation reason | disconnected requestId generation reason =>
      [("requestId", .string requestId), ("generation", .integer generation),
        ("reason", .string reason)]
  | bridgeError error requestId generation =>
      [("error", .string error)] ++ optionalField "requestId" (requestId.map .string) ++
        optionalField "generation" (generation.map fun g => .integer g)

/-- The object literal of a message. -/
def Message.toValue (m : Message) : JsValue :=
  .object ([("version", .integer SHARED_WORKER_PROTOCOL_VERSION), ("type", .string m.type)] ++
    m.fields)

/-! ## 3. Readers -/

/-- `requireNonEmptyString`. -/
def requireNonEmptyString (message : JsValue) (key : String) : Except String String :=
  let error := .error ((message.get "type").text ++ "." ++ key ++ " must be a non-empty string")
  match message.get key with
  | .string s => if s = "" then error else .ok s
  | _ => error

/-- `Number.isSafeInteger(value) && value >= 1`. -/
def isGeneration (n : Int) : Bool := decide (1 ≤ n) && decide (n ≤ 2 ^ 53 - 1)

/-- `requireGeneration`. -/
def requireGeneration (message : JsValue) : Except String Nat :=
  let error := .error ((message.get "type").text ++ ".generation must be a positive integer")
  match message.get "generation" with
  | .integer n => if isGeneration n then .ok n.toNat else error
  | _ => error

/-- `requireArgs`. The text of an encoding error is the one of `JSON.stringify`. -/
def requireArgs (message : JsValue) : Except String (List JsValue) :=
  match message.get "args" with
  | .array args => if encodes args then .ok args else .error "Converting value to JSON failed"
  | _ => .error ((message.get "type").text ++ ".args must be an array")

/-- `assertNotReservedEvent`, and the name the bridge reserves on top. -/
def requireEvent (message : JsValue) : Except String String := do
  let event ← requireNonEmptyString message "event"
  if event ∈ RESERVED_EVENTS ∨ event = "bridge_error" then
    .error ("\"" ++ event ++ "\" is a reserved event name")
  else .ok event

/-- A field that may be missing. -/
def optional {α : Type} (message : JsValue) (key : String) (read : Except String α) :
    Except String (Option α) :=
  match message.get key with
  | .undefined => .ok none
  | _ => read.map some

/-- The direction of an acknowledgement. -/
def requireDirection (message : JsValue) : Except String Direction :=
  match message.get "direction" with
  | .string s =>
      if s = "client" then .ok .client
      else if s = "server" then .ok .server
      else .error "ACK.direction must be client or server"
  | _ => .error "ACK.direction must be client or server"

/-- `CONNECT.auth`. -/
def requireAuth (message : JsValue) : Except String JsValue :=
  if (message.get "auth").isRecord then .ok (message.get "auth")
  else .error "CONNECT.auth must be an object"

/-- The `switch` of `readSharedWorkerBridgeMessage`. -/
def readFields (value : JsValue) (type : String) : Except String Message :=
  match type with
  | "CONNECT" => do
      let requestId ← requireNonEmptyString value "requestId"
      let url ← requireNonEmptyString value "url"
      let auth ← requireAuth value
      return .connect requestId url auth
  | "CONNECTED" => do
      let requestId ← requireNonEmptyString value "requestId"
      let generation ← requireGeneration value
      let id ← requireNonEmptyString value "id"
      return .connected requestId generation id
  | "CONNECT_ERROR" => do
      let requestId ← requireNonEmptyString value "requestId"
      let generation ← requireGeneration value
      let error ← requireNonEmptyString value "error"
      return .connectError requestId generation error
  | "CLIENT_EVENT" => do
      let generation ← requireGeneration value
      let event ← requireEvent value
      let args ← requireArgs value
      let ackId ← optional value "ackId" (requireNonEmptyString value "ackId")
      return .clientEvent generation event args ackId
  | "SERVER_EVENT" => do
      let generation ← requireGeneration value
      let event ← requireEvent value
      let args ← requireArgs value
      let ackId ← optional value "ackId" (requireNonEmptyString value "ackId")
      return .serverEvent generation event args ackId
  | "ACK" => do
      let generation ← requireGeneration value
      let ackId ← requireNonEmptyString value "ackId"
      let args ← requireArgs value
      let direction ← requireDirection value
      return .acknowledgement generation direction ackId args
  | "DISCONNECT" => do
      let requestId ← requireNonEmptyString value "requestId"
      let generation ← requireGeneration value
      let reason ← requireNonEmptyString value "reason"
      return .disconnect requestId generation reason
  | "DISCONNECTED" => do
      let requestId ← requireNonEmptyString value "requestId"
      let generation ← requireGeneration value
      let reason ← requireNonEmptyString value "reason"
      return .disconnected requestId generation reason
  | "BRIDGE_ERROR" => do
      let error ← requireNonEmptyString value "error"
      let requestId ← optional value "requestId" (requireNonEmptyString value "requestId")
      let generation ← optional value "generation" (requireGeneration value)
      return .bridgeError error requestId generation
  | type => .error ("unknown shared-worker bridge message: " ++ type)

/-- `value.version !== SHARED_WORKER_PROTOCOL_VERSION`. -/
def JsValue.isVersion : JsValue → Bool
  | .integer n => decide (n = SHARED_WORKER_PROTOCOL_VERSION)
  | _ => false

/-- `readSharedWorkerBridgeMessage`. -/
def readSharedWorkerBridgeMessage (value : JsValue) : Except String Message := do
  if !value.isRecord then .error "shared-worker bridge message must be an object"
  else if !(value.get "version").isVersion then
    .error ("unsupported shared-worker protocol version: " ++ (value.get "version").text)
  else
    let type ← requireNonEmptyString value "type"
    readFields value type

/-- `readSharedWorkerPageMessage`. -/
def readSharedWorkerPageMessage (value : JsValue) : Except String Message := do
  let message ← readSharedWorkerBridgeMessage value
  match message with
  | .connect .. | .clientEvent .. | .acknowledgement _ .server _ _ | .disconnect .. =>
    return message
  | .acknowledgement .. => .error "the page may only acknowledge server events"
  | _ => .error ("unexpected " ++ message.type ++ " from shared-worker page")

/-- `readSharedWorkerHostMessage`. -/
def readSharedWorkerHostMessage (value : JsValue) : Except String Message := do
  let message ← readSharedWorkerBridgeMessage value
  match message with
  | .connected .. | .connectError .. | .serverEvent .. | .acknowledgement _ .client _ _
  | .disconnected .. | .bridgeError .. => return message
  | .acknowledgement .. => .error "the host may only acknowledge client events"
  | _ => .error ("unexpected " ++ message.type ++ " from shared-worker host")

/-! ## 4. What a reader accepts -/

/-- The fields of a message are in order. -/
def Message.WellFormed : Message → Prop
  | connect requestId url auth => requestId ≠ "" ∧ url ≠ "" ∧ auth.isRecord = true
  | connected requestId generation id =>
      requestId ≠ "" ∧ isGeneration generation = true ∧ id ≠ ""
  | connectError requestId generation error =>
      requestId ≠ "" ∧ isGeneration generation = true ∧ error ≠ ""
  | clientEvent generation event args ackId | serverEvent generation event args ackId =>
      isGeneration generation = true ∧ (event ≠ "" ∧ event ∉ RESERVED_EVENTS ∧
        event ≠ "bridge_error") ∧ encodes args = true ∧ ackId ≠ some ""
  | acknowledgement generation _ ackId args =>
      isGeneration generation = true ∧ ackId ≠ "" ∧ encodes args = true
  | disconnect requestId generation reason | disconnected requestId generation reason =>
      requestId ≠ "" ∧ isGeneration generation = true ∧ reason ≠ ""
  | bridgeError error requestId generation =>
      error ≠ "" ∧ requestId ≠ some "" ∧ ∀ n : Nat, generation = some n → isGeneration n = true

theorem bind_ok {α β : Type} {x : Except String α} {f : α → Except String β} {b : β} :
    (x >>= f) = .ok b ↔ ∃ a, x = .ok a ∧ f a = .ok b := by
  cases x with
  | error e => exact ⟨nofun, nofun⟩
  | ok a => exact ⟨fun h => ⟨a, rfl, h⟩, fun ⟨_, ha, h⟩ => Except.ok.inj ha ▸ h⟩

theorem pure_ok {α : Type} {a b : α} : (pure a : Except String α) = .ok b ↔ a = b :=
  Except.ok.injEq a b ▸ Iff.rfl

theorem requireNonEmptyString_ok {v : JsValue} {key s : String} :
    requireNonEmptyString v key = .ok s ↔ v.get key = .string s ∧ s ≠ "" := by
  unfold requireNonEmptyString
  cases v.get key <;> simp
  rename_i t
  by_cases h : t = ""
  · simp [h]
  · simp [h]
    rintro rfl
    exact h

theorem requireGeneration_ok {v : JsValue} {g : Nat} :
    requireGeneration v = .ok g ↔ v.get "generation" = .integer g ∧ isGeneration g = true := by
  unfold requireGeneration
  cases v.get "generation" <;> simp
  rename_i n
  by_cases h : isGeneration n = true
  · have hn : (n.toNat : Int) = n := Int.toNat_of_nonneg (by
      simp only [isGeneration, Bool.and_eq_true, decide_eq_true_eq] at h
      omega)
    simp only [h, if_true, Except.ok.injEq]
    constructor
    · rintro rfl
      exact ⟨hn.symm, hn.symm ▸ h⟩
    · rintro ⟨rfl, -⟩
      rfl
  · simp only [h, if_neg, not_false_eq_true, reduceCtorEq, false_iff, Bool.false_eq_true]
    rintro ⟨rfl, hg⟩
    exact h hg

theorem requireArgs_ok {v : JsValue} {args : List JsValue} :
    requireArgs v = .ok args ↔ v.get "args" = .array args ∧ encodes args = true := by
  unfold requireArgs
  cases v.get "args" <;> simp
  rename_i l
  by_cases h : encodes l = true
  · simp [h]
    rintro rfl
    exact h
  · simp [h]
    rintro rfl
    simpa using h

theorem requireEvent_ok {v : JsValue} {event : String} :
    requireEvent v = .ok event ↔ v.get "event" = .string event ∧ event ≠ "" ∧
      event ∉ RESERVED_EVENTS ∧ event ≠ "bridge_error" := by
  unfold requireEvent
  simp only [bind_ok, requireNonEmptyString_ok]
  constructor
  · rintro ⟨e, ⟨he, hne⟩, h⟩
    split at h
    · cases h
    · rename_i hr
      cases h
      exact ⟨he, hne, not_or.mp hr⟩
  · rintro ⟨he, hne, hr⟩
    exact ⟨event, ⟨he, hne⟩, by rw [if_neg (not_or.mpr hr)]⟩

theorem optional_ok {α : Type} {v : JsValue} {key : String} {read : Except String α}
    {o : Option α} (h : optional v key read = .ok o) :
    (o = none ∧ v.get key = .undefined) ∨ ∃ a, o = some a ∧ read = .ok a := by
  unfold optional at h
  split at h
  · rename_i hu
    exact Or.inl ⟨(Except.ok.inj h).symm, hu⟩
  · cases read with
    | error e => cases h
    | ok a => exact Or.inr ⟨a, (Except.ok.inj h).symm, rfl⟩

/-- **What is accepted is well-formed.** -/
theorem readSharedWorkerBridgeMessage_wellFormed {v : JsValue} {m : Message}
    (h : readSharedWorkerBridgeMessage v = .ok m) : m.WellFormed := by
  unfold readSharedWorkerBridgeMessage at h
  split at h
  · cases h
  · split at h
    · cases h
    · obtain ⟨type, -, h⟩ := bind_ok.mp h
      unfold readFields at h
      split at h
      case h_10 => cases h
      all_goals
        simp only [bind_ok, pure_ok, requireNonEmptyString_ok, requireGeneration_ok, requireArgs_ok,
          requireEvent_ok] at h
      case h_1 =>
        obtain ⟨_, ⟨-, hr⟩, _, ⟨-, hu⟩, _, ha, rfl⟩ := h
        unfold requireAuth at ha
        split at ha
        · rename_i hrec
          exact ⟨hr, hu, Except.ok.inj ha ▸ hrec⟩
        · cases ha
      case h_4 | h_5 =>
        obtain ⟨_, ⟨-, hg⟩, _, ⟨-, he⟩, _, ⟨-, hargs⟩, k, hk, rfl⟩ := h
        refine ⟨hg, he, hargs, ?_⟩
        rcases optional_ok hk with ⟨rfl, -⟩ | ⟨k, rfl, hk'⟩
        · nofun
        · exact fun e => (requireNonEmptyString_ok.mp hk').2 (Option.some.inj e)
      case h_6 =>
        obtain ⟨_, ⟨-, hg⟩, _, ⟨-, hk⟩, _, ⟨-, hargs⟩, _, -, rfl⟩ := h
        exact ⟨hg, hk, hargs⟩
      case h_9 =>
        obtain ⟨_, ⟨-, he⟩, r, hr, g, hg, rfl⟩ := h
        refine ⟨he, ?_, ?_⟩
        · rcases optional_ok hr with ⟨rfl, -⟩ | ⟨k, rfl, hk⟩
          · nofun
          · exact fun e => (requireNonEmptyString_ok.mp hk).2 (Option.some.inj e)
        · rintro n rfl
          rcases optional_ok hg with ⟨hn, -⟩ | ⟨k, hk, hread⟩
          · cases hn
          · cases hk
            exact (requireGeneration_ok.mp hread).2
      all_goals
        obtain ⟨_, ⟨-, hr⟩, _, ⟨-, hg⟩, _, ⟨-, hi⟩, rfl⟩ := h
        exact ⟨hr, hg, hi⟩

@[simp] theorem get_toValue (m : Message) (key : String) : m.toValue.get key =
    if key = "version" then .integer SHARED_WORKER_PROTOCOL_VERSION
    else if key = "type" then .string m.type
    else (m.fields.lookup key).getD .undefined := by
  simp only [Message.toValue, JsValue.get, List.cons_append, List.nil_append, List.lookup_cons]
  by_cases hv : key = "version"
  · simp [hv]
  · by_cases ht : key = "type"
    · simp [ht]
    · simp [hv, ht, beq_false_of_ne hv, beq_false_of_ne ht]

theorem writes_string {m : Message} {key s : String} (h : m.toValue.get key = .string s)
    (hs : s ≠ "") : requireNonEmptyString m.toValue key = .ok s :=
  requireNonEmptyString_ok.mpr ⟨h, hs⟩

theorem writes_optional {α : Type} {m : Message} {key : String} {read : Except String α}
    {o : Option α} (hnone : o = none → m.toValue.get key = .undefined)
    (hsome : ∀ a, o = some a → m.toValue.get key ≠ .undefined ∧ read = .ok a) :
    optional m.toValue key read = .ok o := by
  unfold optional
  cases o with
  | none => rw [hnone rfl]
  | some a =>
      obtain ⟨hne, hr⟩ := hsome a rfl
      split
      · contradiction
      · rw [hr]
        rfl

theorem read_toValue (m : Message) :
    readSharedWorkerBridgeMessage m.toValue = readFields m.toValue m.type := by
  have htype : requireNonEmptyString m.toValue "type" = .ok m.type :=
    writes_string (by simp) (by cases m <;> simp [Message.type])
  unfold readSharedWorkerBridgeMessage
  rw [htype]
  simp [JsValue.isVersion, JsValue.isRecord, Message.toValue, JsValue.get]
  rfl

/-- **The round trip**: what a writer makes of a well-formed message is read back as that
    message. -/
theorem readSharedWorkerBridgeMessage_toValue {m : Message} (h : m.WellFormed) :
    readSharedWorkerBridgeMessage m.toValue = .ok m := by
  rw [read_toValue]
  cases m
  case connect requestId url auth =>
    obtain ⟨hr, hu, ha⟩ := h
    refine bind_ok.mpr ⟨_, writes_string (by simp [Message.fields]) hr, ?_⟩
    refine bind_ok.mpr ⟨_, writes_string (by simp [Message.fields, List.lookup_cons]) hu, ?_⟩
    refine bind_ok.mpr ⟨auth, ?_, rfl⟩
    simp [requireAuth, Message.fields, List.lookup_cons, ha]
  case connected requestId generation s | connectError requestId generation s
      | disconnect requestId generation s | disconnected requestId generation s =>
    obtain ⟨hr, hg, hs⟩ := h
    refine bind_ok.mpr ⟨_, writes_string (by simp [Message.fields]) hr, ?_⟩
    refine bind_ok.mpr ⟨_, requireGeneration_ok.mpr ⟨by simp [Message.fields, List.lookup_cons], hg⟩, ?_⟩
    exact bind_ok.mpr ⟨_, writes_string (by simp [Message.fields, List.lookup_cons]) hs, rfl⟩
  case clientEvent generation event args ackId | serverEvent generation event args ackId =>
    obtain ⟨hg, he, ha, hk⟩ := h
    refine bind_ok.mpr ⟨_, requireGeneration_ok.mpr ⟨by simp [Message.fields], hg⟩, ?_⟩
    refine bind_ok.mpr ⟨_, requireEvent_ok.mpr ⟨by simp [Message.fields, List.lookup_cons], he⟩, ?_⟩
    refine bind_ok.mpr ⟨_, requireArgs_ok.mpr ⟨by simp [Message.fields, List.lookup_cons], ha⟩, ?_⟩
    refine bind_ok.mpr ⟨ackId, writes_optional (fun hn => ?_) fun k hs => ⟨?_, ?_⟩, rfl⟩
    · simp [Message.fields, optionalField, hn, List.lookup_cons]
    · simp [Message.fields, optionalField, hs, List.lookup_cons]
    · refine writes_string ?_ fun e => hk (hs.trans (congrArg some e))
      simp [Message.fields, optionalField, hs, List.lookup_cons]
  case acknowledgement generation direction ackId args =>
    obtain ⟨hg, hk, ha⟩ := h
    refine bind_ok.mpr ⟨_, requireGeneration_ok.mpr ⟨by simp [Message.fields], hg⟩, ?_⟩
    refine bind_ok.mpr ⟨_, writes_string (by simp [Message.fields, List.lookup_cons]) hk, ?_⟩
    refine bind_ok.mpr ⟨_, requireArgs_ok.mpr ⟨by simp [Message.fields, List.lookup_cons], ha⟩, ?_⟩
    refine bind_ok.mpr ⟨direction, ?_, rfl⟩
    cases direction <;> simp [requireDirection, Message.fields, Direction.text, List.lookup_cons]
  case bridgeError error requestId generation =>
    obtain ⟨he, hr, hg⟩ := h
    refine bind_ok.mpr ⟨_, writes_string (by simp [Message.fields]) he, ?_⟩
    refine bind_ok.mpr ⟨requestId, writes_optional (fun hn => ?_) fun k hs => ⟨?_, ?_⟩, ?_⟩
    · cases generation <;> simp [Message.fields, optionalField, hn, List.lookup_cons]
    · simp [Message.fields, optionalField, hs, List.lookup_cons]
    · refine writes_string ?_ fun e => hr (hs.trans (congrArg some e))
      simp [Message.fields, optionalField, hs, List.lookup_cons]
    · refine bind_ok.mpr ⟨generation, writes_optional (fun hn => ?_) fun g hs => ⟨?_, ?_⟩, rfl⟩
      · cases requestId <;> simp [Message.fields, optionalField, hn, List.lookup_cons]
      · cases requestId <;> simp [Message.fields, optionalField, hs, List.lookup_cons]
      · refine requireGeneration_ok.mpr ⟨?_, hg g hs⟩
        cases requestId <;> simp [Message.fields, optionalField, hs, List.lookup_cons]

/-- The object literal of a message is read as that message, or not at all. -/
theorem read_toValue_eq {m m' : Message} (h : readSharedWorkerBridgeMessage m.toValue = .ok m') :
    m' = m := by
  rw [read_toValue] at h
  cases m
  case connect requestId url auth =>
    simp only [Message.type, readFields, bind_ok, pure_ok, requireNonEmptyString_ok] at h
    obtain ⟨_, ⟨hr, -⟩, _, ⟨hu, -⟩, a, ha, rfl⟩ := h
    simp [Message.fields, List.lookup_cons] at hr hu
    unfold requireAuth at ha
    split at ha
    · simp [Message.fields, List.lookup_cons] at ha
      rw [hr, hu, ha]
    · cases ha
  case connected requestId generation s | connectError requestId generation s
      | disconnect requestId generation s | disconnected requestId generation s =>
    simp only [Message.type, readFields, bind_ok, pure_ok, requireNonEmptyString_ok,
      requireGeneration_ok] at h
    obtain ⟨_, ⟨hr, -⟩, _, ⟨hg, -⟩, _, ⟨hs, -⟩, rfl⟩ := h
    simp [Message.fields, List.lookup_cons] at hr hg hs
    rw [hr, hg, hs]
  case clientEvent generation event args ackId | serverEvent generation event args ackId =>
    simp only [Message.type, readFields, bind_ok, pure_ok, requireGeneration_ok, requireEvent_ok,
      requireArgs_ok] at h
    obtain ⟨_, ⟨hg, -⟩, _, ⟨he, -⟩, _, ⟨ha, -⟩, k, hk, rfl⟩ := h
    simp [Message.fields, List.lookup_cons] at hg he ha
    have hkk : k = ackId := by
      rcases optional_ok hk with ⟨rfl, hu⟩ | ⟨k, rfl, hk'⟩
      · cases ackId <;> simp [Message.fields, optionalField, List.lookup_cons] at hu ⊢
      · have hk := (requireNonEmptyString_ok.mp hk').1
        cases ackId <;> simp [Message.fields, optionalField, List.lookup_cons] at hk
        rw [hk]
    rw [hg, he, ha, hkk]
  case acknowledgement generation direction ackId args =>
    simp only [Message.type, readFields, bind_ok, pure_ok, requireGeneration_ok,
      requireNonEmptyString_ok, requireArgs_ok] at h
    obtain ⟨_, ⟨hg, -⟩, _, ⟨hk, -⟩, _, ⟨ha, -⟩, d, hd, rfl⟩ := h
    simp [Message.fields, List.lookup_cons] at hg hk ha
    have hdd : d = direction := by
      cases direction <;>
        simp [requireDirection, Message.fields, Direction.text, List.lookup_cons] at hd <;> exact hd.symm
    rw [hg, hk, ha, hdd]
  case bridgeError error requestId generation =>
    simp only [Message.type, readFields, bind_ok, pure_ok, requireNonEmptyString_ok] at h
    obtain ⟨_, ⟨he, -⟩, r, hr, g, hg, rfl⟩ := h
    simp [Message.fields] at he
    have hrr : r = requestId := by
      rcases optional_ok hr with ⟨rfl, hu⟩ | ⟨k, rfl, hk⟩
      · cases requestId <;> cases generation <;>
          simp [Message.fields, optionalField, List.lookup_cons] at hu ⊢
      · have hk := (requireNonEmptyString_ok.mp hk).1
        cases requestId <;> cases generation <;>
          simp [Message.fields, optionalField, List.lookup_cons] at hk <;> rw [hk]
    have hgg : g = generation := by
      rcases optional_ok hg with ⟨rfl, hu⟩ | ⟨k, rfl, hk⟩
      · cases requestId <;> cases generation <;>
          simp [Message.fields, optionalField, List.lookup_cons] at hu ⊢
      · have hk := (requireGeneration_ok.mp hk).1
        cases requestId <;> cases generation <;>
          simp [Message.fields, optionalField, List.lookup_cons] at hk <;> rw [hk]
    rw [he, hrr, hgg]

/-- **The bridge's reader accepts a message exactly if its fields are in order.** -/
theorem readSharedWorkerBridgeMessage_accepts {m : Message} :
    readSharedWorkerBridgeMessage m.toValue = .ok m ↔ m.WellFormed :=
  ⟨readSharedWorkerBridgeMessage_wellFormed, readSharedWorkerBridgeMessage_toValue⟩

theorem readSharedWorkerHostMessage_accepts {m : Message} :
    readSharedWorkerHostMessage m.toValue = .ok m ↔ m.WellFormed ∧ m.fromHost = true := by
  unfold readSharedWorkerHostMessage
  rw [bind_ok]
  constructor
  · rintro ⟨m', hm, h⟩
    obtain rfl := read_toValue_eq hm
    refine ⟨readSharedWorkerBridgeMessage_accepts.mp hm, ?_⟩
    split at h <;> first | rfl | cases h
  · rintro ⟨hw, hf⟩
    refine ⟨m, readSharedWorkerBridgeMessage_accepts.mpr hw, ?_⟩
    unfold Message.fromHost at hf
    split at hf <;> first | rfl | cases hf

theorem readSharedWorkerPageMessage_accepts {m : Message} :
    readSharedWorkerPageMessage m.toValue = .ok m ↔ m.WellFormed ∧ m.fromPage = true := by
  unfold readSharedWorkerPageMessage
  rw [bind_ok]
  constructor
  · rintro ⟨m', hm, h⟩
    obtain rfl := read_toValue_eq hm
    refine ⟨readSharedWorkerBridgeMessage_accepts.mp hm, ?_⟩
    split at h <;> first | rfl | cases h
  · rintro ⟨hw, hf⟩
    refine ⟨m, readSharedWorkerBridgeMessage_accepts.mpr hw, ?_⟩
    unfold Message.fromPage at hf
    split at hf <;> first | rfl | cases hf

theorem readSharedWorkerPageMessage_wellFormed {v : JsValue} {m : Message}
    (h : readSharedWorkerPageMessage v = .ok m) : m.WellFormed := by
  obtain ⟨x, hx, hm⟩ := bind_ok.mp h
  have hw := readSharedWorkerBridgeMessage_wellFormed hx
  split at hm <;> cases hm <;> exact hw

/-- What the page's reader accepts of an object literal is the message it was made from. -/
theorem readSharedWorkerPageMessage_toValue_eq {m m' : Message}
    (h : readSharedWorkerPageMessage m.toValue = .ok m') : m' = m := by
  obtain ⟨x, hx, hm⟩ := bind_ok.mp h
  obtain rfl := read_toValue_eq hx
  split at hm <;> cases hm <;> rfl

theorem readSharedWorkerHostMessage_toValue_eq {m m' : Message}
    (h : readSharedWorkerHostMessage m.toValue = .ok m') : m' = m := by
  obtain ⟨x, hx, hm⟩ := bind_ok.mp h
  obtain rfl := read_toValue_eq hx
  split at hm <;> cases hm <;> rfl

end Smocket.SharedWorker
