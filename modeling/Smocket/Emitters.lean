import Smocket.Ordered
import Smocket.Traces
import Mathlib.Algebra.Order.Ring.Rat

/-
  File:      Smocket/Emitters.lean
  Subject:   THE LISTENER REGISTRIES (`emitters.ts`): the Node-style one of namespaces and server
             sockets, and the component-emitter one of clients.

  A dispatch runs over a copy of the list it finds. The listeners it runs may change the registry
  and dispatch again. With a listener for `newListener` or `removeListener` a Node-style emitter
  tries to emit a reserved event, which throws.

  * `exec`, `emitting` -- the machine;
  * `Deletes`, `removeOrdinaryListener_deletes` -- what a removal takes out of a list;
  * `tidy_inductive` -- no name is mapped to an empty list, and a wrapper fires once;
  * **`registries_orderly`** -- the laws of a registry in every run.
-/

namespace Smocket.Emitters

open EventLoop EventLoop.Machine Ordered

/-! ## 1. The registries -/

/-- `OrdinaryEventName`. -/
inductive EventName where
  | string (name : String)
  | symbol (ident : Nat)
  deriving DecidableEq

def newListener : EventName := .string "newListener"

def removeListenerEvent : EventName := .string "removeListener"

/-- What a list of listeners holds: a function of the application, which has no `listener` or `fn`
    property of its own, or a wrapper made by `once`. -/
inductive Listener where
  | plain (f : Nat)
  | wrapper (w : Nat)
  deriving DecidableEq

/-- The closure of `once`. -/
structure Wrapper where
  event : EventName
  /-- its `listener` (on the client `fn`) property -/
  listener : Nat
  fired : Bool
  deriving DecidableEq

/-- Which emitter it is; `HOST_EMITS_FINAL_REMOVE_LISTENER_META_EVENT` is the host's. -/
inductive Side where
  | node (hostEmitsFinal : Bool)
  | client
  deriving DecidableEq

/-- What is recorded, for the statements only. -/
inductive Event where
  /-- the dispatch calls the entry, whose listener runs -/
  | ran (dispatch : Nat) (entry : Listener)
  /-- the dispatch calls the entry, a wrapper that has fired -/
  | passed (dispatch : Nat) (entry : Listener)
  /-- `emitMaxListenersWarning` -/
  | warning (event : EventName) (count : Nat)
  deriving DecidableEq

structure Core where
  eventListeners : OMap EventName (List Listener)
  wrappers : Nat → Wrapper
  wrapperCount : Nat
  warnedEvents : OSet EventName
  /-- no number stands for `Infinity` -/
  maxListeners : Option ℚ
  dispatchCount : Nat
  log : List Event

inductive Instr where
  /-- the body of a listener -/
  | app (f : Nat)
  /-- `on` and `prependListener` -/
  | on (event : EventName) (f : Nat) (prepend : Bool)
  /-- `once` and `prependOnceListener` -/
  | once (event : EventName) (f : Nat) (prepend : Bool)
  /-- on the client `off` with both arguments -/
  | removeListener (event : EventName) (l : Listener)
  /-- on the client `off` with one argument or none -/
  | removeAllListeners (event : Option EventName)
  | setMaxListeners (n : Option ℚ)
  /-- `emitLocal` and `dispatchNamed` -/
  | dispatch (event : EventName)
  /-- the loop of a dispatch -/
  | each (dispatch : Nat) (entries : List Listener)
  deriving DecidableEq

/-- A state, and whether the function throws there. -/
structure Outcome where
  core : Core
  fails : Bool := false

def Core.record (c : Core) (e : Event) : Core := { c with log := c.log ++ [e] }

/-- The list at a name. -/
def Core.registered (c : Core) (event : EventName) : List Listener :=
  (c.eventListeners.get? event).getD []

/-- The `listener` property. -/
def Core.original (c : Core) : Listener → Option Nat
  | .plain _ => none
  | .wrapper w => some (c.wrappers w).listener

/-- `isListener`: the listener itself, or the wrapper of it. -/
def Core.isListener (c : Core) (l entry : Listener) : Bool :=
  decide (entry = l) || match l with
    | .plain f => decide (c.original entry = some f)
    | .wrapper _ => false

/-- Remove the last entry with a property. -/
def eraseLast (p : Listener → Bool) (l : List Listener) : List Listener :=
  (l.reverse.eraseP p).reverse

/-- `removeOrdinaryListener`, from the end on the side of the server. -/
def removeOrdinaryListener (side : Side) (c : Core) (event : EventName) (l : Listener) :
    Core × Option Listener :=
  match c.eventListeners.get? event with
  | none => (c, none)
  | some list =>
      let rest := match side with
        | .node _ => eraseLast (c.isListener l) list
        | .client => list.eraseP (c.isListener l)
      let removed := match side with
        | .node _ => list.reverse.find? (c.isListener l)
        | .client => list.find? (c.isListener l)
      ({ c with eventListeners :=
          if rest = [] then c.eventListeners.erase event else c.eventListeners.set event rest },
        removed)

/-- `addNodeListener`; `emitMeta` throws. -/
def addNodeListener (c : Core) (event : EventName) (l : Listener) (prepend : Bool) : Outcome :=
  if c.registered newListener ≠ [] then { core := c, fails := true }
  else
    let warned := if (c.eventListeners.get? event).isSome then c.warnedEvents
      else c.warnedEvents.erase event
    let list := if prepend then l :: c.registered event else c.registered event ++ [l]
    let c' := { c with warnedEvents := warned, eventListeners := c.eventListeners.set event list }
    if c.maxListeners = some 0 ∨ (∀ max, c.maxListeners = some max → (list.length : ℚ) ≤ max) ∨
        event ∈ warned then
      { core := c' }
    else { core := { c' with warnedEvents := warned.insert event }.record (.warning event list.length) }

/-- `addListener` of the client. -/
def addListener (c : Core) (event : EventName) (l : Listener) : Core :=
  { c with eventListeners := c.eventListeners.set event (c.registered event ++ [l]) }

/-- `removeNodeListener`; `emitMeta` throws. -/
def removeNodeListener (host : Bool) (c : Core) (event : EventName) (l : Listener) : Outcome :=
  let removingFinalObserver := event = removeListenerEvent ∧ (c.registered event).length = 1
  let (c', removed) := removeOrdinaryListener (.node host) c event l
  if removed.isSome ∧ (c'.registered removeListenerEvent ≠ [] ∨ (removingFinalObserver ∧ host)) then
    { core := c', fails := true }
  else { core := c' }

/-- The loop of `removeAllNodeListeners` at one name. -/
def removeEach (host : Bool) (event : EventName) : Core → List Listener → Outcome
  | c, [] => { core := c }
  | c, l :: ls =>
      let o := removeNodeListener host c event l
      if o.fails then o else removeEach host event o.core ls

/-- `removeAllNodeListeners` with a name. -/
def removeAllAt (host : Bool) (c : Core) (event : EventName) : Outcome :=
  let o := removeEach host event c (c.registered event).reverse
  if o.fails then o
  else { core := { o.core with warnedEvents := o.core.warnedEvents.erase event } }

def removeNames (host : Bool) : Core → List EventName → Outcome
  | c, [] => { core := c }
  | c, name :: names =>
      let o := removeAllAt host c name
      if o.fails then o else removeNames host o.core names

/-- `removeAllNodeListeners`. -/
def removeAllNodeListeners (host : Bool) (c : Core) : Option EventName → Outcome
  | some event => removeAllAt host c event
  | none =>
      let names := c.eventListeners.keys.erase removeListenerEvent ++ [removeListenerEvent]
      let o := removeNames host c names
      if o.fails then o else { core := { o.core with warnedEvents := .empty } }

/-- A wrapper removes itself. -/
def unregister (side : Side) (c : Core) (w : Nat) : Outcome :=
  match side with
  | .node host => removeNodeListener host c (c.wrappers w).event (.wrapper w)
  | .client => { core := (removeOrdinaryListener .client c (c.wrappers w).event (.wrapper w)).1 }

def register (side : Side) (c : Core) (event : EventName) (l : Listener) (prepend : Bool) :
    Outcome :=
  match side with
  | .node _ => addNodeListener c event l prepend
  | .client => { core := addListener c event l }

/-- A fresh wrapper. -/
def Core.wrap (c : Core) (event : EventName) (f : Nat) : Core :=
  { c with
    wrappers := Function.update c.wrappers c.wrapperCount ⟨event, f, false⟩
    wrapperCount := c.wrapperCount + 1 }

def Outcome.effect (o : Outcome) : Effect Core Instr := { core := o.core, fails := o.fails }

/-- Call one entry of a snapshot. The wrapper of a client's `once` has no `fired`. -/
def callEntry (side : Side) (c : Core) (d : Nat) (entries : List Listener) :
    Listener → Effect Core Instr
  | .plain f => { core := c.record (.ran d (.plain f)), push := [.app f, .each d entries] }
  | .wrapper w =>
      if (c.wrappers w).fired ∧ side ≠ .client then
        { core := c.record (.passed d (.wrapper w)), push := [.each d entries] }
      else
        let o := unregister side c w
        if o.fails then o.effect
        else
          { core := { o.core with
              wrappers := Function.update o.core.wrappers w
                { o.core.wrappers w with fired := true } }.record (.ran d (.wrapper w))
            push := [.app (o.core.wrappers w).listener, .each d entries] }

/-- Execute one instruction. -/
def exec (side : Side) : Instr → Core → Effect Core Instr
  | .app _, c => { core := c }
  | .on event f prepend, c => (register side c event (.plain f) prepend).effect
  | .once event f prepend, c =>
      (register side (c.wrap event f) event (.wrapper c.wrapperCount) prepend).effect
  | .removeListener event l, c =>
      match side with
      | .node host => (removeNodeListener host c event l).effect
      | .client => { core := (removeOrdinaryListener .client c event l).1 }
  | .removeAllListeners event, c =>
      match side, event with
      | .node host, event => (removeAllNodeListeners host c event).effect
      | .client, some event => { core := { c with eventListeners := c.eventListeners.erase event } }
      | .client, none => { core := { c with eventListeners := .empty } }
  | .setMaxListeners n, c => { core := { c with maxListeners := n } }
  | .dispatch event, c =>
      { core := { c with dispatchCount := c.dispatchCount + 1 }
        push := [.each c.dispatchCount (c.registered event)] }
  | .each _ [], c => { core := c }
  | .each d (e :: entries), c => callEntry side c d entries e

/-- The machine. The client has no `prepend`; `setMaxListeners` refuses a negative number. -/
def emitting (side : Side) : Machine Core Instr where
  isApp
    | .app _ => true
    | _ => false
  exec := exec side
  onThrow _ _ := .skip
  callable
    | _, .on _ _ prepend | _, .once _ _ prepend => !prepend || decide (side ≠ .client)
    | _, .removeListener .. | _, .removeAllListeners _ | _, .dispatch _ => true
    | _, .setMaxListeners n => decide (side ≠ .client) && n.all fun n => decide (0 ≤ n)
    | _, _ => false

/-- A new emitter. -/
def Core.initial : Core where
  eventListeners := .empty
  wrappers _ := ⟨newListener, 0, false⟩
  wrapperCount := 0
  warnedEvents := .empty
  maxListeners := some 10
  dispatchCount := 0
  log := []

/-! ## 2. What a removal takes out -/

/-- `after` is `before` without one entry that `p` holds of: on a Node-style emitter the last one,
    on the client the first. If there is none it is `before`. -/
def Deletes (side : Side) (p : Listener → Bool) (before after : List Listener) : Prop :=
  ((∀ e ∈ before, p e = false) ∧ after = before) ∨
  ∃ l e r, before = l ++ e :: r ∧ p e = true ∧ after = l ++ r ∧
    ∀ e' ∈ (if side = .client then l else r), p e' = false

section Steps

variable {side : Side} {c : Core} {event : EventName}

theorem eraseP_deletes (p : Listener → Bool) (l : List Listener) :
    Deletes .client p l (l.eraseP p) := by
  rcases List.exists_or_eq_self_of_eraseP p l with h | ⟨e, l₁, l₂, h₁, he, hl, h⟩
  · by_cases hp : ∃ e ∈ l, p e = true
    · obtain ⟨e, he, hpe⟩ := hp
      have hlt := List.length_eraseP_of_mem he hpe
      have hpos := List.length_pos_of_mem he
      rw [h] at hlt
      omega
    · refine Or.inl ⟨fun e he => Bool.eq_false_iff.mpr fun hpe => hp ⟨e, he, hpe⟩, h⟩
  · refine Or.inr ⟨l₁, e, l₂, hl, he, h, fun e' he' => ?_⟩
    rw [if_pos rfl] at he'
    exact Bool.eq_false_iff.mpr (h₁ e' he')

theorem eraseLast_deletes (host : Bool) (p : Listener → Bool) (l : List Listener) :
    Deletes (.node host) p l (eraseLast p l) := by
  rcases eraseP_deletes p l.reverse with ⟨hp, h⟩ | ⟨l₁, e, l₂, hl, he, h, hp⟩
  · refine Or.inl ⟨fun e he => hp e (List.mem_reverse.mpr he), ?_⟩
    rw [eraseLast, h, List.reverse_reverse]
  · rw [if_pos rfl] at hp
    refine Or.inr ⟨l₂.reverse, e, l₁.reverse, ?_, he, ?_, fun e' he' => ?_⟩
    · rw [← List.reverse_reverse l, hl]
      simp
    · rw [eraseLast, h, List.reverse_append]
    · rw [if_neg nofun] at he'
      exact hp e' (List.mem_reverse.mp he')

/-- What the map holds after a removal. -/
theorem get?_put (m : OMap EventName (List Listener)) (k j : EventName) (rest : List Listener) :
    (if rest = [] then m.erase k else m.set k rest).get? j =
      if j = k then (if rest = [] then none else some rest) else m.get? j := by
  by_cases hnil : rest = []
  · rw [if_pos hnil, if_pos hnil, OMap.get?_erase]
  · rw [if_neg hnil, if_neg hnil, OMap.get?_set]

theorem put_ne_empty (rest : List Listener) :
    (if rest = [] then none else some rest) ≠ some [] := by
  split
  · nofun
  · rename_i hne
    exact fun heq => hne (Option.some.inj heq)

/-- **A removal deletes one registration of one name**, and changes nothing else. -/
theorem removeOrdinaryListener_deletes (side : Side) (c : Core) (event : EventName) (l : Listener) :
    let c' := (removeOrdinaryListener side c event l).1
    Deletes side (c.isListener l) (c.registered event) (c'.registered event) ∧
      (∀ event' ≠ event, c'.eventListeners.get? event' = c.eventListeners.get? event') ∧
      c' = { c with eventListeners := c'.eventListeners } := by
  have hempty : Deletes side (c.isListener l) [] [] :=
    Or.inl ⟨fun e he => absurd he List.not_mem_nil, rfl⟩
  unfold removeOrdinaryListener
  cases hlist : c.eventListeners.get? event with
  | none =>
      refine ⟨?_, fun _ _ => rfl, rfl⟩
      rw [Core.registered, hlist]
      exact hempty
  | some list =>
      have hrest : ∀ rest, Deletes side (c.isListener l) list rest →
          Deletes side (c.isListener l) (c.registered event)
            (((if rest = [] then c.eventListeners.erase event
              else c.eventListeners.set event rest).get? event).getD []) := fun rest h => by
        have hreg : c.registered event = list := by
          rw [Core.registered, hlist]
          rfl
        rw [hreg, get?_put, if_pos rfl]
        split
        · rename_i hnil
          exact hnil ▸ h
        · exact h
      refine ⟨?_, fun event' hne => ?_, rfl⟩
      · refine hrest _ ?_
        cases side with
        | node host => exact eraseLast_deletes host _ list
        | client => exact eraseP_deletes _ list
      · dsimp only
        rw [get?_put, if_neg hne]

theorem Deletes.subset {p : Listener → Bool} {before after : List Listener}
    (h : Deletes side p before after) : after ⊆ before := by
  rcases h with ⟨-, rfl⟩ | ⟨l, e, r, rfl, -, rfl, -⟩
  · exact List.Subset.refl _
  · exact (List.Sublist.append_left (List.sublist_cons_self e r) l).subset

/-- No name is mapped to an empty list. -/
def Core.Inhabited (c : Core) : Prop := ∀ event, c.eventListeners.get? event ≠ some []

theorem Core.Inhabited.remove (h : c.Inhabited) (side : Side) (event : EventName) (l : Listener) :
    (removeOrdinaryListener side c event l).1.Inhabited := by
  intro event'
  unfold removeOrdinaryListener
  split
  · exact h event'
  · dsimp only
    rw [get?_put]
    by_cases he : event' = event
    · rw [if_pos he]
      exact put_ne_empty _
    · rw [if_neg he]
      exact h event'

/-- What a removal of any kind does to a registry. -/
structure Shrinks (c c' : Core) : Prop where
  inhabited : c.Inhabited → c'.Inhabited
  subset : ∀ event, c'.registered event ⊆ c.registered event
  wrappers : c'.wrappers = c.wrappers
  wrapperCount : c'.wrapperCount = c.wrapperCount
  dispatchCount : c'.dispatchCount = c.dispatchCount
  log : c'.log = c.log

theorem Shrinks.refl (c : Core) : Shrinks c c :=
  ⟨id, fun _ => List.Subset.refl _, rfl, rfl, rfl, rfl⟩

theorem Shrinks.trans {c c' c'' : Core} (h : Shrinks c c') (h' : Shrinks c' c'') : Shrinks c c'' :=
  ⟨h'.inhabited ∘ h.inhabited, fun event => List.Subset.trans (h'.subset event) (h.subset event),
    h'.wrappers.trans h.wrappers, h'.wrapperCount.trans h.wrapperCount,
    h'.dispatchCount.trans h.dispatchCount, h'.log.trans h.log⟩

theorem removeOrdinaryListener_shrinks (side : Side) (c : Core) (event : EventName) (l : Listener) :
    Shrinks c (removeOrdinaryListener side c event l).1 := by
  obtain ⟨hdel, hother, hsame⟩ := removeOrdinaryListener_deletes side c event l
  refine ⟨fun h => h.remove side event l, fun event' => ?_, ?_, ?_, ?_, ?_⟩
  · by_cases he : event' = event
    · exact he ▸ hdel.subset
    · rw [Core.registered, Core.registered, hother event' he]
      exact List.Subset.refl _
  all_goals rw [hsame]

/-- Nobody listens to the meta-events. -/
def Core.Unwatched (side : Side) (c : Core) : Prop :=
  side ≠ .client → c.registered newListener = [] ∧ c.registered removeListenerEvent = []

theorem Core.Unwatched.shrink {c' : Core} (h : c.Unwatched side) (hs : Shrinks c c') :
    c'.Unwatched side := fun hside =>
  ⟨List.eq_nil_of_subset_nil ((h hside).1 ▸ hs.subset newListener),
    List.eq_nil_of_subset_nil ((h hside).2 ▸ hs.subset removeListenerEvent)⟩

/-- What is removed, where nobody listens to the meta-events, is removed without an exception. -/
theorem removeNodeListener_ok {host : Bool} (h : c.Unwatched (.node host)) (event : EventName)
    (l : Listener) : removeNodeListener host c event l =
      { core := (removeOrdinaryListener (.node host) c event l).1 } := by
  have hs := removeOrdinaryListener_shrinks (.node host) c event l
  obtain ⟨-, hmeta⟩ := h nofun
  obtain ⟨-, hmeta'⟩ := (h.shrink hs) nofun
  unfold removeNodeListener
  dsimp only
  rw [if_neg]
  rintro ⟨-, hw | ⟨⟨rfl, hlen⟩, -⟩⟩
  · exact hw hmeta'
  · rw [hmeta] at hlen
    cases hlen

theorem removeEach_ok {host : Bool} (event : EventName) :
    ∀ (ls : List Listener) (c : Core), c.Unwatched (.node host) →
      (removeEach host event c ls).fails = false ∧ Shrinks c (removeEach host event c ls).core
  | [], c, _ => ⟨rfl, Shrinks.refl c⟩
  | l :: ls, c, h => by
      have hs := removeOrdinaryListener_shrinks (.node host) c event l
      obtain ⟨hf, hs'⟩ := removeEach_ok event ls _ (h.shrink hs)
      simp only [removeEach, removeNodeListener_ok h]
      exact ⟨hf, hs.trans hs'⟩

/-- Forgetting a warning is no change of the registry. -/
theorem Shrinks.warned {c' : Core} (h : Shrinks c c') (warned : OSet EventName) :
    Shrinks c { c' with warnedEvents := warned } :=
  ⟨h.inhabited, h.subset, h.wrappers, h.wrapperCount, h.dispatchCount, h.log⟩

theorem removeAllAt_ok {host : Bool} (h : c.Unwatched (.node host)) (event : EventName) :
    (removeAllAt host c event).fails = false ∧ Shrinks c (removeAllAt host c event).core := by
  obtain ⟨hf, hs⟩ := removeEach_ok event (c.registered event).reverse c h
  simp only [removeAllAt, hf]
  exact ⟨rfl, hs.warned _⟩

theorem removeNames_ok {host : Bool} :
    ∀ (names : List EventName) (c : Core), c.Unwatched (.node host) →
      (removeNames host c names).fails = false ∧ Shrinks c (removeNames host c names).core
  | [], c, _ => ⟨rfl, Shrinks.refl c⟩
  | name :: names, c, h => by
      obtain ⟨hf, hs⟩ := removeAllAt_ok h name
      obtain ⟨hf', hs'⟩ := removeNames_ok names _ (h.shrink hs)
      simp only [removeNames, hf]
      exact ⟨hf', hs.trans hs'⟩

theorem removeAllNodeListeners_ok {host : Bool} (h : c.Unwatched (.node host)) :
    ∀ event, (removeAllNodeListeners host c event).fails = false ∧
      Shrinks c (removeAllNodeListeners host c event).core
  | some event => removeAllAt_ok h event
  | none => by
      obtain ⟨hf, hs⟩ := removeNames_ok
        (c.eventListeners.keys.erase removeListenerEvent ++ [removeListenerEvent]) c h
      simp only [removeAllNodeListeners, hf]
      exact ⟨rfl, hs.warned _⟩

theorem unregister_ok (h : c.Unwatched side) (w : Nat) : unregister side c w =
    { core := (removeOrdinaryListener side c (c.wrappers w).event (.wrapper w)).1 } := by
  cases side with
  | node host => exact removeNodeListener_ok h _ _
  | client => rfl

/-- How often the listener of a wrapper has run. -/
def runs (w : Nat) (log : List Event) : Nat :=
  log.countP fun
    | .ran _ e => decide (e = .wrapper w)
    | _ => false

theorem runs_append (w : Nat) (l l' : List Event) : runs w (l ++ l') = runs w l + runs w l' :=
  List.countP_append

/-- An event that tells of no dispatch. -/
def Event.IsWarning : Event → Prop
  | .warning .. => True
  | _ => False

/-- **What a registration does**: one entry more at one name. -/
theorem register_spec (h : c.Unwatched side) (event : EventName) (l : Listener) (prepend : Bool) :
    let o := register side c event l prepend
    o.fails = false ∧
      o.core.registered event = (if prepend = true ∧ side ≠ .client then l :: c.registered event
        else c.registered event ++ [l]) ∧
      (∀ event' ≠ event, o.core.eventListeners.get? event' = c.eventListeners.get? event') ∧
      o.core.wrappers = c.wrappers ∧ o.core.wrapperCount = c.wrapperCount ∧
      o.core.dispatchCount = c.dispatchCount ∧
      ∃ ws, o.core.log = c.log ++ ws ∧ ∀ e ∈ ws, e.IsWarning := by
  have hget : ∀ (m : OMap EventName (List Listener)) (list : List Listener),
      ((m.set event list).get? event).getD [] = list := fun m list => by
    rw [OMap.get?_set, if_pos rfl]
    rfl
  have hother : ∀ (m : OMap EventName (List Listener)) (list : List Listener),
      ∀ event' ≠ event, (m.set event list).get? event' = m.get? event' := fun m list event' hne => by
    rw [OMap.get?_set, if_neg hne]
  cases side with
  | client =>
      refine ⟨rfl, ?_, hother _ _, rfl, rfl, rfl, [], (List.append_nil _).symm, nofun⟩
      rw [if_neg fun hp => hp.2 rfl]
      exact hget _ _
  | node host =>
      have hlist : (if prepend = true ∧ (Side.node host) ≠ .client then l :: c.registered event
          else c.registered event ++ [l]) =
            if prepend = true then l :: c.registered event else c.registered event ++ [l] := by
        simp
      rw [hlist]
      simp only [register, addNodeListener, (h nofun).1]
      rw [if_neg (fun hn => hn rfl)]
      generalize (if prepend = true then l :: c.registered event else c.registered event ++ [l]) = list
      generalize (if (c.eventListeners.get? event).isSome = true then c.warnedEvents
        else c.warnedEvents.erase event) = warned
      split
      · exact ⟨rfl, hget _ _, hother _ _, rfl, rfl, rfl, [], (List.append_nil _).symm, nofun⟩
      · refine ⟨rfl, hget _ _, hother _ _, rfl, rfl, rfl, _, rfl, fun e he => ?_⟩
        rw [List.mem_singleton.mp he]
        trivial

/-! ## 3. The invariant of a registry -/

def Core.Knows (c : Core) : Listener → Prop
  | .plain _ => True
  | .wrapper w => w < c.wrapperCount

/-- The invariant of the heap. -/
structure Tidy (side : Side) (c : Core) : Prop where
  inhabited : c.Inhabited
  unwatched : c.Unwatched side
  known : ∀ event, ∀ e ∈ c.registered event, c.Knows e
  made : ∀ w, (c.wrappers w).fired = true → w < c.wrapperCount
  count : side ≠ .client → ∀ w, runs w c.log = if (c.wrappers w).fired = true then 1 else 0
  passed : ∀ l₁ d e l₂, c.log = l₁ ++ .passed d e :: l₂ → ∃ w, e = .wrapper w ∧ runs w l₁ = 1

/-- What is known of a pending instruction. -/
def Known (c : Core) : Instr → Prop
  | .each _ entries => ∀ e ∈ entries, c.Knows e
  | _ => True

/-- Nobody registers for a meta-event of a Node-style emitter. -/
def Quiet (side : Side) : Core → Instr → Prop
  | _, .on event .. | _, .once event .. =>
      side ≠ .client → event ≠ newListener ∧ event ≠ removeListenerEvent
  | _, _ => True

instance (side : Side) (c : Core) : ∀ i : Instr, Decidable (Quiet side c i)
  | .on .. | .once .. => inferInstanceAs (Decidable (_ → _))
  | .app _ | .removeListener .. | .removeAllListeners _ | .setMaxListeners _ | .dispatch _
  | .each .. => isTrue trivial

/-- What stands in a list that was continued. -/
theorem split_append {l ws l₁ l₂ : List Event} {x : Event} (h : l ++ ws = l₁ ++ x :: l₂) :
    (∃ r, l = l₁ ++ x :: r) ∨ ∃ m, l₁ = l ++ m ∧ ws = m ++ x :: l₂ := by
  rcases List.append_eq_append_iff.mp h with ⟨m, hm, hws⟩ | ⟨m, hl, hm⟩
  · exact Or.inr ⟨m, hm, hws⟩
  · cases m with
    | nil => exact Or.inr ⟨[], by simpa using hl.symm, by simpa using hm.symm⟩
    | cons y m =>
        rw [List.cons_append, List.cons.injEq] at hm
        exact Or.inl ⟨m, hm.1 ▸ hl⟩

theorem Tidy.shrink {c' : Core} (h : Tidy side c) (hs : Shrinks c c') : Tidy side c' where
  inhabited := hs.inhabited h.inhabited
  unwatched := h.unwatched.shrink hs
  known event e he := by
    have hk := h.known event e (hs.subset event he)
    cases e with
    | plain f => trivial
    | wrapper w => exact hk.trans_eq hs.wrapperCount.symm
  made w hw := (h.made w (hs.wrappers ▸ hw)).trans_eq hs.wrapperCount.symm
  count hside w := by
    rw [hs.log, hs.wrappers]
    exact h.count hside w
  passed l₁ d e l₂ hl := h.passed l₁ d e l₂ (hs.log ▸ hl)

theorem runs_warnings (w : Nat) {ws : List Event} (h : ∀ e ∈ ws, e.IsWarning) : runs w ws = 0 := by
  refine List.countP_eq_zero.mpr fun e he => ?_
  have hw := h e he
  cases e with
  | warning => exact Bool.false_ne_true
  | _ => exact hw.elim

theorem Tidy.register (h : Tidy side c) {event : EventName} {l : Listener} (prepend : Bool)
    (hk : c.Knows l) (hq : side ≠ .client → event ≠ newListener ∧ event ≠ removeListenerEvent) :
    Tidy side (register side c event l prepend).core := by
  obtain ⟨-, hthis, hother, hwrappers, hcount, -, ws, hlog, hws⟩ :=
    register_spec h.unwatched event l prepend
  have hmem : ∀ e, e ∈ (Emitters.register side c event l prepend).core.registered event ↔
      e = l ∨ e ∈ c.registered event := fun e => by
    rw [hthis]
    split
    · exact List.mem_cons
    · rw [List.mem_append, List.mem_singleton, or_comm]
  have hsame : ∀ event' ≠ event, (Emitters.register side c event l prepend).core.registered event' =
      c.registered event' := fun event' hne => by
    rw [Core.registered, hother event' hne]
    rfl
  constructor
  · intro event' hnil
    by_cases he : event' = event
    · subst he
      have hl := (hmem l).mpr (Or.inl rfl)
      rw [Core.registered, hnil] at hl
      cases hl
    · exact h.inhabited event' (hother event' he ▸ hnil)
  · intro hside
    rw [hsame _ (hq hside).1.symm, hsame _ (hq hside).2.symm]
    exact h.unwatched hside
  · intro event' e he
    have hke : c.Knows e := by
      by_cases hev : event' = event
      · rcases (hmem e).mp (hev ▸ he) with rfl | he
        · exact hk
        · exact h.known event e he
      · exact h.known event' e (hsame event' hev ▸ he)
    cases e with
    | plain f => trivial
    | wrapper w => exact hke.trans_eq hcount.symm
  · intro w hw
    rw [hcount]
    exact h.made w (hwrappers ▸ hw)
  · intro hside w
    rw [hlog, hwrappers, runs_append, runs_warnings w hws]
    exact h.count hside w
  · intro l₁ d e l₂ hl
    rw [hlog] at hl
    rcases split_append hl with ⟨r, hr⟩ | ⟨m, -, hm⟩
    · exact h.passed l₁ d e r hr
    · have hw : (Event.passed d e).IsWarning :=
        hws _ (hm ▸ List.mem_append_right _ List.mem_cons_self)
      cases hw

/-- A wrapper is made before it is registered. -/
theorem Tidy.wrap (h : Tidy side c) (event : EventName) (f : Nat) : Tidy side (c.wrap event f) := by
  have hfired : ∀ w, ((c.wrap event f).wrappers w).fired = (c.wrappers w).fired := fun w => by
    by_cases hw : w = c.wrapperCount
    · subst hw
      have hunmade : (c.wrappers c.wrapperCount).fired = false :=
        Bool.eq_false_iff.mpr fun hf => Nat.lt_irrefl _ (h.made _ hf)
      simp [Core.wrap, hunmade]
    · simp [Core.wrap, hw]
  refine ⟨h.inhabited, h.unwatched, fun event' e he => ?_, fun w hw => ?_, fun hside w => ?_, h.passed⟩
  · have hk := h.known event' e he
    cases e with
    | plain f => trivial
    | wrapper w => exact Nat.lt_succ_of_lt hk
  · exact Nat.lt_succ_of_lt (h.made w (hfired w ▸ hw))
  · rw [hfired]
    exact h.count hside w

/-- An entry is called: what the dispatch records. -/
theorem Tidy.record (h : Tidy side c) {ev : Event} (hr : ∀ w, runs w [ev] = 0)
    (hp : ∀ d e, ev = .passed d e → ∃ w, e = .wrapper w ∧ runs w c.log = 1) :
    Tidy side (c.record ev) := by
  refine ⟨h.inhabited, h.unwatched, h.known, h.made, fun hside w => ?_, fun l₁ d e l₂ hl => ?_⟩
  · have hlog : (c.record ev).log = c.log ++ [ev] := rfl
    rw [hlog, runs_append, hr]
    exact h.count hside w
  · rcases split_append hl with ⟨r, hr⟩ | ⟨m, rfl, hm⟩
    · exact h.passed l₁ d e r hr
    · have hnil : m = [] ∧ ev = .passed d e := by
        cases m with
        | nil => exact ⟨rfl, (List.cons.inj hm).1⟩
        | cons y m => simp at hm
      obtain ⟨rfl, hev⟩ := hnil
      rw [List.append_nil]
      exact hp d e hev

/-- A wrapper fires. -/
theorem Tidy.fire (h : Tidy side c) {w : Nat} (hw : w < c.wrapperCount)
    (hf : side ≠ .client → (c.wrappers w).fired = false) (d : Nat) :
    Tidy side ({ c with
      wrappers := Function.update c.wrappers w { c.wrappers w with fired := true } }.record
        (.ran d (.wrapper w))) := by
  refine ⟨h.inhabited, h.unwatched, h.known, fun w' hw' => ?_, fun hside w' => ?_,
    fun l₁ d' e l₂ hl => ?_⟩
  · by_cases he : w' = w
    · exact he ▸ hw
    · refine h.made w' ?_
      simpa [Core.record, he] using hw'
  · show runs w' (c.log ++ [.ran d (.wrapper w)]) = _
    rw [runs_append, h.count hside w']
    by_cases he : w' = w
    · subst he
      simp [Core.record, runs, hf hside]
    · simp [Core.record, runs, he, Ne.symm he]
  · rcases split_append hl with ⟨r, hr⟩ | ⟨m, -, hm⟩
    · exact h.passed l₁ d' e r hr
    · cases m with
      | nil => cases (List.cons.inj hm).1
      | cons y m => simp at hm

/-- Calling an entry, case by case. -/
theorem callEntry_cases (h : c.Unwatched side) (d : Nat) (entries : List Listener) (e : Listener) :
    (∃ f, e = .plain f ∧ callEntry side c d entries e =
      { core := c.record (.ran d e), push := [.app f, .each d entries] }) ∨
    (∃ w, e = .wrapper w ∧ (c.wrappers w).fired = true ∧ side ≠ .client ∧
      callEntry side c d entries e =
        { core := c.record (.passed d e), push := [.each d entries] }) ∨
    ∃ w c', e = .wrapper w ∧ (side ≠ .client → (c.wrappers w).fired = false) ∧
      c' = (removeOrdinaryListener side c (c.wrappers w).event e).1 ∧
      callEntry side c d entries e =
        { core := { c' with
            wrappers := Function.update c'.wrappers w
              { c'.wrappers w with fired := true } }.record (.ran d e)
          push := [.app (c.wrappers w).listener, .each d entries] } := by
  cases e with
  | plain f => exact Or.inl ⟨f, rfl, rfl⟩
  | wrapper w =>
      by_cases hf : (c.wrappers w).fired = true ∧ side ≠ .client
      · refine Or.inr (Or.inl ⟨w, rfl, hf.1, hf.2, ?_⟩)
        simp only [callEntry]
        rw [if_pos hf]
      · refine Or.inr (Or.inr ⟨w, _, rfl, fun hside => Bool.eq_false_iff.mpr fun h' => hf ⟨h', hside⟩,
          rfl, ?_⟩)
        have hs := removeOrdinaryListener_shrinks side c (c.wrappers w).event (.wrapper w)
        simp only [callEntry]
        rw [if_neg hf, unregister_ok h]
        simp only [hs.wrappers]
        rfl

/-- Without listeners for the meta-events nothing throws. -/
theorem exec_fails (h : c.Unwatched side) {i : Instr} : (exec side i c).fails = false := by
  cases i with
  | on event f prepend => exact (register_spec h event _ prepend).1
  | once event f prepend =>
      have hw : (c.wrap event f).Unwatched side := h
      exact (register_spec hw event _ prepend).1
  | removeListener event l =>
      cases side with
      | node host =>
          simp only [exec, removeNodeListener_ok h]
          rfl
      | client => rfl
  | removeAllListeners event =>
      cases side with
      | node host => exact (removeAllNodeListeners_ok h event).1
      | client => cases event <;> rfl
  | each d entries =>
      cases entries with
      | nil => rfl
      | cons e entries =>
          rcases callEntry_cases h d entries e with ⟨f, -, he⟩ | ⟨w, -, -, -, he⟩ | ⟨w, c', -, -, -, he⟩
          · exact congrArg Effect.fails he
          · exact congrArg Effect.fails he
          · exact congrArg Effect.fails he
  | _ => rfl

theorem runs_plain (w d f : Nat) : runs w [.ran d (.plain f)] = 0 := by simp [runs]

theorem Tidy.exec (h : Tidy side c) {i : Instr} (hk : Known c i) (hq : Quiet side c i) :
    Tidy side (exec side i c).core := by
  cases i with
  | app f => exact h
  | on event f prepend => exact h.register prepend trivial hq
  | once event f prepend => exact (h.wrap event f).register prepend (Nat.lt_succ_self _) hq
  | removeListener event l =>
      have hs := removeOrdinaryListener_shrinks side c event l
      cases side with
      | node host =>
          simp only [Emitters.exec, removeNodeListener_ok h.unwatched]
          exact h.shrink hs
      | client => exact h.shrink hs
  | removeAllListeners event =>
      cases side with
      | node host => exact h.shrink (removeAllNodeListeners_ok h.unwatched event).2
      | client =>
          cases event with
          | none =>
              refine h.shrink ⟨fun _ _ => nofun, fun _ => List.nil_subset _, rfl, rfl, rfl, rfl⟩
          | some event =>
              refine h.shrink ⟨fun hi event' => ?_, fun event' => ?_, rfl, rfl, rfl, rfl⟩
              · simp only [Emitters.exec, OMap.get?_erase]
                split
                · nofun
                · exact hi event'
              · simp only [Emitters.exec, Core.registered, OMap.get?_erase]
                split
                · exact List.nil_subset _
                · exact List.Subset.refl _
  | setMaxListeners n =>
      exact ⟨h.inhabited, h.unwatched, h.known, h.made, h.count, h.passed⟩
  | dispatch event => exact ⟨h.inhabited, h.unwatched, h.known, h.made, h.count, h.passed⟩
  | each d entries =>
      cases entries with
      | nil => exact h
      | cons e entries =>
          simp only [Emitters.exec]
          rcases callEntry_cases h.unwatched d entries e with ⟨f, rfl, he⟩ | ⟨w, rfl, hf, hside, he⟩ |
            ⟨w, c', rfl, hf, hc, he⟩ <;> rw [he]
          · exact h.record (fun w => runs_plain w d f) nofun
          · refine h.record (fun _ => rfl) fun d' e' hev => ?_
            cases hev
            exact ⟨w, rfl, (h.count hside w).trans (if_pos hf)⟩
          · have hs := removeOrdinaryListener_shrinks side c (c.wrappers w).event (.wrapper w)
            rw [← hc] at hs
            refine (h.shrink hs).fire ?_ (fun hside => hs.wrappers ▸ hf hside) d
            rw [hs.wrapperCount]
            exact hk _ List.mem_cons_self

/-- Wrappers and dispatches are numbered as they come. -/
theorem exec_counts (h : c.Unwatched side) (i : Instr) :
    c.wrapperCount ≤ (exec side i c).core.wrapperCount ∧
      c.dispatchCount ≤ (exec side i c).core.dispatchCount := by
  cases i with
  | on event f prepend =>
      obtain ⟨-, -, -, -, hw, hd, -⟩ := register_spec h event (.plain f) prepend
      exact ⟨hw.ge, hd.ge⟩
  | once event f prepend =>
      have h' : (c.wrap event f).Unwatched side := h
      obtain ⟨-, -, -, -, hw, hd, -⟩ := register_spec h' event (.wrapper c.wrapperCount) prepend
      exact ⟨(Nat.le_succ _).trans hw.ge, hd.ge⟩
  | removeListener event l =>
      have hs := removeOrdinaryListener_shrinks side c event l
      cases side with
      | node host =>
          simp only [exec, removeNodeListener_ok h]
          exact ⟨hs.wrapperCount.ge, hs.dispatchCount.ge⟩
      | client => exact ⟨hs.wrapperCount.ge, hs.dispatchCount.ge⟩
  | removeAllListeners event =>
      cases side with
      | node host =>
          obtain ⟨-, hs⟩ := removeAllNodeListeners_ok h event
          exact ⟨hs.wrapperCount.ge, hs.dispatchCount.ge⟩
      | client => cases event <;> exact ⟨le_rfl, le_rfl⟩
  | dispatch event => exact ⟨le_rfl, Nat.le_succ _⟩
  | each d entries =>
      cases entries with
      | nil => exact ⟨le_rfl, le_rfl⟩
      | cons e entries =>
          simp only [exec]
          rcases callEntry_cases h d entries e with ⟨f, -, he⟩ | ⟨w, -, -, -, he⟩ |
            ⟨w, c', rfl, -, hc, he⟩ <;> rw [he]
          · exact ⟨le_rfl, le_rfl⟩
          · exact ⟨le_rfl, le_rfl⟩
          · have hs := removeOrdinaryListener_shrinks side c (c.wrappers w).event (.wrapper w)
            rw [← hc] at hs
            exact ⟨hs.wrapperCount.ge, hs.dispatchCount.ge⟩
  | _ => exact ⟨le_rfl, le_rfl⟩

theorem Known.exec (h : c.Unwatched side) {j : Instr} (hj : Known c j) (i : Instr) :
    Known (exec side i c).core j := by
  cases j with
  | each d entries =>
      intro e he
      have hk := hj e he
      cases e with
      | plain f => trivial
      | wrapper w => exact Nat.lt_of_lt_of_le hk (exec_counts h i).1
  | _ => trivial

theorem tidy_inductive (side : Side) :
    Inductive (emitting side) (Quiet side) (Tidy side) Known fun _ => (none : Option Unit) :=
  Inductive.of_facts (fun c i h => h.inv.exec h.ok h.good)
    (fun c i h j hj => by
      have hun := h.inv.unwatched
      have hkeep := fun j hj => Known.exec hun (j := j) hj i
      cases i with
      | dispatch event =>
          rw [List.mem_singleton.mp hj]
          exact h.inv.known event
      | each d entries =>
          have hrest : ∀ e ∈ entries.tail, c.Knows e := fun e he => h.ok e (List.mem_of_mem_tail he)
          cases entries with
          | nil => cases hj
          | cons e entries =>
              refine hkeep j ?_
              simp only [emitting, exec] at hj
              rcases callEntry_cases hun d entries e with ⟨f, -, he⟩ | ⟨w, -, -, -, he⟩ |
                ⟨w, c', -, -, -, he⟩ <;> rw [he] at hj <;> simp [Effect.spawned] at hj
              · rcases hj with rfl | rfl
                · trivial
                · exact hrest
              · exact hj ▸ hrest
              · rcases hj with rfl | rfl
                · trivial
                · exact hrest
      | on event f prepend => cases hj
      | once event f prepend => cases hj
      | removeListener event l => cases side <;> cases hj
      | removeAllListeners event => cases side <;> cases event <;> cases hj
      | _ => cases hj)
    (fun c i j h hj => Known.exec h.inv.unwatched hj i)
    (fun c i _ hc => by cases i <;> trivial)
    (fun _ _ _ _ _ hh => nomatch hh)
    (fun _ _ hh => nomatch hh)

/-! ## 4. What a dispatch calls -/

/-- The entries a dispatch has called, in their order. -/
def called (d : Nat) (log : List Event) : List Listener :=
  log.filterMap fun
    | .ran d' e | .passed d' e => if d' = d then some e else none
    | .warning .. => none

/-- The entries a dispatch has still to call. -/
def uncalled (d : Nat) (l : List Instr) : List Listener :=
  l.flatMap fun
    | .each d' entries => if d' = d then entries else []
    | _ => []

theorem called_append (d : Nat) (l l' : List Event) :
    called d (l ++ l') = called d l ++ called d l' :=
  List.filterMap_append ..

theorem called_warnings (d : Nat) {ws : List Event} (h : ∀ e ∈ ws, e.IsWarning) :
    called d ws = [] := by
  refine List.filterMap_eq_nil_iff.mpr fun e he => ?_
  have hw := h e he
  cases e with
  | warning => rfl
  | _ => cases hw

/-- What is called: either way the dispatch has dealt with one entry. -/
theorem called_entry (d d' : Nat) (e : Listener) {ev : Event}
    (h : ev = .ran d' e ∨ ev = .passed d' e) :
    called d [ev] = if d' = d then [e] else [] := by
  rcases h with rfl | rfl <;> by_cases hd : d' = d <;> simp [called, hd]

/-- **One instruction moves the entries of a dispatch from the stack to the log**, if it does not
    start it. -/
theorem exec_called (h : c.Unwatched side) {i : Instr} {d : Nat} (k : List Instr)
    (hd : ∀ event, i = .dispatch event → d ≠ c.dispatchCount) :
    called d (exec side i c).core.log ++ uncalled d ((exec side i c).push ++ k) =
      called d c.log ++ uncalled d (i :: k) := by
  have hquiet : ∀ (c' : Core), c'.log = c.log → called d c'.log ++ uncalled d k =
      called d c.log ++ uncalled d k := fun c' hc => by
    rw [hc]
  have hregister : ∀ (c' : Core) (event : EventName) (l : Listener) (prepend : Bool),
      c'.Unwatched side → called d (register side c' event l prepend).core.log = called d c'.log :=
    fun c' event l prepend hc => by
      obtain ⟨-, -, -, -, -, -, ws, hlog, hws⟩ := register_spec hc event l prepend
      rw [hlog, called_append, called_warnings d hws, List.append_nil]
  cases i with
  | app f => rfl
  | on event f prepend =>
      simp only [exec, Outcome.effect]
      rw [hregister c event _ prepend h]
      rfl
  | once event f prepend =>
      have hw : (c.wrap event f).Unwatched side := h
      simp only [exec, Outcome.effect]
      rw [hregister _ event _ prepend hw]
      rfl
  | removeListener event l =>
      have hs := removeOrdinaryListener_shrinks side c event l
      cases side with
      | node host =>
          simp only [exec, removeNodeListener_ok h, Outcome.effect]
          exact hquiet _ hs.log
      | client => exact hquiet _ hs.log
  | removeAllListeners event =>
      cases side with
      | node host => exact hquiet _ (removeAllNodeListeners_ok h event).2.log
      | client => cases event <;> rfl
  | setMaxListeners n => rfl
  | dispatch event =>
      have hne := hd event rfl
      simp only [exec, uncalled, List.cons_append, List.nil_append, List.flatMap_cons,
        if_neg (Ne.symm hne)]
  | each d' entries =>
      cases entries with
      | nil =>
          simp only [exec, uncalled, List.nil_append, List.flatMap_cons]
          split <;> rfl
      | cons e entries =>
          have hmove : ∀ (ev : Event) (fs : List Instr), (ev = .ran d' e ∨ ev = .passed d' e) →
              uncalled d fs = [] →
              called d (c.log ++ [ev]) ++ uncalled d ((fs ++ [.each d' entries]) ++ k) =
                called d c.log ++ uncalled d (.each d' (e :: entries) :: k) := fun ev fs hev hfs => by
            have hfs' : uncalled d ((fs ++ [.each d' entries]) ++ k) =
                (if d' = d then entries else []) ++ uncalled d k := by
              simp only [uncalled, List.flatMap_append, List.flatMap_cons, List.flatMap_nil,
                List.append_nil] at hfs ⊢
              rw [hfs, List.nil_append]
            rw [called_append, called_entry d d' e hev, hfs']
            simp only [uncalled, List.flatMap_cons]
            split <;> simp
          simp only [exec]
          rcases callEntry_cases h d' entries e with ⟨f, -, he⟩ | ⟨w, -, -, -, he⟩ |
            ⟨w, c', -, -, hc, he⟩ <;> rw [he]
          · exact hmove _ [.app f] (Or.inl rfl) rfl
          · exact hmove _ [] (Or.inr rfl) rfl
          · have hs := removeOrdinaryListener_shrinks side c (c.wrappers w).event e
            rw [← hc] at hs
            show called d (c'.log ++ [_]) ++ _ = _
            rw [hs.log]
            exact hmove _ [.app _] (Or.inl rfl) rfl

/-- Everything runs synchronously. -/
theorem exec_post (h : c.Unwatched side) (i : Instr) : (exec side i c).post = [] := by
  cases i with
  | removeListener event l => cases side <;> rfl
  | removeAllListeners event => cases side <;> cases event <;> rfl
  | each d entries =>
      cases entries with
      | nil => rfl
      | cons e entries =>
          simp only [exec]
          rcases callEntry_cases h d entries e with ⟨f, -, he⟩ | ⟨w, -, -, -, he⟩ |
            ⟨w, c', -, -, -, he⟩ <;> rw [he]
  | _ => rfl

/-- Listeners return, and nobody listens to a meta-event. -/
def Undisturbed (side : Side) (σ : Config Core Instr) (a : Action Instr) : Prop :=
  a ≠ .throw ∧ (emitting side).Obeys (Quiet side) σ a

instance (side : Side) (σ : Config Core Instr) (a : Action Instr) :
    Decidable (Undisturbed side σ a) :=
  inferInstanceAs (Decidable (_ ∧ _))

variable {σ σ' : Config Core Instr} {tr : List (Core × Instr)}

theorem tidy_initial (side : Side) : Tidy side .initial where
  inhabited _ := nofun
  unwatched _ := ⟨rfl, rfl⟩
  known _ _ he := absurd he List.not_mem_nil
  made _ hw := nomatch hw
  count _ _ := rfl
  passed l₁ _ _ _ hl := by cases l₁ <;> cases hl

theorem reach_tidy (h : (emitting side).Reach (Undisturbed side) ⟨.initial, [], []⟩ σ) :
    Tidy side σ.core :=
  (Reach.inv_ok (tidy_inductive side) (fun _ _ hc => hc.2)
    ⟨tidy_initial side, fun _ ht => absurd ht List.not_mem_nil, .nil⟩ h).inv

theorem reach_queue (h : (emitting side).Reach (Undisturbed side) ⟨.initial, [], []⟩ σ) :
    σ.queue = [] := by
  induction h with
  | start => rfl
  | @step σ σ' a hr hc hs ih =>
      rcases step_cases hs with ⟨i, τ, rfl, hn, rfl⟩ | ⟨i, rfl, -, -, rfl⟩ | ⟨i, k, rfl, -, -, rfl⟩ |
        ⟨i, k, rfl, -, -, rfl⟩
      · have hun : τ.core.Unwatched side := (next_mem hn).2 ▸ (reach_tidy hr).unwatched
        have hpost : ((emitting side).exec i τ.core).post = [] := exec_post hun i
        have hτ : τ.queue = [] := by
          obtain ⟨-, ⟨-, -, hq⟩ | ⟨-, -, hq⟩⟩ := next_pending hn
          · exact hq ▸ ih
          · rw [ih] at hq
            cases hq
        unfold execute
        dsimp only
        rw [hpost, hτ]
        split <;> rfl
      · exact ih
      · exact ih
      · exact ih

/-- The entries of a dispatch, called and to be called. -/
def entriesOf (d : Nat) (σ : Config Core Instr) : List Listener :=
  called d σ.core.log ++ uncalled d σ.stack

theorem step_entries {a : Action Instr}
    (hr : (emitting side).Reach (Undisturbed side) ⟨.initial, [], []⟩ σ) (hc : Undisturbed side σ a)
    (hs : (emitting side).step σ a = some σ') :
    σ.core.dispatchCount ≤ σ'.core.dispatchCount ∧
      ∀ d, (d < σ.core.dispatchCount ∨ σ'.core.dispatchCount ≤ d) → entriesOf d σ' = entriesOf d σ := by
  rcases step_cases hs with ⟨i, τ, rfl, hn, rfl⟩ | ⟨i, rfl, -, hcall, rfl⟩ |
    ⟨i, k, rfl, hst, happ, rfl⟩ | ⟨i, k, rfl, -, -, -⟩
  · obtain ⟨hcore, ⟨-, hst, -⟩ | ⟨-, -, hq⟩⟩ := next_pending hn
    · have hun : τ.core.Unwatched side := hcore ▸ (reach_tidy hr).unwatched
      have hfails : ((emitting side).exec i τ.core).fails = false := exec_fails hun
      have hexec : (emitting side).execute i τ =
          ⟨(exec side i τ.core).core, (exec side i τ.core).push ++ τ.stack,
            τ.queue ++ (exec side i τ.core).post⟩ := by
        unfold execute
        dsimp only
        rw [if_neg (by rw [hfails]; nofun)]
        rfl
      rw [hexec]
      refine ⟨hcore ▸ (exec_counts hun i).2, fun d hd => ?_⟩
      rw [entriesOf, entriesOf, hcore, hst]
      refine exec_called hun τ.stack fun event hi heq => ?_
      subst hi
      rw [hcore] at hd
      rcases hd with hd | hd
      · exact absurd heq (Nat.ne_of_lt hd)
      · exact absurd heq (Nat.ne_of_gt hd)
    · rw [reach_queue hr] at hq
      cases hq
  · refine ⟨le_rfl, fun d _ => ?_⟩
    have hi : uncalled d [i] = [] := by cases i <;> first | rfl | cases hcall
    rw [entriesOf, entriesOf, uncalled, List.flatMap_cons]
    rw [uncalled, List.flatMap_singleton] at hi
    rw [hi]
    rfl
  · refine ⟨le_rfl, fun d _ => ?_⟩
    have hi : uncalled d [i] = [] := by cases i <;> first | rfl | cases happ
    rw [entriesOf, entriesOf, hst]
    rw [uncalled, List.flatMap_singleton] at hi
    rw [uncalled, uncalled, List.flatMap_cons, hi]
    rfl
  · exact absurd rfl hc.1

/-- A dispatch that has not started has no entries. -/
theorem reach_fresh (h : (emitting side).Reach (Undisturbed side) ⟨.initial, [], []⟩ σ) (d : Nat)
    (hd : σ.core.dispatchCount ≤ d) : entriesOf d σ = [] := by
  induction h with
  | start => rfl
  | step hr hc hs ih =>
      obtain ⟨hle, hsame⟩ := step_entries hr hc hs
      rw [hsame d (Or.inr hd)]
      exact ih (hle.trans hd)

/-- The entries of a dispatch that has started stay the same. -/
theorem run_entries (hr : (emitting side).Reach (Undisturbed side) ⟨.initial, [], []⟩ σ)
    (h : (emitting side).Run (Undisturbed side) σ tr σ') (d : Nat) (hd : d < σ.core.dispatchCount) :
    entriesOf d σ' = entriesOf d σ ∧ d < σ'.core.dispatchCount := by
  induction h with
  | start => exact ⟨rfl, hd⟩
  | step h hc hs ih =>
      obtain ⟨hsame, hlt⟩ := ih
      obtain ⟨hle, hsame'⟩ := step_entries (hr.trans h.reach) hc hs
      exact ⟨(hsame' d (Or.inl hlt)).trans hsame, hlt.trans_le hle⟩

/-! ## 5. The laws of a registry -/

/-- One registration more, at one end of the list of one name. -/
def Adds (side : Side) (event : EventName) (l : Listener) (prepend : Bool) (c c' : Core) : Prop :=
  c'.registered event = (if prepend = true ∧ side ≠ .client then l :: c.registered event
    else c.registered event ++ [l]) ∧
  ∀ event' ≠ event, c'.registered event' = c.registered event'

/-- At most one registration less, in the list of one name. -/
def Removes (side : Side) (event : EventName) (l : Listener) (c c' : Core) : Prop :=
  Deletes side (c.isListener l) (c.registered event) (c'.registered event) ∧
  ∀ event' ≠ event, c'.registered event' = c.registered event'

theorem register_adds (h : c.Unwatched side) (event : EventName) (l : Listener) (prepend : Bool) :
    Adds side event l prepend c (register side c event l prepend).core := by
  obtain ⟨-, hthis, hother, -⟩ := register_spec h event l prepend
  exact ⟨hthis, fun event' hne => by rw [Core.registered, hother event' hne]; rfl⟩

theorem removeOrdinaryListener_removes (side : Side) (c : Core) (event : EventName) (l : Listener) :
    Removes side event l c (removeOrdinaryListener side c event l).1 := by
  obtain ⟨hdel, hother, -⟩ := removeOrdinaryListener_deletes side c event l
  exact ⟨hdel, fun event' hne => by rw [Core.registered, hother event' hne]; rfl⟩

theorem isListener_self (c : Core) (l : Listener) : c.isListener l l = true := by
  simp [Core.isListener]

/-- From the end of a list its last entry is removed. -/
theorem Deletes.last {host : Bool} {l : Listener} {before after : List Listener}
    (h : Deletes (.node host) (c.isListener l) (before ++ [l]) after) : after = before := by
  have hself := isListener_self c l
  rcases h with ⟨hp, -⟩ | ⟨a, e, r, hl, -, hafter, hr⟩
  · rw [hp l (List.mem_append_right _ (List.mem_singleton_self l))] at hself
    cases hself
  · rw [if_neg nofun] at hr
    rcases List.eq_nil_or_concat r with rfl | ⟨r', x, rfl⟩
    · obtain ⟨hbefore, -⟩ := List.append_inj' hl rfl
      rw [hafter, List.append_nil, hbefore]
    · rw [List.concat_eq_append, ← List.cons_append, ← List.append_assoc] at hl
      obtain ⟨-, hx⟩ := List.append_inj' hl rfl
      have hlx := hr x (by simp)
      rw [← List.singleton_injective hx, hself] at hlx
      cases hlx

/-- The loop of `removeAllNodeListeners` empties the list it copied. -/
theorem removeEach_clears {host : Bool} (event : EventName) :
    ∀ (ls : List Listener) (c : Core), c.Unwatched (.node host) → c.registered event = ls.reverse →
      (removeEach host event c ls).core.registered event = [] ∧
        ∀ event' ≠ event, (removeEach host event c ls).core.registered event' = c.registered event'
  | [], c, _, hl => ⟨hl, fun _ _ => rfl⟩
  | l :: ls, c, h, hl => by
      have hs := removeOrdinaryListener_shrinks (.node host) c event l
      obtain ⟨hdel, hother⟩ := removeOrdinaryListener_removes (.node host) c event l
      rw [hl, List.reverse_cons] at hdel
      obtain ⟨hthis', hother'⟩ := removeEach_clears event ls _ (h.shrink hs) hdel.last
      simp only [removeEach, removeNodeListener_ok h]
      exact ⟨hthis', fun event' hne => (hother' event' hne).trans (hother event' hne)⟩

theorem removeAllAt_clears {host : Bool} (h : c.Unwatched (.node host)) (event event' : EventName) :
    (removeAllAt host c event).core.registered event' =
      if event' = event then [] else c.registered event' := by
  have hok := removeEach_ok event (c.registered event).reverse c h
  obtain ⟨hthis, hother⟩ :=
    removeEach_clears event (c.registered event).reverse c h (List.reverse_reverse _).symm
  simp only [removeAllAt, hok.1]
  by_cases he : event' = event
  · rw [if_pos he, he]
    exact hthis
  · rw [if_neg he]
    exact hother event' he

theorem removeNames_clears {host : Bool} (event : EventName) :
    ∀ (names : List EventName) (c : Core), c.Unwatched (.node host) →
      (removeNames host c names).core.registered event =
        if event ∈ names then [] else c.registered event
  | [], c, _ => rfl
  | name :: names, c, h => by
      obtain ⟨hf, hs⟩ := removeAllAt_ok h name
      simp only [removeNames, hf]
      rw [if_neg Bool.false_ne_true, removeNames_clears event names _ (h.shrink hs),
        removeAllAt_clears h]
      by_cases hn : event ∈ names
      · rw [if_pos hn, if_pos (List.mem_cons_of_mem _ hn)]
      · by_cases he : event = name <;> simp [he, hn]

/-- `removeAllListeners` leaves nothing at the name, or nothing at all. -/
theorem exec_clears (h : c.Unwatched side) (event : Option EventName) (event' : EventName) :
    (exec side (.removeAllListeners event) c).core.registered event' =
      if event = none ∨ event = some event' then [] else c.registered event' := by
  cases side with
  | client =>
      cases event with
      | none => rfl
      | some event =>
          simp only [exec, Core.registered, OMap.get?_erase]
          by_cases he : event' = event
          · simp [he]
          · simp [he, Ne.symm he]
  | node host =>
      cases event with
      | some event =>
          refine (removeAllAt_clears h event event').trans ?_
          by_cases he : event' = event
          · simp [he]
          · simp [he, Ne.symm he]
      | none =>
          obtain ⟨hf, -⟩ := removeNames_ok
            (c.eventListeners.keys.erase removeListenerEvent ++ [removeListenerEvent]) c h
          have hclear := removeNames_clears event'
            (c.eventListeners.keys.erase removeListenerEvent ++ [removeListenerEvent]) c h
          simp only [exec, removeAllNodeListeners, hf, Outcome.effect]
          rw [if_pos (Or.inl trivial)]
          refine hclear.trans ?_
          split
          · rfl
          · rename_i hn
            have hkey : event' ∉ c.eventListeners.keys := fun hk => hn (by
              by_cases he : event' = removeListenerEvent
              · simp [he]
              · exact List.mem_append_left _ ((List.mem_erase_of_ne he).mpr hk))
            rw [Core.registered]
            cases hg : c.eventListeners.get? event' with
            | none => rfl
            | some l => exact absurd ((c.eventListeners.mem_keys event').mpr (hg ▸ rfl)) hkey

/-- **The laws of a registry**, over a run and the state it ends in. -/
structure Orderly (side : Side) (tr : List (Core × Instr)) (σ : Config Core Instr) : Prop where
  inhabited : σ.core.Inhabited
  registers : ∀ x ∈ tr, ∀ event f prepend,
    (x.2 = .on event f prepend → Adds side event (.plain f) prepend x.1 (exec side x.2 x.1).core) ∧
    (x.2 = .once event f prepend →
      Adds side event (.wrapper x.1.wrapperCount) prepend x.1 (exec side x.2 x.1).core)
  /-- `removeListener`, called by the application or by a wrapper that fires -/
  removes : ∀ x ∈ tr, (∀ event l, x.2 = .removeListener event l →
      Removes side event l x.1 (exec side x.2 x.1).core) ∧
    ∀ d w entries, x.2 = .each d (.wrapper w :: entries) →
      (side ≠ .client → (x.1.wrappers w).fired = false) →
        Removes side (x.1.wrappers w).event (.wrapper w) x.1 (exec side x.2 x.1).core
  clears : ∀ x ∈ tr, ∀ event, x.2 = .removeAllListeners event → ∀ event',
    (exec side x.2 x.1).core.registered event' =
      if event = none ∨ event = some event' then [] else x.1.registered event'
  /-- a dispatch calls the registrations it found, one after the other -/
  calls : ∀ tr₁ c event tr₂, tr = tr₁ ++ (c, .dispatch event) :: tr₂ →
    entriesOf c.dispatchCount σ = c.registered event
  /-- where it runs none of them, that is a wrapper that has fired -/
  passes : ∀ l₁ d e l₂, σ.core.log = l₁ ++ .passed d e :: l₂ → ∃ w, e = .wrapper w ∧ runs w l₁ = 1
  once : side ≠ .client → ∀ w, runs w σ.core.log ≤ 1

theorem run_tidy (h : (emitting side).Run (Undisturbed side) ⟨.initial, [], []⟩ tr σ)
    {x : Core × Instr} (hx : x ∈ tr) : Tidy side x.1 := by
  obtain ⟨tr₁, tr₂, rfl⟩ := List.append_of_mem hx
  obtain ⟨σ₁, τ, σ₂, h₁, -, hcore, -, -, -⟩ := h.split
  exact hcore ▸ reach_tidy h₁.reach

/-- **A registry keeps order, multiplicity and once-ness in every run** whose listeners return and
    where nobody listens to a meta-event, whatever the listeners do to the registry meanwhile. -/
theorem registries_orderly (side : Side)
    (h : (emitting side).Run (Undisturbed side) ⟨.initial, [], []⟩ tr σ) : Orderly side tr σ := by
  have htidy := reach_tidy h.reach
  refine ⟨htidy.inhabited, fun x hx event f prepend => ⟨?_, ?_⟩, fun x hx => ⟨?_, ?_⟩,
    fun x hx event hi event' => ?_, fun tr₁ c event tr₂ htr => ?_, htidy.passed, fun hside w => ?_⟩
  · intro hi
    rw [hi]
    exact register_adds (run_tidy h hx).unwatched event _ prepend
  · intro hi
    rw [hi]
    have hw : (x.1.wrap event f).Unwatched side := (run_tidy h hx).unwatched
    exact register_adds hw event _ prepend
  · intro event l hi
    rw [hi]
    have hremoves := removeOrdinaryListener_removes side x.1 event l
    cases side with
    | node host =>
        simp only [exec, removeNodeListener_ok (run_tidy h hx).unwatched]
        exact hremoves
    | client => exact hremoves
  · intro d w entries hi hf
    rw [hi]
    have hremoves := removeOrdinaryListener_removes side x.1 (x.1.wrappers w).event (.wrapper w)
    simp only [exec]
    rcases callEntry_cases (run_tidy h hx).unwatched d entries (.wrapper w) with ⟨f, he, -⟩ |
      ⟨w', he, hf', hside, -⟩ | ⟨w', c', he, -, rfl, hcall⟩
    · cases he
    · cases he
      rw [hf hside] at hf'
      cases hf'
    · cases he
      rw [hcall]
      exact hremoves
  · rw [hi]
    exact exec_clears (run_tidy h hx).unwatched event event'
  · subst htr
    obtain ⟨σ₁, τ, σ₂, h₁, hc, rfl, hn, hs, h₂⟩ := h.split
    have hr₂ := h₁.reach.step hc hs
    have hfresh := reach_fresh h₁.reach σ₁.core.dispatchCount le_rfl
    rcases step_cases hs with ⟨i, τ', -, hn', rfl⟩ | ⟨i, ha, -⟩ | ⟨i, k, ha, -⟩ | ⟨i, k, ha, -⟩
    · rw [hn, Option.some.injEq, Prod.mk.injEq] at hn'
      obtain ⟨rfl, rfl⟩ := hn'
      have hcore := (next_mem hn).2
      have hstack : uncalled σ₁.core.dispatchCount τ.stack = [] := by
        rw [entriesOf] at hfresh
        obtain ⟨-, ⟨-, hst, -⟩ | ⟨-, -, hq⟩⟩ := next_pending hn
        · rw [hst] at hfresh
          exact (List.append_eq_nil_iff.mp hfresh).2
        · rw [reach_queue h₁.reach] at hq
          cases hq
      have hexec : (emitting side).execute (.dispatch event) τ =
          ⟨{ τ.core with dispatchCount := τ.core.dispatchCount + 1 },
            [.each τ.core.dispatchCount (τ.core.registered event)] ++ τ.stack, τ.queue ++ []⟩ := rfl
      rw [hexec] at h₂ hr₂
      have hlt : σ₁.core.dispatchCount < τ.core.dispatchCount + 1 := hcore ▸ Nat.lt_succ_self _
      rw [(run_entries hr₂ h₂ _ hlt).1, entriesOf, hcore]
      rw [entriesOf] at hfresh
      simp only [uncalled, List.cons_append, List.nil_append, List.flatMap_cons, if_true]
      rw [uncalled] at hstack
      rw [(List.append_eq_nil_iff.mp hfresh).1, hstack, List.append_nil, List.nil_append]
    · cases ha
    · cases ha
    · cases ha
  · rw [htidy.count hside w]
    split
    · exact le_rfl
    · exact Nat.zero_le _

/-- A listener dispatches its own event again: the `once` listener behind it runs in the inner
    dispatch, and the outer one passes its wrapper. -/
theorem registries_orderly_nested : ∃ tr σ,
    (emitting (.node false)).Run (Undisturbed (.node false)) ⟨.initial, [], []⟩ tr σ ∧
      σ.core.log = [.ran 0 (.plain 7), .ran 1 (.plain 7), .ran 1 (.wrapper 0), .passed 0 (.wrapper 0)] ∧
      σ.core.registered (.string "e") = [.plain 7] ∧ Orderly (.node false) tr σ := by
  obtain ⟨tr, σ, hr, hσ⟩ := run_of_script (emitting (.node false)) (Undisturbed (.node false))
    ⟨.initial, [], []⟩ 40
    [.call (.once (.string "e") 8 false), .call (.on (.string "e") 7 true),
      .call (.dispatch (.string "e")), .call (.dispatch (.string "e")), .ret, .ret, .ret]
    (fun r => decide (r.2.core.log =
      [.ran 0 (.plain 7), .ran 1 (.plain 7), .ran 1 (.wrapper 0), .passed 0 (.wrapper 0)] ∧
        r.2.core.registered (.string "e") = [.plain 7]))
    (by decide +kernel)
  obtain ⟨hlog, hreg⟩ := of_decide_eq_true hσ
  exact ⟨tr, σ, hr, hlog, hreg, registries_orderly (.node false) hr⟩

end Steps

end Smocket.Emitters
