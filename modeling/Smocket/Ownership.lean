import Smocket.Machine

/-
  File:      Smocket/Ownership.lean
  Subject:   WHOSE ADAPTER IS WHOSE. `Server.adapter` and `Server.getNamespace` (`server.ts`) with
             the identity of the adapter objects that the factory returns.

  The factory may throw, return an adapter of another namespace, or one it has returned before; it
  does nothing else to the server or its namespaces. Listeners of `new_namespace` may: they run when
  nothing is left of `getNamespace`, so that what they call comes after it in a run. Whatever else
  the runtime does may come between two calls.

  * `Ledger.step` -- one call, or one instruction of the runtime;
  * `Ledger.Owned` -- one namespace object for a name, one adapter object for a namespace;
  * `namespaces_own` -- what holds of every run.
-/

namespace Smocket

open Ordered EventLoop

/-! ## 1. Adapter objects -/

/-- An adapter object: the one a namespace is constructed with, or one the application made. -/
inductive Instance where
  | builtin (n : NspId)
  | made (k : Nat)
  deriving DecidableEq

/-- What one call of a factory comes to. -/
inductive FactoryCall where
  | threw (message : String)
  | returned (x : Instance) (base : AdapterBase) (layers : List Layer)
  deriving DecidableEq

/-- An entry of `replacements`. -/
structure Replacement where
  nsp : NspId
  adapter : Instance
  base : AdapterBase
  layers : List Layer

def Replacement.result (r : Replacement) : FactoryResult := .fresh r.base r.layers

/-- The server, with `Namespace.adapter` and `Server.adapterInstances`. -/
structure Ledger where
  core : Core := newServer.core
  adapterOf : NspId → Instance := .builtin
  adapterInstances : OSet Instance := .empty

def freshInstanceError : String := "adapter factory must return a fresh instance for each namespace"

def lateRegistrationError : String :=
  "adapter must be registered before the first connection attempt"

/-- The first loop of `Server.adapter`, from `used` on: the entries it adds to `replacements`. -/
def replacements (factory : NspId → FactoryCall) :
    List NspId → OSet Instance → Except String (List Replacement)
  | [], _ => .ok []
  | n :: ns, used =>
      match factory n with
      | .threw message => .error message
      | .returned x base layers =>
          if x ∈ used then .error freshInstanceError
          else (replacements factory ns (used.insert x)).map (⟨n, x, base, layers⟩ :: ·)

namespace Ledger

variable {P : Platform} {w : Ledger}

/-- `Server.adapter` from its second loop on. -/
def replace (w : Ledger) (rs : List Replacement) : Ledger where
  core := { w.core with srv := (Smocket.adapter w.core (rs.map Replacement.result)).part }
  adapterOf := rs.foldl (fun f r => Function.update f r.nsp r.adapter) w.adapterOf
  adapterInstances := OSet.ofList (rs.map Replacement.adapter)

/-- `Server.adapter`. -/
def adapter (w : Ledger) (factory : NspId → FactoryCall) : Except String Ledger :=
  if w.core.srv.admissionStarted then .error lateRegistrationError
  else (replacements factory w.core.srv.table.values w.adapterInstances).map w.replace

/-- `Server.getNamespace` from the adapter on. -/
def create (w : Ledger) (name : String) (attachTo : Option ParentId) (r : FactoryResult)
    (x : Instance) (adapterInstances : OSet Instance) : Ledger :=
  let σ := { w.core with srv := { w.core.srv with factoryResult := r } }
  { core := { σ with srv := (createNamespace σ name attachTo σ.srv.closed .done).part }
    adapterOf := Function.update w.adapterOf w.core.srv.nspCount x
    adapterInstances }

/-- `Server.getNamespace` for a new name, up to `emitNewNamespace`, with what the factory would
    return. -/
def build (P : Platform) (w : Ledger) (normalized : String) (parent : Option ParentId)
    (call : FactoryCall) : Except String Ledger :=
  let attachTo := parent <|> w.core.srv.matchingRegExpParent P normalized
  if w.core.srv.adapterFactory then
    match call with
    | .threw message => .error message
    | .returned x base layers =>
        if x ∈ w.adapterInstances then .error freshInstanceError
        else .ok (w.create normalized attachTo (.fresh base layers) x (w.adapterInstances.insert x))
  else
    .ok (w.create normalized attachTo (.fresh .builtin []) (.builtin w.core.srv.nspCount)
      w.adapterInstances)

/-- What an operation comes to: the server after it, and what it throws, if it throws. -/
structure Outcome where
  ledger : Ledger
  thrown : Option String

/-- A call that changes nothing where it throws. -/
def Outcome.of (w : Ledger) : Except String Ledger → Outcome
  | .error message => ⟨w, some message⟩
  | .ok w' => ⟨w', none⟩

/-- `Server.getNamespace`; `listeners` is what the listeners of `new_namespace` throw, if they
    throw. The namespace is in the table before they are called. -/
def getNamespace (P : Platform) (w : Ledger) (name : String) (parent : Option ParentId)
    (call : FactoryCall) (listeners : Option String) : Outcome :=
  let normalized := normalizeNamespace name
  match w.core.srv.table.get? normalized with
  | some _ => ⟨w, none⟩
  | none =>
      match w.build P normalized parent call with
      | .error message => ⟨w, some message⟩
      | .ok w' => ⟨w', if normalized = "/" then none else listeners⟩

/-- What happens to a server: `of`, `nextConnection` or an admission asks for a namespace, a factory
    is registered, or an instruction of the runtime is executed. -/
inductive Op where
  | getNamespace (name : String) (parent : Option ParentId) (call : FactoryCall)
      (listeners : Option String)
  | adapter (factory : NspId → FactoryCall)
  | instr (i : Instr)

/-- The two instructions that stand for what the other operations do. -/
def stands : Instr → Bool
  | .srv (.adapter _) | .srv (.createNamespace ..) => true
  | _ => false

/-- One operation. -/
def step (P : Platform) (w : Ledger) : Op → Outcome
  | .getNamespace name parent call listeners => w.getNamespace P name parent call listeners
  | .adapter factory => .of w (w.adapter factory)
  | .instr i => ⟨if stands i then w else { w with core := (Smocket.exec P i w.core).core }, none⟩

/-- The state after an operation, which may have thrown. -/
def exec (P : Platform) (w : Ledger) (o : Op) : Ledger := (w.step P o).ledger

def run (P : Platform) (w : Ledger) (ops : List Op) : Ledger := ops.foldl (Ledger.exec P) w

/-- The namespaces there are. -/
abbrev Exists (w : Ledger) (n : NspId) : Prop := n < w.core.srv.nspCount

end Ledger

/-! ## 2. What the rest of the runtime leaves alone -/

variable {P : Platform}

/-- The children of a dynamic parent. -/
def Srv.childrenOf (ν : Srv) (p : ParentId) : List NspId :=
  (ν.parents[p]?).elim [] fun x => x.children.elems

/-- A change that leaves the names, the parents' children and the factory alone, and opens nothing
    that was closed. -/
structure Srv.SameNames (ν ν' : Srv) : Prop where
  table : ν'.table = ν.table
  count : ν'.nspCount = ν.nspCount
  name : ∀ n, (ν'.namespaces n).name = (ν.namespaces n).name
  children : ∀ p, ν'.childrenOf p = ν.childrenOf p
  factory : ν'.adapterFactory = ν.adapterFactory
  shut : ∀ n, (ν.namespaces n).closed = true → (ν'.namespaces n).closed = true

namespace Srv.SameNames

variable {ν ν' ν'' : Srv}

theorem refl (ν : Srv) : ν.SameNames ν :=
  ⟨rfl, rfl, fun _ => rfl, fun _ => rfl, rfl, fun _ h => h⟩

theorem trans (h : ν.SameNames ν') (h' : ν'.SameNames ν'') : ν.SameNames ν'' where
  table := h'.table.trans h.table
  count := h'.count.trans h.count
  name n := (h'.name n).trans (h.name n)
  children p := (h'.children p).trans (h.children p)
  factory := h'.factory.trans h.factory
  shut n hn := h'.shut n (h.shut n hn)

/-- A change elsewhere. -/
theorem of_eq (ht : ν'.table = ν.table) (hc : ν'.nspCount = ν.nspCount)
    (hn : ν'.namespaces = ν.namespaces) (hp : ν'.parents = ν.parents)
    (hf : ν'.adapterFactory = ν.adapterFactory) : ν.SameNames ν' :=
  ⟨ht, hc, fun n => by rw [hn], fun p => by rw [childrenOf, childrenOf, hp], hf,
    fun n h => by rw [hn]; exact h⟩

theorem setNamespace (ν : Srv) (n : NspId) {g : Namespace → Namespace}
    (hg : ∀ N, (g N).name = N.name ∧ (N.closed = true → (g N).closed = true)) :
    ν.SameNames (ν.setNamespace n g) where
  table := rfl
  count := rfl
  name m := by
    simp only [Srv.setNamespace, modify_apply]
    split
    · rename_i hm
      rw [(hg _).1, hm]
    · rfl
  children _ := rfl
  factory := rfl
  shut m h := by
    simp only [Srv.setNamespace, modify_apply]
    split
    · rename_i hm
      exact (hg _).2 (hm ▸ h)
    · exact h

theorem setObserver (h : ν.SameNames ν') (o : ObserverId) (x : Observer) :
    ν.SameNames (ν'.setObserver o x) :=
  h.trans (of_eq rfl rfl rfl rfl rfl)

theorem settleWaiter (h : ν.SameNames ν') (w : Waiter) (x : Observer) :
    ν.SameNames (settleWaiter ν' w x).1 := by
  unfold Smocket.settleWaiter
  split
  · exact h
  · exact h.setObserver _ _

theorem settleWaiters (x : Observer) (ws : List Waiter) {r : Srv × List Instr}
    (h : ν.SameNames r.1) : ν.SameNames (settleWaiters x r ws).1 := by
  unfold Smocket.settleWaiters
  exact List.foldlRecOn (motive := fun r' : Srv × List Instr => ν.SameNames r'.1) _ _ h
    fun _ h' w _ => h'.settleWaiter w x

theorem startClose (ν : Srv) : ν.SameNames ν.startClose :=
  List.foldlRecOn (motive := fun ν' : Srv => ν.SameNames ν') _ _ (of_eq rfl rfl rfl rfl rfl)
    fun _ h _ _ => h.setObserver _ _

/-- An adapter set while a factory is being registered. -/
theorem useAdapter {b : Bool} (h : ν.SameNames { ν' with adapterFactory := b }) (n : NspId)
    {g : Namespace → Namespace} (hg : ∀ N, (g N).name = N.name ∧ (g N).closed = N.closed) :
    ν.SameNames { ν'.setNamespace n g with adapterFactory := b } :=
  h.trans (setNamespace _ n fun N => ⟨(hg N).1, fun hN => (hg N).2.trans hN⟩)

/-- A parent added at the end has no children yet. -/
theorem addParent (ν : Srv) (m : Matcher) (regexParents : OMap RegExpId ParentId) :
    ν.SameNames { ν with parents := ν.parents ++ [{ matcher := m }], regexParents } where
  table := rfl
  count := rfl
  name _ := rfl
  children p := by
    simp only [childrenOf, List.getElem?_append]
    split
    · rfl
    · rename_i hp
      rw [List.getElem?_eq_none (l := ν.parents) (Nat.le_of_not_lt hp)]
      rcases p - ν.parents.length with _ | k <;> rfl
  factory := rfl
  shut _ h := h

theorem useParent (ν : Srv) (p : ParentId) (f : FnId) :
    ν.SameNames { ν with parents := ν.parents.modify p fun x =>
      { x with middleware := x.middleware ++ [f] } } where
  table := rfl
  count := rfl
  name _ := rfl
  children q := by
    simp only [childrenOf, List.getElem?_modify]
    split
    · cases ν.parents[q]? <;> rfl
    · cases ν.parents[q]? <;> rfl
  factory := rfl
  shut _ h := h

end Srv.SameNames

theorem execSrv_sameNames {σ : Core} {i : SrvInstr} (hi : Ledger.stands (.srv i) = false) :
    σ.srv.SameNames (execSrv P σ i).part := by
  have skip : σ.srv.SameNames σ.srv := .refl _
  cases i with
  | adapter | createNamespace => cases hi
  | ofMatcher m => exact .addParent _ _ _
  | use n f => exact .setNamespace _ _ fun _ => ⟨rfl, id⟩
  | useParent p f => exact .useParent _ _ _
  | nextConnection name =>
      simp only [execSrv, nextConnection]
      repeat' split
      all_goals exact .of_eq rfl rfl rfl rfl rfl
  | continuePair | dynamicTask | tryParent =>
      simp only [execSrv, continuePair, dynamicTask, tryParent]
      repeat' split
      all_goals exact .of_eq rfl rfl rfl rfl rfl
  | authorized | dynamicAuthorized | matched | getNamespace | closeFromServer | awaitClosed =>
      simp only [execSrv, authorized, dynamicAuthorized, matched, getNamespace, closeFromServer,
        awaitClosed]
      repeat' split
      all_goals exact skip
  | observe o n =>
      simp only [execSrv, observe]
      split
      · exact .setObserver (.setNamespace _ n (by intro _; exact ⟨rfl, id⟩)) _ _
      · exact .setNamespace _ n fun _ => ⟨rfl, id⟩
  | offer s =>
      simp only [execSrv, offer]
      split
      · exact .setNamespace _ _ fun _ => ⟨rfl, id⟩
      · exact .settleWaiter (.setNamespace _ _ (by intro _; exact ⟨rfl, id⟩)) _ _
  | discardReady s | setDropped n layer sid dropped | removeSocket s =>
      simp only [execSrv, discardReady, setDropped, removeSocket]
      repeat' split
      all_goals first
        | exact skip
        | exact .setNamespace _ _ fun _ => ⟨rfl, id⟩
  | broadcast op event =>
      simp only [execSrv, broadcast]
      split
      · exact skip
      · exact .setNamespace _ _ (by intro _; rw [Namespace.trace_eq]; exact ⟨rfl, id⟩)
  | close =>
      simp only [execSrv, close]
      split
      · exact .startClose _
      · exact .trans (.startClose _) (.of_eq rfl rfl rfl rfl rfl)
  | closeNamespace n =>
      exact .trans (.settleWaiters .rejected (σ.srv.namespaces n).waiters
        (.setNamespace _ n (by intro _; exact ⟨rfl, fun _ => rfl⟩))) (.of_eq rfl rfl rfl rfl rfl)
  | _ => exact .of_eq rfl rfl rfl rfl rfl

theorem exec_sameNames {σ : Core} {i : Instr} (hi : Ledger.stands i = false) :
    σ.srv.SameNames (exec P i σ).core.srv := by
  cases i with
  | srv i => exact execSrv_sameNames hi
  | _ => exact .refl _

/-! ## 3. Registering a factory -/

/-- The adapter a call returned, if it returned. -/
def FactoryCall.adapter? : FactoryCall → Option Instance
  | .threw _ => none
  | .returned x .. => some x

/-- The calls for these namespaces return adapters that are not in use, each once. -/
structure Usable (factory : NspId → FactoryCall) (ns : List NspId) (used : OSet Instance) :
    Prop where
  unused : ∀ n ∈ ns, ∃ x, (factory n).adapter? = some x ∧ x ∉ used
  distinct : (ns.map fun n => (factory n).adapter?).Nodup

/-- What the loop leaves when it comes to its end. -/
structure Replaces (factory : NspId → FactoryCall) (ns : List NspId) (used : OSet Instance)
    (rs : List Replacement) : Prop where
  namespaces : rs.map Replacement.nsp = ns
  returned : ∀ r ∈ rs, factory r.nsp = .returned r.adapter r.base r.layers
  distinct : (rs.map Replacement.adapter).Nodup
  unused : ∀ r ∈ rs, r.adapter ∉ used

variable {factory : NspId → FactoryCall} {ns : List NspId} {used : OSet Instance}

theorem replacements_spec {rs : List Replacement} (h : replacements factory ns used = .ok rs) :
    Replaces factory ns used rs := by
  induction ns generalizing used rs with
  | nil =>
      cases h
      exact ⟨rfl, by simp, List.nodup_nil, by simp⟩
  | cons n ns ih =>
      unfold replacements at h
      split at h
      · cases h
      · rename_i x base layers hc
        split at h
        · cases h
        · rename_i hx
          cases hr : replacements factory ns (used.insert x) with
          | error e =>
              rw [hr] at h
              cases h
          | ok rs' =>
              rw [hr] at h
              cases h
              have hrest := ih hr
              refine ⟨by rw [List.map_cons, hrest.namespaces], ?_, ?_, ?_⟩
              · intro r hr'
                rcases List.mem_cons.mp hr' with rfl | hr'
                · exact hc
                · exact hrest.returned r hr'
              · refine List.nodup_cons.mpr ⟨?_, hrest.distinct⟩
                rintro hx'
                obtain ⟨r, hr', he⟩ := List.mem_map.mp hx'
                exact hrest.unused r hr' (OSet.mem_insert.mpr (Or.inr he))
              · intro r hr'
                rcases List.mem_cons.mp hr' with rfl | hr'
                · exact hx
                · exact fun hu => hrest.unused r hr' (OSet.mem_insert.mpr (Or.inl hu))

/-- **The loop comes to its end where every call returns an adapter that is not in use and that no
    earlier call of the same loop returned.** -/
theorem replacements_ok_iff :
    (∃ rs, replacements factory ns used = .ok rs) ↔ Usable factory ns used := by
  constructor
  · rintro ⟨rs, h⟩
    have hr := replacements_spec h
    have hcall : ∀ r ∈ rs, (factory r.nsp).adapter? = some r.adapter := fun r h' => by
      rw [hr.returned r h']
      rfl
    refine ⟨fun n hn => ?_, ?_⟩
    · rw [← hr.namespaces] at hn
      obtain ⟨r, hr', rfl⟩ := List.mem_map.mp hn
      exact ⟨r.adapter, hcall r hr', hr.unused r hr'⟩
    · have he : ns.map (fun n => (factory n).adapter?) =
          (rs.map Replacement.adapter).map some := by
        rw [← hr.namespaces, List.map_map, List.map_map]
        exact List.map_congr_left hcall
      rw [he]
      exact hr.distinct.map fun _ _ => Option.some.inj
  · intro h
    induction ns generalizing used with
    | nil => exact ⟨[], rfl⟩
    | cons n ns ih =>
        obtain ⟨x, hx, hu⟩ := h.unused n List.mem_cons_self
        obtain ⟨hnot, hnodup⟩ := List.nodup_cons.mp h.distinct
        have hrest : Usable factory ns (used.insert x) := by
          refine ⟨fun m hm => ?_, hnodup⟩
          obtain ⟨y, hy, hyu⟩ := h.unused m (List.mem_cons_of_mem _ hm)
          refine ⟨y, hy, fun hin => ?_⟩
          rcases OSet.mem_insert.mp hin with hin | rfl
          · exact hyu hin
          · exact hnot (List.mem_map.mpr ⟨m, hm, hy.trans hx.symm⟩)
        obtain ⟨rs, hrs⟩ := ih hrest
        unfold replacements
        cases hc : factory n with
        | threw message =>
            rw [hc] at hx
            cases hx
        | returned y base layers =>
            rw [hc] at hx
            cases hx
            refine ⟨⟨n, x, base, layers⟩ :: rs, ?_⟩
            dsimp only
            rw [if_neg hu, hrs]
            rfl

/-- Writing at several places, each once. -/
theorem foldl_modify {α κ : Type} (key : κ → Nat) (g : κ → α → α) {l : List κ}
    (h : (l.map key).Nodup) (f : Nat → α) :
    (∀ x ∈ l, l.foldl (fun f x => modify f (key x) (g x)) f (key x) = g x (f (key x))) ∧
      ∀ n, (∀ x ∈ l, key x ≠ n) → l.foldl (fun f x => modify f (key x) (g x)) f n = f n := by
  induction l generalizing f with
  | nil => exact ⟨by simp, fun _ _ => rfl⟩
  | cons x l ih =>
      obtain ⟨hnot, hnodup⟩ := List.nodup_cons.mp h
      obtain ⟨hin, hout⟩ := ih hnodup (modify f (key x) (g x))
      have hne : ∀ y ∈ l, key y ≠ key x := fun y hy he => hnot (List.mem_map.mpr ⟨y, hy, he⟩)
      refine ⟨fun y hy => ?_, fun n hn => ?_⟩
      · rcases List.mem_cons.mp hy with rfl | hy
        · rw [List.foldl_cons, hout _ hne, modify_apply, if_pos rfl]
        · rw [List.foldl_cons, hin y hy, modify_apply, if_neg (hne y hy)]
      · rw [List.foldl_cons, hout n fun y hy => hn y (List.mem_cons_of_mem _ hy), modify_apply,
          if_neg (hn x List.mem_cons_self).symm]

theorem adapter_sameNames (σ : Core) (results : List FactoryResult) : σ.srv.SameNames
    { (adapter σ results).part with adapterFactory := σ.srv.adapterFactory } := by
  refine adapter_induct (motive := fun ν => σ.srv.SameNames
    { ν with adapterFactory := σ.srv.adapterFactory }) (.refl _)
    (fun _ => .of_eq rfl rfl rfl rfl rfl) fun _ ν h n r _ => h.useAdapter n fun N => ?_
  rw [Namespace.useAdapter_eq]
  exact ⟨rfl, rfl⟩

/-- `namespace.useAdapter(adapter)`; the namespaces have the indexes of `μ`. -/
def Replacement.use (μ : Memb) (r : Replacement) (N : Namespace) : Namespace :=
  N.useAdapter (μ.adapters r.nsp) r.result

theorem foldl_setNamespace (μ : Memb) (rs : List Replacement) (ν : Srv) :
    rs.foldl (fun ν r => ν.setNamespace r.nsp (r.use μ)) ν =
      { ν with namespaces := rs.foldl (fun f r => modify f r.nsp (r.use μ)) ν.namespaces } := by
  induction rs generalizing ν with
  | nil => rfl
  | cons r rs ih => exact ih (ν.setNamespace r.nsp (r.use μ))

/-- The runtime's step, where every call returned a fresh adapter. -/
theorem adapter_part {σ : Core} {rs : List Replacement} (hs : σ.srv.admissionStarted = false)
    (hr : rs.map Replacement.nsp = σ.srv.table.values) :
    (adapter σ (rs.map Replacement.result)).part =
      { σ.srv with
        adapterFactory := true
        namespaces := rs.foldl (fun f r => modify f r.nsp (r.use σ.memb)) σ.srv.namespaces } := by
  have hzip : σ.srv.table.values.zip (rs.map Replacement.result) =
      rs.map fun r => (r.nsp, r.result) := by
    rw [← hr, List.zip_map']
  have hfresh : (rs.map fun r => (r.nsp, r.result)).any
      (fun x => σ.srv.usesAdapter x.1 x.2) = false := by
    simp [Replacement.result, Srv.usesAdapter]
  have hlen : decide ((rs.map Replacement.result).length ≠ σ.srv.table.values.length) = false := by
    simp [← hr]
  unfold adapter
  simp only [hs, hzip, hfresh, hlen, Bool.or_false, Bool.false_eq_true, if_false]
  rw [List.foldl_map]
  exact foldl_setNamespace σ.memb rs _

/-! ## 4. A new namespace -/

/-- What `create` makes of the server. -/
def Srv.created (ν : Srv) (name : String) (attachTo : Option ParentId) (r : FactoryResult) : Srv :=
  let ν' := { ν with factoryResult := r }
  (ν'.register name (ν'.newNamespace name attachTo ν.closed)).addChild attachTo ν.nspCount

theorem Ledger.create_srv (w : Ledger) (name : String) (attachTo : Option ParentId)
    (base : AdapterBase) (layers : List Layer) (x : Instance) (used : OSet Instance) :
    (w.create name attachTo (.fresh base layers) x used).core.srv =
      w.core.srv.created name attachTo (.fresh base layers) := by
  have hr : decide (FactoryResult.fresh base layers = .reused) = false := by simp
  unfold Ledger.create createNamespace
  simp only [hr, Bool.and_false, Bool.false_eq_true, if_false]
  rfl

section Created

variable (ν : Srv) (name : String) (attachTo : Option ParentId) (r : FactoryResult)

theorem Srv.created_table : (ν.created name attachTo r).table = ν.table.set name ν.nspCount := by
  cases attachTo <;> rfl

theorem Srv.created_count : (ν.created name attachTo r).nspCount = ν.nspCount + 1 := by
  cases attachTo <;> rfl

theorem Srv.created_factory : (ν.created name attachTo r).adapterFactory = ν.adapterFactory := by
  cases attachTo <;> rfl

theorem Srv.created_name (n : NspId) : ((ν.created name attachTo r).namespaces n).name =
    if n = ν.nspCount then name else (ν.namespaces n).name := by
  have hns : (ν.created name attachTo r).namespaces = Function.update ν.namespaces ν.nspCount
      (({ ν with factoryResult := r } : Srv).newNamespace name attachTo ν.closed) := by
    cases attachTo <;> rfl
  rw [hns, Function.update_apply]
  split
  · exact (newNamespace_spec ..).1
  · rfl

theorem Srv.created_children {p : ParentId} {n : NspId}
    (h : n ∈ (ν.created name attachTo r).childrenOf p) :
    n ∈ ν.childrenOf p ∨ n = ν.nspCount ∧ attachTo = some p := by
  cases attachTo with
  | none => exact Or.inl h
  | some q =>
      have hp : (ν.created name (some q) r).parents =
          ν.parents.modify q fun x => { x with children := x.children.insert ν.nspCount } := rfl
      unfold Srv.childrenOf at h ⊢
      rw [hp, List.getElem?_modify] at h
      cases hx : ν.parents[p]? with
      | none =>
          rw [hx] at h
          split at h <;> exact absurd h List.not_mem_nil
      | some x =>
          rw [hx] at h
          split at h
          · rename_i hq
            rcases OSet.mem_insert.mp (OSet.mem_def.mpr h) with h | h
            · exact Or.inl h
            · exact Or.inr ⟨h, by rw [hq]⟩
          · exact Or.inl h

end Created

/-! ## 5. Ownership -/

namespace Ledger

variable {w : Ledger}

/-- **Who owns what**: a name and its one namespace, a namespace and its one adapter. -/
structure Owned (w : Ledger) : Prop where
  table : ∀ name n,
    w.core.srv.table.get? name = some n ↔ w.Exists n ∧ (w.core.srv.namespaces n).name = name
  distinct : ∀ m n, w.Exists m → w.Exists n → w.adapterOf m = w.adapterOf n → m = n
  /-- with a factory, the recorded adapters are those in use -/
  recorded : w.core.srv.adapterFactory = true →
    ∀ x, x ∈ w.adapterInstances ↔ ∃ n, w.Exists n ∧ w.adapterOf n = x
  /-- without one, every namespace has the adapter it was constructed with -/
  unregistered : w.core.srv.adapterFactory = false →
    (∀ n, w.Exists n → w.adapterOf n = .builtin n) ∧ ∀ x, x ∉ w.adapterInstances
  children : ∀ p n, n ∈ w.core.srv.childrenOf p → w.Exists n
  /-- a namespace is a child of one parent at most -/
  parent : ∀ p q n, n ∈ w.core.srv.childrenOf p → n ∈ w.core.srv.childrenOf q → p = q

theorem Owned.values (h : w.Owned) {n : NspId} : n ∈ w.core.srv.table.values ↔ w.Exists n := by
  rw [OMap.mem_values]
  constructor
  · rintro ⟨name, hn⟩
    exact ((h.table name n).mp hn).1
  · exact fun hn => ⟨_, (h.table _ n).mpr ⟨hn, rfl⟩⟩

theorem owned_initial : ({} : Ledger).Owned where
  table name n := by
    have hn : ({} : Ledger).core.srv.table.get? name = if name = "/" then some 0 else none :=
      OMap.get?_set ..
    have hexists : ({} : Ledger).Exists n ↔ n = 0 := Nat.lt_one_iff
    rw [hn, hexists]
    constructor
    · intro h
      split at h
      · rename_i he
        cases h
        exact ⟨rfl, he.symm⟩
      · cases h
    · rintro ⟨rfl, rfl⟩
      rfl
  distinct m n hm hn _ := (Nat.lt_one_iff.mp hm).trans (Nat.lt_one_iff.mp hn).symm
  recorded h := by cases h
  unregistered _ := ⟨fun _ _ => rfl, fun _ => OSet.not_mem_empty _⟩
  children _ _ h := absurd h List.not_mem_nil
  parent _ _ _ h := absurd h List.not_mem_nil

/-- Another instruction changes nothing of it. -/
theorem Owned.same (h : w.Owned) {σ : Core} (hs : w.core.srv.SameNames σ.srv) :
    ({ w with core := σ } : Ledger).Owned := by
  obtain ⟨ht, hc, hn, hp, hf, -⟩ := hs
  have hex : ∀ n, ({ w with core := σ } : Ledger).Exists n ↔ w.Exists n := fun n => by
    change n < σ.srv.nspCount ↔ n < w.core.srv.nspCount
    rw [hc]
  refine ⟨fun name n => ?_, fun m n hm hn => ?_, fun he x => ?_, fun he => ?_, fun p n hm => ?_,
    fun p q n hm hq => ?_⟩
  · change σ.srv.table.get? name = some n ↔ _ ∧ (σ.srv.namespaces n).name = name
    rw [hex, ht, hn]
    exact h.table name n
  · exact h.distinct m n ((hex m).mp hm) ((hex n).mp hn)
  · change x ∈ w.adapterInstances ↔ ∃ n, _ ∧ w.adapterOf n = x
    simp only [hex]
    exact h.recorded (hf.symm.trans he) x
  · obtain ⟨hb, hx⟩ := h.unregistered (hf.symm.trans he)
    exact ⟨fun n hn => hb n ((hex n).mp hn), hx⟩
  · exact (hex n).mpr (h.children p n (by rw [← hp]; exact hm))
  · exact h.parent p q n (by rw [← hp]; exact hm) (by rw [← hp]; exact hq)

/-- A new namespace, with an adapter no other namespace has. -/
theorem Owned.create (h : w.Owned) {name : String} (hname : w.core.srv.table.get? name = none)
    (attachTo : Option ParentId) {base : AdapterBase} {layers : List Layer} {x : Instance}
    {used : OSet Instance} (hx : ∀ n, w.Exists n → w.adapterOf n ≠ x)
    (hused : w.core.srv.adapterFactory = true → ∀ y, y ∈ used ↔ y ∈ w.adapterInstances ∨ y = x)
    (hbuiltin : w.core.srv.adapterFactory = false →
      x = .builtin w.core.srv.nspCount ∧ ∀ y, y ∉ used) :
    (w.create name attachTo (.fresh base layers) x used).Owned := by
  have hsrv := w.create_srv name attachTo base layers x used
  have hex : ∀ n, (w.create name attachTo (.fresh base layers) x used).Exists n ↔
      w.Exists n ∨ n = w.core.srv.nspCount := fun n => by
    unfold Exists
    rw [hsrv, Srv.created_count]
    exact Nat.lt_succ_iff_lt_or_eq
  have hof : ∀ n, (w.create name attachTo (.fresh base layers) x used).adapterOf n =
      if n = w.core.srv.nspCount then x else w.adapterOf n := Function.update_apply _ _ _
  have hold : ∀ {n}, w.Exists n → n ≠ w.core.srv.nspCount := fun hn => Nat.ne_of_lt hn
  have hofold : ∀ {n}, w.Exists n →
      (w.create name attachTo (.fresh base layers) x used).adapterOf n = w.adapterOf n :=
    fun hn => by rw [hof, if_neg (hold hn)]
  have hofnew : (w.create name attachTo (.fresh base layers) x used).adapterOf
      w.core.srv.nspCount = x := by rw [hof, if_pos rfl]
  refine ⟨fun name' n => ?_, fun m n hm hn he => ?_, fun hf y => ?_, fun hf => ?_,
    fun p n hn => ?_, fun p q n hn hq => ?_⟩
  · rw [hex, hsrv, Srv.created_table, OMap.get?_set, Srv.created_name]
    by_cases hn : n = w.core.srv.nspCount
    · subst hn
      rw [if_pos rfl]
      split
      · rename_i he
        exact ⟨fun _ => ⟨Or.inr rfl, he.symm⟩, fun _ => rfl⟩
      · rename_i he
        constructor
        · exact fun hg => absurd ((h.table _ _).mp hg).1 (Nat.lt_irrefl _)
        · exact fun hg => absurd hg.2.symm he
    · rw [if_neg hn]
      split
      · rename_i he
        constructor
        · exact fun hg => absurd (Option.some.inj hg).symm hn
        · rintro ⟨hg, hnm⟩
          have := (h.table name' n).mpr ⟨hg.resolve_right hn, hnm⟩
          rw [he, hname] at this
          cases this
      · rw [h.table name' n]
        exact ⟨fun hg => ⟨Or.inl hg.1, hg.2⟩, fun hg => ⟨hg.1.resolve_right hn, hg.2⟩⟩
  · rcases (hex m).mp hm with hm | rfl <;> rcases (hex n).mp hn with hn | rfl
    · rw [hofold hm, hofold hn] at he
      exact h.distinct m n hm hn he
    · rw [hofold hm, hofnew] at he
      exact absurd he (hx m hm)
    · rw [hofold hn, hofnew] at he
      exact absurd he.symm (hx n hn)
    · rfl
  · rw [hsrv, Srv.created_factory] at hf
    change y ∈ used ↔ _
    rw [hused hf, h.recorded hf]
    constructor
    · rintro (⟨n, hn, rfl⟩ | rfl)
      · exact ⟨n, (hex n).mpr (Or.inl hn), hofold hn⟩
      · exact ⟨_, (hex _).mpr (Or.inr rfl), hofnew⟩
    · rintro ⟨n, hn, rfl⟩
      rcases (hex n).mp hn with hn | rfl
      · exact Or.inl ⟨n, hn, (hofold hn).symm⟩
      · exact Or.inr hofnew
  · rw [hsrv, Srv.created_factory] at hf
    refine ⟨fun n hn => ?_, (hbuiltin hf).2⟩
    rcases (hex n).mp hn with hn | rfl
    · rw [hofold hn]
      exact (h.unregistered hf).1 n hn
    · rw [hofnew]
      exact (hbuiltin hf).1
  · rw [hsrv] at hn
    refine (hex n).mpr ?_
    rcases Srv.created_children _ _ _ _ hn with hn | hn
    · exact Or.inl (h.children p n hn)
    · exact Or.inr hn.1
  · rw [hsrv] at hn hq
    rcases Srv.created_children _ _ _ _ hn with hn | hn <;>
      rcases Srv.created_children _ _ _ _ hq with hq | hq
    · exact h.parent p q n hn hq
    · exact absurd hq.1 (hold (h.children p n hn))
    · exact absurd hn.1 (hold (h.children q n hq))
    · exact Option.some.inj (hn.2.symm.trans hq.2)

/-- The server after `Server.adapter` with these replacements. -/
structure Registered (w w' : Ledger) (factory : NspId → FactoryCall) : Prop where
  names : w.core.srv.SameNames { w'.core.srv with adapterFactory := w.core.srv.adapterFactory }
  enabled : w'.core.srv.adapterFactory = true
  /-- each namespace has what the factory returned for it -/
  adapters : ∀ n, w.Exists n → factory n = .returned (w'.adapterOf n)
    (w'.core.srv.namespaces n).base (w'.core.srv.namespaces n).layers
  distinct : ∀ m n, w.Exists m → w.Exists n → w'.adapterOf m = w'.adapterOf n → m = n
  recorded : ∀ x, x ∈ w'.adapterInstances ↔ ∃ n, w.Exists n ∧ w'.adapterOf n = x

theorem Owned.nodup (h : w.Owned) : w.core.srv.table.values.Nodup :=
  w.core.srv.table.values_nodup fun k j v hk hj =>
    ((h.table k v).mp hk).2.symm.trans ((h.table j v).mp hj).2

theorem Owned.replaced (h : w.Owned) {factory : NspId → FactoryCall} {rs : List Replacement}
    (hs : w.core.srv.admissionStarted = false)
    (hspec : Replaces factory w.core.srv.table.values w.adapterInstances rs) :
    Registered w (w.replace rs) factory := by
  have hsrv : (w.replace rs).core.srv = _ := adapter_part hs hspec.namespaces
  have hnodup : (rs.map Replacement.nsp).Nodup := hspec.namespaces ▸ h.nodup
  have hmem : ∀ n, w.Exists n ↔ ∃ r ∈ rs, r.nsp = n := fun n => by
    rw [← h.values, ← hspec.namespaces, List.mem_map]
  have hof : ∀ r ∈ rs, (w.replace rs).adapterOf r.nsp = r.adapter :=
    (foldl_modify Replacement.nsp (fun r _ => r.adapter) hnodup w.adapterOf).1
  have hns := foldl_modify Replacement.nsp (Replacement.use w.core.memb) hnodup
    w.core.srv.namespaces
  refine ⟨adapter_sameNames _ _, by rw [hsrv], fun n hn => ?_, fun m n hm hn he => ?_,
    fun x => ?_⟩
  · obtain ⟨r, hr', rfl⟩ := (hmem n).mp hn
    rw [hspec.returned r hr', hof r hr', hsrv]
    change _ = FactoryCall.returned _ (rs.foldl _ w.core.srv.namespaces _).base
      (rs.foldl _ w.core.srv.namespaces _).layers
    rw [hns.1 r hr']
    rfl
  · obtain ⟨r, hr', rfl⟩ := (hmem m).mp hm
    obtain ⟨q, hq', rfl⟩ := (hmem n).mp hn
    rw [hof r hr', hof q hq'] at he
    exact congrArg Replacement.nsp (List.inj_on_of_nodup_map hspec.distinct hr' hq' he)
  · change x ∈ OSet.ofList (rs.map Replacement.adapter) ↔ _
    unfold OSet.ofList
    rw [OSet.mem_foldl_insert]
    constructor
    · rintro (hx | hx)
      · exact absurd hx (OSet.not_mem_empty x)
      · obtain ⟨r, hr', rfl⟩ := List.mem_map.mp hx
        exact ⟨r.nsp, (hmem _).mpr ⟨r, hr', rfl⟩, hof r hr'⟩
    · rintro ⟨n, hn, rfl⟩
      obtain ⟨r, hr', rfl⟩ := (hmem n).mp hn
      exact Or.inr (List.mem_map.mpr ⟨r, hr', (hof r hr').symm⟩)

theorem Owned.registered (h : w.Owned) {factory : NspId → FactoryCall} {w' : Ledger}
    (ha : w.adapter factory = .ok w') : Registered w w' factory := by
  unfold adapter at ha
  split at ha
  · cases ha
  · rename_i hs
    cases hr : replacements factory w.core.srv.table.values w.adapterInstances with
    | error e =>
        rw [hr] at ha
        cases ha
    | ok rs =>
        rw [hr] at ha
        cases ha
        exact h.replaced (by simpa using hs) (replacements_spec hr)

theorem Owned.adapter (h : w.Owned) {factory : NspId → FactoryCall} {w' : Ledger}
    (ha : w.adapter factory = .ok w') : w'.Owned := by
  obtain ⟨⟨ht, hc, hn, hp, -, -⟩, hf, -, hd, hr⟩ := h.registered ha
  have hex : ∀ n, w'.Exists n ↔ w.Exists n := fun n => by
    change n < w'.core.srv.nspCount ↔ n < w.core.srv.nspCount
    rw [← hc]
  refine ⟨fun name n => ?_, fun m n hm hn he => ?_, fun _ x => ?_, fun he => ?_, fun p n hm => ?_,
    fun p q n hm hq => ?_⟩
  · have := h.table name n
    rw [← ht, ← hn, ← hex] at this
    exact this
  · exact hd m n ((hex m).mp hm) ((hex n).mp hn) he
  · simp only [hex]
    exact hr x
  · rw [hf] at he
    cases he
  · exact (hex n).mpr (h.children p n (by rw [← hp]; exact hm))
  · exact h.parent p q n (by rw [← hp]; exact hm) (by rw [← hp]; exact hq)

/-! ## 6. Operations and runs -/

/-- When a factory makes an operation throw: a new name and a call that throws or returns an adapter
    in use; a late registration, or one whose calls do not return as many unused adapters as there
    are namespaces. -/
def Refuses (w : Ledger) : Op → Prop
  | .getNamespace name _ call _ =>
      w.core.srv.table.get? (normalizeNamespace name) = none ∧ w.core.srv.adapterFactory = true ∧
        ∀ x, call.adapter? = some x → ∃ n, w.Exists n ∧ w.adapterOf n = x
  | .adapter factory => w.core.srv.admissionStarted = true ∨
      ¬ ((∀ n, w.Exists n → ∃ x, (factory n).adapter? = some x ∧
          (w.core.srv.adapterFactory = true → ∀ m, w.Exists m → w.adapterOf m ≠ x)) ∧
        ∀ m n, w.Exists m → w.Exists n → (factory m).adapter? = (factory n).adapter? → m = n)
  | .instr _ => False

/-- When listeners of `new_namespace` make an operation throw: a new name other than the root's. -/
def Disrupts (w : Ledger) : Op → Prop
  | .getNamespace name _ _ listeners =>
      w.core.srv.table.get? (normalizeNamespace name) = none ∧ normalizeNamespace name ≠ "/" ∧
        listeners.isSome = true
  | _ => False

theorem Owned.instance_iff (h : w.Owned) (x : Instance) : x ∈ w.adapterInstances ↔
    w.core.srv.adapterFactory = true ∧ ∃ n, w.Exists n ∧ w.adapterOf n = x := by
  cases hf : w.core.srv.adapterFactory with
  | true => simp [h.recorded hf x]
  | false => simpa using (h.unregistered hf).2 x

theorem Owned.usable_iff (h : w.Owned) (factory : NspId → FactoryCall) :
    Usable factory w.core.srv.table.values w.adapterInstances ↔
      (∀ n, w.Exists n → ∃ x, (factory n).adapter? = some x ∧
        (w.core.srv.adapterFactory = true → ∀ m, w.Exists m → w.adapterOf m ≠ x)) ∧
      ∀ m n, w.Exists m → w.Exists n → (factory m).adapter? = (factory n).adapter? → m = n := by
  have hunused : ∀ x, x ∉ w.adapterInstances ↔
      (w.core.srv.adapterFactory = true → ∀ m, w.Exists m → w.adapterOf m ≠ x) := fun x => by
    rw [h.instance_iff x]
    push Not
    rfl
  constructor
  · rintro ⟨hu, hd⟩
    refine ⟨fun n hn => ?_, fun m n hm hn he => ?_⟩
    · obtain ⟨x, hx, hin⟩ := hu n (h.values.mpr hn)
      exact ⟨x, hx, (hunused x).mp hin⟩
    · exact List.inj_on_of_nodup_map hd (h.values.mpr hm) (h.values.mpr hn) he
  · rintro ⟨hu, hd⟩
    refine ⟨fun n hn => ?_, ?_⟩
    · obtain ⟨x, hx, hin⟩ := hu n (h.values.mp hn)
      exact ⟨x, hx, (hunused x).mpr hin⟩
    · exact h.nodup.map_on fun m hm n hn he => hd m n (h.values.mp hm) (h.values.mp hn) he

/-- For a new name, `build` throws where the factory breaks the rule. -/
theorem Owned.build_error_iff (h : w.Owned) {name : String} (parent : Option ParentId)
    {call : FactoryCall} (listeners : Option String)
    (hname : w.core.srv.table.get? (normalizeNamespace name) = none) :
    (∃ e, w.build P (normalizeNamespace name) parent call = .error e) ↔
      w.Refuses (.getNamespace name parent call listeners) := by
  unfold build Refuses
  dsimp only
  split
  · rename_i hf
    cases call with
    | threw message => simp [hname, hf, FactoryCall.adapter?]
    | returned x base layers =>
        simp only [FactoryCall.adapter?, Option.some.injEq, forall_eq', hname, hf, true_and,
          ← h.recorded hf x]
        split
        · rename_i hx
          simp [hx]
        · rename_i hx
          simp [hx]
  · rename_i hf
    simp [hf]

/-- **What `getNamespace` comes to**: the namespace there is, nothing where the factory breaks the
    rule, and otherwise a new namespace, whatever the listeners do. -/
theorem Owned.getNamespace_cases (h : w.Owned) (name : String) (parent : Option ParentId)
    (call : FactoryCall) (listeners : Option String) :
    (∃ n, w.core.srv.table.get? (normalizeNamespace name) = some n ∧
      w.getNamespace P name parent call listeners = ⟨w, none⟩) ∨
    (w.Refuses (.getNamespace name parent call listeners) ∧
      ∃ e, w.getNamespace P name parent call listeners = ⟨w, some e⟩) ∨
    (w.core.srv.table.get? (normalizeNamespace name) = none ∧
      ¬ w.Refuses (.getNamespace name parent call listeners) ∧
      ∃ w', w.build P (normalizeNamespace name) parent call = .ok w' ∧
        w.getNamespace P name parent call listeners =
          ⟨w', if normalizeNamespace name = "/" then none else listeners⟩) := by
  unfold Ledger.getNamespace
  dsimp only
  cases hname : w.core.srv.table.get? (normalizeNamespace name) with
  | some n => exact Or.inl ⟨n, rfl, rfl⟩
  | none =>
      refine Or.inr ?_
      have hiff : (∃ e, w.build P (normalizeNamespace name) parent call = .error e) ↔ _ :=
        h.build_error_iff parent listeners hname
      cases hb : w.build P (normalizeNamespace name) parent call with
      | error e => exact Or.inl ⟨hiff.mp ⟨e, hb⟩, e, rfl⟩
      | ok w' =>
          refine Or.inr ⟨rfl, fun hr => ?_, w', rfl, rfl⟩
          obtain ⟨e, he⟩ := hiff.mpr hr
          rw [hb] at he
          cases he

theorem Owned.adapter_error_iff (h : w.Owned) (factory : NspId → FactoryCall) :
    (∃ e, w.adapter factory = .error e) ↔ w.Refuses (.adapter factory) := by
  unfold Refuses
  dsimp only
  rw [← h.usable_iff, ← replacements_ok_iff]
  unfold Ledger.adapter
  split
  · rename_i hs
    simp [hs]
  · rename_i hs
    simp only [hs]
    cases hr : replacements factory w.core.srv.table.values w.adapterInstances with
    | error e => simp [Except.map]
    | ok rs => simp [Except.map]

/-- **When an operation throws.** -/
theorem Owned.throws_iff (h : w.Owned) (o : Op) :
    (w.step P o).thrown.isSome = true ↔ w.Refuses o ∨ w.Disrupts o := by
  cases o with
  | instr i => simp [step, Refuses, Disrupts]
  | getNamespace name parent call listeners =>
      rcases h.getNamespace_cases (P := P) name parent call listeners with
        ⟨n, hn, he⟩ | ⟨hr, e, he⟩ | ⟨hn, hr, w', -, he⟩
      · simp [step, he, Refuses, Disrupts, hn]
      · simp [step, he, hr]
      · rw [step, he, or_iff_right hr]
        simp only [Disrupts, hn, true_and]
        split
        · rename_i hroot
          simp [hroot]
        · rename_i hroot
          simp [hroot]
  | adapter factory =>
      rw [step, ← h.adapter_error_iff]
      cases w.adapter factory <;> simp [Outcome.of, Disrupts]

/-- Where the factory breaks the rule nothing changes. -/
theorem Owned.refused (h : w.Owned) {o : Op} (hr : w.Refuses o) : w.exec P o = w := by
  cases o with
  | instr i => exact hr.elim
  | getNamespace name parent call listeners =>
      rcases h.getNamespace_cases (P := P) name parent call listeners with
        ⟨n, -, he⟩ | ⟨-, e, he⟩ | ⟨-, hno, -⟩
      · rw [Ledger.exec, step, he]
      · rw [Ledger.exec, step, he]
      · exact absurd hr hno
  | adapter factory =>
      obtain ⟨e, he⟩ := (h.adapter_error_iff factory).mpr hr
      rw [Ledger.exec, step, he]
      rfl

theorem Owned.build (h : w.Owned) {name : String} {parent : Option ParentId} {call : FactoryCall}
    {w' : Ledger} (hname : w.core.srv.table.get? name = none)
    (hb : w.build P name parent call = .ok w') :
    w'.Owned ∧ w'.core.srv.table = w.core.srv.table.set name w.core.srv.nspCount := by
  have htable : ∀ (attachTo : Option ParentId) (base : AdapterBase) (layers : List Layer)
      (x : Instance) (used : OSet Instance),
      (w.create name attachTo (.fresh base layers) x used).core.srv.table =
        w.core.srv.table.set name w.core.srv.nspCount := fun attachTo base layers x used => by
    rw [create_srv, Srv.created_table]
  unfold Ledger.build at hb
  dsimp only at hb
  split at hb
  · rename_i hf
    cases call with
    | threw message => cases hb
    | returned x base layers =>
        dsimp only at hb
        split at hb
        · cases hb
        · rename_i hx
          cases hb
          refine ⟨h.create hname _ (fun n hn he => hx ((h.recorded hf x).mpr ⟨n, hn, he⟩))
            (fun _ y => OSet.mem_insert) (fun hf' => ?_), htable _ _ _ _ _⟩
          rw [hf] at hf'
          cases hf'
  · rename_i hf
    cases hb
    have hf' : w.core.srv.adapterFactory = false := by simpa using hf
    obtain ⟨hb, hx⟩ := h.unregistered hf'
    refine ⟨h.create hname _ (fun n hn he => ?_) (fun hf'' => absurd hf'' hf) (fun _ => ⟨rfl, hx⟩),
      htable _ _ _ _ _⟩
    rw [hb n hn] at he
    cases he
    exact absurd hn (Nat.lt_irrefl _)

/-- Every name keeps its namespace. -/
def Extends (w w' : Ledger) : Prop :=
  ∀ name n, w.core.srv.table.get? name = some n → w'.core.srv.table.get? name = some n

theorem Owned.getNamespace (h : w.Owned) (name : String) (parent : Option ParentId)
    (call : FactoryCall) (listeners : Option String) :
    (w.getNamespace P name parent call listeners).ledger.Owned ∧
      w.Extends (w.getNamespace P name parent call listeners).ledger := by
  rcases h.getNamespace_cases (P := P) name parent call listeners with
    ⟨n, -, he⟩ | ⟨-, e, he⟩ | ⟨hn, -, w', hb, he⟩
  · rw [he]
    exact ⟨h, fun _ _ hn => hn⟩
  · rw [he]
    exact ⟨h, fun _ _ hn => hn⟩
  · obtain ⟨ho, ht⟩ := h.build hn hb
    rw [he]
    refine ⟨ho, fun name' n' hn' => ?_⟩
    have hne : name' ≠ normalizeNamespace name := by
      rintro rfl
      rw [hn] at hn'
      cases hn'
    rw [ht, OMap.get?_set, if_neg hne]
    exact hn'

/-- **A new name is registered even where the listeners throw.** -/
theorem Owned.announced (h : w.Owned) {name : String} {parent : Option ParentId}
    {call : FactoryCall} {listeners : Option String}
    (hr : ¬ w.Refuses (.getNamespace name parent call listeners)) :
    ∃ n, (w.exec P (.getNamespace name parent call listeners)).core.srv.table.get?
      (normalizeNamespace name) = some n := by
  rw [Ledger.exec, step]
  rcases h.getNamespace_cases (P := P) name parent call listeners with
    ⟨n, hn, he⟩ | ⟨hr', -⟩ | ⟨hn, -, w', hb, he⟩
  · exact ⟨n, by rw [he]; exact hn⟩
  · exact absurd hr' hr
  · refine ⟨w.core.srv.nspCount, ?_⟩
    rw [he]
    change w'.core.srv.table.get? _ = _
    rw [(h.build hn hb).2, OMap.get?_set, if_pos rfl]

/-- One operation keeps who owns what, and every name its namespace. -/
theorem Owned.exec (h : w.Owned) (o : Op) : (w.exec P o).Owned ∧ w.Extends (w.exec P o) := by
  cases o with
  | getNamespace name parent call listeners => exact h.getNamespace name parent call listeners
  | adapter factory =>
      rw [Ledger.exec, step]
      cases hs : w.adapter factory with
      | error e => exact ⟨h, fun _ _ hn => hn⟩
      | ok w' =>
          refine ⟨h.adapter hs, fun name n hn => ?_⟩
          have ht : w'.core.srv.table = w.core.srv.table := (h.registered hs).names.table
          change w'.core.srv.table.get? name = some n
          rw [ht]
          exact hn
  | instr i =>
      rw [Ledger.exec, step]
      dsimp only
      split
      · exact ⟨h, fun _ _ hn => hn⟩
      · rename_i hi
        have hsame := exec_sameNames (P := P) (σ := w.core) (i := i) (by simpa using hi)
        refine ⟨h.same hsame, fun name n hn => ?_⟩
        change (Smocket.exec P i w.core).core.srv.table.get? name = some n
        rw [hsame.table]
        exact hn

theorem Owned.run (h : w.Owned) (ops : List Op) :
    (w.run P ops).Owned ∧ w.Extends (w.run P ops) := by
  induction ops generalizing w with
  | nil => exact ⟨h, fun _ _ hn => hn⟩
  | cons o ops ih =>
      obtain ⟨ho, hk⟩ := h.exec (P := P) o
      obtain ⟨ho', hk'⟩ := ih ho
      exact ⟨ho', fun name n hn => hk' name n (hk name n hn)⟩

/-- **Names and adapters, over every run**: each name stands for one namespace object as long as the
    server lives, no two namespaces ever have the same adapter, and the recorded ones are those in
    use. An operation throws exactly when its factory breaks the rule or comes too late, and then
    everything is as it was, or when listeners of `new_namespace` throw; what they throw changes
    nothing, and the namespace is registered. A registration that does not throw gives every
    namespace the adapter that was returned for it. -/
theorem namespaces_own (P : Platform) (ops : List Op) :
    (Ledger.run P {} ops).Owned ∧
    (∀ more, (Ledger.run P {} ops).Extends (Ledger.run P {} (ops ++ more))) ∧
    ∀ o, (((Ledger.run P {} ops).step P o).thrown.isSome = true ↔
        (Ledger.run P {} ops).Refuses o ∨ (Ledger.run P {} ops).Disrupts o) ∧
      ((Ledger.run P {} ops).Refuses o → (Ledger.run P {} ops).exec P o = Ledger.run P {} ops) ∧
      (∀ name parent call listeners, o = .getNamespace name parent call listeners →
        (Ledger.run P {} ops).exec P o =
          (Ledger.run P {} ops).exec P (.getNamespace name parent call none) ∧
        (¬ (Ledger.run P {} ops).Refuses o →
          ∃ n, ((Ledger.run P {} ops).exec P o).core.srv.table.get? (normalizeNamespace name) =
            some n)) ∧
      ∀ factory, o = .adapter factory → ¬ (Ledger.run P {} ops).Refuses o →
        Registered (Ledger.run P {} ops) ((Ledger.run P {} ops).exec P o) factory := by
  have h := (owned_initial.run (P := P) ops).1
  refine ⟨h, fun more name n hn => ?_, fun o => ⟨h.throws_iff o, h.refused, ?_, ?_⟩⟩
  · unfold Ledger.run at hn ⊢
    rw [List.foldl_append]
    exact (h.run (P := P) more).2 name n hn
  · rintro name parent call listeners rfl
    refine ⟨?_, h.announced⟩
    simp only [Ledger.exec, step, Ledger.getNamespace]
    split
    · rfl
    · split <;> rfl
  · rintro factory rfl hr
    rw [Ledger.exec, step]
    cases hs : (Ledger.run P {} ops).adapter factory with
    | error e => exact absurd ((h.adapter_error_iff _).mp ⟨e, hs⟩) hr
    | ok w' => exact h.registered hs

end Ledger

end Smocket
