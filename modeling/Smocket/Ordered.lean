import Mathlib.Data.List.Nodup
import Mathlib.Logic.Function.Basic

/-
  File:      Smocket/Ordered.lean
  Subject:   SETS AND MAPS THAT ITERATE IN INSERTION ORDER, as JavaScript's `Set` and `Map` do.
             Library: nothing here names the program that uses them.

  The order is a list without duplicates; a map is that list together with its lookup function,
  and carries the fact that the two agree. Adding a key that is present keeps its position.
-/

namespace Ordered

variable {α β : Type} [DecidableEq α]

/-! ## 1. Sets -/

/-- A finite set with its iteration order. -/
structure OSet (α : Type) where
  elems : List α
  nodup : elems.Nodup

namespace OSet

instance : Membership α (OSet α) := ⟨fun s a => a ∈ s.elems⟩

instance (a : α) (s : OSet α) : Decidable (a ∈ s) := inferInstanceAs (Decidable (a ∈ s.elems))

omit [DecidableEq α] in
theorem mem_def {a : α} {s : OSet α} : a ∈ s ↔ a ∈ s.elems := Iff.rfl

/-- The empty set, `new Set()`. -/
def empty : OSet α := ⟨[], List.nodup_nil⟩

instance : Inhabited (OSet α) := ⟨empty⟩

/-- `Set.prototype.add`. -/
def insert (s : OSet α) (a : α) : OSet α :=
  if h : a ∈ s.elems then s
  else ⟨s.elems ++ [a], List.nodup_append.mpr
    ⟨s.nodup, List.nodup_singleton a, fun x hx y hy e =>
      h (by rw [List.mem_singleton] at hy; subst hy; exact e ▸ hx)⟩⟩

/-- `Set.prototype.delete`. -/
def erase (s : OSet α) (a : α) : OSet α := ⟨s.elems.erase a, s.nodup.erase a⟩

/-- `new Set(list)`. -/
def ofList (l : List α) : OSet α := l.foldl insert empty

omit [DecidableEq α] in
@[simp] theorem not_mem_empty (a : α) : a ∉ (empty : OSet α) := List.not_mem_nil

@[simp] theorem mem_insert {s : OSet α} {a b : α} : b ∈ s.insert a ↔ b ∈ s ∨ b = a := by
  unfold insert
  split
  · rename_i h
    exact ⟨Or.inl, fun hb => hb.elim id fun e => e ▸ h⟩
  · simp [mem_def]

@[simp] theorem mem_erase {s : OSet α} {a b : α} : b ∈ s.erase a ↔ b ∈ s ∧ b ≠ a := by
  simp only [mem_def, erase, s.nodup.mem_erase_iff]
  exact And.comm

theorem mem_foldl_insert {l : List α} {s : OSet α} {b : α} :
    b ∈ l.foldl insert s ↔ b ∈ s ∨ b ∈ l := by
  induction l generalizing s with
  | nil => simp
  | cons a l ih => rw [List.foldl_cons, ih, mem_insert, List.mem_cons, or_assoc]

@[simp] theorem mem_ofList {l : List α} {b : α} : b ∈ ofList l ↔ b ∈ l := by
  simp [ofList, mem_foldl_insert]

omit [DecidableEq α] in
theorem isEmpty_iff {s : OSet α} : s.elems.isEmpty = true ↔ ∀ a, a ∉ s := by
  rw [List.isEmpty_iff, List.eq_nil_iff_forall_not_mem]
  exact Iff.rfl

end OSet

/-! ## 2. Maps -/

/-- A finite map with the iteration order of its keys. -/
structure OMap (α β : Type) where
  keys : List α
  get? : α → Option β
  nodup : keys.Nodup
  mem_keys : ∀ k, k ∈ keys ↔ (get? k).isSome

namespace OMap

/-- The empty map, `new Map()`. -/
def empty : OMap α β := ⟨[], fun _ => none, List.nodup_nil, by simp⟩

instance : Inhabited (OMap α β) := ⟨empty⟩

/-- `Map.prototype.set`. -/
def set (m : OMap α β) (k : α) (v : β) : OMap α β where
  keys := (OSet.insert ⟨m.keys, m.nodup⟩ k).elems
  get? := Function.update m.get? k (some v)
  nodup := (OSet.insert ⟨m.keys, m.nodup⟩ k).nodup
  mem_keys j := by
    have h : j ∈ (OSet.insert ⟨m.keys, m.nodup⟩ k).elems ↔ j ∈ m.keys ∨ j = k :=
      OSet.mem_insert (s := ⟨m.keys, m.nodup⟩)
    rw [h, m.mem_keys, Function.update_apply]
    split <;> simp_all

/-- `Map.prototype.delete`. -/
def erase (m : OMap α β) (k : α) : OMap α β where
  keys := (OSet.erase ⟨m.keys, m.nodup⟩ k).elems
  get? := Function.update m.get? k none
  nodup := (OSet.erase ⟨m.keys, m.nodup⟩ k).nodup
  mem_keys j := by
    have h : j ∈ (OSet.erase ⟨m.keys, m.nodup⟩ k).elems ↔ j ∈ m.keys ∧ j ≠ k :=
      OSet.mem_erase (s := ⟨m.keys, m.nodup⟩)
    rw [h, m.mem_keys, Function.update_apply]
    split <;> simp_all

/-- `Map.prototype.values`. -/
def values (m : OMap α β) : List β := m.keys.filterMap m.get?

omit [DecidableEq α] in
@[simp] theorem get?_empty (k : α) : (empty : OMap α β).get? k = none := rfl

@[simp] theorem get?_set (m : OMap α β) (k j : α) (v : β) :
    (m.set k v).get? j = if j = k then some v else m.get? j :=
  Function.update_apply ..

@[simp] theorem get?_erase (m : OMap α β) (k j : α) :
    (m.erase k).get? j = if j = k then none else m.get? j :=
  Function.update_apply ..

omit [DecidableEq α] in
theorem mem_values {m : OMap α β} {v : β} : v ∈ m.values ↔ ∃ k, m.get? k = some v := by
  unfold values
  rw [List.mem_filterMap]
  constructor
  · rintro ⟨k, -, hk⟩
    exact ⟨k, hk⟩
  · rintro ⟨k, hk⟩
    exact ⟨k, (m.mem_keys k).mpr (by rw [hk]; rfl), hk⟩

omit [DecidableEq α] in
/-- A map without entries is the empty one. -/
theorem eq_empty {m : OMap α β} (h : ∀ k, m.get? k = none) : m = empty := by
  obtain ⟨keys, get?, nodup, mem_keys⟩ := m
  obtain rfl : get? = fun _ => none := funext h
  obtain rfl : keys = [] := List.eq_nil_iff_forall_not_mem.mpr fun k hk => by
    simpa using (mem_keys k).mp hk
  rfl

omit [DecidableEq α] in
/-- The values repeat nothing when distinct keys hold distinct values. -/
theorem values_nodup {m : OMap α β}
    (h : ∀ j k v, m.get? j = some v → m.get? k = some v → j = k) : m.values.Nodup := by
  unfold values
  exact m.nodup.filterMap fun j k v hj hk => h j k v hj hk

end OMap

/-! ## 3. Maps to sets -/

namespace OMap

variable {κ : Type} [DecidableEq κ]

/-- The relation a map to sets stands for. -/
def Has (m : OMap κ (OSet α)) (k : κ) (a : α) : Prop := ∃ s, m.get? k = some s ∧ a ∈ s

omit [DecidableEq κ] [DecidableEq α] in
theorem has_iff {m : OMap κ (OSet α)} {k : κ} {a : α} :
    m.Has k a ↔ a ∈ (m.get? k).getD .empty := by
  unfold Has
  cases m.get? k <;> simp

omit [DecidableEq κ] [DecidableEq α] in
theorem not_has_empty (k : κ) (a : α) : ¬ (empty : OMap κ (OSet α)).Has k a := by
  rintro ⟨s, hs, -⟩
  cases hs

omit [DecidableEq α] in
theorem has_set {m : OMap κ (OSet α)} {k j : κ} {s : OSet α} {a : α} :
    (m.set k s).Has j a ↔ if j = k then a ∈ s else m.Has j a := by
  unfold Has
  rw [get?_set]
  split <;> simp

omit [DecidableEq α] in
theorem has_erase {m : OMap κ (OSet α)} {k j : κ} {a : α} :
    (m.erase k).Has j a ↔ j ≠ k ∧ m.Has j a := by
  unfold Has
  rw [get?_erase]
  split <;> simp_all

/-- Adding to one set. -/
theorem has_insert {m : OMap κ (OSet α)} {k j : κ} {a b : α} :
    (m.set k (((m.get? k).getD .empty).insert a)).Has j b ↔ m.Has j b ∨ (j = k ∧ b = a) := by
  rw [has_set]
  split
  · rename_i h
    rw [h, OSet.mem_insert, has_iff]
    simp
  · simp_all

/-- Removing from one set. -/
theorem has_remove {m : OMap κ (OSet α)} {k j : κ} {s : OSet α} {a b : α} (hs : m.get? k = some s) :
    (m.set k (s.erase a)).Has j b ↔ m.Has j b ∧ ¬ (j = k ∧ b = a) := by
  rw [has_set]
  split
  · rename_i h
    rw [h, OSet.mem_erase, has_iff, hs]
    simp
  · simp_all

end OMap

end Ordered
