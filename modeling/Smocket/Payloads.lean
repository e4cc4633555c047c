import Mathlib.Data.Fintype.Card
import Mathlib.Data.Finset.Card
import Mathlib.Logic.Relation

/-
  File:      Smocket/Payloads.lean
  Subject:   WHICH PAYLOADS STAY BY REFERENCE: the search for a binary object in a payload.

  `containsBinary` walks the object graph of a payload, which may share and loop. An object with a
  callable `toJSON` is replaced by the result of the call, and the result is taken as it is. The
  walk marks the objects whose values it examines, in either of the two modes, and only those.

  * `Edge` -- the graph on objects together with the mode they are examined in;
  * `search_covers` -- a search that fails has closed everything it marked;
  * `search_enough` -- the fuel that always suffices;
  * **`containsBinary_exact`** -- the walk ends, and finds a binary object exactly if one is
    reachable.
-/

namespace Smocket

/-! ## 1. The object graph -/

/-- What an object is to the serializer. -/
inductive ObjectKind where
  | arrayBuffer | view | blob | plain
  deriving DecidableEq

/-- A finite graph of objects. A value is an object or a primitive (`none`), functions being
    primitives here: `typeof` does not call them objects. -/
structure ObjectGraph (V : Type) where
  kind : V → ObjectKind
  /-- what the object's callable `toJSON`, if it has one, returns -/
  toJSON : V → Option (Option V)
  /-- `Object.values` -/
  values : V → List (Option V)

variable {V : Type}

namespace ObjectGraph

/-- The object is one the default parser keeps as binary. -/
def isBinary (G : ObjectGraph V) (v : V) : Bool :=
  decide (G.kind v = .arrayBuffer ∨ G.kind v = .view) || decide (G.kind v = .blob)

/-- **The edges**, between objects with the mode they are examined in (`true` is the normal one). -/
inductive Edge (G : ObjectGraph V) : V × Bool → V × Bool → Prop where
  | toJSON {v w : V} (h : G.toJSON v = some (some w)) : Edge G (v, true) (w, false)
  | value {v w : V} {inspectToJSON : Bool} (h : inspectToJSON = true → G.toJSON v = none)
      (hw : some w ∈ G.values v) : Edge G (v, inspectToJSON) (w, true)

/-- A binary object is reachable from the value. -/
def BinaryReachable (G : ObjectGraph V) (value : Option V) (inspectToJSON : Bool) : Prop :=
  ∃ v ∈ value, ∃ x, Relation.ReflTransGen G.Edge (v, inspectToJSON) x ∧ G.isBinary x.1 = true

end ObjectGraph

/-! ## 2. The search -/

section Search

variable (G : ObjectGraph V)

/-- The loop over the values of an object: up to the first with a binary. -/
def anyValue (visit : Option V → Finset V → Option (Bool × Finset V)) :
    List (Option V) → Finset V → Option (Bool × Finset V)
  | [], seen => some (false, seen)
  | nested :: rest, seen => do
      let (found, seen) ← visit nested seen
      if found then some (true, seen) else anyValue visit rest seen

/-- `containsBinary`, at most `n` calls deep; the result comes with the objects marked so far. -/
def containsBinary [DecidableEq V] : Nat → Option V → Finset V → Bool → Option (Bool × Finset V)
  | 0, _, _, _ => none
  | _ + 1, none, seen, _ => some (false, seen)
  | n + 1, some value, seen, inspectToJSON =>
      if G.isBinary value then some (true, seen)
      else
        match inspectToJSON, G.toJSON value with
        | true, some result => containsBinary n result seen false
        | _, _ =>
            if value ∈ seen then some (false, seen)
            else anyValue (fun nested seen => containsBinary n nested seen true) (G.values value)
              (insert value seen)

/-- The walk of an object that is examined by its values. -/
theorem containsBinary_values [DecidableEq V] {n : Nat} {v : V} {seen : Finset V} {m : Bool}
    (hb : G.isBinary v = false) (hm : m = true → G.toJSON v = none) :
    containsBinary G (n + 1) (some v) seen m =
      if v ∈ seen then some (false, seen)
      else anyValue (fun nested seen => containsBinary G n nested seen true) (G.values v)
        (insert v seen) := by
  cases m with
  | false => simp [containsBinary, hb]
  | true => simp [containsBinary, hb, hm rfl]

/-- The walk of an object that `toJSON` replaces. -/
theorem containsBinary_toJSON [DecidableEq V] {n : Nat} {v : V} {seen : Finset V}
    {result : Option V}
    (hb : G.isBinary v = false) (hr : G.toJSON v = some result) :
    containsBinary G (n + 1) (some v) seen true = containsBinary G n result seen false := by
  simp [containsBinary, hb, hr]

/-- How the walk of an object goes on: it is binary, or replaced, or examined by its values. -/
theorem walk_cases (v : V) (m : Bool) : G.isBinary v = true ∨ G.isBinary v = false ∧
    ((∃ result, m = true ∧ G.toJSON v = some result) ∨ (m = true → G.toJSON v = none)) := by
  cases G.isBinary v with
  | true => exact Or.inl rfl
  | false =>
      refine Or.inr ⟨rfl, ?_⟩
      cases m with
      | false => exact Or.inr nofun
      | true =>
          cases h : G.toJSON v with
          | none => exact Or.inr fun _ => rfl
          | some result => exact Or.inl ⟨result, rfl, rfl⟩

/-! ## 3. What is found is reachable -/

variable {G}

/-- What the loop finds is found at one of the values. -/
theorem anyValue_found {visit : Option V → Finset V → Option (Bool × Finset V)}
    {P : Option V → Prop}
    (hv : ∀ nested seen seen', visit nested seen = some (true, seen') → P nested) :
    ∀ (vs : List (Option V)) (seen seen' : Finset V),
      anyValue visit vs seen = some (true, seen') → ∃ nested ∈ vs, P nested := by
  intro vs
  induction vs with
  | nil => intro seen seen' h; simp [anyValue] at h
  | cons nested rest ih =>
      intro seen seen' h
      obtain ⟨⟨found, seen₁⟩, h₁, h⟩ := Option.bind_eq_some_iff.mp h
      cases found with
      | true => exact ⟨nested, List.mem_cons_self, hv nested seen seen₁ h₁⟩
      | false =>
          obtain ⟨w, hw, hp⟩ := ih seen₁ seen' h
          exact ⟨w, List.mem_cons_of_mem _ hw, hp⟩

theorem reachable_some {value : Option V} {m : Bool} (h : G.BinaryReachable value m) :
    ∃ v, value = some v :=
  h.imp fun _ h => h.1

/-- Where an edge leads to a binary object, one is reachable from its start. -/
theorem reachable_of_edge {v w : V} {m m' : Bool} (h : G.Edge (v, m) (w, m'))
    (hw : G.BinaryReachable (some w) m') : G.BinaryReachable (some v) m := by
  obtain ⟨w', hw', x, hx, hb⟩ := hw
  obtain rfl := Option.some.inj hw'
  exact ⟨v, rfl, x, hx.head h, hb⟩

/-- **A search that succeeds is right.** -/
theorem search_sound [DecidableEq V] (n : Nat) :
    ∀ {value : Option V} {seen seen' : Finset V} {m : Bool},
    containsBinary G n value seen m = some (true, seen') → G.BinaryReachable value m := by
  induction n with
  | zero => intro value seen seen' m h; cases h
  | succ n ih =>
      intro value seen seen' m h
      cases value with
      | none => simp [containsBinary] at h
      | some v =>
          rcases walk_cases G v m with hb | ⟨hb, ⟨result, rfl, hr⟩ | hm⟩
          · exact ⟨v, rfl, (v, m), .refl, hb⟩
          · rw [containsBinary_toJSON G hb hr] at h
            obtain ⟨w, rfl⟩ := reachable_some (ih h)
            exact reachable_of_edge (.toJSON hr) (ih h)
          · rw [containsBinary_values G hb hm] at h
            split at h
            · simp at h
            · obtain ⟨nested, hn, hreach⟩ := anyValue_found (fun _ _ _ h => ih h) _ _ _ h
              obtain ⟨w, rfl⟩ := reachable_some hreach
              exact reachable_of_edge (.value hm hn) hreach

/-! ## 4. What is not found is not reachable -/

/-- The value is accounted for, in the mode it is examined in: it is a primitive, or an object that
    is not binary and is marked, or replaced by such a one. -/
def Covered (G : ObjectGraph V) (seen : Finset V) (value : Option V) (m : Bool) : Prop :=
  ∀ v ∈ value, G.isBinary v = false ∧ ((m = true → G.toJSON v = none) → v ∈ seen) ∧
    ∀ w, m = true → G.toJSON v = some (some w) → G.isBinary w = false ∧ w ∈ seen

theorem covered_some {seen : Finset V} {v : V} {m : Bool} : Covered G seen (some v) m ↔
    G.isBinary v = false ∧ ((m = true → G.toJSON v = none) → v ∈ seen) ∧
      ∀ w, m = true → G.toJSON v = some (some w) → G.isBinary w = false ∧ w ∈ seen := by
  simp [Covered]

/-- The values of the object are accounted for. -/
def ValuesCovered (G : ObjectGraph V) (seen : Finset V) (v : V) : Prop :=
  ∀ nested ∈ G.values v, Covered G seen nested true

theorem Covered.mono {seen seen' : Finset V} {value : Option V} {m : Bool}
    (h : Covered G seen value m) (hs : seen ⊆ seen') : Covered G seen' value m := by
  intro v hv
  obtain ⟨hb, hmark, hrep⟩ := h v hv
  exact ⟨hb, fun hm => hs (hmark hm), fun w hm hw => (hrep w hm hw).imp_right fun h => hs h⟩

/-- What a search does to the marks. -/
structure Marks (G : ObjectGraph V) (seen seen' : Finset V) : Prop where
  grow : seen ⊆ seen'
  closed : ∀ v ∈ seen', v ∉ seen → ValuesCovered G seen' v

theorem Marks.refl (seen : Finset V) : Marks G seen seen :=
  ⟨subset_rfl, fun _ hv hn => absurd hv hn⟩

theorem Marks.trans {s₁ s₂ s₃ : Finset V} (h₁ : Marks G s₁ s₂) (h₂ : Marks G s₂ s₃) :
    Marks G s₁ s₃ := by
  refine ⟨h₁.grow.trans h₂.grow, fun v hv hn => ?_⟩
  by_cases hv₂ : v ∈ s₂
  · exact fun nested hm => (h₁.closed v hv₂ hn nested hm).mono h₂.grow
  · exact h₂.closed v hv hv₂

theorem anyValue_covers {visit : Option V → Finset V → Option (Bool × Finset V)}
    (hv : ∀ nested seen seen', visit nested seen = some (false, seen') →
      Marks G seen seen' ∧ Covered G seen' nested true) :
    ∀ (vs : List (Option V)) (seen seen' : Finset V), anyValue visit vs seen = some (false, seen') →
      Marks G seen seen' ∧ ∀ nested ∈ vs, Covered G seen' nested true := by
  intro vs
  induction vs with
  | nil =>
      intro seen seen' h
      simp only [anyValue, Option.some.injEq, Prod.mk.injEq, true_and] at h
      exact h ▸ ⟨.refl seen, fun _ hn => absurd hn List.not_mem_nil⟩
  | cons nested rest ih =>
      intro seen seen' h
      obtain ⟨⟨found, seen₁⟩, h₁, h⟩ := Option.bind_eq_some_iff.mp h
      cases found with
      | true => simp at h
      | false =>
          obtain ⟨hm₁, hc₁⟩ := hv nested seen seen₁ h₁
          obtain ⟨hm₂, hc₂⟩ := ih seen₁ seen' h
          refine ⟨hm₁.trans hm₂, fun w hw => ?_⟩
          rcases List.mem_cons.mp hw with rfl | hw
          · exact hc₁.mono hm₂.grow
          · exact hc₂ w hw

/-- **A search that fails has accounted for its value, and for the values of what it marked.** -/
theorem search_covers [DecidableEq V] (n : Nat) :
    ∀ {value : Option V} {seen seen' : Finset V} {m : Bool},
      containsBinary G n value seen m = some (false, seen') →
        Marks G seen seen' ∧ Covered G seen' value m := by
  induction n with
  | zero => intro value seen seen' m h; cases h
  | succ n ih =>
      intro value seen seen' m h
      cases value with
      | none =>
          simp only [containsBinary, Option.some.injEq, Prod.mk.injEq, true_and] at h
          exact h ▸ ⟨.refl seen, nofun⟩
      | some v =>
          rcases walk_cases G v m with hb | ⟨hb, ⟨result, rfl, hr⟩ | hm⟩
          · simp [containsBinary, hb] at h
          · rw [containsBinary_toJSON G hb hr] at h
            obtain ⟨hmarks, hcov⟩ := ih h
            refine ⟨hmarks, covered_some.mpr ⟨hb, fun hnone => absurd (hr.symm.trans (hnone rfl)) nofun,
              fun w _ hw => ?_⟩⟩
            obtain rfl := Option.some.inj (hr.symm.trans hw)
            obtain ⟨hbw, hmark, -⟩ := covered_some.mp hcov
            exact ⟨hbw, hmark nofun⟩
          · rw [containsBinary_values G hb hm] at h
            have hself : ∀ {s : Finset V}, v ∈ s → Covered G s (some v) m := fun hv =>
              covered_some.mpr ⟨hb, fun _ => hv,
                fun w hm' hw => absurd ((hm hm').symm.trans hw) nofun⟩
            split at h
            · rename_i hv
              simp only [Option.some.injEq, Prod.mk.injEq, true_and] at h
              exact h ▸ ⟨.refl seen, hself hv⟩
            · obtain ⟨hmarks, hcov⟩ := anyValue_covers (fun _ _ _ h => ih h) _ _ _ h
              have hv : v ∈ seen' := hmarks.grow (Finset.mem_insert_self v seen)
              refine ⟨⟨(Finset.subset_insert v seen).trans hmarks.grow, fun w hw hn => ?_⟩, hself hv⟩
              by_cases hwv : w = v
              · exact hwv ▸ hcov
              · exact hmarks.closed w hw (by simp [hwv, hn])

/-- From marks whose values are all accounted for, no binary object is reachable. -/
theorem covered_unreachable {seen : Finset V} (hs : ∀ v ∈ seen, ValuesCovered G seen v)
    {value : Option V} {m : Bool} (h : Covered G seen value m) : ¬ G.BinaryReachable value m := by
  rintro ⟨v, hv, x, hx, hb⟩
  suffices hcov : Covered G seen (some x.1) x.2 from
    absurd ((covered_some.mp hcov).1.symm.trans hb) nofun
  clear hb
  induction hx with
  | refl => exact hv ▸ h
  | tail _ he ih =>
      obtain ⟨-, hmark, hrep⟩ := covered_some.mp ih
      cases he with
      | toJSON hw =>
          obtain ⟨hbw, hmw⟩ := hrep _ rfl hw
          exact covered_some.mpr ⟨hbw, fun _ => hmw, nofun⟩
      | value hm hw => exact hs _ (hmark hm) _ hw

/-! ## 5. The search ends -/

theorem anyValue_ends (visit : Option V → Finset V → Option (Bool × Finset V)) {S : Finset V}
    (hv : ∀ nested seen, S ⊆ seen → ∃ found seen', visit nested seen = some (found, seen') ∧
      seen ⊆ seen') :
    ∀ (vs : List (Option V)) (seen : Finset V), S ⊆ seen → ∃ found seen',
      anyValue visit vs seen = some (found, seen') ∧ seen ⊆ seen' := by
  intro vs
  induction vs with
  | nil => exact fun seen _ => ⟨false, seen, rfl, subset_rfl⟩
  | cons nested rest ih =>
      intro seen hS
      obtain ⟨found, seen₁, h₁, hg₁⟩ := hv nested seen hS
      cases found with
      | true => exact ⟨true, seen₁, by simp [anyValue, h₁], hg₁⟩
      | false =>
          obtain ⟨found, seen₂, h₂, hg₂⟩ := ih seen₁ (hS.trans hg₁)
          exact ⟨found, seen₂, by simp [anyValue, h₁, h₂], hg₁.trans hg₂⟩

/-- The calls that may lie below a call with these marks: two for each object not marked yet, and
    one more for an object that `toJSON` may replace. -/
def depth [Fintype V] (seen : Finset V) (m : Bool) : Nat :=
  2 * (Fintype.card V - seen.card) + if m then 2 else 1

/-- **Enough calls are enough**, and none of them loses a mark. -/
theorem search_enough [Fintype V] [DecidableEq V] (n : Nat) :
    ∀ (value : Option V) (seen : Finset V) (m : Bool),
      depth seen m ≤ n → ∃ found seen', containsBinary G n value seen m = some (found, seen') ∧
        seen ⊆ seen' := by
  induction n with
  | zero =>
      intro value seen m hn
      cases m <;> simp [depth] at hn
  | succ n ih =>
      intro value seen m hn
      cases value with
      | none => exact ⟨false, seen, rfl, subset_rfl⟩
      | some v =>
          rcases walk_cases G v m with hb | ⟨hb, ⟨result, rfl, hr⟩ | hm⟩
          · exact ⟨true, seen, by simp [containsBinary, hb], subset_rfl⟩
          · rw [containsBinary_toJSON G hb hr]
            exact ih result seen false (by simp only [depth] at hn ⊢; simp at hn ⊢; omega)
          · rw [containsBinary_values G hb hm]
            split
            · exact ⟨false, seen, rfl, subset_rfl⟩
            · rename_i hv
              have hlt : seen.card < Fintype.card V := by
                rw [← Finset.card_univ]
                exact Finset.card_lt_card
                  (Finset.ssubset_univ_iff.mpr fun h => hv (h ▸ Finset.mem_univ v))
              obtain ⟨found, seen', h, hg⟩ := anyValue_ends (S := insert v seen)
                (fun nested seen => containsBinary G n nested seen true)
                (fun nested s hs => ih nested s true (by
                  have hcard := Finset.card_le_card hs
                  rw [Finset.card_insert_of_notMem hv] at hcard
                  simp only [depth] at hn ⊢
                  cases m <;> simp at hn ⊢ <;> omega)) (G.values v) _ subset_rfl
              exact ⟨found, seen', h, (Finset.subset_insert v seen).trans hg⟩

/-- **`containsBinary` ends and is exact**: with at least twice as many calls as there are objects,
    and two more, it returns whether a binary object is reachable. -/
theorem containsBinary_exact [Fintype V] [DecidableEq V] (G : ObjectGraph V) (value : Option V)
    (n : Nat) :
    ∃ found seen, containsBinary G (2 * Fintype.card V + 2 + n) value ∅ true = some (found, seen) ∧
      (found = true ↔ G.BinaryReachable value true) := by
  obtain ⟨found, seen, h, -⟩ := search_enough (G := G) (2 * Fintype.card V + 2 + n) value ∅ true
    (by simp [depth])
  refine ⟨found, seen, h, fun hf => search_sound _ (hf ▸ h), fun hreach => ?_⟩
  rw [← Bool.not_eq_false]
  rintro rfl
  obtain ⟨hmarks, hcov⟩ := search_covers _ h
  exact covered_unreachable (fun v hv => hmarks.closed v hv (Finset.notMem_empty v)) hcov hreach

/-- A `toJSON` result keeps a binary property of the original out, and is not replaced again. -/
example : (containsBinary (V := Fin 3)
    { kind := fun v => if v = 2 then .view else .plain
      toJSON := fun v => if v = 2 then none else some (some 1)
      values := fun v => if v = 0 then [some 2] else [none] } 8 (some 0) ∅ true).map Prod.fst =
    some false := by
  decide

end Search

end Smocket
